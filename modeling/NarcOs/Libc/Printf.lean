import NarcOs.Libc.FormatLaws
import Mathlib.Data.List.Flatten

/-!
# Formatted output and the C standard

A format string with its arguments is a list of pieces: the literal texts and
the directives with their values. For each piece there is the text that the
standard requires, padded to the field width, and the text that the code brings
out. They differ for the directives `c` and `s`, whose width is not used.
-/

namespace NarcOs
namespace Libc

variable {out : Out} {d : Directive} {args rest : List Arg}

-- ---------------------------------------------------------------------------
-- Pieces
-- ---------------------------------------------------------------------------

inductive Piece
  | literal (data : List UInt8)
  | directive (conversion : Conversion)

/-- The pieces of a format, where no directive is refused and each one finds an
argument of its type. -/
def pieces (format : List UInt8) (args : List Arg) : Option (List Piece) :=
  if format = [] then some []
  else
    match _h : format.dropWhile (· ≠ 37) with
    | [] => some [.literal (literal format)]
    | _ :: rest =>
      match convert (parseDirective rest).1 args with
      | none => none
      | some (.invalid, _) => none
      | some (conversion, args) =>
        (pieces (parseDirective rest).2 args).map fun l =>
          .literal (literal format) :: .directive conversion :: l
termination_by format.length
decreasing_by
  have hrest := length_rest _h
  have hdir := length_parseDirective rest
  omega

def padLeft (width : Nat) (text : List UInt8) : List UInt8 :=
  List.replicate (width - text.length) 32 ++ text

def Conversion.required : Conversion → List UInt8
  | .percent => [37]
  | .char width value => padLeft width [value]
  | .string width value => padLeft width value
  | .number value base uppercase negative pointer width zeroPad =>
    numberText (signText uppercase negative pointer)
      (numeral base (digitChar uppercase) value) width zeroPad
  | .invalid => []

def Conversion.plain : Conversion → List UInt8
  | .char _ value => [value]
  | .string _ value => value
  | conversion => conversion.required

/-- The width of a directive `c` or `s` asks for no padding. -/
def Conversion.Fits : Conversion → Prop
  | .char width value => width ≤ [value].length
  | .string width value => width ≤ value.length
  | _ => True

def Conversion.Fetched : Conversion → Prop
  | .number value base _ negative pointer width _ =>
    8 ≤ base ∧ value < 2 ^ 64 ∧ width ≤ intMax ∧ (negative = false ∨ pointer = false)
  | .invalid => False
  | _ => True

namespace Piece

def required : Piece → List UInt8
  | .literal data => data
  | .directive conversion => conversion.required

def plain : Piece → List UInt8
  | .literal data => data
  | .directive conversion => conversion.plain

def Fits : Piece → Prop
  | .literal _ => True
  | .directive conversion => conversion.Fits

def Fetched : Piece → Prop
  | .literal _ => True
  | .directive conversion => conversion.Fetched

end Piece

def emitPiece : Piece → Out → Option (Int × Out)
  | .literal data, out => some (emitIf (data ≠ []) data out)
  | .directive conversion, out => emitConversion conversion out

def emitAll : List Piece → Out → Option (Int × Out)
  | [], out => some (0, out)
  | p :: l, out => andThen (emitPiece p out) (emitAll l)

theorem pieces_last {format : List UInt8} (hne : format ≠ []) (hdrop : format.dropWhile (· ≠ 37) = []) :
    pieces format args = some [.literal (literal format)] := by
  rw [pieces, if_neg hne]
  split
  · rfl
  · rename_i h
    cases hdrop.symm.trans h

theorem pieces_next {format rest : List UInt8} {b : UInt8} (hne : format ≠ [])
    (hdrop : format.dropWhile (· ≠ 37) = b :: rest) : pieces format args =
      match convert (parseDirective rest).1 args with
      | none => none
      | some (.invalid, _) => none
      | some (conversion, args) => (pieces (parseDirective rest).2 args).map fun l =>
          .literal (literal format) :: .directive conversion :: l := by
  rw [pieces, if_neg hne]
  split
  · rename_i h
    cases hdrop.symm.trans h
  · rename_i h
    cases hdrop.symm.trans h
    rfl

theorem formatLoop_last {format : List UInt8} (hne : format ≠ []) (hdrop : format.dropWhile (· ≠ 37) = [])
    (out : Out) : formatLoop format args out =
      andThen (some (emitIf (literal format ≠ []) (literal format) out)) fun out => some (0, out) := by
  rw [formatLoop, if_neg hne]
  refine congrArg (andThen _) (funext fun out => ?_)
  split
  · rfl
  · rename_i h
    cases hdrop.symm.trans h

theorem formatLoop_next {format rest : List UInt8} {b : UInt8} (hne : format ≠ [])
    (hdrop : format.dropWhile (· ≠ 37) = b :: rest) (out : Out) : formatLoop format args out =
      andThen (some (emitIf (literal format ≠ []) (literal format) out)) fun out =>
        (convert (parseDirective rest).1 args).bind fun (conversion, args) =>
          andThen (emitConversion conversion out) fun out => formatLoop (parseDirective rest).2 args out := by
  rw [formatLoop, if_neg hne]
  refine congrArg (andThen _) (funext fun out => ?_)
  split
  · rename_i h
    cases hdrop.symm.trans h
  · rename_i h
    cases hdrop.symm.trans h
    rfl

theorem formatLoop_eq {format : List UInt8} {l : List Piece} (h : pieces format args = some l)
    (out : Out) : formatLoop format args out = emitAll l out := by
  induction hk : format.length using Nat.strong_induction_on generalizing format args l out with
  | _ k ih =>
    subst hk
    by_cases hnil : format = []
    · rw [pieces, if_pos hnil] at h
      rw [formatLoop, if_pos hnil]
      obtain rfl := Option.some.inj h
      rfl
    cases hdrop : format.dropWhile (· ≠ 37) with
    | nil =>
      rw [pieces_last hnil hdrop] at h
      obtain rfl := Option.some.inj h
      exact formatLoop_last hnil hdrop out
    | cons b rest =>
      have hlt := length_rest hdrop
      have hdir := length_parseDirective rest
      rw [pieces_next hnil hdrop] at h
      rw [formatLoop_next hnil hdrop]
      split at h
      · simp at h
      · simp at h
      · rename_i conversion args' hinvalid hconvert
        obtain ⟨tail, htail, rfl⟩ := Option.map_eq_some_iff.1 h
        refine congrArg (andThen _) (funext fun out => ?_)
        rw [hconvert, Option.bind_some]
        refine congrArg (andThen (emitConversion conversion out)) (funext fun out => ?_)
        exact ih _ (by omega) htail out rfl

-- ---------------------------------------------------------------------------
-- Fetching the arguments
-- ---------------------------------------------------------------------------

theorem unsignedArgument_lt {kind : LengthKind} {value : Nat}
    (h : unsignedArgument kind args = some (value, rest)) : value < 2 ^ 64 := by
  unfold unsignedArgument at h
  split at h
  all_goals simp only [Option.some.injEq, Prod.mk.injEq, reduceCtorEq] at h
  all_goals
    obtain ⟨rfl, -⟩ := h
    omega

theorem signedArgument_range {kind : LengthKind} {value : Int}
    (h : signedArgument kind args = some (value, rest)) : -2 ^ 63 ≤ value ∧ value < 2 ^ 63 := by
  unfold signedArgument at h
  split at h
  all_goals simp only [Option.some.injEq, Prod.mk.injEq, reduceCtorEq] at h
  · obtain ⟨rfl, -⟩ := h
    exact ⟨BitVec.le_toInt _, BitVec.toInt_lt⟩
  · obtain ⟨rfl, -⟩ := h
    exact ⟨BitVec.le_toInt _, BitVec.toInt_lt⟩
  · obtain ⟨rfl, -⟩ := h
    exact ⟨BitVec.le_toInt _, BitVec.toInt_lt⟩
  · rename_i v tail
    obtain ⟨rfl, -⟩ := h
    have hle := v.le_toInt
    have hlt := v.toInt_lt
    norm_num at hle hlt ⊢
    omega

theorem magnitude_eq {value : Int} (h : -2 ^ 63 ≤ value ∧ value < 2 ^ 63) :
    magnitude value = some value.natAbs := by
  rw [magnitude]
  split_ifs with hneg
  · have hnext : signed 64 (value + 1) = some (value + 1) := if_pos (by norm_num at h ⊢; omega)
    have hflip : signed 64 (-(value + 1)) = some (-(value + 1)) :=
      if_pos (by norm_num at h ⊢; omega)
    rw [hnext, Option.bind_some, hflip, Option.map_some]
    congr 1
    norm_num at h ⊢
    omega
  · congr 1
    omega

theorem le_unsignedBase (specifier : UInt8) : 8 ≤ unsignedBase specifier := by
  unfold unsignedBase
  split_ifs <;> omega

theorem convert_fetched {conversion : Conversion} (hne : conversion ≠ .invalid)
    (h : convert d args = some (conversion, rest)) : conversion.Fetched := by
  unfold convert at h
  split_ifs at h with h₁ h₂ h₃ h₄ h₅ h₆
  · obtain ⟨rfl, -⟩ := Prod.mk.inj (Option.some.inj h)
    trivial
  · split at h
    · obtain ⟨rfl, -⟩ := Prod.mk.inj (Option.some.inj h)
      trivial
    · simp at h
  · split at h
    · obtain ⟨rfl, -⟩ := Prod.mk.inj (Option.some.inj h)
      trivial
    · simp at h
  · rw [Option.bind_eq_some_iff] at h
    obtain ⟨⟨value, tail⟩, harg, h⟩ := h
    have hrange := signedArgument_range harg
    simp only [magnitude_eq hrange, Option.map_some, Option.some.injEq, Prod.mk.injEq] at h
    obtain ⟨rfl, -⟩ := h
    refine ⟨by omega, ?_, d.widthLe, .inr rfl⟩
    norm_num at hrange ⊢
    omega
  · rw [Option.map_eq_some_iff] at h
    obtain ⟨⟨value, tail⟩, harg, h⟩ := h
    obtain ⟨rfl, -⟩ := Prod.mk.inj h
    exact ⟨le_unsignedBase _, unsignedArgument_lt harg, d.widthLe, .inl rfl⟩
  · split at h
    · rename_i v tail
      obtain ⟨rfl, -⟩ := Prod.mk.inj (Option.some.inj h)
      exact ⟨by omega, v.isLt, d.widthLe, .inl rfl⟩
    · simp at h
  · obtain ⟨rfl, -⟩ := Prod.mk.inj (Option.some.inj h)
    exact absurd rfl hne

theorem pieces_fetched {format : List UInt8} {l : List Piece} (h : pieces format args = some l) :
    ∀ p ∈ l, p.Fetched := by
  induction hk : format.length using Nat.strong_induction_on generalizing format args l with
  | _ k ih =>
    subst hk
    rw [pieces] at h
    by_cases hnil : format = []
    · rw [if_pos hnil] at h
      obtain rfl := Option.some.inj h
      simp
    rw [if_neg hnil] at h
    split at h
    · obtain rfl := Option.some.inj h
      simp [Piece.Fetched]
    · rename_i b rest hdrop
      have hlt := length_rest hdrop
      have hdir := length_parseDirective rest
      split at h
      · simp at h
      · simp at h
      · rename_i conversion args' hinvalid hconvert
        obtain ⟨tail, htail, rfl⟩ := Option.map_eq_some_iff.1 h
        intro p hp
        rcases List.mem_cons.1 hp with rfl | hp
        · trivial
        rcases List.mem_cons.1 hp with rfl | hp
        · exact convert_fetched hinvalid hconvert
        · exact ih _ (by omega) htail rfl p hp

-- ---------------------------------------------------------------------------
-- Emission
-- ---------------------------------------------------------------------------

theorem length_plain_le (p : Piece) : p.plain.length ≤ p.required.length := by
  cases p with
  | literal data => exact le_rfl
  | directive conversion =>
    cases conversion <;> simp [Piece.plain, Piece.required, Conversion.plain,
      Conversion.required, padLeft]

theorem required_eq_plain {p : Piece} (h : p.Fits) : p.required = p.plain := by
  cases p with
  | literal data => rfl
  | directive conversion =>
    cases conversion with
    | char width value =>
      have hzero : width - [value].length = 0 := Nat.sub_eq_zero_of_le h
      simp only [Piece.required, Piece.plain, Conversion.required, Conversion.plain, padLeft, hzero]
      rfl
    | string width value =>
      have hzero : width - value.length = 0 := Nat.sub_eq_zero_of_le h
      simp only [Piece.required, Piece.plain, Conversion.required, Conversion.plain, padLeft, hzero]
      rfl
    | _ => rfl

theorem fits_of_length {p : Piece} (h : p.required.length = p.plain.length) : p.Fits := by
  cases p with
  | literal data => trivial
  | directive conversion =>
    cases conversion with
    | char width value =>
      simp [Piece.required, Piece.plain, Conversion.required, Conversion.plain, padLeft] at h
      exact Nat.le_of_sub_eq_zero h
    | string width value =>
      simp [Piece.required, Piece.plain, Conversion.required, Conversion.plain, padLeft] at h
      exact Nat.le_of_sub_eq_zero h
    | _ => trivial

/-- The code emits every piece without the padding of `c` and `s`. -/
theorem emitPiece_plain {p : Piece} (h : p.Fetched) (out : Out) :
    Emits out p.plain (emitPiece p out) := by
  cases p with
  | literal data =>
    have hemit := emitIf_emits (data ≠ []) data out
    have htext : (if decide (data ≠ []) then data else []) = data := by
      by_cases hd : data = [] <;> simp [hd]
    rwa [htext] at hemit
  | directive conversion =>
    cases conversion with
    | percent => exact emit_emits [37] out
    | char width value => exact emit_emits [value] out
    | string width value => exact emit_emits value out
    | number value base uppercase negative pointer width zeroPad =>
      obtain ⟨hb, hv, hw, hone⟩ := h
      exact emitNumber_emits hb hv hw uppercase hone zeroPad out
    | invalid => exact absurd h id

/-- A character or string that does not fit behind what precedes it is not begun. -/
theorem emitPiece_full {p : Piece} (h : ¬ p.Fits) (hfull : intMax < out.total + p.plain.length) :
    emitPiece p out = some (-1, out) := by
  cases p with
  | literal data => exact absurd trivial h
  | directive conversion =>
    cases conversion with
    | char width value => exact congrArg some (emit_full hfull)
    | string width value => exact congrArg some (emit_full hfull)
    | _ => exact absurd trivial h

theorem emitPiece_required {p : Piece} (h : p.Fetched)
    (hfit : out.total + p.plain.length ≤ intMax → p.Fits) :
    Emits out p.required (emitPiece p out) := by
  by_cases hp : p.Fits
  · rw [required_eq_plain hp]
    exact emitPiece_plain h out
  · have hfull := Nat.not_le.1 fun hle => hp (hfit hle)
    have hlength := length_plain_le p
    refine ⟨-1, out, emitPiece_full hp hfull, id, .inr ⟨rfl, ⟨[], List.nil_prefix, by simp⟩, ?_⟩⟩
    exact .inl (by omega)

def requiredText (l : List Piece) : List UInt8 := l.flatMap Piece.required

/-- Every `c` and `s` that is reached, and for whose own text there is room, has a
text as long as its width. -/
def WidthsMet (total : Nat) (l : List Piece) : Prop :=
  ∀ q p r, l = q ++ p :: r → total + (requiredText q).length + p.plain.length ≤ intMax → p.Fits

theorem emitAll_required {l : List Piece} (hl : ∀ p ∈ l, p.Fetched)
    (h : WidthsMet out.total l) : Emits out (requiredText l) (emitAll l out) := by
  induction l generalizing out with
  | nil => exact .nil out
  | cons p l ih =>
    have hp := emitPiece_required (hl p List.mem_cons_self) (h [] p l rfl)
    refine hp.andThen fun out' htotal => ih (fun x hx => hl x (List.mem_cons_of_mem p hx)) ?_
    intro q x r hq hle
    refine h (p :: q) x r (by rw [hq]; rfl) ?_
    rw [htotal] at hle
    simp only [requiredText, List.flatMap_cons, List.length_append] at hle ⊢
    omega

theorem emitAll_append (l l' : List Piece) (out : Out) :
    emitAll (l ++ l') out = andThen (emitAll l out) (emitAll l') := by
  induction l generalizing out with
  | nil => simp [emitAll, andThen]
  | cons p l ih =>
    rw [List.cons_append, emitAll, emitAll]
    cases emitPiece p out with
    | none => rfl
    | some r =>
      obtain ⟨result, out'⟩ := r
      by_cases hr : result = 0
      · simp [andThen, hr, ih]
      · simp [andThen, hr]

def File.start (stream : File) : Out := ⟨stream, 0, Nat.zero_le _⟩

/-- What the standard requires of `__stdio_format` for a format and arguments
whose pieces are `l`: of each piece that is reached, and of the whole. -/
structure FormatRight (format : CString) (args : List Arg) (l : List Piece) : Prop where
  each : ∀ (stream : File) q p r out, l = q ++ p :: r → emitAll q stream.start = some (0, out) →
    Emits out p.required (emitPiece p out)
  result : ∀ stream : File, ∃ result stream', stdioFormat format args stream = some (result, stream') ∧
    (result = (requiredText l).length ∧ (requiredText l).length ≤ intMax ∧
        stream'.text = stream.text ++ requiredText l ∨
      result = -1 ∧ (intMax < (requiredText l).length ∨ ¬ stream.Good))

theorem toInt_total (out : Out) : (BitVec.ofNat 32 out.total).toInt = out.total := by
  have h := out.totalLe
  unfold intMax at h
  rw [BitVec.toInt_eq_toNat_of_lt] <;> simp <;> omega

theorem Emits.success {text : List UInt8} {x : Option (Int × Out)} (h : Emits out text x)
    (hgood : out.stream.Good) (hle : out.total + text.length ≤ intMax) :
    ∃ out', x = some (0, out') ∧ out'.stream.Good ∧ out'.total = out.total + text.length := by
  obtain ⟨result, out', rfl, hg, ⟨rfl, -, htotal⟩ | ⟨rfl, -, hwhy⟩⟩ := h
  · exact ⟨out', rfl, hg hgood, htotal⟩
  · exact absurd hwhy (by simp [hgood, hle])

/-- The output is what the standard requires exactly when the widths of `c` and
`s` ask for no padding. -/
theorem stdioFormat_right_iff (format : CString) (args : List Arg) (l : List Piece)
    (h : pieces format.bytes args = some l) :
    FormatRight format args l ↔ WidthsMet 0 l := by
  have hl := pieces_fetched h
  constructor
  · intro hright q p r hq hle
    have hgood : (⟨true, false, [], []⟩ : File).Good := ⟨rfl, by simp⟩
    -- the pieces before `p` go out whole
    have hbefore : ∀ q' r', q = q' ++ r' → ∃ out, emitAll q' (File.start ⟨true, false, [], []⟩) =
        some (0, out) ∧ out.stream.Good ∧ out.total = (requiredText q').length := by
      intro q'
      induction q' using List.reverseRecOn with
      | nil => exact fun r' _ => ⟨_, rfl, hgood, rfl⟩
      | append_singleton q' x ih =>
        intro r' hr'
        rw [List.append_assoc] at hr'
        obtain ⟨out, hout, hg, htotal⟩ := ih _ hr'
        have hsplit : l = q' ++ x :: (r' ++ p :: r) := by
          rw [hq, hr']
          simp
        have hx := hright.each _ q' x _ out hsplit hout
        have hroom : out.total + x.required.length ≤ intMax := by
          have hlen := congrArg (fun l => (requiredText l).length) hr'
          simp only [requiredText, List.flatMap_append, List.flatMap_cons, List.length_append,
            List.flatMap_nil] at hlen htotal hle
          omega
        obtain ⟨out', hout', hg', htotal'⟩ := hx.success hg hroom
        refine ⟨out', ?_, hg', ?_⟩
        · rw [emitAll_append, hout]
          simp [andThen, emitAll, hout']
        · simp only [requiredText, List.flatMap_append, List.flatMap_cons, List.length_append,
            List.flatMap_nil, List.append_nil] at htotal ⊢
          omega
    obtain ⟨out, hout, hg, htotal⟩ := hbefore q [] (by simp)
    have hp := hright.each _ q p r out hq hout
    have hplain := emitPiece_plain (hl p (by simp [hq])) out
    obtain ⟨out', hout', -, htotal'⟩ := hplain.success hg (by omega)
    obtain ⟨result, out'', hsame, -, ⟨-, -, htotal''⟩ | ⟨rfl, -⟩⟩ := hp
    · obtain ⟨-, rfl⟩ := Prod.mk.inj (Option.some.inj (hout'.symm.trans hsame))
      exact fits_of_length (by omega)
    · rw [hout'] at hsame
      simp at hsame
  · intro hmet
    have hall := fun stream : File => @emitAll_required stream.start _ hl hmet
    refine ⟨fun stream q p r out hq hout => ?_, fun stream => ?_⟩
    · have hqmet : WidthsMet 0 q := fun q' x r' hq' hle =>
        hmet q' x (r' ++ p :: r) (by rw [hq, hq']; simp) hle
      have hqall := @emitAll_required stream.start q
        (fun x hx => hl x (by simp [hq, hx])) hqmet
      obtain ⟨result, out', hout', -, ⟨rfl, -, htotal⟩ | ⟨rfl, -⟩⟩ := hqall
      · obtain ⟨-, rfl⟩ := Prod.mk.inj (Option.some.inj (hout.symm.trans hout'))
        refine emitPiece_required (hl p (by simp [hq])) fun hle => hmet q p r hq ?_
        rw [htotal] at hle
        exact hle
      · rw [hout] at hout'
        simp at hout'
    · obtain ⟨result, out', hout, -, hrest⟩ := hall stream
      have hloop : formatLoop format.bytes args ⟨stream, 0, Nat.zero_le _⟩ =
          some (result, out') := (formatLoop_eq h _).trans hout
      rw [stdioFormat, hloop]
      refine ⟨_, _, rfl, ?_⟩
      rcases hrest with ⟨rfl, htext, htotal⟩ | ⟨rfl, -, hwhy⟩
      · have hle := out'.totalLe
        have hzero : stream.start.total = 0 := rfl
        rw [hzero, Nat.zero_add] at htotal
        refine .inl ⟨?_, by omega, htext⟩
        rw [if_neg (by simp), toInt_total, htotal]
      · refine .inr ⟨by simp, hwhy.imp_left fun h => ?_⟩
        simpa [File.start] using h

theorem pieces_one {rest : List UInt8} {args left : List Arg} {conversion : Conversion}
    (hconvert : convert (parseDirective rest).1 args = some (conversion, left)) (hvalid : conversion ≠ .invalid)
    (hend : (parseDirective rest).2 = []) :
    pieces (37 :: rest) args = some [.literal [], .directive conversion] := by
  have hnone : pieces [] left = some [] := by
    rw [pieces, if_pos rfl]
  have hdrop : (37 :: rest).dropWhile (· ≠ 37) = 37 :: rest := rfl
  rw [pieces, if_neg (List.cons_ne_nil _ _)]
  split
  · rename_i h
    cases hdrop.symm.trans h
  · rename_i b tail h
    obtain ⟨rfl, rfl⟩ := List.cons.inj (hdrop.symm.trans h)
    rw [hconvert]
    cases conversion with
    | invalid => exact absurd rfl hvalid
    | _ =>
      simp only [hend, hnone, Option.map_some]
      rfl

def wideChar : CString := ⟨[37, 53, 99], by decide⟩

def wideCharPieces : List Piece := [.literal [], .directive (.char 5 97)]

theorem pieces_wideChar : pieces wideChar.bytes [.int 97] = some wideCharPieces :=
  pieces_one rfl (by simp) rfl

def twoString : CString := ⟨[37, 50, 115], by decide⟩

def twoStringPieces : List Piece := [.literal [], .directive (.string 2 [47, 97])]

theorem pieces_twoString :
    pieces twoString.bytes [.string (some ⟨[47, 97], CString.noNul_slash_a⟩)] = some twoStringPieces :=
  pieces_one rfl (by simp) rfl

/-- Too wide a character, and a string as long as its width. -/
theorem stdioFormat_right_widths :
    ¬ FormatRight wideChar [.int 97] wideCharPieces ∧
      FormatRight twoString [.string (some ⟨[47, 97], CString.noNul_slash_a⟩)] twoStringPieces := by
  constructor
  · rw [stdioFormat_right_iff wideChar [.int 97] wideCharPieces pieces_wideChar]
    intro hmet
    have hfits : (5 : Nat) ≤ 1 := hmet [.literal []] (.directive (.char 5 97)) [] rfl (by decide)
    exact absurd hfits (by decide)
  · refine (stdioFormat_right_iff _ _ twoStringPieces pieces_twoString).mpr fun q p r hq _ => ?_
    have hp : p ∈ twoStringPieces := hq ▸ List.mem_append_right q List.mem_cons_self
    simp only [twoStringPieces, List.mem_cons, List.not_mem_nil, or_false] at hp
    rcases hp with rfl | rfl
    · trivial
    · exact le_rfl

/-- `printf("%5c", 'a')` writes one byte. -/
theorem stdioFormat_wrong : ¬ ∀ (format : CString) (args : List Arg) (l : List Piece),
    pieces format.bytes args = some l → FormatRight format args l := by
  intro hall
  obtain ⟨result, stream', hout, hright⟩ :=
    (hall wideChar [.int 97] wideCharPieces pieces_wideChar).result ⟨true, false, [], []⟩
  have hwrites : stdioFormat wideChar [.int 97] ⟨true, false, [], []⟩ =
      some (1, ⟨true, false, [97], []⟩) := by
    rw [stdioFormat, formatLoop_eq pieces_wideChar]
    rfl
  obtain ⟨rfl, -⟩ := Prod.mk.inj (Option.some.inj (hwrites.symm.trans hout))
  rcases hright with ⟨hlength, -⟩ | ⟨hminus, -⟩
  · exact absurd hlength (by decide)
  · exact absurd hminus (by decide)

-- ---------------------------------------------------------------------------
-- Reading the numbers back
-- ---------------------------------------------------------------------------

/-- One of `d`, `i`, `u`, `o`, `x`, `X` and `p`. -/
def Directive.Numeric (d : Directive) : Prop :=
  d.specifier ∈ ([100, 105, 117, 111, 120, 88, 112] : List UInt8)

def Directive.argument (d : Directive) (args : List Arg) : Option (Int × List Arg) :=
  if d.specifier = 100 ∨ d.specifier = 105 then signedArgument d.length args
  else if d.specifier = 112 then
    match args with
    | .pointer value :: rest => some (value.toNat, rest)
    | _ => none
  else (unsignedArgument d.length args).map fun r => (r.1, r.2)

def Directive.base (d : Directive) : Nat :=
  if d.specifier = 111 then 8
  else if d.specifier = 120 ∨ d.specifier = 88 ∨ d.specifier = 112 then 16
  else 10

def digitValue (b : UInt8) : Nat :=
  if b.toNat < 58 then b.toNat - 48 else if b.toNat < 97 then b.toNat - 55 else b.toNat - 87

structure NumberText (d : Directive) (value : Int) (text sign pad digits : List UInt8) :
    Prop where
  text_eq : text = if d.zeroPad then sign ++ pad ++ digits else pad ++ sign ++ digits
  sign_eq : sign = if value < 0 then [45] else if d.specifier = 112 then [48, 120] else []
  pad_eq : ∀ b ∈ pad, b = if d.zeroPad then 48 else 32
  digit : ∀ b ∈ digits, ∃ k < d.base, b = digitChar (d.specifier = 88) k
  value_eq : value = if value < 0 then -(denotes d.base digitValue digits : Int)
    else denotes d.base digitValue digits
  nonempty : digits ≠ []
  noLeadingZero : digits.head? = some 48 → digits = [48]
  lengthLe : digits.length ≤ 32
  length_eq : text.length = max d.width (sign.length + digits.length)

theorem digitValue_digitChar (uppercase : Bool) {k : Nat} (h : k < 16) :
    digitValue (digitChar uppercase k) = k := by
  cases uppercase <;> interval_cases k <;> rfl

theorem numberText_right {d : Directive} {value : Int} (hv : value.natAbs < 2 ^ 64)
    (hsign : value < 0 → d.specifier ≠ 112) :
    let sign := signText (d.specifier = 88) (value < 0) (d.specifier = 112)
    let digits := numeral d.base (digitChar (d.specifier = 88)) value.natAbs
    ∃ pad, NumberText d value (numberText sign digits d.width d.zeroPad) sign pad digits := by
  intro sign digits
  have hb : 8 ≤ d.base ∧ d.base ≤ 16 := by
    unfold Directive.base
    split_ifs <;> omega
  have hdigit : ∀ k < d.base, digitValue (digitChar (d.specifier = 88) k) = k :=
    fun k hk => digitValue_digitChar _ (by omega)
  have hdenotes : denotes d.base digitValue digits = value.natAbs :=
    denotes_numeral (by omega) hdigit
  have hlength : digits.length ≤ 22 := by
    simpa [digits, numeral] using length_lowDigits_base hb.1 hv
  refine ⟨List.replicate (d.width - (sign.length + digits.length)) (if d.zeroPad then 48 else 32),
    ?_, ?_, fun b hb => List.eq_of_mem_replicate hb, ?_, ?_, numeral_ne_nil, ?_, by omega, ?_⟩
  · unfold numberText
    split_ifs <;> rfl
  · by_cases hneg : value < 0
    · simp [sign, signText, hneg]
    · by_cases hp : d.specifier = 112
      · simp [sign, signText, hneg, hp]
      · simp [sign, signText, hneg, hp]
  · exact fun b hb => mem_numeral (by omega) hb
  · rw [hdenotes]
    split_ifs <;> omega
  · exact numeral_head (by omega) hdigit
  · unfold numberText
    split_ifs <;> simp <;> omega

theorem convert_number {value : Int} (hd : d.Numeric)
    (harg : d.argument args = some (value, rest)) :
    value.natAbs < 2 ^ 64 ∧ (value < 0 → d.specifier ≠ 112) ∧
      convert d args = some (.number value.natAbs d.base (d.specifier = 88) (value < 0)
        (d.specifier = 112) d.width d.zeroPad, rest) := by
  unfold Directive.argument at harg
  unfold convert
  by_cases hs : d.specifier = 100 ∨ d.specifier = 105
  · rw [if_pos hs] at harg
    have hrange := signedArgument_range harg
    have hne : d.specifier ≠ 37 ∧ d.specifier ≠ 99 ∧ d.specifier ≠ 115 ∧ d.specifier ≠ 88 ∧
        d.specifier ≠ 112 ∧ d.base = 10 := by
      unfold Directive.base
      rcases hs with hs | hs <;> rw [hs] <;> decide
    obtain ⟨h₁, h₂, h₃, h₄, h₅, hbase⟩ := hne
    refine ⟨by norm_num at hrange ⊢; omega, fun _ => h₅, ?_⟩
    rw [if_neg h₁, if_neg h₂, if_neg h₃, if_pos hs, harg, hbase]
    simp [magnitude_eq hrange, h₄, h₅]
  rw [if_neg hs] at harg
  by_cases hp : d.specifier = 112
  · rw [if_pos hp] at harg
    split at harg
    · rename_i v tail
      obtain ⟨rfl, rfl⟩ := Prod.mk.inj (Option.some.inj harg)
      have hlt := v.isLt
      have hbase : d.base = 16 := by simp [Directive.base, hp]
      have hneg : ¬ (v.toNat : Int) < 0 := by omega
      refine ⟨by simpa using hlt, fun h => absurd h hneg, ?_⟩
      simp [hp, hbase, hneg]
    · simp at harg
  · rw [if_neg hp, Option.map_eq_some_iff] at harg
    obtain ⟨⟨v, tail⟩, hv, he⟩ := harg
    obtain ⟨rfl, rfl⟩ := Prod.mk.inj he
    have hlt := unsignedArgument_lt hv
    have hneg : ¬ (v : Int) < 0 := by omega
    have hu : d.specifier = 117 ∨ d.specifier = 111 ∨ d.specifier = 120 ∨ d.specifier = 88 := by
      simp only [Directive.Numeric, List.mem_cons, List.not_mem_nil, or_false] at hd
      tauto
    have hne : d.specifier ≠ 37 ∧ d.specifier ≠ 99 ∧ d.specifier ≠ 115 ∧
        unsignedBase d.specifier = d.base := by
      unfold Directive.base
      rcases hu with h | h | h | h <;> rw [h] <;> decide
    obtain ⟨h₁, h₂, h₃, hbase⟩ := hne
    refine ⟨by simpa using hlt, fun h => absurd h hneg, ?_⟩
    rw [if_neg h₁, if_neg h₂, if_neg h₃, if_neg hs, if_pos hu, hv, hbase]
    simp [hneg, hp]

/-- A numeric directive is carried out without undefined behaviour, and where it
returns 0 it has written its argument. -/
theorem emitNumber_denotes (d : Directive) (args rest : List Arg) (value : Int) (out : Out)
    (hd : d.Numeric) (harg : d.argument args = some (value, rest)) :
    ∃ conversion result out', convert d args = some (conversion, rest) ∧
      emitConversion conversion out = some (result, out') ∧
        (result = 0 → ∃ text sign pad digits, out'.stream.text = out.stream.text ++ text ∧
          NumberText d value text sign pad digits) := by
  obtain ⟨hv, hsign, hconvert⟩ := convert_number hd harg
  have hb : 8 ≤ d.base := by
    unfold Directive.base
    split_ifs <;> omega
  have hone : decide (value < 0) = false ∨ decide (d.specifier = 112) = false := by
    by_cases hneg : value < 0
    · exact .inr (by simpa using hsign hneg)
    · exact .inl (by simpa using hneg)
  obtain ⟨pad, hright⟩ := numberText_right hv hsign
  obtain ⟨result, out', hout, -, hrest⟩ :=
    emitNumber_emits hb hv d.widthLe (d.specifier = 88) hone d.zeroPad out
  refine ⟨_, result, out', hconvert, hout, fun hr => ?_⟩
  rcases hrest with ⟨-, htext, -⟩ | ⟨hminus, -⟩
  · exact ⟨_, _, pad, _, htext, hright⟩
  · exact absurd (hr.symm.trans hminus) (by decide)

/-- `%06d` on the smallest `int`. -/
theorem emitNumber_denotes_min :
    ∃ conversion out', convert ⟨true, 6, by decide, .int, 100⟩ [.int (.intMin 32)] = some (conversion, []) ∧
      emitConversion conversion (File.start ⟨true, false, [], []⟩) = some (0, out') ∧
        ∃ text sign pad digits, out'.stream.text = [] ++ text ∧
          NumberText ⟨true, 6, by decide, .int, 100⟩ (-2 ^ 31) text sign pad digits := by
  obtain ⟨conversion, result, out', hconvert, hemit, hright⟩ :=
    emitNumber_denotes ⟨true, 6, by decide, .int, 100⟩ [.int (.intMin 32)] [] (-2 ^ 31)
      (File.start ⟨true, false, [], []⟩) (by simp [Directive.Numeric]) rfl
  have hzero : (emitConversion (.number (2 ^ 31) 10 false true false 6 true)
      (File.start ⟨true, false, [], []⟩)).map Prod.fst = some 0 := by decide +kernel
  have hconversion : conversion = .number (2 ^ 31) 10 false true false 6 true :=
    congrArg Prod.fst (Option.some.inj (hconvert.symm.trans rfl))
  rw [← hconversion, hemit] at hzero
  obtain rfl : result = 0 := Option.some.inj hzero
  exact ⟨conversion, out', hconvert, hemit, hright rfl⟩

end Libc
end NarcOs
