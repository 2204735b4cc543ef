import NarcOs.Lib.Numeral
import NarcOs.Libc.Stdio
import Mathlib.Tactic.Common

/-!
# What formatted output writes

Every function that emits is described by the one text it is to bring out:
`Emits` holds of a call that writes the text, or stops in it for want of room or
because a call of `write` failed. Calls in sequence emit their texts in
sequence.
-/

namespace NarcOs
namespace Libc

variable {out out' : Out} {a b text data : List UInt8} {x : Option (Int × Out)}
  {next : Out → Option (Int × Out)}

/-- No call of `write` is to fail. -/
def File.Good (stream : File) : Prop :=
  stream.writable = true ∧ ∀ answer ∈ stream.answers, answer ≠ .failed

structure Emitted (out : Out) (text : List UInt8) (result : Int) (out' : Out) : Prop where
  good : out.stream.Good → out'.stream.Good
  outcome :
    result = 0 ∧ out'.stream.text = out.stream.text ++ text ∧
        out'.total = out.total + text.length ∨
      result = -1 ∧ (∃ part, part <+: text ∧ out'.stream.text = out.stream.text ++ part) ∧
        (intMax < out.total + text.length ∨ ¬ out.stream.Good)

def Emits (out : Out) (text : List UInt8) (x : Option (Int × Out)) : Prop :=
  ∃ result out', x = some (result, out') ∧ Emitted out text result out'

theorem Emits.nil (out : Out) : Emits out [] (some (0, out)) :=
  ⟨0, out, rfl, id, .inl ⟨rfl, by simp, by simp⟩⟩

theorem Emits.andThen (h : Emits out a x)
    (hnext : ∀ out', out'.total = out.total + a.length → Emits out' b (next out')) :
    Emits out (a ++ b) (andThen x next) := by
  obtain ⟨result, out₁, rfl, hgood, ⟨rfl, htext, htotal⟩ | ⟨rfl, ⟨part, hpart, htext⟩, hwhy⟩⟩ := h
  · obtain ⟨result, out₂, h₂, hgood₂, hrest⟩ := hnext out₁ htotal
    refine ⟨result, out₂, by simpa [Libc.andThen] using h₂, hgood₂ ∘ hgood, ?_⟩
    rcases hrest with ⟨rfl, htext₂, htotal₂⟩ | ⟨rfl, ⟨part, hpart, htext₂⟩, hwhy⟩
    · refine .inl ⟨rfl, by rw [htext₂, htext, List.append_assoc], ?_⟩
      rw [htotal₂, htotal, List.length_append]
      omega
    · refine .inr ⟨rfl, ⟨a ++ part, (List.prefix_append_right_inj a).2 hpart, ?_⟩, ?_⟩
      · rw [htext₂, htext, List.append_assoc]
      · refine hwhy.imp (fun h => ?_) (fun h hg => h (hgood hg))
        rw [List.length_append]
        omega
  · refine ⟨-1, out₁, by simp [Libc.andThen], hgood, .inr ⟨rfl, ⟨part, ?_, htext⟩, ?_⟩⟩
    · exact hpart.trans (List.prefix_append a b)
    · refine hwhy.imp_left fun h => ?_
      rw [List.length_append]
      omega

theorem Emits.then (h : Emits out a x) (hnext : ∀ out', Emits out' b (next out')) :
    Emits out (a ++ b) (Libc.andThen x next) :=
  h.andThen fun out' _ => hnext out'

-- ---------------------------------------------------------------------------
-- Streams
-- ---------------------------------------------------------------------------

theorem writeLoop_spec (answers : List Answer) (data : List UInt8) :
    (writeLoop answers data).1 <+: data ∧
      ((writeLoop answers data).1 = data ∨ .failed ∈ answers) ∧
      ∀ answer ∈ (writeLoop answers data).2.1, answer ∈ answers := by
  fun_induction writeLoop answers data with
  | case1 answers => simp
  | case2 b data => simp
  | case3 answers b data ih =>
    refine ⟨ih.1, ih.2.1.imp_right (List.mem_cons_of_mem _), fun x hx => ?_⟩
    exact List.mem_cons_of_mem _ (ih.2.2 x hx)
  | case4 answers b data =>
    exact ⟨List.nil_prefix, .inr (List.mem_cons_self), fun x hx => List.mem_cons_of_mem _ hx⟩
  | case5 more answers b data taken rest hrec ih =>
    rw [hrec] at ih
    obtain ⟨hstart, hwhole, hanswers⟩ := ih
    refine ⟨?_, ?_, fun x hx => List.mem_cons_of_mem _ (hanswers x hx)⟩
    · rw [List.cons_append, List.cons_prefix_cons]
      refine ⟨rfl, ?_⟩
      nth_rewrite 2 [← List.take_append_drop more data]
      exact (List.prefix_append_right_inj _).2 hstart
    · rcases hwhole with htaken | hfail
      · left
        have htaken : taken = data.drop more := htaken
        rw [htaken, List.cons_append, List.take_append_drop]
      · exact .inr (List.mem_cons_of_mem _ hfail)

theorem fwrite_spec (data : List UInt8) (stream : File) :
    ∃ part, part <+: data ∧ (fwrite data stream).1 = part.length ∧
      (fwrite data stream).2.text = stream.text ++ part ∧
      (part ≠ data → ¬ stream.Good) ∧ (stream.Good → (fwrite data stream).2.Good) := by
  by_cases hw : stream.writable = true
  swap
  · refine ⟨[], List.nil_prefix, by simp [fwrite, hw], by simp [fwrite, hw], ?_, ?_⟩
    · exact fun _ hg => hw hg.1
    · exact fun hg => absurd hg.1 hw
  obtain ⟨hstart, hwhole, hanswers⟩ := writeLoop_spec stream.answers data
  refine ⟨_, hstart, by simp [fwrite, hw], by simp [fwrite, hw], fun hne hg => ?_, fun hg => ?_⟩
  · exact hg.2 _ (hwhole.resolve_left hne) rfl
  · refine ⟨by simp [fwrite, hw], fun x hx => hg.2 x (hanswers x ?_)⟩
    simpa [fwrite, hw] using hx

theorem emit_emits (data : List UInt8) (out : Out) : Emits out data (some (emit data out)) := by
  obtain ⟨part, hstart, hlength, htext, hbad, hgood⟩ := fwrite_spec data out.stream
  have htotal := out.totalLe
  unfold emit
  by_cases hroom : data.length > intMax - out.total
  · rw [dif_pos hroom]
    refine ⟨-1, out, rfl, id, .inr ⟨rfl, ⟨[], List.nil_prefix, by simp⟩, .inl (by omega)⟩⟩
  rw [dif_neg hroom]
  generalize fwrite data out.stream = w at hlength htext hgood
  obtain ⟨written, stream⟩ := w
  simp only at hlength htext hgood ⊢
  by_cases hw : written ≠ data.length
  · rw [if_pos hw]
    refine ⟨-1, _, rfl, hgood, .inr ⟨rfl, ⟨part, hstart, htext⟩, .inr (hbad ?_)⟩⟩
    rintro rfl
    exact hw hlength
  · rw [if_neg hw]
    have hpart : part = data := hstart.eq_of_length (by omega)
    exact ⟨0, _, rfl, hgood, .inl ⟨rfl, hpart ▸ htext, rfl⟩⟩

theorem emit_full (h : intMax < out.total + data.length) : emit data out = (-1, out) := by
  have htotal := out.totalLe
  rw [emit, dif_pos (by omega)]

theorem emitIf_emits (condition : Bool) (data : List UInt8) (out : Out) :
    Emits out (if condition then data else []) (some (emitIf condition data out)) := by
  cases condition with
  | false => exact .nil out
  | true => exact emit_emits data out

-- ---------------------------------------------------------------------------
-- Numbers
-- ---------------------------------------------------------------------------

theorem emitEach_emits (l : List UInt8) (out : Out) : Emits out l (some (emitEach l out)) := by
  induction l generalizing out with
  | nil => exact .nil out
  | cons b l ih =>
    have h := (emit_emits [b] out).then fun out => ih out
    have heq : some (emitEach (b :: l) out) =
        andThen (some (emit [b] out)) fun out => some (emitEach l out) := by
      rw [emitEach, andThen, Option.bind_some]
      split_ifs with hr
      · simp [hr]
      · simp [hr]
    rw [heq]
    exact h

theorem padLoop_emits (padding : UInt8) {need width : Int} (hn : 0 ≤ need) (hw : width ≤ intMax)
    (out : Out) : Emits out (List.replicate (width - need).toNat padding)
      (padLoop padding need width out) := by
  induction hk : (width - need).toNat generalizing width out with
  | zero =>
    rw [padLoop, if_neg (by omega)]
    exact .nil out
  | succ k ih =>
    have hsigned : signed 32 (width - 1) = some (width - 1) :=
      if_pos (by unfold intMax at hw; norm_num; omega)
    have hrest : ∀ out, Emits out (List.replicate k padding) (padLoop padding need (width - 1) out) :=
      fun out => ih (by omega) out (by omega)
    have h := (emit_emits [padding] out).then hrest
    have heq : padLoop padding need width out =
        andThen (some (emit [padding] out)) (padLoop padding need (width - 1)) := by
      rw [padLoop, if_pos (by omega), andThen, Option.bind_some, hsigned]
    rw [heq, List.replicate_succ]
    exact h

theorem padIf_emits (condition : Bool) (padding : UInt8) {need width : Int} (hn : 0 ≤ need)
    (hw : width ≤ intMax) (out : Out) :
    Emits out (if condition then List.replicate (width - need).toNat padding else [])
      (padIf condition padding need width out) := by
  cases condition with
  | false => exact .nil out
  | true => exact padLoop_emits padding hn hw out

theorem digitLoop_eq {base : Nat} (hb : 1 < base) (uppercase : Bool) {value : Nat}
    {buffer : List UInt8} (h : buffer.length + (lowDigits base value).length ≤ 32) :
    digitLoop base uppercase value buffer =
      some (buffer ++ (lowDigits base value).map (digitChar uppercase)) := by
  induction value using Nat.strong_induction_on generalizing buffer with
  | _ value ih =>
    have hne : (lowDigits base value).length ≠ 0 := by simp [lowDigits_ne_nil]
    rw [digitLoop, if_pos (by omega)]
    by_cases hlt : value < base
    · simp [Nat.div_eq_of_lt hlt, Nat.mod_eq_of_lt hlt, lowDigits_of_lt hlt]
    · have hlow := lowDigits_of_le hb (Nat.not_lt.1 hlt)
      have hq : value / base ≠ 0 := (Nat.div_pos (Nat.not_lt.1 hlt) (by omega)).ne'
      have hdiv : value / base < value := Nat.div_lt_self (by omega) hb
      rw [hlow] at h ⊢
      simp only [hq, if_false]
      rw [ih _ hdiv (by rw [List.length_append]; simp at h ⊢; omega)]
      simp

/-- The text of a number: the sign or the prefix, the padding before or behind
it, and the digits. -/
def numberText (sign digits : List UInt8) (width : Nat) (zeroPad : Bool) : List UInt8 :=
  let missing := width - (sign.length + digits.length)
  if zeroPad then sign ++ List.replicate missing 48 ++ digits
  else List.replicate missing 32 ++ sign ++ digits

def signText (uppercase negative pointer : Bool) : List UInt8 :=
  if negative then [45] else if pointer then if uppercase then [48, 88] else [48, 120] else []

theorem marker_eq (uppercase negative pointer : Bool) :
    marker negative pointer = (signText uppercase negative pointer).length := by
  cases negative <;> cases pointer <;> cases uppercase <;> rfl

theorem length_lowDigits_base {base value : Nat} (hb : 8 ≤ base) (hv : value < 2 ^ 64) :
    (lowDigits base value).length ≤ 22 := by
  refine length_lowDigits_le (by omega) (by omega) (hv.trans_le ?_)
  calc 2 ^ 64 ≤ 8 ^ 22 := by norm_num
    _ ≤ base ^ 22 := Nat.pow_le_pow_left hb 22

theorem emitNumber_emits {value base width : Nat} (hb : 8 ≤ base) (hv : value < 2 ^ 64)
    (hw : width ≤ intMax) (uppercase : Bool) {negative pointer : Bool}
    (hone : negative = false ∨ pointer = false) (zeroPad : Bool) (out : Out) :
    Emits out (numberText (signText uppercase negative pointer)
        (numeral base (digitChar uppercase) value) width zeroPad)
      (emitNumber value base uppercase negative pointer width zeroPad out) := by
  have hlength := length_lowDigits_base hb hv
  have hroom : ([] : List UInt8).length + (lowDigits base value).length ≤ 32 := by
    rw [List.length_nil]
    omega
  have hloop := digitLoop_eq (by omega) uppercase hroom
  rw [List.nil_append] at hloop
  generalize hsign : signText uppercase negative pointer = sign
  have hmarker : marker negative pointer = sign.length := hsign ▸ marker_eq ..
  have hsize : sign.length ≤ 2 := by
    subst hsign
    cases negative <;> cases pointer <;> cases uppercase <;> decide
  have hdigits : numeral base (digitChar uppercase) value =
      ((lowDigits base value).map (digitChar uppercase)).reverse := rfl
  generalize (lowDigits base value).map (digitChar uppercase) = buffer at hloop hdigits
  have hbuffer : buffer.length ≤ 22 := by
    have := congrArg List.length hdigits
    simp [numeral] at this
    omega
  have hneed : signed 32 ((buffer.length : Int) + marker negative pointer) =
      some ((buffer.length : Int) + sign.length) := by
    rw [hmarker]
    exact if_pos (by norm_num; omega)
  rw [emitNumber, hloop, Option.bind_some, hneed, Option.bind_some, hdigits]
  have hpad := fun c p => @padIf_emits c p ((buffer.length : Int) + sign.length) width (by omega) (by omega)
  have hmissing : ((width : Int) - ((buffer.length : Int) + sign.length)).toNat =
      width - (sign.length + buffer.reverse.length) := by
    rw [List.length_reverse]
    omega
  rw [hmissing] at hpad
  -- the two calls for the sign and for the prefix emit one of the two texts
  have hboth : (if negative then [45] else []) ++
      (if pointer then (if uppercase then [48, 88] else [48, 120]) else []) = sign := by
    subst hsign
    rcases hone with rfl | rfl
    · simp [signText]
    · cases negative <;> simp [signText]
  have h := (hpad (!zeroPad) (if zeroPad then 48 else 32) out).then fun out =>
    (emitIf_emits negative [45] out).then fun out =>
    (emitIf_emits pointer (if uppercase then [48, 88] else [48, 120]) out).then fun out =>
    (hpad zeroPad (if zeroPad then 48 else 32) out).then fun out =>
      emitEach_emits buffer.reverse out
  convert h using 1
  cases zeroPad with
  | false => simp [numberText, ← hboth]
  | true => simp [numberText, ← hboth]

end Libc
end NarcOs
