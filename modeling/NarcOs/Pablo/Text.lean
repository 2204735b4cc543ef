import Mathlib.Data.Nat.Digits.Defs
import NarcOs.Lib.Buffer

/-!
# Text of the init system

The functions of `userland/pablo/src/text.c`. `pablo_trim` writes into the buffer
that holds the text; the others only read it.
-/

namespace NarcOs
namespace Pablo

variable {n : Nat} {b : Buffer n} {before s behind : List UInt8}

def ascii (word : String) : List UInt8 := word.toUTF8.toList

/-- ` `, `\t`, `\r` and `\n`. -/
def space (character : UInt8) : Bool :=
  character = 32 || character = 9 || character = 13 || character = 10

/-- The second loop of `pablo_trim`, on the `length` bytes at `text`. -/
def trimEnd (b : Buffer n) (text : Nat) : Nat → Buffer n
  | 0 => b
  | length + 1 =>
    if space (b.get (text + length)) then trimEnd (b.set (text + length) 0) text length else b

def pabloTrim (b : Buffer n) (text : Nat) : Buffer n × Nat :=
  let start := text + ((b.bytes.drop text).takeWhile space).length
  (trimEnd b start (b.strlen start), start)

/-- The result, and what `destination` then holds. -/
def pabloCopy (destination : CString) (capacity : Nat) (source : CString) : Int × CString :=
  if source.bytes.length ≥ capacity then (-1, destination) else (0, source)

def pabloHasSuffix (text suffix : CString) : Bool :=
  if suffix.bytes.length > text.bytes.length then false
  else text.bytes.drop (text.bytes.length - suffix.bytes.length) = suffix.bytes

def uint32Max : UInt32 := 4294967295

def parseDigits : List UInt8 → UInt32 → Option UInt32
  | [], result => some result
  | c :: text, result =>
    if c < 48 ∨ c > 57 then none
    else
      let digit := c.toUInt32 - 48
      if result > (uint32Max - digit) / 10 then none else parseDigits text (result * 10 + digit)

/-- The number that goes to `value`, if there is one. -/
def pabloParseUnsigned (text : List UInt8) : Option UInt32 :=
  if text = [] then none else parseDigits text 0

-- ---------------------------------------------------------------------------
-- Trimming
-- ---------------------------------------------------------------------------

def trim (text : List UInt8) : List UInt8 := (text.dropWhile space).rdropWhile space

theorem trim_subset (text : List UInt8) : trim text ⊆ text := fun _ hc =>
  (List.dropWhile_suffix space).subset ((List.rdropWhile_prefix space _).subset hc)

theorem notMem_trim {c : UInt8} (h : c ∉ s) : c ∉ trim s := fun hc => h (trim_subset s hc)

theorem trimEnd_bytes (s : List UInt8) {b : Buffer n} {behind : List UInt8} (h : b.bytes = before ++ (s ++ behind)) :
    (trimEnd b before.length s.length).bytes = before ++ (s.rdropWhile space ++
      (List.replicate (s.length - (s.rdropWhile space).length) 0 ++ behind)) := by
  induction s using List.reverseRecOn generalizing b behind with
  | nil => simpa [trimEnd] using h
  | append_singleton s c ih =>
    have hlast : b.bytes = (before ++ s) ++ c :: behind := h.trans (by simp)
    have hget : b.get (before.length + s.length) = c := by
      rw [← List.length_append]
      exact Buffer.get_append hlast
    rw [List.length_append, List.length_singleton, trimEnd, hget, List.rdropWhile_concat]
    by_cases hc : space c = true
    · rw [if_pos hc, if_pos hc]
      have hset : (b.set (before.length + s.length) 0).bytes = before ++ (s ++ 0 :: behind) := by
        rw [← List.length_append, Buffer.bytes_set hlast, List.append_assoc]
      have hle := (List.rdropWhile_prefix space s).length_le
      rw [ih hset, show s.length + 1 - (s.rdropWhile space).length = s.length - (s.rdropWhile space).length + 1 by omega,
        List.replicate_succ']
      simp
    · rw [if_neg hc, if_neg hc, h]
      simp

theorem takeWhile_space (hs : 0 ∉ s) : (s ++ 0 :: behind).takeWhile space = s.takeWhile space := by
  induction s with
  | nil => rfl
  | cons c s ih =>
    simp only [List.mem_cons, not_or] at hs
    rw [List.cons_append, List.takeWhile_cons, List.takeWhile_cons, ih hs.2]

/-- The text stands where `pablo_trim` says, and the bytes behind the old text are as
they were. -/
theorem pabloTrim_bytes (h : b.bytes = before ++ (s ++ 0 :: behind)) (hs : 0 ∉ s) :
    ∃ k, (pabloTrim b before.length).1.bytes =
        (before ++ s.takeWhile space) ++ (trim s ++ (List.replicate k 0 ++ 0 :: behind)) ∧
      (s.takeWhile space).length + (trim s).length + k = s.length ∧
      (pabloTrim b before.length).2 = (before ++ s.takeWhile space).length := by
  have hparts : s.takeWhile space ++ s.dropWhile space = s := List.takeWhile_append_dropWhile
  have hstart : before.length + ((b.bytes.drop before.length).takeWhile space).length =
      (before ++ s.takeWhile space).length := by
    rw [h, List.drop_left, takeWhile_space hs, List.length_append]
  have hbytes : b.bytes = (before ++ s.takeWhile space) ++ (s.dropWhile space ++ 0 :: behind) := by
    rw [h, List.append_assoc, ← List.append_assoc (s.takeWhile space), hparts]
  have hdrop : 0 ∉ s.dropWhile space := fun h0 => hs ((List.dropWhile_suffix space).subset h0)
  have hlen : b.strlen (before ++ s.takeWhile space).length = (s.dropWhile space).length := by
    rw [Buffer.strlen, Buffer.stringAt_append hbytes hdrop]
  have hle := (List.rdropWhile_prefix space (s.dropWhile space)).length_le
  refine ⟨(s.dropWhile space).length - (trim s).length, ?_, ?_, hstart⟩
  · unfold pabloTrim
    simp only
    rw [hstart, hlen]
    exact trimEnd_bytes _ hbytes
  · have := congrArg List.length hparts
    rw [List.length_append] at this
    unfold trim
    omega

-- ---------------------------------------------------------------------------
-- Numbers
-- ---------------------------------------------------------------------------

def IsNumber (text : List UInt8) : Prop := text ≠ [] ∧ ∀ c ∈ text, 48 ≤ c ∧ c ≤ 57

instance (text : List UInt8) : Decidable (IsNumber text) := inferInstanceAs (Decidable (_ ∧ _))

def number (text : List UInt8) : Nat := Nat.ofDigits 10 (text.reverse.map fun c => c.toNat - 48)

def decimal (text : List UInt8) : Option UInt32 :=
  if IsNumber text ∧ number text ≤ uint32Max.toNat then some (UInt32.ofNat (number text)) else none

theorem number_cons (c : UInt8) (text : List UInt8) :
    number (c :: text) = (c.toNat - 48) * 10 ^ text.length + number text := by
  unfold number
  rw [List.reverse_cons, List.map_append, Nat.ofDigits_append, List.length_map, List.length_reverse, List.map_singleton,
    Nat.ofDigits_singleton]
  ring

theorem parseDigits_eq (text : List UInt8) (result : UInt32) : parseDigits text result =
    if (∀ c ∈ text, 48 ≤ c ∧ c ≤ 57) ∧ result.toNat * 10 ^ text.length + number text ≤ uint32Max.toNat then
      some (UInt32.ofNat (result.toNat * 10 ^ text.length + number text))
    else none := by
  induction text generalizing result with
  | nil =>
    have hle : result.toNat ≤ uint32Max.toNat := Nat.le_of_lt_succ result.toNat_lt
    simp [parseDigits, number, hle]
  | cons c text ih =>
    rw [parseDigits]
    have hout : (c < 48 ∨ c > 57) ↔ ¬ (48 ≤ c ∧ c ≤ 57) := by
      rw [gt_iff_lt, UInt8.lt_iff_toNat_lt, UInt8.lt_iff_toNat_lt, UInt8.le_iff_toNat_le, UInt8.le_iff_toNat_le]
      omega
    by_cases hc : c < 48 ∨ c > 57
    · rw [if_pos hc, if_neg]
      exact fun hall => hout.mp hc (hall.1 c List.mem_cons_self)
    · rw [if_neg hc]
      rw [hout, not_not] at hc
      have hlow : 48 ≤ c.toNat := UInt8.le_iff_toNat_le.mp hc.1
      have hhigh : c.toNat ≤ 57 := UInt8.le_iff_toNat_le.mp hc.2
      have hdigit : (c.toUInt32 - 48).toNat = c.toNat - 48 := by
        rw [UInt32.toNat_sub_of_le _ _ (UInt32.le_iff_toNat_le.mpr (by simpa using hlow))]
        simp
      have hmax : uint32Max.toNat = 4294967295 := rfl
      have hsub : (uint32Max - (c.toUInt32 - 48)).toNat = 4294967295 - (c.toNat - 48) := by
        rw [UInt32.toNat_sub_of_le _ _ (UInt32.le_iff_toNat_le.mpr (by omega)), hdigit, hmax]
      have hfull : result > (uint32Max - (c.toUInt32 - 48)) / 10 ↔
          uint32Max.toNat < result.toNat * 10 + (c.toNat - 48) := by
        rw [gt_iff_lt, UInt32.lt_iff_toNat_lt, UInt32.toNat_div, hsub, hmax, show (10 : UInt32).toNat = 10 from rfl]
        omega
      have hpow : 1 ≤ 10 ^ text.length := Nat.one_le_pow _ _ (by decide)
      have hsum : result.toNat * 10 ^ (c :: text).length + number (c :: text) =
          (result.toNat * 10 + (c.toNat - 48)) * 10 ^ text.length + number text := by
        rw [number_cons, List.length_cons, pow_succ]
        ring
      rw [hsum]
      simp only
      by_cases hbig : result > (uint32Max - (c.toUInt32 - 48)) / 10
      · rw [if_pos hbig, if_neg]
        rintro ⟨-, hle⟩
        have hless := hfull.mp hbig
        have := Nat.mul_le_mul_left (result.toNat * 10 + (c.toNat - 48)) hpow
        omega
      · rw [if_neg hbig, ih]
        have hnext : (result * 10 + (c.toUInt32 - 48)).toNat = result.toNat * 10 + (c.toNat - 48) := by
          have := mt hfull.mpr hbig
          rw [UInt32.toNat_add, UInt32.toNat_mul, hdigit, show (10 : UInt32).toNat = 10 from rfl]
          omega
        rw [hnext]
        have hall : (∀ d ∈ c :: text, 48 ≤ d ∧ d ≤ 57) ↔ ∀ d ∈ text, 48 ≤ d ∧ d ≤ 57 := by
          rw [List.forall_mem_cons]
          exact and_iff_right hc
        simp only [hall]

theorem pabloParseUnsigned_eq (text : List UInt8) : pabloParseUnsigned text = decimal text := by
  unfold pabloParseUnsigned decimal IsNumber
  by_cases h : text = []
  · rw [if_pos h, if_neg (fun hn => hn.1.1 h)]
  · rw [if_neg h, parseDigits_eq]
    simp [h]

end Pablo
end NarcOs
