import Mathlib.Data.List.DropRight
import Mathlib.Data.List.GetD
import NarcOs.Lib.CString

/-!
# Strings in a buffer

An array of bytes with strings that end at a NUL. A write ends a string early and
leaves what is behind it alone.
-/

namespace NarcOs

structure Buffer (n : Nat) where
  bytes : List UInt8
  length_bytes : bytes.length = n

namespace Buffer

variable {n p : Nat} {b : Buffer n} {before s behind : List UInt8}

def get (b : Buffer n) (i : Nat) : UInt8 := b.bytes.getD i 0

def set (b : Buffer n) (i : Nat) (v : UInt8) : Buffer n :=
  ⟨b.bytes.set i v, by rw [List.length_set, b.length_bytes]⟩

def store (b : Buffer n) (s : List UInt8) : Buffer n :=
  ⟨(s ++ 0 :: b.bytes.drop (s.length + 1)).take n, by
    rw [List.length_take, List.length_append, List.length_cons, List.length_drop, b.length_bytes]
    omega⟩

def stringAt (b : Buffer n) (p : Nat) : List UInt8 := (b.bytes.drop p).takeWhile (· ≠ 0)

theorem notMem_stringAt (b : Buffer n) (p : Nat) : 0 ∉ b.stringAt p := fun h => by
  simpa using List.mem_takeWhile_imp h

def cstringAt (b : Buffer n) (p : Nat) : CString := ⟨b.stringAt p, b.notMem_stringAt p⟩

def strlen (b : Buffer n) (p : Nat) : Nat := (b.stringAt p).length

/-- Where `c` first stands in the string at `p`. -/
def strchr (b : Buffer n) (p : Nat) (c : UInt8) : Option Nat :=
  if c ∈ b.stringAt p then some (p + (b.stringAt p).idxOf c) else none

theorem lt_of_get_ne_zero (h : b.get p ≠ 0) : p < n := by
  by_contra hp
  refine h ?_
  rw [get, List.getD_eq_default]
  rw [b.length_bytes]
  omega

theorem strlen_pos (h : b.get p ≠ 0) : 0 < b.strlen p := by
  have hp := lt_of_get_ne_zero h
  rw [← b.length_bytes] at hp
  unfold strlen stringAt
  rw [List.drop_eq_getElem_cons hp, List.takeWhile_cons, if_pos, List.length_cons]
  · omega
  · rw [get, List.getD_eq_getElem _ _ hp] at h
    simpa using h

theorem le_of_strchr {c : UInt8} {i : Nat} (h : b.strchr p c = some i) : p ≤ i := by
  unfold strchr at h
  split at h
  · cases h
    omega
  · cases h

-- ---------------------------------------------------------------------------
-- A string that stands behind known bytes
-- ---------------------------------------------------------------------------

theorem get_append {x : UInt8} (h : b.bytes = before ++ x :: behind) : b.get before.length = x := by
  rw [get, h, List.getD_append_right _ _ _ _ le_rfl, Nat.sub_self]
  rfl

theorem bytes_set {x : UInt8} (h : b.bytes = before ++ x :: behind) (v : UInt8) :
    (b.set before.length v).bytes = before ++ v :: behind := by
  show b.bytes.set before.length v = _
  rw [h, List.set_append_right _ _ le_rfl, Nat.sub_self]
  rfl

theorem bytes_store (h : s.length < n) : (b.store s).bytes = s ++ 0 :: b.bytes.drop (s.length + 1) := by
  refine List.take_of_length_le ?_
  rw [List.length_append, List.length_cons, List.length_drop, b.length_bytes]
  omega

theorem takeWhile_string (hs : 0 ∉ s) : (s ++ 0 :: behind).takeWhile (· ≠ 0) = s := by
  induction s with
  | nil => rfl
  | cons c s ih =>
    simp only [List.mem_cons, not_or] at hs
    obtain ⟨hc, hs⟩ := hs
    rw [List.cons_append, List.takeWhile_cons, if_pos (by simpa using Ne.symm hc), ih hs]

theorem stringAt_append (h : b.bytes = before ++ (s ++ 0 :: behind)) (hs : 0 ∉ s) :
    b.stringAt before.length = s := by
  rw [stringAt, h, List.drop_left, takeWhile_string hs]

theorem get_string (h : b.bytes = before ++ (s ++ 0 :: behind)) : b.get before.length = s.headD 0 := by
  cases s with
  | nil => exact get_append h
  | cons c s => exact get_append h

end Buffer

-- ---------------------------------------------------------------------------
-- Lines
-- ---------------------------------------------------------------------------

section Lines

variable {α : Type} [DecidableEq α] {sep : α} {line text : List α}

theorem splitOn_cons (h : sep ∉ line) (text : List α) :
    (line ++ sep :: text).splitOn sep = line :: text.splitOn sep :=
  List.splitOnP_append_cons_of_forall_mem (fun x hx => by simpa using fun e : x = sep => h (e ▸ hx)) sep (by simp) text

theorem splitOn_single (h : sep ∉ line) : line.splitOn sep = [line] :=
  List.splitOnP_eq_singleton fun x hx => by simpa using fun e : x = sep => h (e ▸ hx)

theorem splitOn_cases (sep : α) (text : List α) :
    sep ∉ text ∨ ∃ line rest, sep ∉ line ∧ text = line ++ sep :: rest := by
  by_cases h : sep ∈ text
  · obtain ⟨line, rest, rfl, hline⟩ := List.eq_append_cons_of_mem h
    exact .inr ⟨line, rest, hline, rfl⟩
  · exact .inl h

theorem splitOn_append (text more : List α) : ∃ lines last first rest,
    text.splitOn sep = lines ++ [last] ∧ more.splitOn sep = first :: rest ∧
      (text ++ more).splitOn sep = lines ++ (last ++ first) :: rest := by
  induction hn : text.length using Nat.strong_induction_on generalizing text with
  | _ k ih =>
    rcases splitOn_cases sep text with h | ⟨line, text, hline, rfl⟩
    · rcases splitOn_cases sep more with hm | ⟨first, more, hfirst, rfl⟩
      · refine ⟨[], text, more, [], splitOn_single h, splitOn_single hm, ?_⟩
        rw [splitOn_single (by simp [h, hm])]
        rfl
      · refine ⟨[], text, first, _, splitOn_single h, splitOn_cons hfirst more, ?_⟩
        rw [← List.append_assoc, splitOn_cons (by simp [h, hfirst])]
        rfl
    · rw [List.length_append, List.length_cons] at hn
      obtain ⟨lines, last, first, rest, h₁, h₂, h₃⟩ := ih text.length (by omega) text rfl
      refine ⟨line :: lines, last, first, rest, ?_, h₂, ?_⟩
      · rw [splitOn_cons hline, h₁, List.cons_append]
      · rw [List.append_assoc, List.cons_append, splitOn_cons hline, h₃, List.cons_append]

end Lines

end NarcOs
