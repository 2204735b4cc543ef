import Mathlib

/-!
# NUL-terminated strings
-/

namespace NarcOs

structure CString where
  bytes : List UInt8
  noNul : (0 : UInt8) ∉ bytes
  deriving DecidableEq

def CString.first (s : CString) : UInt8 := s.bytes.headD 0

def CString.empty : CString := ⟨[], by simp⟩

theorem CString.first_eq_zero {s : CString} : s.first = 0 ↔ s = .empty := by
  obtain ⟨bytes, hnul⟩ := s
  cases bytes with
  | nil => simp [first, empty]
  | cons b bytes =>
    have hb : b ≠ 0 := by rintro rfl; exact hnul (by simp)
    simp [first, empty, hb]

theorem CString.first_eq_slash {s : CString} : s.first = 47 ↔ s.bytes.head? = some 47 := by
  obtain ⟨bytes, hnul⟩ := s
  cases bytes with
  | nil => simp [first]
  | cons b bytes => simp [first]

def CString.join (s t : CString) : CString :=
  ⟨s.bytes ++ 47 :: t.bytes, by simp [s.noNul, t.noNul]⟩

-- ---------------------------------------------------------------------------
-- Names and paths of one letter
-- ---------------------------------------------------------------------------

theorem CString.noNul_a : (0 : UInt8) ∉ [97] := by decide

theorem CString.noNul_b : (0 : UInt8) ∉ [98] := by decide

theorem CString.noNul_slash_a : (0 : UInt8) ∉ [47, 97] := by decide

theorem CString.noNul_slash_b : (0 : UInt8) ∉ [47, 98] := by decide

end NarcOs
