import Mathlib

/-!
# Byte-addressed memory

Memory is a function from addresses to bytes. Words are little-endian and need
no alignment. Every write comes with the two facts a caller needs: what a read
inside it gives, and that a read outside it gives what it gave before.
-/

namespace NarcOs

abbrev Mem := Nat → UInt8

def ofLE : List UInt8 → Nat
  | [] => 0
  | b :: bs => b.toNat + 256 * ofLE bs

def toLE : Nat → Nat → List UInt8
  | 0, _ => []
  | n + 1, v => UInt8.ofNat (v % 256) :: toLE n (v / 256)

@[simp] theorem length_toLE (n v : Nat) : (toLE n v).length = n := by
  induction n generalizing v with
  | zero => rfl
  | succ n ih => simp [toLE, ih]

theorem ofLE_toLE (n v : Nat) : ofLE (toLE n v) = v % 256 ^ n := by
  induction n generalizing v with
  | zero => simp [toLE, ofLE, Nat.mod_one]
  | succ n ih =>
    have hb : (UInt8.ofNat (v % 256)).toNat = v % 256 := by simp
    rw [toLE, ofLE, ih, hb, Nat.pow_succ', Nat.mod_mul]

theorem ofLE_lt (bs : List UInt8) : ofLE bs < 256 ^ bs.length := by
  induction bs with
  | nil => simp [ofLE]
  | cons b bs ih =>
    have hb : b.toNat < 256 := b.toNat_lt
    simp only [ofLE, List.length_cons, Nat.pow_succ]
    omega

namespace Mem

variable {m m' : Mem} {a b i n v : Nat} {bs : List UInt8}

def read (m : Mem) (a n : Nat) : List UInt8 := (List.range n).map fun i => m (a + i)

/-- `memcpy(a, bs, length)` -/
def write (m : Mem) (a : Nat) (bs : List UInt8) : Mem := fun x =>
  if a ≤ x ∧ x < a + bs.length then bs.getD (x - a) 0 else m x

/-- `memset(a, byte, n)` -/
def memset (m : Mem) (a : Nat) (byte : UInt8) (n : Nat) : Mem := fun x =>
  if a ≤ x ∧ x < a + n then byte else m x

def load64 (m : Mem) (a : Nat) : Nat := ofLE (m.read a 8)

def store64 (m : Mem) (a v : Nat) : Mem := m.write a (toLE 8 v)

@[simp] theorem length_read : (m.read a n).length = n := by simp [read]

theorem getElem?_read (h : i < n) : (m.read a n)[i]? = some (m (a + i)) := by
  simp [read, h]

theorem getD_read (h : i < n) (d : UInt8) : (m.read a n).getD i d = m (a + i) := by
  simp [List.getD, getElem?_read h]

theorem read_congr (h : ∀ i < n, m' (a + i) = m (a + i)) : m'.read a n = m.read a n :=
  List.map_congr_left fun i hi => h i (List.mem_range.mp hi)

theorem read_eq_iff {l : List UInt8} :
    m.read a n = l ↔ l.length = n ∧ ∀ i < n, l[i]? = some (m (a + i)) := by
  constructor
  · rintro rfl
    exact ⟨length_read, fun i hi => getElem?_read hi⟩
  · rintro ⟨hl, h⟩
    apply List.ext_getElem?
    intro i
    by_cases hi : i < n
    · rw [getElem?_read hi, h i hi]
    · rw [List.getElem?_eq_none (by simp; omega), List.getElem?_eq_none (by omega)]

theorem read_add (m : Mem) (a n k : Nat) : m.read a (n + k) = m.read a n ++ m.read (a + n) k := by
  simp [read, List.range_add, Nat.add_assoc]

theorem write_apply_inside (h : i < bs.length) : m.write a bs (a + i) = bs.getD i 0 := by
  simp [write, h]

theorem write_apply_outside (h : b < a ∨ a + bs.length ≤ b) : m.write a bs b = m b := by
  unfold write
  rw [if_neg (by omega)]

theorem memset_apply_inside {byte : UInt8} (h : i < n) : m.memset a byte n (a + i) = byte := by
  simp [memset, h]

theorem memset_apply_outside {byte : UInt8} (h : b < a ∨ a + n ≤ b) :
    m.memset a byte n b = m b := by
  unfold memset
  rw [if_neg (by omega)]

@[simp] theorem write_nil : m.write a [] = m := by
  funext x
  exact write_apply_outside (by simp; omega)

theorem read_write (m : Mem) (a : Nat) (bs : List UInt8) : (m.write a bs).read a bs.length = bs := by
  refine read_eq_iff.mpr ⟨rfl, fun i hi => ?_⟩
  rw [write_apply_inside hi]
  simp [List.getD, hi]

theorem load64_congr (h : ∀ i < 8, m' (a + i) = m (a + i)) : m'.load64 a = m.load64 a := by
  rw [load64, load64, read_congr h]

theorem load64_store64 (m : Mem) (a v : Nat) : (m.store64 a v).load64 a = v % 2 ^ 64 := by
  have h := read_write m a (toLE 8 v)
  rw [length_toLE] at h
  rw [load64, store64, h, ofLE_toLE]
  norm_num

theorem store64_apply_outside (h : b < a ∨ a + 8 ≤ b) : m.store64 a v b = m b :=
  write_apply_outside (by simpa using h)

theorem load64_store64_of_disjoint (h : b + 8 ≤ a ∨ a + 8 ≤ b) :
    (m.store64 a v).load64 b = m.load64 b :=
  load64_congr fun _ _ => store64_apply_outside (by omega)

theorem load64_lt (m : Mem) (a : Nat) : m.load64 a < 2 ^ 64 := by
  have h := ofLE_lt (m.read a 8)
  rw [length_read] at h
  exact h

theorem load64_zero (h : ∀ i < 8, m (a + i) = 0) : m.load64 a = 0 := by
  have hr : m.read a 8 = List.replicate 8 0 :=
    read_eq_iff.mpr ⟨by simp, fun i hi => by rw [h i hi, List.getElem?_replicate_of_lt hi]⟩
  rw [load64, hr]
  rfl

end Mem

end NarcOs
