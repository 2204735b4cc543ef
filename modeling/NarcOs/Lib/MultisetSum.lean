import Mathlib

/-!
# Sums of multisets without repetitions

Resources that parts of a system hold are multisets, and the system is sound
when their sum has no repetitions. The lemmas here read disjointness off such a
sum and follow it when one part changes.
-/

namespace NarcOs

variable {α β : Type*} {a : α} {n : Nat}

theorem not_mem_of_add {s t : Multiset α} (h : (s + t).Nodup) (hs : a ∈ s) : a ∉ t :=
  Multiset.disjoint_left.mp (Multiset.nodup_add.mp h).2.2 hs

def sumFin (f : Fin n → Multiset α) : Multiset α := ∑ i, f i

variable {f : Fin n → Multiset α}

theorem mem_sumFin : a ∈ sumFin f ↔ ∃ i, a ∈ f i := by
  simp [sumFin, Multiset.mem_sum]

theorem sumFin_zero : (sumFin fun _ : Fin n => (0 : Multiset α)) = 0 :=
  Finset.sum_const_zero

theorem sumFin_add (f g : Fin n → Multiset α) : (sumFin fun i => f i + g i) = sumFin f + sumFin g :=
  Finset.sum_add_distrib

theorem sumFin_eq_add_erase (f : Fin n → Multiset α) (i : Fin n) :
    sumFin f = f i + ∑ j ∈ Finset.univ.erase i, f j :=
  (Finset.add_sum_erase _ _ (Finset.mem_univ i)).symm

theorem sumFin_update_add (g : β → Multiset α) (f : Fin n → β) (i : Fin n) (x : β) :
    sumFin (fun j => g (Function.update f i x j)) + g (f i) = sumFin (fun j => g (f j)) + g x := by
  have hrest : ∑ j ∈ Finset.univ.erase i, g (Function.update f i x j) =
      ∑ j ∈ Finset.univ.erase i, g (f j) :=
    Finset.sum_congr rfl fun j hj => by rw [Function.update_of_ne (Finset.ne_of_mem_erase hj)]
  rw [sumFin_eq_add_erase (fun j => g (Function.update f i x j)) i,
    sumFin_eq_add_erase (fun j => g (f j)) i, hrest, Function.update_self]
  abel

theorem nodup_of_sumFin (h : (sumFin f).Nodup) (i : Fin n) : (f i).Nodup :=
  Multiset.nodup_of_le (by rw [sumFin_eq_add_erase f i]; exact Multiset.le_add_right _ _) h

theorem not_mem_of_sumFin (h : (sumFin f).Nodup) {i j : Fin n} (hij : i ≠ j) (hi : a ∈ f i) :
    a ∉ f j := by
  intro hj
  rw [sumFin_eq_add_erase f i] at h
  refine Multiset.disjoint_left.mp (Multiset.nodup_add.mp h).2.2 hi ?_
  exact Multiset.mem_sum.mpr ⟨j, Finset.mem_erase.mpr ⟨hij.symm, Finset.mem_univ j⟩, hj⟩

-- at a large `n`, unfolding the sum is never what a proof wants
attribute [irreducible] sumFin

end NarcOs
