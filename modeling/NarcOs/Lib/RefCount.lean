import Mathlib

/-!
# Reference counts

Objects that are freed when nothing refers to them any more. `held` has an object once for
each reference, wherever that is kept.
-/

namespace NarcOs

/-- The live objects are those that are referred to, and `refs` counts the references. -/
structure Counted {α : Type*} [DecidableEq α] (max : Int) (held : Multiset α) (live : List α) (refs : α → Int) : Prop where
  nodup : live.Nodup
  mem : ∀ a, a ∈ live ↔ a ∈ held
  count : ∀ a ∈ live, refs a = held.count a
  le : ∀ a ∈ live, refs a ≤ max

namespace Counted

variable {α : Type*} [DecidableEq α] {max : Int} {held : Multiset α} {live : List α} {refs refs' : α → Int} {a : α} {n : Nat}

theorem congr (h : Counted max held live refs) (hr : ∀ b ∈ live, refs' b = refs b) : Counted max held live refs' where
  nodup := h.nodup
  mem := h.mem
  count b hb := (hr b hb).trans (h.count b hb)
  le b hb := (hr b hb).trans_le (h.le b hb)

theorem perm (h : Counted max held live refs) {live' : List α} (hp : live'.Perm live) : Counted max held live' refs where
  nodup := hp.nodup_iff.mpr h.nodup
  mem b := hp.mem_iff.trans (h.mem b)
  count b hb := h.count b (hp.mem_iff.mp hb)
  le b hb := h.le b (hp.mem_iff.mp hb)

theorem new (h : Counted max held live refs) (ha : a ∉ live) (hn : 0 < n) (hmax : (n : Int) ≤ max)
    (hnew : refs' a = n) (hold : ∀ b ∈ live, refs' b = refs b) :
    Counted max (Multiset.replicate n a + held) (a :: live) refs' := by
  have hfree : held.count a = 0 := Multiset.count_eq_zero.mpr fun hm => ha ((h.mem a).mpr hm)
  refine ⟨List.nodup_cons.mpr ⟨ha, h.nodup⟩, fun b => ?_, fun b hb => ?_, fun b hb => ?_⟩
  · rw [List.mem_cons, Multiset.mem_add, Multiset.mem_replicate, h.mem]
    exact or_congr_left ⟨fun hb => ⟨hn.ne', hb⟩, fun hb => hb.2⟩
  · rw [Multiset.count_add, Multiset.count_replicate]
    rcases List.mem_cons.mp hb with rfl | hb
    · rw [hnew, hfree, if_pos rfl, Nat.add_zero]
    · have hne : a ≠ b := fun he => ha (he ▸ hb)
      rw [hold b hb, h.count b hb, if_neg hne, Nat.zero_add]
  · rcases List.mem_cons.mp hb with rfl | hb
    · exact hnew.trans_le hmax
    · exact (hold b hb).trans_le (h.le b hb)

theorem share (h : Counted max held live refs) {more : Multiset α} (hlive : ∀ b ∈ more, b ∈ live)
    (hr : ∀ b ∈ live, refs' b = refs b + more.count b) (hle : ∀ b ∈ live, refs' b ≤ max) :
    Counted max (more + held) live refs' where
  nodup := h.nodup
  mem b := by
    rw [Multiset.mem_add, h.mem, iff_or_self]
    exact fun hb => (h.mem b).mp (hlive b hb)
  count b hb := by rw [hr b hb, h.count b hb, Multiset.count_add, Nat.cast_add, add_comm]
  le := hle

theorem take (h : Counted max held live refs) (ha : a ∈ live) (hlt : refs a < max) (hself : refs' a = refs a + 1)
    (hother : ∀ b ∈ live, b ≠ a → refs' b = refs b) : Counted max (a ::ₘ held) live refs' := by
  rw [← Multiset.singleton_add]
  refine h.share (fun b hb => Multiset.mem_singleton.mp hb ▸ ha) (fun b hb => ?_) fun b hb => ?_
  · by_cases hba : b = a
    · rw [hba, hself, Multiset.count_singleton_self, Nat.cast_one]
    · rw [hother b hb hba, Multiset.count_singleton, if_neg hba, Nat.cast_zero, add_zero]
  · by_cases hba : b = a
    · rw [hba, hself]
      omega
    · exact (hother b hb hba).trans_le (h.le b hb)

theorem live_of_cons (h : Counted max (a ::ₘ held) live refs) : a ∈ live := (h.mem a).mpr (Multiset.mem_cons_self a held)

theorem refs_of_cons (h : Counted max (a ::ₘ held) live refs) : refs a = held.count a + 1 := by
  rw [h.count a h.live_of_cons, Multiset.count_cons_self, Nat.cast_add, Nat.cast_one]

theorem put_more (h : Counted max (a ::ₘ held) live refs) (hne : refs a - 1 ≠ 0) (hself : refs' a = refs a - 1)
    (hother : ∀ b ∈ live, b ≠ a → refs' b = refs b) : Counted max held live refs' := by
  have hrefs := h.refs_of_cons
  refine ⟨h.nodup, fun b => ?_, fun b hb => ?_, fun b hb => ?_⟩
  · rw [h.mem, Multiset.mem_cons, or_iff_right_iff_imp]
    rintro rfl
    exact Multiset.count_pos.mp (by omega)
  · by_cases hba : b = a
    · rw [hba, hself]
      omega
    · rw [hother b hb hba, h.count b hb, Multiset.count_cons_of_ne hba]
  · by_cases hba : b = a
    · have hle := h.le a h.live_of_cons
      rw [hba, hself]
      omega
    · exact (hother b hb hba).trans_le (h.le b hb)

theorem put_last (h : Counted max (a ::ₘ held) live refs) (hlast : refs a - 1 = 0)
    (hother : ∀ b ∈ live, b ≠ a → refs' b = refs b) : Counted max held (live.erase a) refs' := by
  have hrefs := h.refs_of_cons
  have hnone : a ∉ held := Multiset.count_eq_zero.mp (by omega)
  have hmem : ∀ b, b ∈ live.erase a ↔ b ≠ a ∧ b ∈ live := fun b => h.nodup.mem_erase_iff
  refine ⟨h.nodup.erase a, fun b => ?_, fun b hb => ?_, fun b hb => ?_⟩
  · rw [hmem, h.mem, Multiset.mem_cons]
    exact ⟨fun hb => hb.2.resolve_left hb.1, fun hb => ⟨fun he => hnone (he ▸ hb), .inr hb⟩⟩
  · obtain ⟨hba, hb⟩ := (hmem b).mp hb
    rw [hother b hb hba, h.count b hb, Multiset.count_cons_of_ne hba]
  · obtain ⟨hba, hb⟩ := (hmem b).mp hb
    exact (hother b hb hba).trans_le (h.le b hb)

end Counted

end NarcOs
