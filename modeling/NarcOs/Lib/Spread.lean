import Mathlib.Data.Fintype.Card
import Mathlib.Logic.Relation

/-!
# Marks that spread in rounds

In every round each point is looked at once, in any order. A point that is
still open is marked when a point it depends on carries the mark. Where the
dependencies have no cycle, all that a mark can reach is marked after as many
rounds as there are points.
-/

namespace NarcOs

variable {ι : Type*} (R : ι → ι → Prop)

/-- `marked k` and `live k` are the marked and the open points after `k`
rounds. -/
structure Spread (marked live : Nat → ι → Prop) : Prop where
  keep : ∀ {k i}, marked k i → marked (k + 1) i
  closed : ∀ {k i}, ¬ live k i → ¬ live (k + 1) i
  caught : ∀ {k i j}, R i j → marked k j → live k i → marked (k + 1) i
  cause : ∀ {k i}, marked (k + 1) i → ¬ marked k i → live k i ∧ ∃ j, R i j ∧ marked (k + 1) j

open Classical in
noncomputable def Spread.rank [Fintype ι] (i : ι) : Nat :=
  (Finset.univ.filter fun j => Relation.TransGen R i j).card

variable {R} {marked live : Nat → ι → Prop}

namespace Spread

section
variable [Fintype ι]

theorem rank_lt (hc : ∀ i, ¬ Relation.TransGen R i i) {i j : ι} (h : R i j) :
    rank R j < rank R i := by
  apply Finset.card_lt_card
  rw [Finset.ssubset_iff_of_subset]
  · exact ⟨j, by simpa using .single h, by simpa using hc j⟩
  · intro k hk
    simp only [Finset.mem_filter, Finset.mem_univ, true_and] at hk ⊢
    exact .head h hk

theorem rank_lt_card (hc : ∀ i, ¬ Relation.TransGen R i i) (i : ι) :
    rank R i < Fintype.card ι := by
  apply Finset.card_lt_univ_of_notMem (x := i)
  simpa using hc i

end

theorem keep_le (h : Spread R marked live) {k m : Nat} (hk : k ≤ m) {i : ι} (hm : marked k i) :
    marked m i := by
  induction m, hk using Nat.le_induction with
  | base => exact hm
  | succ m _ ih => exact h.keep ih

theorem closed_le (h : Spread R marked live) {k m : Nat} (hk : k ≤ m) {i : ι} (hm : live m i) :
    live k i := by
  induction m, hk using Nat.le_induction with
  | base => exact hm
  | succ m _ ih => exact ih (not_not.1 fun hn => h.closed hn hm)

/-- A point that is ever marked is marked after as many rounds as it has
points to depend on. -/
theorem settled [Fintype ι] (h : Spread R marked live) (hc : ∀ i, ¬ Relation.TransGen R i i)
    (i : ι) {m : Nat} (hm : marked m i) : marked (rank R i) i := by
  induction hr : rank R i using Nat.strong_induction_on generalizing i m with
  | _ r ih =>
    subst hr
    induction m with
    | zero => exact h.keep_le (Nat.zero_le _) hm
    | succ m ihm =>
      by_cases hold : marked m i
      · exact ihm hold
      obtain ⟨hlive, j, hj, hmark⟩ := h.cause hm hold
      rcases Nat.lt_or_ge m (rank R i) with hlt | hge
      · exact h.keep_le hlt hm
      -- the dependency is marked one round before, when `i` was open already
      have hlt := rank_lt hc hj
      have hdep := ih _ hlt j hmark rfl
      have hopen : live (rank R j) i := h.closed_le (by omega) hlive
      exact h.keep_le hlt (h.caught hj hdep hopen)

theorem converged [Fintype ι] (h : Spread R marked live) (hc : ∀ i, ¬ Relation.TransGen R i i)
    {i j : ι} (hj : R i j) (hlive : live (Fintype.card ι) i) (hm : marked (Fintype.card ι) j) :
    marked (Fintype.card ι) i := by
  have hlt := rank_lt hc hj
  have hcard := rank_lt_card hc i
  exact h.keep_le (by omega) (h.caught hj (h.settled hc j hm) (h.closed_le (by omega) hlive))

end Spread
end NarcOs
