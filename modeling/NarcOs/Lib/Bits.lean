import Mathlib.Data.Nat.Bitwise
import Mathlib.Tactic.Ring
import Mathlib.Tactic.Positivity

/-!
# Words as sums

Words whose parts do not overlap are sums of the parts, and setting or clearing
a bit adds or subtracts its weight.
-/

namespace NarcOs

variable {a b e : Nat}

theorem testBit_iff (e k : Nat) : e.testBit k = true ↔ e / 2 ^ k % 2 = 1 := by
  rw [Nat.testBit_eq_decide_div_mod_eq, decide_eq_true_iff]

theorem or_eq_add (ha : a % 4096 = 0) (hb : b < 4096) : a ||| b = a + b := by
  have h : a = 2 ^ 12 * (a / 4096) := by omega
  rw [h, ← Nat.two_pow_add_eq_or_of_lt (i := 12) hb]

/-- Bits from `w` on, an aligned address below them, and flags below that. -/
theorem or_mask {f hi lo w : Nat} (hw : 12 ≤ w) (hf : f % 4096 = 0) (hlt : f < 2 ^ w) (hlo : lo < 4096) :
    f ||| (2 ^ w * hi + lo) = 2 ^ w * hi + (f + lo) := by
  obtain ⟨c, hc⟩ : (4096 : Nat) ∣ 2 ^ w := pow_dvd_pow 2 hw
  have hlw : lo < 2 ^ w := by
    have := Nat.two_pow_pos w
    omega
  have hfl : f + lo < 2 ^ w := by omega
  rw [Nat.two_pow_add_eq_or_of_lt hlw, Nat.two_pow_add_eq_or_of_lt hfl, ← or_eq_add hf hlo,
    ← Nat.or_assoc, ← Nat.or_assoc, Nat.or_comm f]

theorem or_one (q : Nat) : q ||| 1 = if q % 2 = 1 then q else q + 1 := by
  have hq : q = 2 ^ 1 * (q / 2) ||| q % 2 := by
    rw [← Nat.two_pow_add_eq_or_of_lt (by omega)]
    omega
  have hlow : q % 2 ||| 1 = 1 := by rcases Nat.mod_two_eq_zero_or_one q with h | h <;> rw [h] <;> rfl
  have hor : q ||| 1 = 2 * (q / 2) + 1 := by
    conv_lhs => rw [hq, Nat.or_assoc, hlow, ← Nat.two_pow_add_eq_or_of_lt (by omega)]
  rw [hor]
  split <;> omega

theorem or_two_pow (e k : Nat) : e ||| 2 ^ k = if e.testBit k then e else e + 2 ^ k := by
  have hlt : e % 2 ^ k < 2 ^ k := Nat.mod_lt _ (by positivity)
  have he : e = 2 ^ k * (e / 2 ^ k) ||| e % 2 ^ k := by
    rw [← Nat.two_pow_add_eq_or_of_lt hlt, Nat.div_add_mod]
  have hor : e ||| 2 ^ k = 2 ^ k * (e / 2 ^ k ||| 1) + e % 2 ^ k := by
    rw [Nat.two_pow_add_eq_or_of_lt hlt, Nat.mul_comm, ← Nat.shiftLeft_eq, Nat.shiftLeft_or_distrib,
      Nat.shiftLeft_eq, Nat.shiftLeft_eq, Nat.one_mul, Nat.mul_comm, Nat.or_assoc,
      Nat.or_comm (2 ^ k), ← Nat.or_assoc, ← he]
  have hdm := Nat.div_add_mod e (2 ^ k)
  rw [hor, or_one, Nat.testBit_eq_decide_div_mod_eq]
  by_cases h : e / 2 ^ k % 2 = 1
  · simp only [h, decide_true, if_true]
    exact hdm
  · simp only [h, decide_false, if_false, Bool.false_eq_true]
    rw [Nat.mul_add, Nat.mul_one]
    omega

theorem testBit_clear (e k j : Nat) :
    (if e.testBit k then e - 2 ^ k else e).testBit j = (e.testBit j && decide (j ≠ k)) := by
  have hpos := Nat.two_pow_pos k
  split
  · rename_i h
    have hodd := (testBit_iff e k).mp h
    have hle : 2 ^ k ≤ e := by
      by_contra hlt
      rw [Nat.div_eq_of_lt (by omega)] at hodd
      omega
    have hbit : (e - 2 ^ k).testBit k = false := by
      rw [← Bool.not_eq_true, testBit_iff, show e - 2 ^ k = e - 2 ^ k * 1 by rw [Nat.mul_one],
        Nat.sub_mul_div]
      omega
    have hor := or_two_pow (e - 2 ^ k) k
    rw [hbit, if_neg (by simp), Nat.sub_add_cancel hle] at hor
    by_cases hj : j = k
    · subst hj
      simp [hbit]
    · have htwo : (2 ^ k).testBit j = false := Nat.testBit_two_pow_of_ne (Ne.symm hj)
      rw [← hor, Nat.testBit_or, htwo]
      simp [hj, hor]
  · rename_i h
    by_cases hj : j = k
    · subst hj
      simp [h]
    · simp [hj]

end NarcOs
