import Mathlib.Data.Nat.Digits.Lemmas

/-!
# Numerals

The numeral of a number in a base, as a string of digit characters with the
most significant one first, and the number that a string of digits denotes.
-/

namespace NarcOs

variable {α : Type*} {base : Nat} {digit : Nat → α} {value : α → Nat} {n : Nat} {l : List α}

def lowDigits (base n : Nat) : List Nat := if n = 0 then [0] else base.digits n

def numeral (base : Nat) (digit : Nat → α) (n : Nat) : List α :=
  ((lowDigits base n).map digit).reverse

def denotes (base : Nat) (value : α → Nat) (l : List α) : Nat :=
  l.foldl (fun n a => base * n + value a) 0

theorem denotes_eq (l : List α) :
    denotes base value l = Nat.ofDigits base (l.reverse.map value) := by
  induction l using List.reverseRecOn with
  | nil => rfl
  | append_singleton l a ih =>
    have hfold : denotes base value (l ++ [a]) = base * denotes base value l + value a := by
      simp [denotes]
    rw [hfold, ih]
    simp [Nat.ofDigits_cons, Nat.add_comm]

theorem lowDigits_of_lt (h : n < base) : lowDigits base n = [n] := by
  by_cases hn : n = 0
  · simp [lowDigits, hn]
  · rw [lowDigits, if_neg hn, Nat.digits_of_lt base n hn h]

theorem lowDigits_of_le (hb : 1 < base) (h : base ≤ n) :
    lowDigits base n = n % base :: lowDigits base (n / base) := by
  have hn : n ≠ 0 := by omega
  have hq : n / base ≠ 0 := (Nat.div_pos h (by omega)).ne'
  rw [lowDigits, lowDigits, if_neg hn, if_neg hq, Nat.digits_eq_cons_digits_div hb hn]

theorem lowDigits_ne_nil : lowDigits base n ≠ [] := by
  unfold lowDigits
  split_ifs with h
  · simp
  · exact Nat.digits_ne_nil_iff_ne_zero.2 h

theorem ofDigits_lowDigits : Nat.ofDigits base (lowDigits base n) = n := by
  unfold lowDigits
  split_ifs with h
  · simp [h]
  · exact Nat.ofDigits_digits base n

theorem lowDigits_lt (hb : 1 < base) {d : Nat} (hd : d ∈ lowDigits base n) : d < base := by
  unfold lowDigits at hd
  split_ifs at hd with h
  · simp at hd
    omega
  · exact Nat.digits_lt_base hb hd

theorem length_lowDigits_le (hb : 1 < base) {k : Nat} (hk : 0 < k) (h : n < base ^ k) :
    (lowDigits base n).length ≤ k := by
  unfold lowDigits
  split_ifs with hn
  · exact hk
  · exact (Nat.digits_length_le_iff hb n).2 h

-- ---------------------------------------------------------------------------
-- Reading a numeral back
-- ---------------------------------------------------------------------------

theorem denotes_numeral (hb : 1 < base) (hv : ∀ d < base, value (digit d) = d) :
    denotes base value (numeral base digit n) = n := by
  rw [denotes_eq, numeral, List.reverse_reverse, List.map_map]
  have hmap : (lowDigits base n).map (value ∘ digit) = lowDigits base n := by
    refine (List.map_congr_left fun d hd => ?_).trans (List.map_id _)
    exact hv d (lowDigits_lt hb hd)
  rw [hmap, ofDigits_lowDigits]

theorem numeral_ne_nil : numeral base digit n ≠ [] := by
  simp [numeral, lowDigits_ne_nil]

theorem mem_numeral (hb : 1 < base) {a : α} (ha : a ∈ numeral base digit n) :
    ∃ d < base, a = digit d := by
  simp only [numeral, List.mem_reverse, List.mem_map] at ha
  obtain ⟨d, hd, rfl⟩ := ha
  exact ⟨d, lowDigits_lt hb hd, rfl⟩

theorem numeral_head (hb : 1 < base) (hv : ∀ d < base, value (digit d) = d)
    (h : (numeral base digit n).head? = some (digit 0)) : numeral base digit n = [digit 0] := by
  by_cases hn : n = 0
  · simp [numeral, lowDigits, hn]
  have hlow : lowDigits base n = base.digits n := if_neg hn
  have hne : base.digits n ≠ [] := Nat.digits_ne_nil_iff_ne_zero.2 hn
  rw [numeral, List.head?_reverse, List.getLast?_map, hlow,
    List.getLast?_eq_getLast_of_ne_nil hne] at h
  have hlast : digit ((base.digits n).getLast hne) = digit 0 := Option.some.inj h
  have hlt := Nat.digits_lt_base hb (List.getLast_mem hne)
  have hzero := congrArg value hlast
  rw [hv _ hlt, hv 0 (by omega)] at hzero
  exact absurd hzero (Nat.getLast_digit_ne_zero base hn)

end NarcOs
