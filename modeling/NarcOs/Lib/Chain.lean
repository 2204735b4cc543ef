import Mathlib

/-!
# Intrusive singly linked lists

A list threaded through its own elements: each element names its successor
and `none` ends the list. `Chain next head l` says that following `next` from
`head` visits exactly `l` and then stops; `visited` is the traversal loop, with a
bound on its steps, and `Chain.visited_eq` says that the bound does not matter once
it covers the list. The remaining lemmas follow one update of a link.
-/

namespace NarcOs

/-- Following `next` from `head` visits exactly the elements of the list. -/
inductive Chain {α : Type*} (next : α → Option α) : Option α → List α → Prop
  | nil : Chain next none []
  | cons {a l} : Chain next (next a) l → Chain next (some a) (a :: l)

/-- `for (p = head; p; p = p->next)`, giving the elements in the order visited. -/
def visited {α : Type*} (next : α → Option α) : Nat → Option α → List α
  | 0, _ => []
  | _ + 1, none => []
  | n + 1, some a => a :: visited next n (next a)

namespace Chain

variable {α : Type*} {next next' : α → Option α} {head : Option α} {l l' : List α} {a b : α}

theorem nil_iff : Chain next none l ↔ l = [] :=
  ⟨fun h => by cases h; rfl, fun h => h ▸ .nil⟩

theorem some_iff : Chain next (some a) l ↔ ∃ t, l = a :: t ∧ Chain next (next a) t := by
  constructor
  · intro h
    cases h with
    | cons h => exact ⟨_, rfl, h⟩
  · rintro ⟨t, rfl, h⟩
    exact .cons h

theorem head_eq (h : Chain next head l) : head = l.head? := by
  cases h <;> rfl

theorem unique (h : Chain next head l) (h' : Chain next head l') : l = l' := by
  induction h generalizing l' with
  | nil => exact (nil_iff.mp h').symm
  | cons _ ih =>
    obtain ⟨t, rfl, ht⟩ := some_iff.mp h'
    rw [ih ht]

theorem suffix {l₁ l₂ : List α} (h : Chain next head (l₁ ++ l₂)) :
    ∃ mid, Chain next mid l₂ ∧ mid = l₂.head? := by
  induction l₁ generalizing head with
  | nil => exact ⟨head, h, h.head_eq⟩
  | cons a t ih =>
    cases h with
    | cons h => exact ih h

theorem next_eq {l₁ l₂ : List α} (h : Chain next head (l₁ ++ a :: l₂)) :
    next a = l₂.head? := by
  obtain ⟨_, h, rfl⟩ := h.suffix
  cases h with
  | cons h => exact h.head_eq

theorem nodup (h : Chain next head l) : l.Nodup := by
  induction h with
  | nil => exact List.nodup_nil
  | @cons a t h ih =>
    refine List.nodup_cons.mpr ⟨fun ha => ?_, ih⟩
    obtain ⟨s, r, rfl⟩ := List.append_of_mem ha
    obtain ⟨_, hr, rfl⟩ := h.suffix
    have heq := (Chain.cons h).unique hr
    have hlen := congrArg List.length heq
    simp at hlen
    omega

theorem congr (h : Chain next head l) (hn : ∀ a ∈ l, next' a = next a) : Chain next' head l := by
  induction h with
  | nil => exact .nil
  | @cons a t _ ih =>
    refine .cons ?_
    rw [hn a (by simp)]
    exact ih fun b hb => hn b (by simp [hb])

theorem visited_eq (h : Chain next head l) {n : Nat} (hn : l.length ≤ n) : visited next n head = l := by
  induction h generalizing n with
  | nil => cases n <;> rfl
  | cons _ ih =>
    cases n with
    | zero => simp at hn
    | succ n => simp only [visited, ih (by simpa using hn)]

theorem length_le_card [DecidableEq α] (h : Chain next head l) {s : Finset α}
    (hs : ∀ a ∈ l, a ∈ s) : l.length ≤ s.card := by
  rw [← List.toFinset_card_of_nodup h.nodup]
  exact Finset.card_le_card fun a ha => hs a (by simpa using ha)

theorem singleton (ha : next a = none) : Chain next (some a) [a] :=
  .cons (ha ▸ .nil)

theorem append_last {l : List α} (h : Chain next head (l ++ [b])) (ha : next' a = none)
    (hb : next' b = some a) (hn : ∀ c ∈ l, next' c = next c) :
    Chain next' head (l ++ [b, a]) := by
  induction l generalizing head with
  | nil =>
    cases h with
    | cons _ => exact .cons (hb ▸ .cons (ha ▸ .nil))
  | cons c t ih =>
    cases h with
    | cons h =>
      refine .cons ?_
      rw [hn c (by simp)]
      exact ih h fun d hd => hn d (by simp [hd])

theorem bypass {l₁ l₂ : List α} (h : Chain next head (l₁ ++ b :: a :: l₂)) (hb : next' b = next a)
    (hn₁ : ∀ c ∈ l₁, next' c = next c) (hn₂ : ∀ c ∈ l₂, next' c = next c) :
    Chain next' head (l₁ ++ b :: l₂) := by
  induction l₁ generalizing head with
  | nil =>
    cases h with
    | cons h =>
      obtain ⟨t, ht, h⟩ := some_iff.mp (h.head_eq ▸ h)
      cases ht
      exact .cons (hb ▸ h.congr hn₂)
  | cons c t ih =>
    cases h with
    | cons h =>
      refine .cons ?_
      rw [hn₁ c (by simp)]
      exact ih h fun d hd => hn₁ d (by simp [hd])

/-- Storing a new element in the link of one, and its successor in the new one's. -/
theorem insert {l₁ l₂ : List α} (h : Chain next head (l₁ ++ b :: l₂)) (hb : next' b = some a) (ha : next' a = next b)
    (hn₁ : ∀ c ∈ l₁, next' c = next c) (hn₂ : ∀ c ∈ l₂, next' c = next c) :
    Chain next' head (l₁ ++ b :: a :: l₂) := by
  induction l₁ generalizing head with
  | nil =>
    cases h with
    | cons h => exact .cons (hb ▸ .cons (ha ▸ h.congr hn₂))
  | cons c t ih =>
    cases h with
    | cons h =>
      refine .cons ?_
      rw [hn₁ c (by simp)]
      exact ih h fun d hd => hn₁ d (by simp [hd])

end Chain

inductive Rooted {α : Type*} (next : α → Option α) (root : α) : α → Prop
  | root : Rooted next root root
  | step {a b} : next a = some b → Rooted next root b → Rooted next root a

namespace Rooted

variable {α : Type*} {next next' : α → Option α} {root a d n : α} {l : List α}

theorem chain (h : Rooted next root a) (hroot : next root = none) :
    ∃ l, Chain next (some a) l := by
  induction h with
  | root => exact ⟨[root], .singleton hroot⟩
  | step hab _ ih =>
    obtain ⟨l, hl⟩ := ih
    exact ⟨_, .cons (hab ▸ hl)⟩

/-- The links of a set that is closed under `next` are all that matters. -/
theorem congr {S : α → Prop} (h : Rooted next root a) (ha : S a)
    (hclosed : ∀ b c, S b → next b = some c → S c) (hsame : ∀ b, S b → next' b = next b) :
    Rooted next' root a := by
  induction h with
  | root => exact .root
  | @step a b hab _ ih => exact .step ((hsame a ha).trans hab) (ih (hclosed a b ha hab))

theorem avoid (h : Rooted next root a) (hl : Chain next (some a) l) (hn : n ∉ l)
    (hsame : ∀ b, b ≠ n → next' b = next b) : Rooted next' root a := by
  induction h generalizing l with
  | root => exact .root
  | @step a b hab _ ih =>
    cases hl with
    | cons hl =>
      rw [List.mem_cons, not_or] at hn
      exact .step ((hsame a (Ne.symm hn.1)).trans hab) (ih (hab ▸ hl) hn.2)

/-- Redirecting one link keeps every element rooted when the new successor is
rooted without the redirected element. -/
theorem redirect (h : Rooted next root a) (hd : Rooted next root d)
    (hl : Chain next (some d) l) (hn : n ∉ l) (hnew : next' n = some d)
    (hsame : ∀ b, b ≠ n → next' b = next b) : Rooted next' root a := by
  induction h with
  | root => exact .root
  | @step a b hab _ ih =>
    by_cases han : a = n
    · exact .step (han ▸ hnew) (hd.avoid hl hn hsame)
    · exact .step ((hsame a han).trans hab) ih

end Rooted

end NarcOs
