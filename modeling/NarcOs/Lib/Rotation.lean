import NarcOs.Lib.Chain

/-!
# Turns in a circle

A linked list walked as a circle: after its last element comes its head. `cycleFrom` is the
order in which the elements are met from one of them on, and the walk looks for the first
that satisfies a test. Elements that take turns in this order pass none by twice: `Turns`
says what may happen to the list meanwhile, and `Turns.between` what follows.
-/

namespace NarcOs

variable {α : Type*} [DecidableEq α]

-- ---------------------------------------------------------------------------
-- The order
-- ---------------------------------------------------------------------------

def cycleFrom (l : List α) : Option α → List α
  | none => l
  | some c => (l.dropWhile (· != c)).tail ++ l.takeWhile (· != c) ++ [c]

section Order

variable {l l' pre post x y : List α} {c t u : α}

theorem takeWhile_split (h : c ∉ pre) : (pre ++ c :: post).takeWhile (· != c) = pre := by
  rw [List.takeWhile_append_of_pos]
  · simp
  · intro a ha
    simpa using fun hac : a = c => h (hac ▸ ha)

theorem dropWhile_split (h : c ∉ pre) : (pre ++ c :: post).dropWhile (· != c) = c :: post := by
  rw [List.dropWhile_append_of_pos]
  · simp
  · intro a ha
    simpa using fun hac : a = c => h (hac ▸ ha)

theorem cycleFrom_split (h : c ∉ pre) : cycleFrom (pre ++ c :: post) (some c) = post ++ pre ++ [c] := by
  rw [cycleFrom, takeWhile_split h, dropWhile_split h, List.tail_cons]

theorem cycleFrom_isRotated (h : c ∈ l) : cycleFrom l (some c) ~r l := by
  obtain ⟨pre, post, rfl, hnot⟩ := List.eq_append_cons_of_mem h
  rw [cycleFrom_split hnot, List.append_assoc]
  exact List.isRotated_append.trans (by rw [List.append_assoc, List.singleton_append])

/-- The order from `u` on is the rotation that ends with it. -/
theorem cycleFrom_unique (hl : l.Nodup) (h : x ++ [u] ~r l) : cycleFrom l (some u) = x ++ [u] := by
  obtain ⟨n, hn, rfl⟩ := List.isRotated_iff_mod.mp h
  rw [List.rotate_eq_drop_append_take hn] at hl ⊢
  rcases Nat.lt_or_eq_of_le hn with hlt | rfl
  · have hlt' : n ≤ x.length := by
      rw [List.length_append, List.length_singleton] at hlt
      omega
    rw [List.drop_append_of_le_length hlt', List.take_append_of_le_length hlt', List.append_assoc, List.singleton_append] at hl ⊢
    have hnot : u ∉ x.drop n := fun hu => (List.nodup_append.mp hl).2.2 u hu u (List.mem_cons_self) rfl
    rw [cycleFrom_split hnot, List.take_append_drop]
  · rw [List.drop_length, List.take_length, List.nil_append] at hl ⊢
    have hnot : u ∉ x := fun hu => (List.nodup_append.mp hl).2.2 u hu u (List.mem_singleton_self u) rfl
    rw [cycleFrom_split hnot, List.nil_append]

theorem mem_cycleFrom {current : Option α} (h : ∀ c ∈ current, c ∈ l) : t ∈ cycleFrom l current ↔ t ∈ l := by
  cases current with
  | none => rfl
  | some c => exact (cycleFrom_isRotated (h c rfl)).mem_iff

theorem takeWhile_sublist (h : l'.Sublist l) (hl : l.Nodup) (ht : t ∈ l') :
    (l'.takeWhile (· != t)).Sublist (l.takeWhile (· != t)) := by
  induction h with
  | slnil => cases ht
  | cons a h ih =>
    obtain ⟨hnot, hl⟩ := List.nodup_cons.mp hl
    have hne : a ≠ t := fun hat => hnot (hat ▸ h.subset ht)
    rw [List.takeWhile_cons_of_pos (by simpa using hne)]
    exact .cons a (ih hl ht)
  | cons_cons a h ih =>
    obtain ⟨hnot, hl⟩ := List.nodup_cons.mp hl
    by_cases hat : a = t
    · simp [hat]
    · rw [List.takeWhile_cons_of_pos (by simpa using hat), List.takeWhile_cons_of_pos (by simpa using hat)]
      exact .cons_cons a (ih hl ((List.mem_cons.mp ht).resolve_left (Ne.symm hat)))

theorem tail_dropWhile_sublist (h : l'.Sublist l) (hl : l.Nodup) (ht : t ∈ l') :
    (l'.dropWhile (· != t)).tail.Sublist (l.dropWhile (· != t)).tail := by
  induction h with
  | slnil => cases ht
  | cons a h ih =>
    obtain ⟨hnot, hl⟩ := List.nodup_cons.mp hl
    have hne : a ≠ t := fun hat => hnot (hat ▸ h.subset ht)
    rw [List.dropWhile_cons_of_pos (by simpa using hne)]
    exact ih hl ht
  | cons_cons a h ih =>
    obtain ⟨hnot, hl⟩ := List.nodup_cons.mp hl
    by_cases hat : a = t
    · rw [List.dropWhile_cons_of_neg (by simpa using hat), List.dropWhile_cons_of_neg (by simpa using hat)]
      exact h
    · rw [List.dropWhile_cons_of_pos (by simpa using hat), List.dropWhile_cons_of_pos (by simpa using hat)]
      exact ih hl ((List.mem_cons.mp ht).resolve_left (Ne.symm hat))

theorem cycleFrom_sublist (h : l'.Sublist l) (hl : l.Nodup) (hc : c ∈ l') :
    (cycleFrom l' (some c)).Sublist (cycleFrom l (some c)) :=
  ((tail_dropWhile_sublist h hl hc).append (takeWhile_sublist h hl hc)).append (.refl _)

end Order

-- ---------------------------------------------------------------------------
-- The walk
-- ---------------------------------------------------------------------------

def after {α : Type*} (next : α → Option α) (head : Option α) : Option α → Option α
  | none => head
  | some a => (next a).or head

/-- `do { if (p(a)) return a; a = after(a); } while (a && a != start); return NULL;`, for as
many rounds as it is given. -/
def walkLoop (next : α → Option α) (head : Option α) (p : α → Bool) (start : α) : Nat → α → Option (Option α)
  | 0, _ => none
  | n + 1, a =>
    if p a then some (some a)
    else
      match after next head (some a) with
      | none => some none
      | some b => if b = start then some none else walkLoop next head p start n b

def walk (next : α → Option α) (head : Option α) (p : α → Bool) (rounds : Nat) (current : Option α) : Option (Option α) :=
  match after next head current with
  | none => some none
  | some start => walkLoop next head p start rounds start

def Circle {α : Type*} (succ : α → Option α) (l : List α) : Prop :=
  ∀ pre a post, l = pre ++ a :: post → succ a = (post ++ l).head?

section Walk

variable {next : α → Option α} {head current : Option α} {succ : α → Option α} {l l' : List α} {a start : α} {p : α → Bool}
  {rounds : Nat}

omit [DecidableEq α] in
theorem Chain.circle (h : Chain next head l) : Circle (fun a => after next head (some a)) l := by
  intro pre a post heq
  subst heq
  rw [List.head?_append, ← h.head_eq, ← h.next_eq]
  rfl

omit [DecidableEq α] in
theorem Circle.rotate_one (h : Circle succ (a :: l)) : Circle succ (l ++ [a]) := by
  intro pre b post heq
  rcases List.eq_nil_or_concat post with rfl | ⟨post, c, rfl⟩
  · obtain ⟨rfl, hab⟩ := List.append_inj' heq rfl
    cases hab
    rw [h [] a l rfl]
    cases l <;> rfl
  · rw [List.concat_eq_append, ← List.cons_append, ← List.append_assoc] at heq
    obtain ⟨rfl, hac⟩ := List.append_inj' heq rfl
    cases hac
    rw [h (a :: pre) b post rfl, List.concat_eq_append]
    cases post <;> rfl

omit [DecidableEq α] in
theorem Circle.rotated (h : Circle succ l) (hl : l' ~r l) : Circle succ l' := by
  obtain ⟨n, rfl⟩ := hl.symm
  induction n generalizing l with
  | zero => rwa [List.rotate_zero]
  | succ n ih =>
    cases l with
    | nil => rwa [List.rotate_nil]
    | cons a l =>
      rw [List.rotate_cons_succ]
      exact ih h.rotate_one ((List.IsRotated.forall _ n))

theorem walkLoop_eq {done todo : List α} (h : Circle (fun a => after next head (some a)) l) (hl : l.Nodup)
    (hstart : l.head? = some start) (heq : l = done ++ a :: todo) (hr : todo.length < rounds) :
    walkLoop next head p start rounds a = some ((a :: todo).find? p) := by
  induction todo generalizing done a rounds with
  | nil =>
    obtain ⟨n, rfl⟩ := Nat.exists_eq_succ_of_ne_zero (Nat.ne_of_gt hr)
    have hsucc : after next head (some a) = some start := (h done a [] heq).trans hstart
    rw [walkLoop, hsucc]
    by_cases hp : p a
    · simp [hp]
    · simp [hp]
  | cons b todo ih =>
    obtain ⟨n, rfl⟩ := Nat.exists_eq_succ_of_ne_zero (Nat.ne_of_gt (Nat.zero_lt_of_lt hr))
    have hsucc : after next head (some a) = some b := h done a (b :: todo) heq
    have hne : b ≠ start := by
      rintro rfl
      rw [heq] at hl hstart
      cases done with
      | nil =>
        cases hstart
        simp at hl
      | cons c done =>
        cases hstart
        simp at hl
    rw [walkLoop, hsucc]
    by_cases hp : p a
    · simp [hp]
    · have hsplit : l = (done ++ [a]) ++ b :: todo := by rw [heq, List.append_assoc, List.singleton_append]
      have hnext := ih hsplit (Nat.lt_of_succ_lt_succ hr)
      simp [hp, hne, hnext]

theorem Chain.circle_cycleFrom (h : Chain next head l) (hc : ∀ c ∈ current, c ∈ l) :
    Circle (fun a => after next head (some a)) (cycleFrom l current) ∧ (cycleFrom l current).Nodup ∧
      after next head current = (cycleFrom l current).head? ∧ (cycleFrom l current).length = l.length := by
  cases current with
  | none => exact ⟨h.circle, h.nodup, h.head_eq, rfl⟩
  | some c =>
    have hrot := cycleFrom_isRotated (hc c rfl)
    refine ⟨h.circle.rotated hrot, hrot.nodup_iff.mpr h.nodup, ?_, hrot.perm.length_eq⟩
    obtain ⟨pre, post, rfl, hnot⟩ := List.eq_append_cons_of_mem (hc c rfl)
    have hsucc : after next head (some c) = (post ++ (pre ++ c :: post)).head? := h.circle pre c post rfl
    rw [cycleFrom_split hnot, hsucc]
    cases post with
    | cons b post => rfl
    | nil => cases pre <;> rfl

theorem walk_eq (h : Chain next head l) (hc : ∀ c ∈ current, c ∈ l) (hr : l.length ≤ rounds) :
    walk next head p rounds current = some ((cycleFrom l current).find? p) := by
  obtain ⟨hcircle, hnodup, hafter, hlen⟩ := h.circle_cycleFrom hc
  generalize cycleFrom l current = order at *
  rw [walk, hafter]
  cases order with
  | nil => rfl
  | cons start rest =>
    rw [List.length_cons] at hlen
    exact walkLoop_eq hcircle hnodup rfl (List.nil_append _).symm (by omega)

end Walk

-- ---------------------------------------------------------------------------
-- Turns
-- ---------------------------------------------------------------------------

/-- A run from a list and its current element, with the elements that are selected. `t` may
be selected whenever another one is, and elements only leave the list. -/
inductive Turns (t : α) : List α → α → List α → Prop
  | nil {l c} : Turns t l c []
  | select {l c u rest} (p : α → Bool) : t ∈ l → p t → (cycleFrom l (some c)).find? p = some u →
      Turns t l u rest → Turns t l c (u :: rest)
  | leave {l l' c rest} : l'.Sublist l → c ∈ l' → Turns t l' c rest → Turns t l c rest

def ahead (l : List α) (c t : α) : List α := (cycleFrom l (some c)).takeWhile (· != t)

section Turns

variable {l l' : List α} {c t u : α} {p : α → Bool} {selected : List α}

theorem ahead_select (hl : l.Nodup) (hc : c ∈ l) (ht : t ∈ l) (hp : p t) (hu : (cycleFrom l (some c)).find? p = some u)
    (hne : u ≠ t) : (u :: ahead l u t).Sublist (ahead l c t) := by
  have hrot := cycleFrom_isRotated hc
  obtain ⟨-, x, y, heq, hx⟩ := List.find?_eq_some_iff_append.mp hu
  have hnot : t ∉ x := fun h => by simpa [hp] using hx t h
  have hty : t ∈ y := by
    have hmem : t ∈ cycleFrom l (some c) := hrot.mem_iff.mpr ht
    rw [heq, List.mem_append, List.mem_cons] at hmem
    exact (hmem.resolve_left hnot).resolve_left (Ne.symm hne)
  obtain ⟨a, b, rfl, ha⟩ := List.eq_append_cons_of_mem hty
  -- from `u` on the order is the rest of the circle, and then what came before `u`
  have hturned : a ++ t :: b ++ x ++ [u] ~r l := by
    refine List.IsRotated.trans ?_ hrot
    rw [heq, List.append_assoc]
    exact List.isRotated_append.trans (by rw [List.append_assoc, List.singleton_append])
  have hfirst : (x ++ u :: (a ++ t :: b)).takeWhile (· != t) = x ++ u :: a := by
    rw [← List.cons_append, ← List.append_assoc, takeWhile_split]
    rw [List.mem_append, List.mem_cons]
    rintro (h | h | h)
    · exact hnot h
    · exact hne h.symm
    · exact ha h
  have hsecond : (a ++ t :: b ++ x ++ [u]).takeWhile (· != t) = a := by
    rw [List.append_assoc, List.append_assoc, List.cons_append, takeWhile_split ha]
  rw [ahead, ahead, cycleFrom_unique hl hturned, heq, hfirst, hsecond]
  exact List.sublist_append_right x (u :: a)

theorem ahead_sublist (h : l'.Sublist l) (hl : l.Nodup) (hc : c ∈ l') (ht : t ∈ l') :
    (ahead l' c t).Sublist (ahead l c t) := by
  refine takeWhile_sublist (cycleFrom_sublist h hl hc) ?_ ((cycleFrom_isRotated hc).mem_iff.mpr ht)
  exact (cycleFrom_isRotated (h.subset hc)).nodup_iff.mpr hl

theorem Turns.eq_nil (h : Turns t l c selected) (ht : t ∉ l) : selected = [] := by
  induction h with
  | nil => rfl
  | select p hmem => exact absurd hmem ht
  | leave hsub hc _ ih => exact ih fun h => ht (hsub.subset h)

/-- Until `t` is selected, the others are selected in the order in which they come before it. -/
theorem Turns.sublist (h : Turns t l c selected) (hl : l.Nodup) (hc : c ∈ l) (ht : t ∉ selected) :
    selected.Sublist (ahead l c t) := by
  induction h with
  | nil => exact List.nil_sublist _
  | @select l c u rest p hmem hp hu h ih =>
    rw [List.mem_cons, not_or] at ht
    obtain ⟨hne, hrest⟩ := ht
    have hul : u ∈ l := (cycleFrom_isRotated hc).mem_iff.mp (List.mem_of_find?_eq_some hu)
    exact ((ih hl hul hrest).cons_cons u).trans (ahead_select hl hc hmem hp hu (Ne.symm hne))
  | @leave l l' c rest hsub hc' h ih =>
    by_cases hmem : t ∈ l'
    · exact (ih (hl.sublist hsub) hc' ht).trans (ahead_sublist hsub hl hc' hmem)
    · rw [h.eq_nil hmem]
      exact List.nil_sublist _

theorem Turns.suffix {before behind : List α} (h : Turns t l c (before ++ behind)) (hl : l.Nodup) (hc : c ∈ l) :
    ∃ l' c', Turns t l' c' behind ∧ l'.Nodup ∧ c' ∈ l' := by
  generalize heq : before ++ behind = selected at h
  induction h generalizing before with
  | nil =>
    obtain ⟨rfl, rfl⟩ := List.append_eq_nil_iff.mp heq
    exact ⟨_, _, .nil, hl, hc⟩
  | @select l c u rest p hmem hp hu h ih =>
    cases before with
    | nil =>
      obtain rfl : behind = u :: rest := heq
      exact ⟨l, c, .select p hmem hp hu h, hl, hc⟩
    | cons v before =>
      refine ih hl ?_ (List.cons.inj heq).2
      exact (cycleFrom_isRotated hc).mem_iff.mp (List.mem_of_find?_eq_some hu)
  | leave hsub hc' _ ih => exact ih (hl.sublist hsub) hc' heq

theorem Turns.start {before behind : List α} (h : Turns t l c (before ++ behind)) : Turns t l c before := by
  generalize heq : before ++ behind = selected at h
  induction h generalizing before with
  | nil =>
    obtain ⟨rfl, rfl⟩ := List.append_eq_nil_iff.mp heq
    exact .nil
  | @select l c u rest p hmem hp hu h ih =>
    cases before with
    | nil => exact .nil
    | cons v before =>
      obtain ⟨rfl, htail⟩ := List.cons.inj heq
      exact .select p hmem hp hu (ih htail)
  | leave hsub hc' _ ih => exact .leave hsub hc' (ih heq)

/-- Nothing else is selected twice before `t`. -/
theorem Turns.between {before between behind : List α} (h : Turns t l c (before ++ u :: (between ++ u :: behind)))
    (hl : l.Nodup) (hc : c ∈ l) (hne : u ≠ t) : t ∈ between := by
  by_contra hnot
  obtain ⟨l', c', hrun, hl', hc'⟩ := h.suffix hl hc
  have hsplit : u :: (between ++ u :: behind) = (u :: (between ++ [u])) ++ behind := by simp
  rw [hsplit] at hrun
  have hmem : t ∉ u :: (between ++ [u]) := by
    simp [hnot, Ne.symm hne]
  have hsub := hrun.start.sublist hl' hc' hmem
  have hnodup : (ahead l' c' t).Nodup :=
    ((cycleFrom_isRotated hc').nodup_iff.mpr hl').sublist (List.takeWhile_sublist _)
  have := hnodup.sublist hsub
  simp at this

end Turns

end NarcOs
