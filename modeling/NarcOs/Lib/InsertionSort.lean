import Mathlib.Data.List.DropRight
import Mathlib.Data.List.Perm.Basic

/-!
# Insertion sort in an array

The array is a list, and a slot is overwritten by `List.set`. `gt` is the test of
the inner loop: the element before belongs behind the one that is inserted.
-/

namespace NarcOs

variable {α : Type*} (gt : α → α → Bool)

def shiftUp (current : α) : Nat → List α → List α × Nat
  | 0, l => (l, 0)
  | position + 1, l =>
    match l[position]? with
    | none => (l, position + 1)
    | some a =>
      if gt a current then shiftUp current position (l.set (position + 1) a)
      else (l, position + 1)

def insertAt (l : List α) (i : Nat) : List α :=
  match l[i]? with
  | none => l
  | some current =>
    let r := shiftUp gt current i l
    r.1.set r.2 current

def sortInPlace (l : List α) (count : Nat) : List α :=
  (List.range' 1 (count - 1)).foldl (insertAt gt) l

def insertLast (current : α) (l : List α) : List α :=
  l.rdropWhile (gt · current) ++ current :: l.rtakeWhile (gt · current)

def Sorted (l : List α) : Prop := l.Pairwise fun a b => gt a b = false

variable {gt} {a current : α} {l front behind : List α}

theorem insertLast_concat : insertLast gt current (l ++ [a]) =
    if gt a current then insertLast gt current l ++ [a] else l ++ [a, current] := by
  unfold insertLast
  rw [List.rdropWhile_concat, List.rtakeWhile_concat]
  split_ifs <;> simp

theorem insertLast_perm : (insertLast gt current l).Perm (current :: l) := by
  induction l using List.reverseRecOn with
  | nil => exact .refl _
  | append_singleton l a ih =>
    rw [insertLast_concat]
    split_ifs
    · exact ih.append_right [a]
    · have hswap : [a, current].Perm [current, a] := .swap _ _ []
      exact (hswap.append_left l).trans List.perm_middle

theorem shiftUp_set (front : List α) (x : α) (behind : List α) :
    (shiftUp gt current front.length (front ++ x :: behind)).1.set
        (shiftUp gt current front.length (front ++ x :: behind)).2 current =
      insertLast gt current front ++ behind := by
  induction front using List.reverseRecOn generalizing x behind with
  | nil => rfl
  | append_singleton l a ih =>
    have hget : (l ++ [a] ++ x :: behind)[l.length]? = some a := by simp
    rw [List.length_append, List.length_singleton, shiftUp, hget, insertLast_concat]
    simp only
    split_ifs with hgt
    · have hset : (l ++ [a] ++ x :: behind).set (l.length + 1) a = l ++ a :: (a :: behind) := by
        rw [List.append_assoc, List.singleton_append, List.set_append_right _ _ (by simp)]
        simp
      rw [hset, ih]
      simp
    · rw [List.append_assoc, List.singleton_append, List.set_append_right _ _ (by simp)]
      simp

/-- A round inserts the element at `i` into the part before it. -/
theorem insertAt_append (front : List α) (current : α) (behind : List α) :
    insertAt gt (front ++ current :: behind) front.length =
      insertLast gt current front ++ behind := by
  have hget : (front ++ current :: behind)[front.length]? = some current := by simp
  rw [insertAt, hget]
  exact shiftUp_set front current behind

section
variable (asymm : ∀ a b, gt a b = true → gt b a = false)
  (trans : ∀ a b c, gt a b = false → gt b c = false → gt a c = false)
include asymm trans

theorem Sorted.insertLast (h : Sorted gt l) : Sorted gt (insertLast gt current l) := by
  induction l using List.reverseRecOn with
  | nil => simp [NarcOs.insertLast, Sorted]
  | append_singleton l a ih =>
    obtain ⟨hl, -, hla⟩ := List.pairwise_append.1 h
    rw [insertLast_concat]
    split_ifs with hgt
    · refine List.pairwise_append.2 ⟨ih hl, by simp, fun x hx y hy => ?_⟩
      obtain rfl := List.mem_singleton.1 hy
      rcases List.mem_cons.1 (insertLast_perm.mem_iff.1 hx) with rfl | hx
      · exact asymm _ _ hgt
      · exact hla x hx y List.mem_cons_self
    · have hle : gt a current = false := by simpa using hgt
      refine List.pairwise_append.2 ⟨hl, by simpa using hle, fun x hx y hy => ?_⟩
      have hxa := hla x hx a List.mem_cons_self
      rcases List.mem_cons.1 hy with rfl | hy
      · exact hxa
      · obtain rfl := List.mem_singleton.1 hy
        exact trans _ _ _ hxa hle

theorem sortInPlace_range (l : List α) (k : Nat) (hk : k < l.length) :
    ∃ s, (List.range' 1 k).foldl (insertAt gt) l = s ++ l.drop (k + 1) ∧
      s.Perm (l.take (k + 1)) ∧ Sorted gt s := by
  induction k with
  | zero =>
    refine ⟨l.take 1, (List.take_append_drop 1 l).symm, .refl _, ?_⟩
    cases l with
    | nil => simp [Sorted]
    | cons a l => simp [Sorted]
  | succ k ih =>
    obtain ⟨s, hs, hperm, hsorted⟩ := ih (by omega)
    have hlength : s.length = k + 1 := by
      rw [hperm.length_eq, List.length_take]
      omega
    refine ⟨NarcOs.insertLast gt l[k + 1] s, ?_, ?_, hsorted.insertLast asymm trans⟩
    · rw [List.range'_concat, List.foldl_append, hs, List.drop_eq_getElem_cons hk]
      have hround := @insertAt_append _ gt s l[k + 1] (l.drop (k + 2))
      have hi : 1 + 1 * k = s.length := by omega
      rw [List.foldl_cons, List.foldl_nil, hi]
      exact hround
    · refine insertLast_perm.trans ((hperm.cons _).trans ?_)
      rw [List.take_succ_eq_append_getElem hk]
      exact (List.perm_append_singleton _ _).symm

/-- The first `count` elements are sorted, and the others stay. -/
theorem sortInPlace_spec (l : List α) (count : Nat) (hc : count ≤ l.length) :
    ∃ s, sortInPlace gt l count = s ++ l.drop count ∧ s.Perm (l.take count) ∧ Sorted gt s := by
  cases count with
  | zero => exact ⟨[], by simp [sortInPlace], by simp, by simp [Sorted]⟩
  | succ k => exact sortInPlace_range asymm trans l k hc

end

end NarcOs
