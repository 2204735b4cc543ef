import Mathlib

/-!
# Lists of address ranges

A span is a start and a size. `cover l x` counts the spans of a list that have the
address `x`, so that a list tiles a stretch when the count is one inside it and zero
outside. `Apart` lists are sorted with a gap between any two spans: no two of them
overlap, and none ends where another begins.
-/

namespace NarcOs

structure Span where
  start : Nat
  size : Nat
  deriving DecidableEq

namespace Span

def stop (a : Span) : Nat := a.start + a.size

def Has (a : Span) (x : Nat) : Prop := a.start ≤ x ∧ x < a.stop

def cover (l : List Span) (x : Nat) : Nat := l.countP fun a => decide (a.start ≤ x ∧ x < a.stop)

def Apart (l : List Span) : Prop := l.Pairwise fun a b => a.stop < b.start

variable {l pre suf : List Span} {a b c : Span} {x m n : Nat}

@[simp] theorem cover_nil (x : Nat) : cover [] x = 0 := rfl

theorem cover_cons (a : Span) (l : List Span) (x : Nat) : cover (a :: l) x = cover [a] x + cover l x := by
  unfold cover
  rw [List.countP_cons, List.countP_singleton]
  omega

theorem cover_append (l l' : List Span) (x : Nat) : cover (l ++ l') x = cover l x + cover l' x := List.countP_append

theorem cover_perm {l' : List Span} (h : l.Perm l') (x : Nat) : cover l x = cover l' x := h.countP_eq _

theorem cover_singleton (a : Span) (x : Nat) : cover [a] x = if a.start ≤ x ∧ x < a.stop then 1 else 0 := by
  unfold cover
  rw [List.countP_singleton]
  simp

theorem cover_split (s m n x : Nat) : cover [⟨s, m + n⟩] x = cover [⟨s, m⟩] x + cover [⟨s + m, n⟩] x := by
  rw [cover_singleton, cover_singleton, cover_singleton]
  unfold stop
  dsimp only
  split_ifs <;> omega

theorem one_le_cover (ha : a ∈ l) (hx : a.Has x) : 1 ≤ cover l x :=
  List.countP_pos_iff.mpr ⟨a, ha, decide_eq_true hx⟩

theorem disjoint_of_cover (ha : a ∈ l) (hpos : 0 < a.size) (hb : 0 < b.size)
    (h : ∀ x, b.Has x → cover l x = 0) : a.stop ≤ b.start ∨ b.stop ≤ a.start := by
  by_contra hover
  unfold stop at hover
  have hx : ∃ x, a.Has x ∧ b.Has x := by
    refine ⟨max a.start b.start, ?_, ?_⟩ <;> unfold Has stop <;> omega
  obtain ⟨x, hax, hbx⟩ := hx
  have hcover := one_le_cover ha hax
  rw [h x hbx] at hcover
  omega

theorem apart_append_cons : Apart (pre ++ a :: suf) ↔ Apart pre ∧ Apart suf ∧ (∀ b ∈ pre, b.stop < a.start) ∧
    (∀ b ∈ suf, a.stop < b.start) ∧ ∀ b ∈ pre, ∀ c ∈ suf, b.stop < c.start := by
  unfold Apart
  rw [List.pairwise_append, List.pairwise_cons]
  constructor
  · rintro ⟨hpre, ⟨hnext, hsuf⟩, hcross⟩
    exact ⟨hpre, hsuf, fun b hb => hcross b hb a List.mem_cons_self, hnext,
      fun b hb c hc => hcross b hb c (List.mem_cons_of_mem a hc)⟩
  · rintro ⟨hpre, hsuf, hprev, hnext, hcross⟩
    refine ⟨hpre, ⟨hnext, hsuf⟩, fun b hb c hc => ?_⟩
    rcases List.mem_cons.mp hc with rfl | hc
    · exact hprev b hb
    · exact hcross b hb c hc

theorem Apart.shrink (h : Apart (pre ++ a :: suf)) (hstart : a.start ≤ b.start) (hstop : b.stop ≤ a.stop) :
    Apart (pre ++ b :: suf) := by
  obtain ⟨hpre, hsuf, hprev, hnext, hcross⟩ := apart_append_cons.mp h
  exact apart_append_cons.mpr ⟨hpre, hsuf, fun c hc => (hprev c hc).trans_le hstart,
    fun c hc => hstop.trans_lt (hnext c hc), hcross⟩

theorem Apart.remove (h : Apart (pre ++ a :: suf)) : Apart (pre ++ suf) :=
  h.sublist (List.Sublist.append_left (List.sublist_cons_self a suf) pre)

theorem Apart.middle (hpre : Apart pre) (hsuf : Apart suf) (hprev : ∀ b ∈ pre, b.stop < a.start)
    (hnext : ∀ b ∈ suf, a.stop < b.start) (hsize : a.start ≤ a.stop) : Apart (pre ++ a :: suf) :=
  apart_append_cons.mpr ⟨hpre, hsuf, hprev, hnext, fun b hb c hc =>
    (hprev b hb).trans (hsize.trans_lt (hnext c hc))⟩

theorem Apart.left (h : Apart (pre ++ suf)) : Apart pre := (List.pairwise_append.mp h).1

theorem Apart.right (h : Apart (pre ++ suf)) : Apart suf := (List.pairwise_append.mp h).2.1

theorem start_le_stop (a : Span) : a.start ≤ a.stop := Nat.le_add_right _ _

/-- Spans that end by `x`, the last of them before it, all end before it. -/
theorem Apart.gap_before (h : Apart l) (hle : ∀ a ∈ l, a.stop ≤ x) (hlast : ∀ a, l.getLast? = some a → a.stop ≠ x) :
    ∀ a ∈ l, a.stop < x := by
  rcases List.eq_nil_or_concat l with rfl | ⟨l, b, rfl⟩
  · exact fun a ha => by cases ha
  rw [List.concat_eq_append] at *
  intro a ha
  have hb := hle b (by simp)
  rcases List.mem_append.mp ha with ha | ha
  · have hgap := (List.pairwise_append.mp h).2.2 a ha b (List.mem_singleton_self b)
    exact (hgap.trans_le b.start_le_stop).trans_le hb
  · rw [List.mem_singleton.mp ha]
    exact lt_of_le_of_ne hb (hlast b List.getLast?_concat)

/-- Spans that begin from `x` on, the first of them behind it, all begin behind it. -/
theorem Apart.gap_behind (h : Apart l) (hle : ∀ a ∈ l, x ≤ a.start) (hhead : ∀ a, l.head? = some a → a.start ≠ x) :
    ∀ a ∈ l, x < a.start := by
  cases l with
  | nil => exact fun a ha => by cases ha
  | cons b l =>
    have hb := hle b List.mem_cons_self
    intro a ha
    rcases List.mem_cons.mp ha with rfl | ha
    · exact lt_of_le_of_ne hb (Ne.symm (hhead a rfl))
    · have hgap := (List.pairwise_cons.mp h).1 a ha
      exact (hb.trans b.start_le_stop).trans_lt hgap

end Span

end NarcOs
