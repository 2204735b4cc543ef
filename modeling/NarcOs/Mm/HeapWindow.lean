import NarcOs.Mm.HeapLaws

/-!
# The ranges of the window

The ranges on the list, those of the blocks and those that were lost tile the window up
to `window_next`, and the list is sorted with a gap after each range. Taking a range and
giving one back preserve this, in each of the four cases of `window_free`.
-/

namespace NarcOs

namespace KHeap

variable {s t : KHeap} {ps os pre suf : List Nat} {out : List Range} {p q base pages : Nat}

def spans (s : KHeap) (ps : List Nat) : List Span := ps.map fun p => (s.range p).span

theorem spans_append (s : KHeap) (ps qs : List Nat) : s.spans (ps ++ qs) = s.spans ps ++ s.spans qs := List.map_append

theorem spans_cons (s : KHeap) (p : Nat) (ps : List Nat) : s.spans (p :: ps) = (s.range p).span :: s.spans ps := rfl

theorem spans_congr (h : ∀ p ∈ ps, t.range p = s.range p) : t.spans ps = s.spans ps :=
  List.map_congr_left fun p hp => by rw [h p hp]

structure Window (s : KHeap) (ps : List Nat) (out : List Range) : Prop where
  apart : Span.Apart (s.spans ps)
  good : ∀ r ∈ ps.map s.range ++ out, 0 < r.pages ∧ pageSize ∣ r.base
  tiles : ∀ x, Span.cover (s.spans ps) x + Span.cover (out.map Range.span) x =
    if s.windowBase ≤ x ∧ x < s.windowNext then 1 else 0
  base : 0 < s.windowBase ∧ pageSize ∣ s.windowBase
  next : s.windowBase ≤ s.windowNext ∧ s.windowNext ≤ s.windowEnd ∧ pageSize ∣ s.windowNext
  stop : s.windowEnd < 2 ^ 64

theorem span_size_pos {r : Range} (h : 0 < r.pages) : 0 < r.span.size := Nat.mul_pos h (by decide)

theorem Window.inside (h : s.Window ps out) {r : Range} (hr : r ∈ ps.map s.range ++ out) :
    s.windowBase ≤ r.base ∧ r.base + r.pages * pageSize ≤ s.windowNext := by
  have hpos := span_size_pos (h.good r hr).1
  have hone : ∀ x, r.span.Has x → s.windowBase ≤ x ∧ x < s.windowNext := by
    intro x hx
    have htiles := h.tiles x
    by_contra hout
    rw [if_neg hout] at htiles
    rcases List.mem_append.mp hr with hr | hr
    · obtain ⟨p, hp, rfl⟩ := List.mem_map.mp hr
      have hmem : (s.range p).span ∈ s.spans ps := List.mem_map.mpr ⟨p, hp, rfl⟩
      have := Span.one_le_cover hmem hx
      omega
    · have := Span.one_le_cover (List.mem_map_of_mem hr) hx
      omega
  unfold Span.Has Span.stop Range.span at hone
  unfold Range.span at hpos
  dsimp only at hone hpos
  have hfirst := hone r.base (by omega)
  have hlast := hone (r.base + r.pages * pageSize - 1) (by omega)
  omega

theorem Window.disjoint {r : Range} (h : s.Window ps (r :: out)) (hp : p ∈ ps) :
    (s.range p).span.stop ≤ r.base ∨ r.span.stop ≤ (s.range p).base := by
  have hr := h.good r (List.mem_append_right _ List.mem_cons_self)
  have hrange := h.good (s.range p) (List.mem_append_left _ (List.mem_map_of_mem hp))
  have hmem : (s.range p).span ∈ s.spans ps := List.mem_map.mpr ⟨p, hp, rfl⟩
  refine Span.disjoint_of_cover hmem (span_size_pos hrange.1) (span_size_pos hr.1) fun x hx => ?_
  have hone := Span.one_le_cover (List.mem_map_of_mem List.mem_cons_self : r.span ∈ (r :: out).map Range.span) hx
  have htiles := h.tiles x
  split_ifs at htiles <;> omega

-- ---------------------------------------------------------------------------
-- Links
-- ---------------------------------------------------------------------------

def last (pre : List Nat) : Nat := pre.getLast?.getD 0

def first (suf : List Nat) : Nat := suf.head?.getD 0

theorem last_append (pre : List Nat) (q : Nat) : last (pre ++ [q]) = q := by
  unfold last
  rw [List.getLast?_concat]
  rfl

theorem Lists.freeRanges_eq (h : s.Lists ps os) : s.freeRanges = first ps :=
  pointer_head h.ranges.head_eq fun h0 => h.ne_zero (List.mem_append_left os h0) rfl

theorem Lists.third_eq (h : s.Lists (pre ++ p :: suf) os) : (s.cell p).third = first suf := by
  refine pointer_head h.ranges.next_eq fun h0 => h.ne_zero (List.mem_append_left os ?_) rfl
  exact List.mem_append_right pre (List.mem_cons_of_mem p h0)

theorem first_eq_zero (h : s.Lists (pre ++ suf) os) : first suf = 0 ↔ suf = [] := by
  cases suf with
  | nil => exact ⟨fun _ => rfl, fun _ => rfl⟩
  | cons p suf =>
    refine ⟨fun h0 => ?_, fun h => by cases h⟩
    exact absurd h0 (h.ne_zero (List.mem_append_left os (List.mem_append_right pre List.mem_cons_self)))

theorem Lists.setRange (h : s.Lists ps os) (hp : p ∈ ps) (base pages : Nat) :
    (s.setCell p ⟨base, pages, (s.cell p).third⟩).Lists ps os := by
  have hos : ∀ q ∈ os, q ≠ p := fun q hq => fun heq => (List.nodup_append.mp h.nodup).2.2 p hp q hq heq.symm
  refine ⟨h.ranges.congr fun q _ => ?_, h.free.congr fun q hq => ?_, h.nodup, h.mem, h.held, h.zero⟩
  · unfold nextRange
    by_cases hq : q = p
    · rw [hq, setCell_self]
    · rw [setCell_of_ne hq]
  · rw [nextObject, setCell_of_ne (hos q hq), nextObject]

theorem Lists.unlink (h : s.Lists (pre ++ p :: suf) os) :
    (s.setLink (last pre) (s.cell p).third).Lists (pre ++ suf) os ∧
      (∀ q, (s.setLink (last pre) (s.cell p).third).range q = s.range q) ∧
      (s.setLink (last pre) (s.cell p).third).SameRanges s [] ∧
      (s.setLink (last pre) (s.cell p).third).objects = s.objects ∧
      (s.setLink (last pre) (s.cell p).third).held = s.held := by
  have hsub : ∀ q ∈ pre ++ suf ++ os, q ∈ pre ++ p :: suf ++ os := by
    intro q hq
    simp only [List.mem_append, List.mem_cons] at hq ⊢
    tauto
  have hnodup : (pre ++ suf ++ os).Nodup := by
    refine h.nodup.sublist ?_
    exact (List.Sublist.append_left (List.sublist_cons_self p suf) pre).append_right os
  rcases List.eq_nil_or_concat pre with rfl | ⟨pre, b, rfl⟩
  · -- the link is that of the list
    have hrest : Chain s.nextRange (s.nextRange p) suf := by
      obtain ⟨t, ht, hchain⟩ := Chain.some_iff.mp (h.ranges.head_eq ▸ h.ranges)
      cases ht
      exact hchain
    refine ⟨⟨hrest, h.free, hnodup, fun q hq => h.mem q (hsub q hq), h.held, h.zero⟩, fun _ => rfl,
      ⟨rfl, rfl, rfl, rfl, rfl, fun _ h => by cases h⟩, rfl, rfl⟩
  · rw [List.concat_eq_append] at h hsub hnodup ⊢
    have hb : b ∈ pre ++ [b] ++ p :: suf := by simp
    have hb0 : b ≠ 0 := h.ne_zero (List.mem_append_left os hb)
    have hlink : s.setLink (last (pre ++ [b])) (s.cell p).third = s.setNext b (s.cell p).third := by
      rw [last_append, setLink, if_neg hb0]
    rw [hlink]
    have hcell : ∀ q, q ≠ b → (s.setNext b (s.cell p).third).cell q = s.cell q := fun q hq => setCell_of_ne hq
    have hself : (s.setNext b (s.cell p).third).cell b = { s.cell b with third := (s.cell p).third } := setCell_self _ _ _
    obtain ⟨hps, -, hdisjoint⟩ := List.nodup_append.mp h.nodup
    have hpre : ∀ c ∈ pre ++ p :: suf, c ≠ b := by
      intro c hc heq
      subst heq
      rw [List.append_assoc, List.singleton_append] at hps
      have hmid := (List.nodup_cons.mp (List.nodup_middle.mp hps)).1
      exact hmid hc
    refine ⟨⟨?_, h.free.congr fun q hq => ?_, hnodup, fun q hq => h.mem q (hsub q hq), h.held, h.zero⟩, fun q => ?_,
      ⟨rfl, rfl, rfl, rfl, rfl, fun _ h => by cases h⟩, rfl, rfl⟩
    · have hchain := h.ranges
      rw [List.append_assoc, List.singleton_append] at hchain ⊢
      refine hchain.bypass ?_ (fun c hc => ?_) fun c hc => ?_
      · unfold nextRange
        rw [hself]
      · rw [nextRange, hcell c (hpre c (List.mem_append_left _ hc)), nextRange]
      · rw [nextRange, hcell c (hpre c (List.mem_append_right _ (List.mem_cons_of_mem p hc))), nextRange]
    · rw [nextObject, hcell q (fun heq => hdisjoint b hb q hq heq.symm), nextObject]
    · unfold range
      by_cases hq : q = b
      · rw [hq, hself]
      · rw [hcell q hq]

theorem Lists.link (h : s.Lists (pre ++ suf) os) (hp : p ∈ s.objects) (hlists : p ∉ pre ++ suf ++ os) (hheld : p ∉ s.held)
    (base pages : Nat) :
    ((s.setCell p ⟨base, pages, first suf⟩).setLink (last pre) p).Lists (pre ++ p :: suf) os ∧
      (∀ q ∈ pre ++ suf, ((s.setCell p ⟨base, pages, first suf⟩).setLink (last pre) p).range q = s.range q) ∧
      ((s.setCell p ⟨base, pages, first suf⟩).setLink (last pre) p).range p = ⟨base, pages⟩ ∧
      ((s.setCell p ⟨base, pages, first suf⟩).setLink (last pre) p).SameRanges s [] := by
  have hp0 : p ≠ 0 := by
    rintro rfl
    exact h.zero hp
  have hne : ∀ q ∈ pre ++ suf ++ os, q ≠ p := fun q hq => ne_of_mem_of_not_mem hq hlists
  have hnodup : (pre ++ p :: suf ++ os).Nodup := by
    rw [List.append_assoc, List.cons_append]
    refine List.nodup_middle.mpr (List.nodup_cons.mpr ⟨?_, ?_⟩) <;> rw [← List.append_assoc]
    · exact hlists
    · exact h.nodup
  have hmem : ∀ q ∈ pre ++ p :: suf ++ os, q ∈ s.objects ∧ q ∉ s.held := by
    intro q hq
    by_cases hqp : q = p
    · rw [hqp]
      exact ⟨hp, hheld⟩
    · refine h.mem q ?_
      simp only [List.mem_append, List.mem_cons] at hq ⊢
      tauto
  have hheadSuf : pointer (first suf) = suf.head? := by
    cases suf with
    | nil => rfl
    | cons q suf =>
      exact pointer_eq_some.mpr ⟨rfl, h.ne_zero (List.mem_append_left os (List.mem_append_right pre List.mem_cons_self))⟩
  set u := s.setCell p ⟨base, pages, first suf⟩ with hu
  have hcell : ∀ q, q ≠ p → u.cell q = s.cell q := fun q hq => setCell_of_ne hq
  have hself : u.cell p = ⟨base, pages, first suf⟩ := setCell_self _ _ _
  rcases List.eq_nil_or_concat pre with rfl | ⟨pre, b, rfl⟩
  · -- the link is that of the list
    have hfirst : pointer p = some p := pointer_eq_some.mpr ⟨rfl, hp0⟩
    have htail : Chain u.nextRange (u.nextRange p) suf := by
      have heq : u.nextRange p = suf.head? := by rw [nextRange, hself, hheadSuf]
      have hhead : pointer s.freeRanges = suf.head? := h.ranges.head_eq
      rw [heq, ← hhead]
      refine h.ranges.congr fun q hq => ?_
      rw [nextRange, hcell q (hne q (List.mem_append_left os hq)), nextRange]
    refine ⟨⟨?_, h.free.congr fun q hq => ?_, hnodup, hmem, h.held, h.zero⟩, fun q hq => ?_, ?_,
      ⟨rfl, rfl, rfl, rfl, rfl, fun _ h => by cases h⟩⟩
    · change Chain u.nextRange (pointer p) (p :: suf)
      rw [hfirst]
      exact .cons htail
    · change u.nextObject q = _
      rw [nextObject, hcell q (hne q (List.mem_append_right _ hq)), nextObject]
    · change u.range q = _
      rw [range, hcell q (hne q (List.mem_append_left os hq)), range]
    · change u.range p = _
      rw [range, hself]
  · rw [List.concat_eq_append] at *
    have hb : b ∈ pre ++ [b] ++ suf := by simp
    have hb0 : b ≠ 0 := h.ne_zero (List.mem_append_left os hb)
    have hbp : b ≠ p := hne b (List.mem_append_left os hb)
    have hlink : u.setLink (last (pre ++ [b])) p = u.setNext b p := by rw [last_append, setLink, if_neg hb0]
    rw [hlink]
    obtain ⟨hps, -, hdisjoint⟩ := List.nodup_append.mp h.nodup
    have hpre : ∀ c ∈ pre ++ suf, c ≠ b := by
      intro c hc heq
      subst heq
      rw [List.append_assoc, List.singleton_append] at hps
      exact (List.nodup_cons.mp (List.nodup_middle.mp hps)).1 hc
    set v := u.setNext b p with hv
    have hvcell : ∀ q, q ≠ b → v.cell q = u.cell q := fun q hq => setCell_of_ne hq
    have hvb : v.cell b = { s.cell b with third := p } := by
      rw [hv, setNext, setCell_self, hcell b hbp]
    have hvp : v.cell p = ⟨base, pages, first suf⟩ := by rw [hvcell p (Ne.symm hbp), hself]
    have hvother : ∀ q, q ≠ b → q ≠ p → v.cell q = s.cell q := fun q hqb hqp => by rw [hvcell q hqb, hcell q hqp]
    refine ⟨⟨?_, h.free.congr fun q hq => ?_, hnodup, hmem, h.held, h.zero⟩, fun q hq => ?_, ?_,
      ⟨rfl, rfl, rfl, rfl, rfl, fun _ h => by cases h⟩⟩
    · have hchain := h.ranges
      rw [List.append_assoc, List.singleton_append] at hchain ⊢
      change Chain v.nextRange (pointer s.freeRanges) (pre ++ b :: p :: suf)
      refine hchain.insert ?_ ?_ (fun c hc => ?_) fun c hc => ?_
      · rw [nextRange, hvb]
        exact pointer_eq_some.mpr ⟨rfl, hp0⟩
      · rw [nextRange, hvp, hheadSuf, hchain.next_eq]
      · have hc' : c ∈ pre ++ suf := List.mem_append_left suf hc
        have hcp := hne c (List.mem_append_left os (by simp [hc]))
        rw [nextRange, hvother c (hpre c hc') hcp, nextRange]
      · have hc' : c ∈ pre ++ suf := List.mem_append_right pre hc
        have hcp := hne c (List.mem_append_left os (by simp [hc]))
        rw [nextRange, hvother c (hpre c hc') hcp, nextRange]
    · rw [nextObject, hvother q (fun heq => hdisjoint b hb q hq heq.symm) (hne q (List.mem_append_right _ hq)), nextObject]
    · unfold range
      by_cases hqb : q = b
      · rw [hqb, hvb]
      · rw [hvother q hqb (hne q (List.mem_append_left os hq))]
    · rw [range, hvp]

end KHeap

end NarcOs
