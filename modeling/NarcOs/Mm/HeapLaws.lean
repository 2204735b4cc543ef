import NarcOs.Mm.Heap

/-!
# The lists of the heap

The descriptors on the list of free ranges, the free objects of their class and the
objects that others have are different objects. So no free object and nobody else's
object is ever reached over the list of ranges, whatever is done to them.
-/

namespace NarcOs

theorem pointer_eq_some {p q : Nat} : pointer p = some q ↔ p = q ∧ q ≠ 0 := by
  unfold pointer
  split
  · rename_i h
    subst h
    constructor
    · intro h
      cases h
    · rintro ⟨h, hq⟩
      exact absurd h.symm hq
  · rename_i h
    rw [Option.some_inj]
    exact ⟨fun hpq => ⟨hpq, hpq ▸ h⟩, fun hpq => hpq.1⟩

theorem pointer_head {p : Nat} {l : List Nat} (h : pointer p = l.head?) (h0 : (0 : Nat) ∉ l) : p = l.head?.getD 0 := by
  cases l with
  | nil =>
    unfold pointer at h
    split at h
    · assumption
    · cases h
  | cons q l => exact (pointer_eq_some.mp h).1

namespace KHeap

variable {s t : KHeap} {ps os : List Nat} {p q : Nat}

@[simp] theorem setCell_self (s : KHeap) (p : Nat) (c : Cell) : (s.setCell p c).cell p = c := Function.update_self _ _ _

theorem setCell_of_ne {c : Cell} (h : q ≠ p) : (s.setCell p c).cell q = s.cell q := Function.update_of_ne h _ _

structure Lists (s : KHeap) (ps os : List Nat) : Prop where
  ranges : Chain s.nextRange (pointer s.freeRanges) ps
  free : Chain s.nextObject (pointer s.freeObjects) os
  nodup : (ps ++ os).Nodup
  mem : ∀ p ∈ ps ++ os, p ∈ s.objects ∧ p ∉ s.held
  held : s.held ⊆ s.objects
  zero : 0 ∉ s.objects

theorem Lists.ne_zero (h : s.Lists ps os) (hp : p ∈ ps ++ os) : p ≠ 0 := by
  rintro rfl
  exact h.zero (h.mem 0 hp).1

theorem Lists.length_le (h : s.Lists ps os) : ps.length ≤ s.objects.card :=
  h.ranges.length_le_card fun p hp => (h.mem p (List.mem_append_left os hp)).1

structure SameRanges (t s : KHeap) (ps : List Nat) : Prop where
  windowBase : t.windowBase = s.windowBase
  windowEnd : t.windowEnd = s.windowEnd
  windowNext : t.windowNext = s.windowNext
  blocks : t.blocks = s.blocks
  lost : t.lost = s.lost
  cell : ∀ p ∈ ps, t.cell p = s.cell p

theorem SameRanges.refl (s : KHeap) (ps : List Nat) : s.SameRanges s ps := ⟨rfl, rfl, rfl, rfl, rfl, fun _ _ => rfl⟩

theorem SameRanges.trans {u : KHeap} (h : u.SameRanges t ps) (h' : t.SameRanges s ps) : u.SameRanges s ps :=
  ⟨h.windowBase.trans h'.windowBase, h.windowEnd.trans h'.windowEnd, h.windowNext.trans h'.windowNext,
    h.blocks.trans h'.blocks, h.lost.trans h'.lost, fun p hp => (h.cell p hp).trans (h'.cell p hp)⟩

-- ---------------------------------------------------------------------------
-- Objects
-- ---------------------------------------------------------------------------

theorem Lists.freeObject (h : s.Lists ps os) (hp : p ∈ s.objects) (hlists : p ∉ ps ++ os) (hheld : p ∉ s.held) :
    (s.freeObject p).Lists ps (p :: os) ∧ (s.freeObject p).SameRanges s ps := by
  have hne : ∀ q ∈ ps ++ os, q ≠ p := fun q hq => ne_of_mem_of_not_mem hq hlists
  have hcell : ∀ q, q ≠ p → (s.freeObject p).cell q = s.cell q := fun q hq => setCell_of_ne hq
  have hp0 : p ≠ 0 := by
    rintro rfl
    exact h.zero hp
  have hself : (s.freeObject p).nextObject p = pointer s.freeObjects := by
    change pointer ((s.setCell p { s.cell p with first := s.freeObjects }).cell p).first = _
    rw [setCell_self]
  refine ⟨⟨?_, ?_, ?_, fun q hq => ?_, h.held, h.zero⟩, ⟨rfl, rfl, rfl, rfl, rfl, fun q hq => ?_⟩⟩
  · refine h.ranges.congr fun q hq => ?_
    rw [nextRange, hcell q (hne q (List.mem_append_left os hq)), nextRange]
  · have hhead : pointer (s.freeObject p).freeObjects = some p := pointer_eq_some.mpr ⟨rfl, hp0⟩
    rw [hhead]
    refine .cons (hself ▸ h.free.congr fun q hq => ?_)
    rw [nextObject, hcell q (hne q (List.mem_append_right ps hq)), nextObject]
  · exact List.nodup_middle.mpr (List.nodup_cons.mpr ⟨hlists, h.nodup⟩)
  · rcases List.mem_append.mp hq with hq | hq
    · exact h.mem q (List.mem_append_left os hq)
    rcases List.mem_cons.mp hq with rfl | hq
    · exact ⟨hp, hheld⟩
    · exact h.mem q (List.mem_append_right ps hq)
  · exact hcell q (hne q (List.mem_append_left os hq))

theorem Lists.carve {page i : Nat} (h : s.Lists ps os) (hnew : page + heapHeader + objectSize * i ∉ s.objects) :
    (carve page s i).Lists ps ((page + heapHeader + objectSize * i) :: os) ∧ (carve page s i).SameRanges s ps := by
  set p := page + heapHeader + objectSize * i with hp
  have hlists : p ∉ ps ++ os := fun hmem => hnew (h.mem p hmem).1
  have hheld : p ∉ s.held := fun hmem => hnew (h.held hmem)
  have hzero : (0 : Nat) ≠ p := by
    unfold heapHeader at hp
    omega
  have hgrown : Lists { s with objects := insert p s.objects } ps os :=
    ⟨h.ranges, h.free, h.nodup, fun q hq => ⟨Finset.mem_insert_of_mem (h.mem q hq).1, (h.mem q hq).2⟩,
      fun q hq => Finset.mem_insert_of_mem (h.held hq), by
        rw [Finset.mem_insert, not_or]
        exact ⟨hzero, h.zero⟩⟩
  obtain ⟨hfreed, hsame⟩ := hgrown.freeObject (Finset.mem_insert_self p s.objects) hlists hheld
  exact ⟨hfreed, hsame.trans ⟨rfl, rfl, rfl, rfl, rfl, fun _ _ => rfl⟩⟩

theorem Lists.carveAll {page n : Nat} (h : s.Lists ps os)
    (hnew : ∀ q ∈ s.objects, q + objectSize ≤ page ∨ page + pageSize ≤ q)
    (hn : heapHeader + objectSize * n ≤ pageSize) :
    ∃ new, ((List.range n).foldl (KHeap.carve page) s).Lists ps (new ++ os) ∧
      ((List.range n).foldl (KHeap.carve page) s).SameRanges s ps ∧ (0 < n → new ≠ []) ∧
      ∀ q ∈ ((List.range n).foldl (KHeap.carve page) s).objects,
        q ∈ s.objects ∨ q < page + heapHeader + objectSize * n := by
  induction n with
  | zero => exact ⟨[], h, .refl s ps, fun h => absurd h (Nat.lt_irrefl 0), fun q hq => .inl hq⟩
  | succ n ih =>
    have hsize : objectSize * (n + 1) = objectSize * n + objectSize := rfl
    obtain ⟨new, hlists, hsame, -, hobjects⟩ := ih (by omega)
    rw [List.range_succ, List.foldl_append]
    set u := (List.range n).foldl (KHeap.carve page) s
    have hfresh : page + heapHeader + objectSize * n ∉ u.objects := by
      intro hmem
      rcases hobjects _ hmem with hold | hlt
      · have := hnew _ hold
        unfold heapHeader objectSize pageSize at *
        omega
      · exact absurd hlt (Nat.lt_irrefl _)
    obtain ⟨hcarved, hsame'⟩ := hlists.carve hfresh
    refine ⟨(page + heapHeader + objectSize * n) :: new, hcarved, hsame'.trans hsame, fun _ => List.cons_ne_nil _ _,
      fun q hq => ?_⟩
    rcases Finset.mem_insert.mp hq with rfl | hq
    · exact .inr (by unfold objectSize; omega)
    · exact (hobjects q hq).imp_right fun hlt => by omega

theorem allocFrame_cases (s : KHeap) : ∃ page rest, s.allocFrame = (page, { s with frames := rest }) ∧
    (page ≠ 0 → ∀ q ∈ s.objects, q + objectSize ≤ page ∨ page + pageSize ≤ q) := by
  unfold allocFrame
  split
  · exact ⟨0, s.frames, rfl, fun h => absurd rfl h⟩
  · rename_i page rest _
    by_cases hnew : ∀ q ∈ s.objects, q + objectSize ≤ page ∨ page + pageSize ≤ q
    · exact ⟨page, rest, by rw [if_pos hnew], fun _ => hnew⟩
    · exact ⟨0, rest, by rw [if_neg hnew], fun h => absurd rfl h⟩

theorem Lists.refill (h : s.Lists ps os) :
    ∃ new, s.refill.2.Lists ps (new ++ os) ∧ s.refill.2.SameRanges s ps ∧ (s.refill.1 = true → new ≠ []) := by
  obtain ⟨page, rest, hframe, hnew⟩ := allocFrame_cases s
  have hrest : Lists { s with frames := rest } ps os := ⟨h.ranges, h.free, h.nodup, h.mem, h.held, h.zero⟩
  have hsame : SameRanges { s with frames := rest } s ps := ⟨rfl, rfl, rfl, rfl, rfl, fun _ _ => rfl⟩
  unfold KHeap.refill
  rw [hframe]
  dsimp only
  split
  · exact ⟨[], hrest, hsame, fun h => by cases h⟩
  · rename_i hpage
    obtain ⟨new, hlists, hsame', hne, -⟩ := hrest.carveAll (n := (pageSize - heapHeader) / objectSize) (hnew hpage)
      (by decide)
    exact ⟨new, hlists, hsame'.trans hsame, fun _ => hne (by decide)⟩

theorem Lists.smallAlloc (h : s.Lists ps os) :
    ∃ os', (s.smallAlloc).2.SameRanges s ps ∧
      ((s.smallAlloc.1 = 0 ∧ s.smallAlloc.2.Lists ps os') ∨
        s.smallAlloc.1 ≠ 0 ∧ s.smallAlloc.2.Lists ps os' ∧ s.smallAlloc.1 ∈ s.smallAlloc.2.objects ∧
          s.smallAlloc.1 ∉ ps ++ os' ∧ s.smallAlloc.1 ∉ s.smallAlloc.2.held) := by
  unfold KHeap.smallAlloc
  -- taking the first free object
  have htake : ∀ (u : KHeap) (l : List Nat), u.Lists ps l → u.freeObjects ≠ 0 → ∃ l', l = u.freeObjects :: l' ∧
      Lists { u with freeObjects := (u.cell u.freeObjects).first } ps l' ∧ u.freeObjects ∈ u.objects ∧
      u.freeObjects ∉ ps ++ l' ∧ u.freeObjects ∉ u.held := by
    intro u l hu hne
    have hhead : pointer u.freeObjects = some u.freeObjects := pointer_eq_some.mpr ⟨rfl, hne⟩
    obtain ⟨l', rfl, hrest⟩ := Chain.some_iff.mp (hhead ▸ hu.free)
    obtain ⟨hnot, hnodup⟩ := List.nodup_cons.mp (List.nodup_middle.mp hu.nodup)
    have hself := hu.mem u.freeObjects (List.mem_append_right ps List.mem_cons_self)
    refine ⟨l', rfl, ⟨hu.ranges, hrest, hnodup, fun q hq => ?_, hu.held, hu.zero⟩, hself.1, hnot, hself.2⟩
    refine hu.mem q ?_
    rcases List.mem_append.mp hq with hq | hq
    · exact List.mem_append_left _ hq
    · exact List.mem_append_right _ (List.mem_cons_of_mem _ hq)
  by_cases hempty : s.freeObjects = 0
  · rw [if_pos hempty]
    obtain ⟨new, hlists, hsame, hnew⟩ := h.refill
    generalize s.refill = r at hlists hsame hnew ⊢
    obtain ⟨ok, u⟩ := r
    dsimp only at hlists hsame hnew ⊢
    cases ok with
    | false => exact ⟨new ++ os, hsame, .inl ⟨rfl, hlists⟩⟩
    | true =>
      have hne : u.freeObjects ≠ 0 := by
        intro hzero
        have hnil := hlists.free
        rw [hzero, pointer, if_pos rfl, Chain.nil_iff] at hnil
        exact hnew rfl (List.append_eq_nil_iff.mp hnil).1
      obtain ⟨l', -, htaken, hmem, hnot, hheld⟩ := htake u _ hlists hne
      have hpop : SameRanges { u with freeObjects := (u.cell u.freeObjects).first } u ps :=
        ⟨rfl, rfl, rfl, rfl, rfl, fun _ _ => rfl⟩
      exact ⟨l', hpop.trans hsame, .inr ⟨hne, htaken, hmem, hnot, hheld⟩⟩
  · rw [if_neg hempty]
    obtain ⟨l', -, htaken, hmem, hnot, hheld⟩ := htake s os h hempty
    exact ⟨l', ⟨rfl, rfl, rfl, rfl, rfl, fun _ _ => rfl⟩, .inr ⟨hempty, htaken, hmem, hnot, hheld⟩⟩

end KHeap

end NarcOs
