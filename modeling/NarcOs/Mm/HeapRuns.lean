import NarcOs.Mm.HeapRanges

/-!
# The heap in every run

Whatever is allocated, freed and written, and whatever fails, the list, the large blocks
and the lost ranges tile the window.
-/

namespace NarcOs

namespace KHeap

variable {s t : KHeap} {ps os : List Nat} {p base pages size : Nat}

def Sound (s : KHeap) : Prop := ∃ ps os, s.Lists ps os ∧ s.Window ps (s.blocks ++ s.lost)

theorem Released.sound {r : Range} (h : Released s t r (s.blocks ++ s.lost)) : t.Sound := by
  obtain ⟨ps, os, hlists, hblocks, ⟨hlost, hw⟩ | ⟨hlost, hw⟩⟩ := h
  · rw [← hblocks, ← hlost] at hw
    exact ⟨ps, os, hlists, hw⟩
  · refine ⟨ps, os, hlists, ?_⟩
    rw [hblocks, hlost]
    exact hw.perm List.perm_middle.symm

-- ---------------------------------------------------------------------------
-- Large blocks
-- ---------------------------------------------------------------------------

theorem offset_lt {i n : Nat} (h : base + (i + (n + 1)) * pageSize < 2 ^ 64) : base + i * pageSize < 2 ^ 64 := by
  have hmono : i * pageSize ≤ (i + (n + 1)) * pageSize := Nat.mul_le_mul_right _ (Nat.le_add_right _ _)
  omega

theorem mapPages_cases {n i : Nat} {maps : List Bool} (h : base + (i + n) * pageSize < 2 ^ 64) :
    ∃ mapped maps', mapPages base n i maps = some (mapped, maps') ∧ mapped ≤ i + n := by
  induction n generalizing i maps with
  | zero => exact ⟨i, maps, rfl, le_rfl⟩
  | succ n ih =>
    have hlt := offset_lt h
    have hnext : i + (n + 1) = i + 1 + n := Nat.add_right_comm i n 1
    rw [hnext] at h ⊢
    unfold mapPages
    rw [mul64_eq (by omega), some_bind, add64_eq hlt, some_bind]
    match maps with
    | true :: rest =>
      obtain ⟨mapped, maps', hmap, hle⟩ := @ih (i + 1) rest h
      exact ⟨mapped, maps', hmap, hle⟩
    | false :: rest => exact ⟨i, rest, rfl, by omega⟩
    | [] => exact ⟨i, [], rfl, by omega⟩

theorem unmapPages_eq {n i : Nat} (h : base + (i + n) * pageSize < 2 ^ 64) : unmapPages base n i = some () := by
  induction n generalizing i with
  | zero => rfl
  | succ n ih =>
    have hlt := offset_lt h
    have hnext : i + (n + 1) = i + 1 + n := Nat.add_right_comm i n 1
    rw [hnext] at h
    unfold unmapPages
    rw [mul64_eq (by omega), some_bind, add64_eq hlt, some_bind]
    exact ih h

theorem Sound.largeAlloc (h : s.Sound) (size : Nat) : ∃ p t, s.largeAlloc size = some (p, t) ∧ t.Sound := by
  unfold KHeap.largeAlloc
  split
  · exact ⟨0, s, rfl, h⟩
  rename_i hsize
  have hfits : size + heapHeader + pageSize < 2 ^ 64 := by
    unfold heapHeader pageSize at *
    omega
  obtain ⟨ps, os, hl, hw⟩ := h
  rw [add64_eq (by omega), some_bind, add64_eq hfits, some_bind, sub64_eq (by unfold pageSize; omega), some_bind]
  dsimp only
  set pages := (size + heapHeader + pageSize - 1) / pageSize with hpages
  have hpos : 0 < pages := Nat.div_pos (by unfold heapHeader; omega) (by decide)
  obtain ⟨base, t, halloc, ⟨rfl, rfl, -, -⟩ | ⟨hbase, -, ps', os', hlt, hwt, hblocks, hlost⟩⟩ := windowAlloc_spec hl hw hpos
  · rw [halloc]
    exact ⟨0, t, rfl, ps, os, hl, hw⟩
  have hstop : base + pages * pageSize < 2 ^ 64 := hwt.stop_lt (List.mem_append_right _ List.mem_cons_self)
  obtain ⟨mapped, maps, hmap, hle⟩ := @mapPages_cases base pages 0 t.maps (by rwa [Nat.zero_add])
  rw [halloc, some_bind]
  dsimp only
  rw [if_neg hbase, hmap, some_bind]
  dsimp only
  have hlm : Lists { t with maps := maps } ps' os' := ⟨hlt.ranges, hlt.free, hlt.nodup, hlt.mem, hlt.held, hlt.zero⟩
  have hwm : Window { t with maps := maps } ps' (⟨base, pages⟩ :: (s.blocks ++ s.lost)) :=
    ⟨hwt.apart, hwt.good, hwt.tiles, hwt.base, hwt.next, hwt.stop⟩
  rw [← hblocks, ← hlost] at hwm
  by_cases hfail : mapped < pages
  · rw [if_pos hfail]
    have hmono : mapped * pageSize ≤ pages * pageSize := Nat.mul_le_mul_right _ hfail.le
    obtain ⟨u, hfree, hreleased⟩ := windowFree_spec hlm hwm
    rw [unmapPages_eq (by rw [Nat.zero_add]; omega), some_bind, hfree]
    exact ⟨0, u, rfl, hreleased.sound⟩
  · rw [if_neg hfail, add64_eq (by unfold heapHeader; unfold pageSize at hstop; omega), some_bind]
    exact ⟨_, _, rfl, ps', os', ⟨hlm.ranges, hlm.free, hlm.nodup, hlm.mem, hlm.held, hlm.zero⟩,
      ⟨hwm.apart, hwm.good, hwm.tiles, hwm.base, hwm.next, hwm.stop⟩⟩

theorem Sound.freeBlock {block : Range} (h : s.Sound) (hblock : block ∈ s.blocks) :
    ∃ t, s.freeBlock block = some t ∧ t.Sound := by
  obtain ⟨ps, os, hl, hw⟩ := h
  have hstop : block.base + block.pages * pageSize < 2 ^ 64 :=
    hw.stop_lt (List.mem_append_right _ (List.mem_append_left _ hblock))
  have hperm : (s.blocks ++ s.lost).Perm (block :: (s.blocks.erase block ++ s.lost)) :=
    (List.perm_cons_erase hblock).append_right s.lost
  have hle : Lists { s with blocks := s.blocks.erase block } ps os := ⟨hl.ranges, hl.free, hl.nodup, hl.mem, hl.held, hl.zero⟩
  have hwp := hw.perm hperm
  have hwe : Window { s with blocks := s.blocks.erase block } ps (block :: (s.blocks.erase block ++ s.lost)) :=
    ⟨hwp.apart, hwp.good, hwp.tiles, hwp.base, hwp.next, hwp.stop⟩
  obtain ⟨t, hfree, hreleased⟩ := windowFree_spec hle hwe
  unfold KHeap.freeBlock
  rw [unmapPages_eq (by rwa [Nat.zero_add]), some_bind]
  exact ⟨t, hfree, hreleased.sound⟩

-- ---------------------------------------------------------------------------
-- Objects of others
-- ---------------------------------------------------------------------------

theorem Sound.smallAlloc (h : s.Sound) : s.smallAlloc.2.Sound := by
  obtain ⟨ps, os, hl, hw⟩ := h
  obtain ⟨os', hsame, hcases⟩ := hl.smallAlloc
  have hwt := hw.same hsame
  rw [← hsame.blocks, ← hsame.lost] at hwt
  rcases hcases with ⟨-, hlt⟩ | ⟨-, hlt, -⟩
  · exact ⟨ps, os', hlt, hwt⟩
  · exact ⟨ps, os', hlt, hwt⟩

theorem Sound.hold (h : s.Sound) (hp : s.smallAlloc.1 ≠ 0) :
    Sound { s.smallAlloc.2 with held := insert s.smallAlloc.1 s.smallAlloc.2.held } := by
  obtain ⟨ps, os, hl, hw⟩ := h
  obtain ⟨os', hsame, ⟨hnone, -⟩ | ⟨-, hlt, hobject, hlists, -⟩⟩ := hl.smallAlloc
  · exact absurd hnone hp
  have hwt := hw.same hsame
  rw [← hsame.blocks, ← hsame.lost] at hwt
  refine ⟨ps, os', ⟨hlt.ranges, hlt.free, hlt.nodup, fun q hq => ⟨(hlt.mem q hq).1, ?_⟩, ?_, hlt.zero⟩,
    ⟨hwt.apart, hwt.good, hwt.tiles, hwt.base, hwt.next, hwt.stop⟩⟩
  · rw [Finset.mem_insert, not_or]
    exact ⟨ne_of_mem_of_not_mem hq hlists, (hlt.mem q hq).2⟩
  · exact Finset.insert_subset hobject hlt.held

theorem Sound.write (h : s.Sound) (hp : p ∈ s.held) (c : Cell) : (s.setCell p c).Sound := by
  obtain ⟨ps, os, hl, hw⟩ := h
  have hne : ∀ q ∈ ps ++ os, q ≠ p := fun q hq heq => (hl.mem q hq).2 (heq ▸ hp)
  have hcell : ∀ q ∈ ps ++ os, (s.setCell p c).cell q = s.cell q := fun q hq => setCell_of_ne (hne q hq)
  refine ⟨ps, os, ⟨hl.ranges.congr fun q hq => ?_, hl.free.congr fun q hq => ?_, hl.nodup, hl.mem, hl.held, hl.zero⟩, ?_⟩
  · rw [nextRange, hcell q (List.mem_append_left os hq), nextRange]
  · rw [nextObject, hcell q (List.mem_append_right ps hq), nextObject]
  · exact hw.same ⟨rfl, rfl, rfl, rfl, rfl, fun q hq => hcell q (List.mem_append_left os hq)⟩

theorem Sound.giveBack (h : s.Sound) (hp : p ∈ s.held) : (freeObject { s with held := s.held.erase p } p).Sound := by
  obtain ⟨ps, os, hl, hw⟩ := h
  have hle : Lists { s with held := s.held.erase p } ps os :=
    ⟨hl.ranges, hl.free, hl.nodup, fun q hq => ⟨(hl.mem q hq).1, fun hmem => (hl.mem q hq).2 (Finset.mem_of_mem_erase hmem)⟩,
      (Finset.erase_subset p s.held).trans hl.held, hl.zero⟩
  have hwe : Window { s with held := s.held.erase p } ps (s.blocks ++ s.lost) :=
    ⟨hw.apart, hw.good, hw.tiles, hw.base, hw.next, hw.stop⟩
  obtain ⟨hlt, hsame⟩ := hle.freeObject (hl.held hp) (fun hmem => (hl.mem p hmem).2 hp) (Finset.notMem_erase p s.held)
  exact ⟨ps, p :: os, hlt, hwe.same hsame⟩

-- ---------------------------------------------------------------------------
-- Runs
-- ---------------------------------------------------------------------------

theorem vmmKernelWindow_good (m : Machine) : 0 < (vmmKernelWindow m).1 ∧ pageSize ∣ (vmmKernelWindow m).1 ∧
    (vmmKernelWindow m).1 + (vmmKernelWindow m).2 < 2 ^ 64 := by
  cases m <;> decide

theorem heapInit_sound (m : Machine) (frames : List Nat) (maps : List Bool) : (heapInit m frames maps).Sound := by
  obtain ⟨hpos, haligned, hstop⟩ := vmmKernelWindow_good m
  refine ⟨[], [], ⟨.nil, .nil, List.nodup_nil, (fun p hp => by cases hp), Finset.empty_subset _, Finset.notMem_empty 0⟩,
    ⟨.nil, (fun r hr => by cases hr), fun x => ?_, ⟨hpos, haligned⟩, ⟨le_rfl, Nat.le_add_right _ _, haligned⟩, hstop⟩⟩
  have hempty : ¬((vmmKernelWindow m).1 ≤ x ∧ x < (vmmKernelWindow m).1) := by omega
  exact (if_neg hempty).symm

theorem Step.sound (h : Step s t) (hs : s.Sound) : t.Sound := by
  cases h with
  | kmalloc _ size p hclass hcall =>
    obtain ⟨p', t', hcall', ht⟩ := hs.largeAlloc size
    cases hcall.symm.trans hcall'
    exact ht
  | kfree _ block hblock hcall =>
    obtain ⟨t', hcall', ht⟩ := hs.freeBlock hblock
    cases hcall.symm.trans hcall'
    exact ht
  | kmallocObject u p hcall hp =>
    have hheld := hs.hold
    rw [hcall] at hheld
    exact hheld hp
  | kmallocFails _ hcall =>
    have hsmall := hs.smallAlloc
    rwa [hcall] at hsmall
  | write p c hp => exact hs.write hp c
  | kfreeObject p hp => exact hs.giveBack hp

theorem Steps.sound (h : Steps s t) (hs : s.Sound) : t.Sound := by
  induction h with
  | refl => exact hs
  | tail _ hstep ih => exact hstep.sound ih

/-- The list of free ranges is `ps`, it is sorted with gaps, and it has what is left of the
window by the blocks and the lost ranges. -/
structure Tiled (s : KHeap) (ps : List Nat) : Prop where
  list : Chain s.nextRange (pointer s.freeRanges) ps
  sorted : (ps.map fun p => (s.range p).base).Pairwise (· < ·)
  apart : (ps.map s.range).Pairwise fun r r' => r.base + r.pages * pageSize < r'.base
  ranges : ∀ r ∈ ps.map s.range, 0 < r.pages ∧ pageSize ∣ r.base ∧
    s.windowBase ≤ r.base ∧ r.base + r.pages * pageSize ≤ s.windowNext
  tiles : ∀ x, Span.cover (s.spans ps) x + Span.cover (s.blocks.map Range.span) x + Span.cover (s.lost.map Range.span) x =
    if s.windowBase ≤ x ∧ x < s.windowNext then 1 else 0

theorem Window.tiled (hl : s.Lists ps os) (hw : s.Window ps (s.blocks ++ s.lost)) : s.Tiled ps := by
  have hapart : (ps.map s.range).Pairwise fun r r' => r.base + r.pages * pageSize < r'.base := by
    have h := hw.apart
    unfold spans Span.Apart at h
    rw [List.pairwise_map] at h ⊢
    exact h
  refine ⟨hl.ranges, ?_, hapart, fun r hr => ?_, fun x => ?_⟩
  · rw [List.pairwise_map] at hapart ⊢
    exact hapart.imp fun h => (Nat.le_add_right _ _).trans_lt h
  · have hgood := hw.good r (List.mem_append_left _ hr)
    have hin := hw.inside (List.mem_append_left _ hr)
    exact ⟨hgood.1, hgood.2, hin.1, hin.2⟩
  · rw [Nat.add_assoc, ← Span.cover_append, ← List.map_append]
    exact hw.tiles x

theorem Window.out_disjoint {r r' : Range} {out : List Range} (h : s.Window ps (r :: out)) (hr' : r' ∈ out) :
    r'.base + r'.pages * pageSize ≤ r.base ∨ r.base + r.pages * pageSize ≤ r'.base := by
  have hr := h.good_out List.mem_cons_self
  refine Span.disjoint_of_cover (List.mem_map_of_mem hr' : r'.span ∈ out.map Range.span)
    (span_size_pos (h.good_out (List.mem_cons_of_mem r hr')).1) (span_size_pos hr.1) fun x hx => ?_
  have htiles := h.tiles x
  have hsplit : Span.cover ((r :: out).map Range.span) x = Span.cover [r.span] x + Span.cover (out.map Range.span) x :=
    Span.cover_cons _ _ x
  have hone := Span.one_le_cover (List.mem_singleton_self r.span) hx
  rw [hsplit] at htiles
  split_ifs at htiles <;> omega

/-- In every run the free ranges, the blocks and the lost ranges tile the window, a range
is taken first-fit from what is free, and nothing wraps. -/
theorem window_tiled (m : Machine) (frames : List Nat) (maps : List Bool) (s : KHeap)
    (h : Steps (heapInit m frames maps) s) : ∃ ps, s.Tiled ps ∧
      (∀ pages, 0 < pages → ∃ base t, s.windowAlloc pages = some (base, t) ∧
        (base = 0 → (∀ p ∈ ps, (s.range p).pages < pages) ∧ (s.windowEnd - s.windowNext) / pageSize < pages) ∧
        (base ≠ 0 → s.FirstFit ps pages base ∧ ∀ r ∈ s.blocks ++ s.lost,
          r.base + r.pages * pageSize ≤ base ∨ base + pages * pageSize ≤ r.base)) ∧
      (∀ size, s.largeAlloc size ≠ none) ∧ ∀ block ∈ s.blocks, s.freeBlock block ≠ none := by
  have hs := h.sound (heapInit_sound m frames maps)
  obtain ⟨ps, os, hl, hw⟩ := id hs
  refine ⟨ps, hw.tiled hl, fun pages hpos => ?_, fun size => ?_, fun block hblock => ?_⟩
  · obtain ⟨base, t, halloc, hcases⟩ := windowAlloc_spec hl hw hpos
    refine ⟨base, t, halloc, fun hzero => ?_, fun hbase => ?_⟩
    · rcases hcases with ⟨-, -, hshort, hfull⟩ | ⟨hbase, -⟩
      · exact ⟨hshort, hfull⟩
      · exact absurd hzero hbase
    · rcases hcases with ⟨hzero, -⟩ | ⟨-, hfit, ps', os', -, hwt, -⟩
      · exact absurd hzero hbase
      · exact ⟨hfit, fun r hr => hwt.out_disjoint hr⟩
  · obtain ⟨p, t, hcall, -⟩ := hs.largeAlloc size
    rw [hcall]
    exact Option.some_ne_none _
  · obtain ⟨t, hcall, -⟩ := hs.freeBlock hblock
    rw [hcall]
    exact Option.some_ne_none _

theorem window_tiled_one : ∃ s ps, Steps (heapInit .x86_64 [] [true]) s ∧ s.blocks = [⟨0xffffe00000000000, 1⟩] ∧ s.Tiled ps := by
  have hblocks : ((heapInit .x86_64 [] [true]).largeAlloc 4000).map (fun r => r.2.blocks) =
      some [⟨0xffffe00000000000, 1⟩] := by decide +kernel
  obtain ⟨⟨p, s⟩, hcall, hs⟩ := Option.map_eq_some_iff.mp hblocks
  have hrun : Steps (heapInit .x86_64 [] [true]) s := .single (.kmalloc _ _ 4000 p (by decide) hcall)
  obtain ⟨ps, htiled, -⟩ := window_tiled .x86_64 [] [true] s hrun
  exact ⟨s, ps, hrun, hs, htiled⟩

end KHeap

end NarcOs
