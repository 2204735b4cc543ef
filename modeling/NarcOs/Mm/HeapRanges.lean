import NarcOs.Mm.HeapWindow

/-!
# Taking a range and giving one back

`window_alloc` takes the first range that is long enough, so the lowest, or grows the
window, and `window_free` joins a range to its neighbours or inserts it. No number of
pages and no address wraps on the way, and the ranges tile the window as before.
-/

namespace NarcOs

namespace KHeap

variable {s t : KHeap} {ps os pre suf : List Nat} {out : List Range} {p q base pages : Nat}

theorem Window.same (h : s.Window ps out) (hs : t.SameRanges s ps) : t.Window ps out := by
  have hrange : ∀ p ∈ ps, t.range p = s.range p := fun p hp => by rw [range, hs.cell p hp, range]
  have hspans : t.spans ps = s.spans ps := spans_congr hrange
  have hranges : ps.map t.range = ps.map s.range := List.map_congr_left hrange
  refine ⟨?_, ?_, ?_, ?_, ?_, ?_⟩
  · rw [hspans]
    exact h.apart
  · rw [hranges]
    exact h.good
  · rw [hspans, hs.windowBase, hs.windowNext]
    exact h.tiles
  · rw [hs.windowBase]
    exact h.base
  · rw [hs.windowBase, hs.windowNext, hs.windowEnd]
    exact h.next
  · rw [hs.windowEnd]
    exact h.stop

theorem Window.perm {out' : List Range} (h : s.Window ps out) (hp : out.Perm out') : s.Window ps out' := by
  refine ⟨h.apart, fun r hr => h.good r ?_, fun x => ?_, h.base, h.next, h.stop⟩
  · simpa only [List.mem_append, hp.mem_iff] using hr
  · rw [← Span.cover_perm (hp.map Range.span)]
    exact h.tiles x

theorem Window.relist {ps' : List Nat} {out' : List Range} (h : s.Window ps out) (hs : t.SameRanges s [])
    (hapart : Span.Apart (t.spans ps')) (hgood : ∀ r ∈ ps'.map t.range ++ out', 0 < r.pages ∧ pageSize ∣ r.base)
    (hcover : ∀ x, Span.cover (t.spans ps') x + Span.cover (out'.map Range.span) x =
      Span.cover (s.spans ps) x + Span.cover (out.map Range.span) x) : t.Window ps' out' := by
  refine ⟨hapart, hgood, fun x => ?_, ?_, ?_, ?_⟩
  · rw [hcover, hs.windowBase, hs.windowNext]
    exact h.tiles x
  · rw [hs.windowBase]
    exact h.base
  · rw [hs.windowBase, hs.windowNext, hs.windowEnd]
    exact h.next
  · rw [hs.windowEnd]
    exact h.stop

theorem Window.stop_lt {r : Range} (h : s.Window ps out) (hr : r ∈ ps.map s.range ++ out) :
    r.base + r.pages * pageSize < 2 ^ 64 := by
  have hin := (h.inside hr).2
  have hnext := h.next.2.1
  have hstop := h.stop
  omega

theorem cover_middle (pre suf : List Span) (a : Span) (x : Nat) :
    Span.cover (pre ++ a :: suf) x = Span.cover pre x + Span.cover [a] x + Span.cover suf x := by
  rw [Span.cover_append, Span.cover_cons a suf]
  omega

-- ---------------------------------------------------------------------------
-- Taking a range
-- ---------------------------------------------------------------------------

theorem windowAllocFrom_cases {k : Nat} (h : s.Lists (pre ++ suf) os) (hpre : ∀ p ∈ pre, (s.cell p).second < pages)
    (hk : suf.length < k) :
    ((∀ p ∈ pre ++ suf, (s.cell p).second < pages) ∧
      s.windowAllocFrom pages k (last pre) (first suf) = s.windowExtend pages) ∨
    ∃ pre' p suf', pre ++ suf = pre' ++ p :: suf' ∧ (∀ q ∈ pre', (s.cell q).second < pages) ∧
      pages ≤ (s.cell p).second ∧ s.windowAllocFrom pages k (last pre) (first suf) = s.windowTake pages (last pre') p := by
  induction k generalizing pre suf with
  | zero => omega
  | succ k ih =>
    rw [windowAllocFrom]
    cases suf with
    | nil =>
      left
      refine ⟨fun p hp => hpre p (by simpa using hp), ?_⟩
      exact if_pos rfl
    | cons p suf =>
      have hfirst : first (p :: suf) = p := rfl
      rw [hfirst, if_neg (h.ne_zero (by simp))]
      by_cases hshort : (s.cell p).second < pages
      · have hsplit : pre ++ p :: suf = pre ++ [p] ++ suf := by simp
        have hnext := ih (hsplit ▸ h) (fun q hq => by
          rcases List.mem_append.mp hq with hq | hq
          · exact hpre q hq
          · rw [List.mem_singleton.mp hq]
            exact hshort) (by simpa using hk)
        rw [if_pos hshort, h.third_eq, hsplit]
        rwa [last_append] at hnext
      · right
        exact ⟨pre, p, suf, rfl, hpre, by omega, by rw [if_neg hshort]⟩

theorem setCell_setCell (s : KHeap) (p : Nat) (c d : Cell) : (s.setCell p c).setCell p d = s.setCell p d := by
  unfold setCell
  rw [Function.update_idem]

theorem setPages_setBase (s : KHeap) (p base pages : Nat) :
    (s.setBase p base).setPages p pages = s.setCell p ⟨base, pages, (s.cell p).third⟩ := by
  rw [setPages, setBase, setCell_self, setCell_setCell]

theorem range_setCell_self (s : KHeap) (p : Nat) (c : Cell) : (s.setCell p c).range p = ⟨c.first, c.second⟩ := by
  rw [range, setCell_self]

theorem range_setCell_of_ne {c : Cell} (h : q ≠ p) : (s.setCell p c).range q = s.range q := by
  rw [range, setCell_of_ne h, range]

theorem setCell_sameRanges (s : KHeap) (p : Nat) (c : Cell) : (s.setCell p c).SameRanges s [] :=
  ⟨rfl, rfl, rfl, rfl, rfl, fun _ h => by cases h⟩

theorem spans_middle (s : KHeap) (pre suf : List Nat) (p : Nat) :
    s.spans (pre ++ p :: suf) = s.spans pre ++ (s.range p).span :: s.spans suf := by
  rw [spans_append, spans_cons]

theorem Lists.notMem (h : s.Lists (pre ++ p :: suf) os) : p ∉ pre ++ suf ∧ p ∉ pre ++ suf ++ os := by
  have hnot : p ∉ pre ++ (suf ++ os) := by
    have hnodup := h.nodup
    rw [List.append_assoc, List.cons_append] at hnodup
    exact (List.nodup_cons.mp (List.nodup_middle.mp hnodup)).1
  rw [← List.append_assoc] at hnot
  exact ⟨fun hmem => hnot (List.mem_append_left os hmem), hnot⟩

theorem spans_setCell {c : Cell} (h : p ∉ pre ++ suf) :
    (s.setCell p c).spans (pre ++ p :: suf) = s.spans pre ++ (Range.mk c.first c.second).span :: s.spans suf := by
  rw [spans_middle, range_setCell_self]
  congr 1
  · exact spans_congr fun q hq => range_setCell_of_ne (ne_of_mem_of_not_mem (List.mem_append_left suf hq) h)
  · congr 1
    exact spans_congr fun q hq => range_setCell_of_ne (ne_of_mem_of_not_mem (List.mem_append_right pre hq) h)

theorem Lists.drop (h : s.Lists (pre ++ p :: suf) os) :
    ((s.setLink (last pre) (s.cell p).third).freeObject p).Lists (pre ++ suf) (p :: os) ∧
      (∀ q ∈ pre ++ suf, ((s.setLink (last pre) (s.cell p).third).freeObject p).range q = s.range q) ∧
      ((s.setLink (last pre) (s.cell p).third).freeObject p).SameRanges s [] := by
  obtain ⟨hlists, hranges, hsame, hobjects, hheld⟩ := h.unlink
  have hmem := h.mem p (by simp)
  obtain ⟨hfreed, hsfreed⟩ := hlists.freeObject (hobjects ▸ hmem.1) h.notMem.2 (hheld ▸ hmem.2)
  refine ⟨hfreed, fun q hq => ?_, ?_⟩
  · rw [range, hsfreed.cell q hq]
    exact hranges q
  · exact ⟨hsfreed.windowBase.trans hsame.windowBase, hsfreed.windowEnd.trans hsame.windowEnd,
      hsfreed.windowNext.trans hsame.windowNext, hsfreed.blocks.trans hsame.blocks, hsfreed.lost.trans hsame.lost,
      fun _ h => by cases h⟩

theorem Window.good_of {ps' : List Nat} {out' : List Range} (hps : ∀ q ∈ ps', 0 < (t.range q).pages ∧ pageSize ∣ (t.range q).base)
    (hout : ∀ r ∈ out', 0 < r.pages ∧ pageSize ∣ r.base) : ∀ r ∈ ps'.map t.range ++ out', 0 < r.pages ∧ pageSize ∣ r.base := by
  intro r hr
  rcases List.mem_append.mp hr with hr | hr
  · obtain ⟨q, hq, rfl⟩ := List.mem_map.mp hr
    exact hps q hq
  · exact hout r hr

theorem Window.good_list (h : s.Window ps out) (hp : p ∈ ps) : 0 < (s.range p).pages ∧ pageSize ∣ (s.range p).base :=
  h.good _ (List.mem_append_left _ (List.mem_map_of_mem hp))

theorem Window.good_out (h : s.Window ps out) {r : Range} (hr : r ∈ out) : 0 < r.pages ∧ pageSize ∣ r.base :=
  h.good r (List.mem_append_right _ hr)

theorem Window.take (hl : s.Lists (pre ++ p :: suf) os) (hw : s.Window (pre ++ p :: suf) out) (hpos : 0 < pages)
    (hfit : pages ≤ (s.cell p).second) :
    ∃ t ps' os', s.windowTake pages (last pre) p = some ((s.cell p).first, t) ∧ t.Lists ps' os' ∧
      t.Window ps' (⟨(s.cell p).first, pages⟩ :: out) ∧ t.blocks = s.blocks ∧ t.lost = s.lost := by
  have hp : p ∈ pre ++ p :: suf := by simp
  obtain ⟨hpnot, -⟩ := hl.notMem
  have hstop : (s.cell p).first + (s.cell p).second * pageSize < 2 ^ 64 :=
    hw.stop_lt (List.mem_append_left _ (List.mem_map_of_mem hp))
  have hbase : pageSize ∣ (s.cell p).first := (hw.good_list hp).2
  obtain ⟨left, hleft⟩ := Nat.exists_eq_add_of_le hfit
  have hmul : (s.cell p).second * pageSize = pages * pageSize + left * pageSize := by rw [hleft, Nat.add_mul]
  have hold : s.spans (pre ++ p :: suf) =
      s.spans pre ++ ⟨(s.cell p).first, pages * pageSize + left * pageSize⟩ :: s.spans suf := by
    rw [spans_middle, ← hmul]
    rfl
  have hapart := hw.apart
  rw [hold] at hapart
  have hout : ∀ x, Span.cover (((⟨(s.cell p).first, pages⟩ : Range) :: out).map Range.span) x =
      Span.cover [⟨(s.cell p).first, pages * pageSize⟩] x + Span.cover (out.map Range.span) x := fun x =>
    Span.cover_cons _ _ x
  have hgoodOut : ∀ r ∈ (⟨(s.cell p).first, pages⟩ : Range) :: out, 0 < r.pages ∧ pageSize ∣ r.base := by
    intro r hr
    rcases List.mem_cons.mp hr with rfl | hr
    · exact ⟨hpos, hbase⟩
    · exact hw.good_out hr
  have hwhole : s.windowTake pages (last pre) p =
      if left = 0 then some ((s.cell p).first,
        ((s.setCell p ⟨(s.cell p).first + pages * pageSize, left, (s.cell p).third⟩).setLink (last pre)
          (s.cell p).third).freeObject p)
      else some ((s.cell p).first, s.setCell p ⟨(s.cell p).first + pages * pageSize, left, (s.cell p).third⟩) := by
    unfold windowTake
    dsimp only
    rw [mul64_eq (by omega), some_bind, add64_eq (by omega), some_bind, sub64_eq hfit, some_bind, setPages_setBase,
      setCell_self, hleft, Nat.add_sub_cancel_left]
  rw [hwhole]
  set u := s.setCell p ⟨(s.cell p).first + pages * pageSize, left, (s.cell p).third⟩ with hu
  have hlu : u.Lists (pre ++ p :: suf) os := hl.setRange hp _ _
  have hgoodOther : ∀ q ∈ pre ++ suf, 0 < (u.range q).pages ∧ pageSize ∣ (u.range q).base := by
    intro q hq
    rw [hu, range_setCell_of_ne (ne_of_mem_of_not_mem hq hpnot)]
    refine hw.good_list ?_
    simp only [List.mem_append, List.mem_cons] at hq ⊢
    tauto
  by_cases hall : left = 0
  · have hthird : (s.cell p).third = (u.cell p).third := by rw [hu, setCell_self]
    obtain ⟨hlists, hranges, hsame⟩ := hlu.drop
    rw [← hthird] at hlists hranges hsame
    rw [if_pos hall]
    refine ⟨_, pre ++ suf, p :: os, rfl, hlists, ?_, hsame.blocks, hsame.lost⟩
    have hkept : u.spans (pre ++ suf) = s.spans pre ++ s.spans suf := by
      rw [← spans_append]
      exact spans_congr fun q hq => range_setCell_of_ne (ne_of_mem_of_not_mem hq hpnot)
    refine hw.relist (hsame.trans (setCell_sameRanges s p _)) ?_ (Window.good_of (fun q hq => ?_) hgoodOut) fun x => ?_
    · rw [spans_congr hranges, hkept]
      exact hapart.remove
    · rw [hranges q hq]
      exact hgoodOther q hq
    · rw [spans_congr hranges, hkept, hout, hold, cover_middle, Span.cover_append, hall, Nat.zero_mul, Nat.add_zero]
      omega
  · rw [if_neg hall]
    refine ⟨u, pre ++ p :: suf, os, rfl, hlu, ?_, rfl, rfl⟩
    have hspans : u.spans (pre ++ p :: suf) =
        s.spans pre ++ ⟨(s.cell p).first + pages * pageSize, left * pageSize⟩ :: s.spans suf := spans_setCell hpnot
    refine hw.relist (setCell_sameRanges s p _) ?_ (Window.good_of (fun q hq => ?_) hgoodOut) fun x => ?_
    · rw [hspans]
      refine hapart.shrink (Nat.le_add_right _ _) ?_
      exact (Nat.add_assoc _ _ _).le
    · by_cases hqp : q = p
      · rw [hqp, hu, range_setCell_self]
        exact ⟨Nat.pos_of_ne_zero hall, Nat.dvd_add hbase (Nat.dvd_mul_left _ _)⟩
      · refine hgoodOther q ?_
        simp only [List.mem_append, List.mem_cons] at hq ⊢
        tauto
    · rw [hspans, hout, hold, cover_middle, cover_middle, Span.cover_split]
      omega

theorem Window.extend (hl : s.Lists ps os) (hw : s.Window ps out) (hpos : 0 < pages) :
    (pages > (s.windowEnd - s.windowNext) / pageSize ∧ s.windowExtend pages = some (0, s)) ∨
    ∃ t, s.windowExtend pages = some (s.windowNext, t) ∧ t.Lists ps os ∧ t.Window ps (⟨s.windowNext, pages⟩ :: out) ∧
      t.blocks = s.blocks ∧ t.lost = s.lost := by
  obtain ⟨hnext, hend, haligned⟩ := hw.next
  have hstop := hw.stop
  unfold windowExtend
  rw [sub64_eq hend, some_bind]
  by_cases hroom : pages > (s.windowEnd - s.windowNext) / pageSize
  · exact .inl ⟨hroom, if_pos hroom⟩
  right
  have hbytes : pages * pageSize ≤ s.windowEnd - s.windowNext :=
    (Nat.le_div_iff_mul_le (by decide)).mp (not_lt.mp hroom)
  rw [if_neg hroom, mul64_eq (by omega), some_bind, add64_eq (by omega), some_bind]
  refine ⟨_, rfl, ⟨hl.ranges, hl.free, hl.nodup, hl.mem, hl.held, hl.zero⟩, ⟨hw.apart, ?_, fun x => ?_, hw.base, ?_, hstop⟩,
    rfl, rfl⟩
  · refine Window.good_of (t := s) (fun q hq => hw.good_list hq) fun r hr => ?_
    rcases List.mem_cons.mp hr with rfl | hr
    · exact ⟨hpos, haligned⟩
    · exact hw.good_out hr
  · have htiles := hw.tiles x
    have hsplit := Span.cover_cons (Range.mk s.windowNext pages).span (out.map Range.span) x
    have hnew : Span.cover [(Range.mk s.windowNext pages).span] x =
        if s.windowNext ≤ x ∧ x < s.windowNext + pages * pageSize then 1 else 0 := Span.cover_singleton _ x
    change Span.cover (s.spans ps) x + Span.cover ((Range.mk s.windowNext pages).span :: out.map Range.span) x =
      if s.windowBase ≤ x ∧ x < s.windowNext + pages * pageSize then 1 else 0
    rw [hsplit, hnew]
    split_ifs at htiles ⊢ <;> omega
  · dsimp only
    exact ⟨by omega, by omega, Nat.dvd_add haligned (Nat.dvd_mul_left _ _)⟩

def FirstFit (s : KHeap) (ps : List Nat) (pages base : Nat) : Prop :=
  (∃ p ∈ ps, base = (s.range p).base ∧ pages ≤ (s.range p).pages ∧
    ∀ q ∈ ps, pages ≤ (s.range q).pages → base ≤ (s.range q).base) ∨
  (∀ q ∈ ps, (s.range q).pages < pages) ∧ base = s.windowNext

theorem Window.firstFit (hw : s.Window (pre ++ p :: suf) out) (hshort : ∀ q ∈ pre, (s.cell q).second < pages)
    (hfit : pages ≤ (s.cell p).second) : s.FirstFit (pre ++ p :: suf) pages (s.cell p).first := by
  refine .inl ⟨p, by simp, rfl, hfit, fun q hq hq' => ?_⟩
  have hapart := hw.apart
  rw [spans_middle] at hapart
  obtain ⟨-, -, -, hnext, -⟩ := Span.apart_append_cons.mp hapart
  rcases List.mem_append.mp hq with hq | hq
  · exact absurd hq' (not_le.mpr (hshort q hq))
  rcases List.mem_cons.mp hq with rfl | hq
  · exact le_rfl
  · have hgap := hnext (s.range q).span (List.mem_map.mpr ⟨q, hq, rfl⟩)
    exact (Nat.le_add_right _ _).trans hgap.le

theorem windowAlloc_spec (hl : s.Lists ps os) (hw : s.Window ps out) (hpos : 0 < pages) :
    ∃ base t, s.windowAlloc pages = some (base, t) ∧
      ((base = 0 ∧ t = s ∧ (∀ q ∈ ps, (s.range q).pages < pages) ∧ pages > (s.windowEnd - s.windowNext) / pageSize) ∨
        (base ≠ 0 ∧ s.FirstFit ps pages base ∧ ∃ ps' os', t.Lists ps' os' ∧ t.Window ps' (⟨base, pages⟩ :: out) ∧
          t.blocks = s.blocks ∧ t.lost = s.lost)) := by
  unfold windowAlloc
  have hloop := @windowAllocFrom_cases s os [] ps pages (s.objects.card + 1) hl
    (fun _ h => by cases h) (Nat.lt_succ_of_le hl.length_le)
  have hstart : first ps = s.freeRanges := hl.freeRanges_eq.symm
  rw [hstart] at hloop
  change _ ∨ _ at hloop
  rcases hloop with ⟨hshort, heq⟩ | ⟨pre, p, suf, hps, hshort, hfit, heq⟩
  · have heq' : s.windowAllocFrom pages (s.objects.card + 1) 0 s.freeRanges = s.windowExtend pages := heq
    rw [heq']
    rcases hw.extend hl hpos with ⟨hfull, hnone⟩ | ⟨t, hsome, hlt, hwt, hblocks, hlost⟩
    · exact ⟨0, s, hnone, .inl ⟨rfl, rfl, hshort, hfull⟩⟩
    · refine ⟨s.windowNext, t, hsome, .inr ⟨?_, .inr ⟨hshort, rfl⟩, ps, os, hlt, hwt, hblocks, hlost⟩⟩
      have := hw.base.1
      have := hw.next.1
      omega
  · have heq' : s.windowAllocFrom pages (s.objects.card + 1) 0 s.freeRanges = s.windowTake pages (last pre) p := heq
    rw [List.nil_append] at hps
    subst hps
    rw [heq']
    obtain ⟨t, ps', os', htake, hlt, hwt, hblocks, hlost⟩ := hw.take hl hpos hfit
    refine ⟨(s.cell p).first, t, htake, .inr ⟨?_, hw.firstFit hshort hfit, ps', os', hlt, hwt, hblocks, hlost⟩⟩
    have hin := (hw.inside (List.mem_append_left _ (List.mem_map_of_mem (by simp : p ∈ pre ++ p :: suf)))).1
    have hbase := hw.base.1
    exact (hbase.trans_le hin).ne'

-- ---------------------------------------------------------------------------
-- Giving a range back
-- ---------------------------------------------------------------------------

theorem place_cases {k : Nat} (h : s.Lists (pre ++ suf) os) (hpre : ∀ p ∈ pre, (s.cell p).first < base) (hk : suf.length < k) :
    ∃ pre' suf', pre ++ suf = pre' ++ suf' ∧ (∀ p ∈ pre', (s.cell p).first < base) ∧
      (∀ p, suf'.head? = some p → base ≤ (s.cell p).first) ∧
      s.place base k (last pre) (first suf) = some (last pre', first suf') := by
  induction k generalizing pre suf with
  | zero => omega
  | succ k ih =>
    rw [place]
    cases suf with
    | nil => exact ⟨pre, [], rfl, hpre, (fun _ h => by cases h), if_neg fun h => h.1 rfl⟩
    | cons p suf =>
      have hfirst : first (p :: suf) = p := rfl
      rw [hfirst]
      by_cases hlow : (s.cell p).first < base
      · have hsplit : pre ++ p :: suf = pre ++ [p] ++ suf := by simp
        have hnext := ih (hsplit ▸ h) (fun q hq => by
          rcases List.mem_append.mp hq with hq | hq
          · exact hpre q hq
          · rw [List.mem_singleton.mp hq]
            exact hlow) (by simpa using hk)
        rw [if_pos ⟨h.ne_zero (by simp), hlow⟩, h.third_eq, hsplit]
        rwa [last_append] at hnext
      · refine ⟨pre, p :: suf, rfl, hpre, fun q hq => ?_, if_neg fun h => hlow h.2⟩
        cases hq
        exact not_lt.mp hlow

def Released (s t : KHeap) (r : Range) (out : List Range) : Prop :=
  ∃ ps os, t.Lists ps os ∧ t.blocks = s.blocks ∧
    ((t.lost = s.lost ∧ t.Window ps out) ∨ (t.lost = r :: s.lost ∧ t.Window ps (r :: out)))

theorem endsAt_eq (hq : q ≠ 0) (hstop : (s.cell q).first + (s.cell q).second * pageSize < 2 ^ 64) (base : Nat) :
    s.endsAt q base = some (decide ((s.range q).span.stop = base)) := by
  unfold endsAt
  rw [if_neg hq, mul64_eq (by omega), some_bind, add64_eq hstop, some_bind]
  rfl

theorem endsAt_last (hl : s.Lists (pre ++ suf) os) (hw : s.Window (pre ++ suf) out) (base : Nat) :
    (∃ pre' q, pre = pre' ++ [q] ∧ (s.range q).span.stop = base ∧ s.endsAt (last pre) base = some true) ∨
    (∀ a, (s.spans pre).getLast? = some a → a.stop ≠ base) ∧ s.endsAt (last pre) base = some false := by
  rcases List.eq_nil_or_concat pre with rfl | ⟨pre, q, rfl⟩
  · exact .inr ⟨(fun a ha => by cases ha), rfl⟩
  rw [List.concat_eq_append] at *
  have hq : q ∈ pre ++ [q] ++ suf := by simp
  have heq := endsAt_eq (hl.ne_zero (List.mem_append_left os hq))
    (hw.stop_lt (List.mem_append_left _ (List.mem_map_of_mem hq))) base
  rw [last_append]
  by_cases hmeets : (s.range q).span.stop = base
  · exact .inl ⟨pre, q, rfl, hmeets, by rw [heq, decide_eq_true hmeets]⟩
  · refine .inr ⟨fun a ha => ?_, by rw [heq, decide_eq_false hmeets]⟩
    have hlast : (s.spans (pre ++ [q])).getLast? = some (s.range q).span := by
      rw [spans_append]
      exact List.getLast?_concat
    cases hlast.symm.trans ha
    exact hmeets

theorem Window.around (hw : s.Window (pre ++ suf) (⟨base, pages⟩ :: out)) (hpre : ∀ p ∈ pre, (s.cell p).first < base)
    (hhead : ∀ p, suf.head? = some p → base ≤ (s.cell p).first) :
    (∀ a ∈ s.spans pre, a.stop ≤ base) ∧ ∀ a ∈ s.spans suf, base + pages * pageSize ≤ a.start := by
  have hpos : 0 < pages * pageSize := Nat.mul_pos (hw.good_out List.mem_cons_self).1 (by decide)
  constructor
  · intro a ha
    obtain ⟨p, hp, rfl⟩ := List.mem_map.mp ha
    have hlow := hpre p hp
    rcases hw.disjoint (List.mem_append_left suf hp) with h | h
    · exact h
    · change base + pages * pageSize ≤ (s.cell p).first at h
      omega
  · have hhigh : ∀ p ∈ suf, base ≤ (s.cell p).first := by
      cases suf with
      | nil => exact fun p hp => by cases hp
      | cons q suf =>
        intro p hp
        have hq := hhead q rfl
        rcases List.mem_cons.mp hp with rfl | hp
        · exact hq
        · have hapart := hw.apart
          rw [spans_middle] at hapart
          obtain ⟨-, -, -, hnext, -⟩ := Span.apart_append_cons.mp hapart
          have hgap := hnext (s.range p).span (List.mem_map.mpr ⟨p, hp, rfl⟩)
          exact (hq.trans (Span.start_le_stop (s.range q).span)).trans hgap.le
    intro a ha
    obtain ⟨p, hp, rfl⟩ := List.mem_map.mp ha
    rcases hw.disjoint (List.mem_append_right pre hp) with h | h
    · have hrange : 0 < (s.range p).span.size := span_size_pos (hw.good_list (List.mem_append_right pre hp)).1
      have hp' := hhigh p hp
      change (s.cell p).first + (s.range p).span.size ≤ base at h
      omega
    · exact h

/-- One range on the list in place of those in the middle and one that was out. -/
theorem Window.join {mid : List Nat} {r v : Range} (hw : s.Window (pre ++ mid ++ suf) (r :: out)) (hs : t.SameRanges s [])
    (hranges : ∀ q ∈ pre ++ suf, t.range q = s.range q) (hv : t.range p = v) (hgood : 0 < v.pages ∧ pageSize ∣ v.base)
    (hprev : ∀ a ∈ s.spans pre, a.stop < v.base) (hnext : ∀ a ∈ s.spans suf, v.span.stop < a.start)
    (hcover : ∀ x, Span.cover [v.span] x = Span.cover (s.spans mid) x + Span.cover [r.span] x) :
    t.Window (pre ++ p :: suf) out := by
  have hspans : t.spans (pre ++ p :: suf) = s.spans pre ++ v.span :: s.spans suf := by
    rw [spans_middle, hv, spans_congr fun q hq => hranges q (List.mem_append_left suf hq),
      spans_congr fun q hq => hranges q (List.mem_append_right pre hq)]
  have hapart := hw.apart
  rw [spans_append, spans_append] at hapart
  refine hw.relist hs ?_ (Window.good_of (fun q hq => ?_) fun r' hr' => hw.good_out (List.mem_cons_of_mem r hr')) fun x => ?_
  · rw [hspans]
    exact hapart.left.left.middle hapart.right hprev hnext (Span.start_le_stop _)
  · by_cases hqp : q = p
    · rw [hqp, hv]
      exact hgood
    · have hq' : q ∈ pre ++ suf := by
        simp only [List.mem_append, List.mem_cons] at hq ⊢
        tauto
      rw [hranges q hq']
      refine hw.good_list ?_
      simp only [List.mem_append] at hq' ⊢
      tauto
  · have hout : Span.cover ((r :: out).map Range.span) x = Span.cover [r.span] x + Span.cover (out.map Range.span) x :=
      Span.cover_cons _ _ x
    rw [hspans, hout, cover_middle, hcover, spans_append, spans_append, Span.cover_append, Span.cover_append]
    omega

theorem setPages_setPages (s : KHeap) (p m n : Nat) : (s.setPages p m).setPages p n = s.setPages p n := by
  rw [setPages, setPages, setCell_self, setCell_setCell]
  rfl

theorem Window.joinPrev (hl : s.Lists (pre ++ q :: suf) os) (hw : s.Window (pre ++ q :: suf) (⟨base, pages⟩ :: out))
    (hmeets : (s.range q).span.stop = base) (hbehind : ∀ a ∈ s.spans suf, base + pages * pageSize ≤ a.start) :
    ∃ t, s.joinPrev pages q (first suf) = some t ∧ Released s t ⟨base, pages⟩ out := by
  have hend : (s.cell q).first + (s.cell q).second * pageSize = base := hmeets
  have hlt : base + pages * pageSize < 2 ^ 64 := hw.stop_lt (List.mem_append_right _ List.mem_cons_self)
  have hq : q ∈ pre ++ q :: suf := by simp
  have hq0 : q ≠ 0 := hl.ne_zero (List.mem_append_left os hq)
  obtain ⟨hqnot, -⟩ := hl.notMem
  have hprev : ∀ a ∈ s.spans pre, a.stop < (s.cell q).first := by
    have hapart := hw.apart
    rw [spans_middle] at hapart
    exact (Span.apart_append_cons.mp hapart).2.2.1
  have hgood := hw.good_list hq
  have hsum : ∀ n, ((s.cell q).second + n) * pageSize = (s.cell q).second * pageSize + n * pageSize := fun n => Nat.add_mul _ _ _
  have hfits : ∀ n, n ≤ n * pageSize := fun n => Nat.le_mul_of_pos_right n (by decide)
  have hother : ∀ (n q' : Nat), q' ≠ q → (s.setPages q n).cell q' = s.cell q' := fun n q' h => setCell_of_ne h
  have hself : ∀ n, (s.setPages q n).cell q = ⟨(s.cell q).first, n, (s.cell q).third⟩ := fun n => setCell_self _ _ _
  have hlists : ∀ n, (s.setPages q n).Lists (pre ++ q :: suf) os := fun n => hl.setRange hq _ _
  have htotal := hsum pages
  have htotal' := hfits ((s.cell q).second + pages)
  unfold KHeap.joinPrev
  rw [add64_eq (by omega), some_bind]
  -- the next range stays
  have hapart : (∀ a ∈ s.spans suf, base + pages * pageSize < a.start) →
      Released s (s.setPages q ((s.cell q).second + pages)) ⟨base, pages⟩ out := by
    intro hnext
    refine ⟨pre ++ q :: suf, os, hlists _, rfl, .inl ⟨rfl, ?_⟩⟩
    have hw' : s.Window (pre ++ [q] ++ suf) (⟨base, pages⟩ :: out) := by rwa [List.append_cons] at hw
    refine hw'.join (v := ⟨(s.cell q).first, (s.cell q).second + pages⟩) (setCell_sameRanges s q _) (fun q' hq' => ?_) ?_
      ⟨Nat.add_pos_left hgood.1 _, hgood.2⟩ hprev (fun a ha => ?_) fun x => ?_
    · exact range_setCell_of_ne (ne_of_mem_of_not_mem hq' hqnot)
    · rw [range, hself]
    · have hgap := hnext a ha
      change (s.cell q).first + ((s.cell q).second + pages) * pageSize < a.start
      omega
    · have hsplit := Span.cover_split (s.cell q).first ((s.cell q).second * pageSize) (pages * pageSize) x
      rw [← htotal, hend] at hsplit
      exact hsplit
  cases suf with
  | nil => exact ⟨_, rfl, hapart fun a ha => by cases ha⟩
  | cons n suf =>
    have hn : n ∈ pre ++ q :: n :: suf := by simp
    have hn0 : n ≠ 0 := hl.ne_zero (List.mem_append_left os hn)
    have hnq : n ≠ q := ne_of_mem_of_not_mem (by simp : n ∈ pre ++ n :: suf) hqnot
    have hfirst : first (n :: suf) = n := rfl
    have hstop : ((s.setPages q ((s.cell q).second + pages)).cell q).first +
        ((s.setPages q ((s.cell q).second + pages)).cell q).second * pageSize < 2 ^ 64 := by
      rw [hself]
      dsimp only
      omega
    rw [hfirst, if_neg hn0, endsAt_eq hq0 hstop, some_bind, hother _ n hnq]
    have hbound : ((s.setPages q ((s.cell q).second + pages)).range q).span.stop = base + pages * pageSize := by
      rw [range, hself]
      change (s.cell q).first + ((s.cell q).second + pages) * pageSize = _
      omega
    rw [hbound]
    by_cases hnext : base + pages * pageSize = (s.cell n).first
    · -- so does the next range
      have hnlt : (s.cell n).first + (s.cell n).second * pageSize < 2 ^ 64 :=
        hw.stop_lt (List.mem_append_left _ (List.mem_map_of_mem hn))
      have hwhole := hsum (pages + (s.cell n).second)
      have hmul := Nat.add_mul pages (s.cell n).second pageSize
      have hwhole' := hfits ((s.cell q).second + (pages + (s.cell n).second))
      rw [decide_eq_true hnext]
      dsimp only
      rw [if_pos rfl, hself]
      dsimp only
      rw [add64_eq (by omega), some_bind, setPages_setPages, Nat.add_assoc]
      set w := s.setPages q ((s.cell q).second + (pages + (s.cell n).second)) with hw'
      have hlw : w.Lists (pre ++ [q] ++ n :: suf) os := by
        rw [← List.append_cons]
        exact hlists _
      obtain ⟨hdropped, hranges, hsame⟩ := hlw.drop
      rw [last_append, setLink, if_neg hq0, hother _ n hnq, ← List.append_cons] at hdropped
      rw [last_append, setLink, if_neg hq0, hother _ n hnq] at hranges hsame
      refine ⟨_, rfl, pre ++ q :: suf, n :: os, hdropped, hsame.blocks, .inl ⟨hsame.lost, ?_⟩⟩
      have hmid : s.Window (pre ++ [q, n] ++ suf) (⟨base, pages⟩ :: out) := by
        rw [List.append_assoc]
        exact hw
      have hrest := hw.apart
      rw [List.append_cons, spans_middle] at hrest
      refine hmid.join (v := ⟨(s.cell q).first, (s.cell q).second + (pages + (s.cell n).second)⟩)
        (hsame.trans (setCell_sameRanges s q _)) (fun q' hq' => ?_) ?_ ⟨Nat.add_pos_left hgood.1 _, hgood.2⟩ hprev
        (fun a ha => ?_) fun x => ?_
      · have hq'' : q' ∈ pre ++ [q] ++ suf ∧ q' ∈ pre ++ n :: suf := by
          simp only [List.mem_append, List.mem_cons] at hq' ⊢
          tauto
        rw [hranges q' hq''.1]
        exact range_setCell_of_ne (ne_of_mem_of_not_mem hq''.2 hqnot)
      · rw [hranges q (by simp), range, hself]
      · have hgap := (Span.apart_append_cons.mp hrest).2.2.2.1 a ha
        change (s.cell n).first + (s.cell n).second * pageSize < a.start at hgap
        change (s.cell q).first + ((s.cell q).second + (pages + (s.cell n).second)) * pageSize < a.start
        omega
      · have hsplit := Span.cover_split (s.cell q).first ((s.cell q).second * pageSize)
          (pages * pageSize + (s.cell n).second * pageSize) x
        have hsplit' := Span.cover_split base (pages * pageSize) ((s.cell n).second * pageSize) x
        rw [hnext] at hsplit'
        rw [hend, hsplit', ← hmul, ← hwhole] at hsplit
        have hpair := Span.cover_cons (s.range q).span [(s.range n).span] x
        change Span.cover [⟨(s.cell q).first, ((s.cell q).second + (pages + (s.cell n).second)) * pageSize⟩] x =
          Span.cover [(s.range q).span, (s.range n).span] x + Span.cover [⟨base, pages * pageSize⟩] x
        rw [hsplit, hpair]
        change _ = Span.cover [⟨(s.cell q).first, (s.cell q).second * pageSize⟩] x +
          Span.cover [⟨(s.cell n).first, (s.cell n).second * pageSize⟩] x + _
        omega
    · rw [decide_eq_false hnext]
      have hrest := hw.apart
      rw [spans_middle] at hrest
      refine ⟨_, rfl, hapart ?_⟩
      refine (Span.apart_append_cons.mp hrest).2.1.gap_behind hbehind fun a ha => ?_
      cases ha
      exact Ne.symm hnext

theorem Window.joinNext {n : Nat} (hl : s.Lists (pre ++ n :: suf) os) (hw : s.Window (pre ++ n :: suf) (⟨base, pages⟩ :: out))
    (hprev : ∀ a ∈ s.spans pre, a.stop < base) (hmeets : base + pages * pageSize = (s.cell n).first) :
    ∃ t, s.joinNext base pages n = some t ∧ Released s t ⟨base, pages⟩ out := by
  have hn : n ∈ pre ++ n :: suf := by simp
  have hlt : (s.cell n).first + (s.cell n).second * pageSize < 2 ^ 64 :=
    hw.stop_lt (List.mem_append_left _ (List.mem_map_of_mem hn))
  have hsum : ((s.cell n).second + pages) * pageSize = (s.cell n).second * pageSize + pages * pageSize := Nat.add_mul _ _ _
  have hfits : (s.cell n).second + pages ≤ ((s.cell n).second + pages) * pageSize := Nat.le_mul_of_pos_right _ (by decide)
  have hgood := hw.good_out (List.mem_cons_self : (⟨base, pages⟩ : Range) ∈ ⟨base, pages⟩ :: out)
  unfold KHeap.joinNext
  rw [add64_eq (by omega), some_bind, setPages_setBase]
  refine ⟨_, rfl, pre ++ n :: suf, os, hl.setRange hn _ _, rfl, .inl ⟨rfl, ?_⟩⟩
  have hw' : s.Window (pre ++ [n] ++ suf) (⟨base, pages⟩ :: out) := by rwa [List.append_cons] at hw
  have hrest := hw.apart
  rw [spans_middle] at hrest
  refine hw'.join (v := ⟨base, (s.cell n).second + pages⟩) (setCell_sameRanges s n _) (fun q hq => ?_)
    (range_setCell_self s n _) ⟨Nat.add_pos_right _ hgood.1, hgood.2⟩ hprev (fun a ha => ?_) fun x => ?_
  · exact range_setCell_of_ne (ne_of_mem_of_not_mem hq hl.notMem.1)
  · have hgap := (Span.apart_append_cons.mp hrest).2.2.2.1 a ha
    change (s.cell n).first + (s.cell n).second * pageSize < a.start at hgap
    change base + ((s.cell n).second + pages) * pageSize < a.start
    omega
  · have hsplit := Span.cover_split base (pages * pageSize) ((s.cell n).second * pageSize) x
    rw [Nat.add_comm (pages * pageSize) _, ← hsum, hmeets] at hsplit
    exact hsplit.trans (Nat.add_comm _ _)

theorem Window.insertRange (hl : s.Lists (pre ++ suf) os) (hw : s.Window (pre ++ suf) (⟨base, pages⟩ :: out))
    (hprev : ∀ a ∈ s.spans pre, a.stop < base) (hnext : ∀ a ∈ s.spans suf, base + pages * pageSize < a.start) :
    Released s (s.insertRange base pages (last pre) (first suf)) ⟨base, pages⟩ out := by
  obtain ⟨os', hsame, halloc⟩ := hl.smallAlloc
  have hwu := hw.same hsame
  have hgood := hw.good_out (List.mem_cons_self : (⟨base, pages⟩ : Range) ∈ ⟨base, pages⟩ :: out)
  have hranges : ∀ q ∈ pre ++ suf, s.smallAlloc.2.range q = s.range q := fun q hq => by rw [range, hsame.cell q hq, range]
  unfold KHeap.insertRange
  generalize s.smallAlloc = result at hsame halloc hwu hranges ⊢
  obtain ⟨p, u⟩ := result
  dsimp only at hsame halloc hwu hranges ⊢
  rcases halloc with ⟨hnone, hlu⟩ | ⟨hsome, hlu, hobject, hlists, hheld⟩
  · -- without a descriptor
    rw [if_pos hnone]
    refine ⟨pre ++ suf, os', ⟨hlu.ranges, hlu.free, hlu.nodup, hlu.mem, hlu.held, hlu.zero⟩, hsame.blocks, .inr ⟨?_, ?_⟩⟩
    · rw [hsame.lost]
    · exact ⟨hwu.apart, hwu.good, hwu.tiles, hwu.base, hwu.next, hwu.stop⟩
  · rw [if_neg hsome]
    obtain ⟨hlinked, hothers, hnew, hrest⟩ := hlu.link hobject hlists hheld base pages
    refine ⟨pre ++ p :: suf, os', hlinked, hrest.blocks.trans hsame.blocks, .inl ⟨hrest.lost.trans hsame.lost, ?_⟩⟩
    have hwu' : u.Window (pre ++ [] ++ suf) (⟨base, pages⟩ :: out) := by rwa [List.append_nil]
    refine hwu'.join hrest hothers hnew hgood (fun a ha => ?_) (fun a ha => ?_) fun x => (Nat.zero_add _).symm
    · rw [spans_congr fun q hq => hranges q (List.mem_append_left suf hq)] at ha
      exact hprev a ha
    · rw [spans_congr fun q hq => hranges q (List.mem_append_right pre hq)] at ha
      exact hnext a ha

/-- `window_free` joins a range to what is on the list, or inserts it. -/
theorem windowFree_spec (hl : s.Lists ps os) (hw : s.Window ps (⟨base, pages⟩ :: out)) :
    ∃ t, s.windowFree base pages = some t ∧ Released s t ⟨base, pages⟩ out := by
  have hloop : ∃ pre suf, ps = pre ++ suf ∧ (∀ p ∈ pre, (s.cell p).first < base) ∧
      (∀ p, suf.head? = some p → base ≤ (s.cell p).first) ∧
      s.place base (s.objects.card + 1) 0 s.freeRanges = some (last pre, first suf) := by
    rw [hl.freeRanges_eq]
    exact @place_cases s os [] ps base _ hl (fun _ h => by cases h) (Nat.lt_succ_of_le hl.length_le)
  obtain ⟨pre, suf, rfl, hlow, hhigh, hplace⟩ := hloop
  obtain ⟨hbefore, hbehind⟩ := hw.around hlow hhigh
  have hlt : base + pages * pageSize < 2 ^ 64 := hw.stop_lt (List.mem_append_right _ List.mem_cons_self)
  unfold windowFree
  rw [hplace, some_bind]
  dsimp only
  rcases endsAt_last hl hw base with ⟨pre, q, rfl, hmeets, hends⟩ | ⟨hmeets, hends⟩
  · rw [hends, some_bind, if_pos rfl, last_append]
    rw [← List.append_cons] at hl hw
    exact hw.joinPrev hl hmeets hbehind
  rw [hends, some_bind, if_neg (by decide)]
  have hprev := hw.apart
  rw [spans_append] at hprev
  have hgap := hprev.left.gap_before hbefore hmeets
  cases suf with
  | nil => exact ⟨_, rfl, hw.insertRange hl hgap fun a ha => by cases ha⟩
  | cons n suf =>
    have hn0 : n ≠ 0 := hl.ne_zero (by simp)
    have hfirst : first (n :: suf) = n := rfl
    rw [hfirst, if_neg hn0, mul64_eq (by omega), some_bind, add64_eq hlt, some_bind, some_bind]
    by_cases hnext : base + pages * pageSize = (s.cell n).first
    · rw [decide_eq_true hnext, if_pos rfl]
      exact hw.joinNext hl hgap hnext
    · rw [decide_eq_false hnext, if_neg (by decide)]
      refine ⟨_, rfl, hw.insertRange hl hgap (hprev.right.gap_behind hbehind fun a ha => ?_)⟩
      cases ha
      exact Ne.symm hnext

end KHeap

end NarcOs
