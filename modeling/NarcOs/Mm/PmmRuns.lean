import NarcOs.Mm.PmmLaws

/-!
# The page allocator on any memory map

The rules of `Avail` are about the maps that the boot protocol promises. Here the
entries are arbitrary: unaligned, shorter than a page, at address 0 or at the top of
the address space. A region is left behind when the search for a page ends in it, so
an entry that is selected and has no page ends the search for that call, and the
pages of an entry at address 0 are never handed out.
-/

namespace NarcOs

structure IsPage (a : Nat) : Prop where
  pos : a ≠ 0
  aligned : a % 4096 = 0
  below : a + 4096 ≤ 2 ^ 64

theorem IsPage.disjoint {a b : Nat} (ha : IsPage a) (hb : IsPage b) (h : a ≠ b) : a + 4096 ≤ b ∨ b + 4096 ≤ a := by
  have := ha.aligned
  have := hb.aligned
  omega

structure EntriesOk (map : List MemmapEntry) : Prop where
  below : ∀ e ∈ map, e.base + e.length < 2 ^ 64
  disjoint : map.Pairwise fun e f => e.type = limineMemmapUsable → f.type = limineMemmapUsable → e.Disjoint f

theorem EntriesOk.apart {map : List MemmapEntry} (h : EntriesOk map) {e f : MemmapEntry} (he : e ∈ map) (hf : f ∈ map)
    (hne : e ≠ f) (hu : e.type = limineMemmapUsable) (hv : f.type = limineMemmapUsable) : e.Disjoint f := by
  have hsymm : Std.Symm fun e f : MemmapEntry =>
      e.type = limineMemmapUsable → f.type = limineMemmapUsable → e.Disjoint f :=
    ⟨fun _ _ hd hv hu => (hd hu hv).symm⟩
  exact h.disjoint.forall he hf hne hu hv

namespace MemmapEntry

def Selected (e : MemmapEntry) : Prop := e.type = limineMemmapUsable ∧ pageSize ≤ e.length

def Ready (e : MemmapEntry) : Prop :=
  alignUp e.base pageSize ≠ 0 ∧ wrap64 (alignUp e.base pageSize + pageSize) ≤ wrap64 (e.base + e.length)

instance (e : MemmapEntry) : Decidable e.Selected := inferInstanceAs (Decidable (_ ∧ _))
instance (e : MemmapEntry) : Decidable e.Ready := inferInstanceAs (Decidable (_ ∧ _))

structure Contains (e : MemmapEntry) (a : Nat) : Prop where
  usable : e.type = limineMemmapUsable
  pos : a ≠ 0
  aligned : a % 4096 = 0
  start : e.base ≤ a
  stop : a + 4096 ≤ e.base + e.length

end MemmapEntry

/-- Every entry that is selected without having a page stands behind all pages of the
map, its own included. -/
def PagesFirst (map : List MemmapEntry) : Prop :=
  ∀ passed e rest, map = passed ++ e :: rest → e.Selected → ¬ e.Ready → ∀ f ∈ e :: rest, ∀ a, ¬ f.Contains a

/-- Where the pages of a region end: at the top the sum in the test wraps, and the last
page of the address space is handed out with the region. -/
def stopOf (regionEnd : Nat) : Nat := if 2 ^ 64 - 4096 ≤ regionEnd then 2 ^ 64 else regionEnd

def regionPages (next regionEnd : Nat) : List Nat := if next = 0 then [] else framesIn next (stopOf regionEnd)

def MemmapEntry.pages (e : MemmapEntry) : List Nat :=
  if e.Selected then regionPages (alignUp e.base pageSize) (e.base + e.length) else []

theorem alignUp_page {x : Nat} (h : x + 4096 < 2 ^ 64) :
    alignUp x pageSize % 4096 = 0 ∧ x ≤ alignUp x pageSize ∧ alignUp x pageSize < x + 4096 := by
  simp only [alignUp, wrap64, pageSize]
  omega

theorem MemmapEntry.mem_pages {e : MemmapEntry} {a : Nat} (hb : e.base + e.length < 2 ^ 64) (ha : a ∈ e.pages) :
    e.Selected ∧ IsPage a ∧ e.base ≤ a ∧ a + 4096 ≤ stopOf (e.base + e.length) := by
  unfold pages regionPages at ha
  split at ha
  · rename_i hsel
    split at ha
    · cases ha
    · rename_i hne
      have hlen := hsel.2
      simp only [pageSize] at hlen
      obtain ⟨hal, hle, hlt⟩ := alignUp_page (x := e.base) (by omega)
      obtain ⟨h₁, h₂, h₃⟩ := mem_framesIn.mp ha
      have hstop : stopOf (e.base + e.length) ≤ 2 ^ 64 := by
        unfold stopOf
        split <;> omega
      exact ⟨hsel, ⟨by omega, by omega, by omega⟩, by omega, h₃⟩
  · cases ha

theorem MemmapEntry.contains_of_mem_pages {e : MemmapEntry} {a : Nat} (hb : e.base + e.length < 2 ^ 64)
    (ha : a ∈ e.pages) (hlow : a + 4096 < 2 ^ 64) : e.Contains a := by
  obtain ⟨hsel, hpage, hstart, hstop⟩ := mem_pages hb ha
  refine ⟨hsel.1, hpage.pos, hpage.aligned, hstart, ?_⟩
  have := hpage.aligned
  unfold stopOf at hstop
  split at hstop <;> omega

theorem MemmapEntry.Contains.mem_pages {e : MemmapEntry} {a : Nat} (hb : e.base + e.length < 2 ^ 64) (ha : e.Contains a)
    (hpos : e.base ≠ 0) : a ∈ e.pages := by
  have hstart := ha.start
  have hstop := ha.stop
  have hal := ha.aligned
  have hsel : e.Selected := ⟨ha.usable, by simp only [pageSize]; omega⟩
  obtain ⟨h₁, h₂, h₃⟩ := alignUp_page (x := e.base) (by omega)
  unfold pages regionPages
  rw [if_pos hsel, if_neg (by omega)]
  refine mem_framesIn.mpr ⟨by omega, by omega, ?_⟩
  unfold stopOf
  split <;> omega

theorem MemmapEntry.pages_of_not_ready {e : MemmapEntry} (hb : e.base + e.length < 2 ^ 64) (hsel : e.Selected)
    (h : ¬ e.Ready) : e.pages = [] := by
  have hlen := hsel.2
  simp only [pageSize] at hlen
  obtain ⟨h₁, h₂, h₃⟩ := alignUp_page (x := e.base) (by omega)
  unfold pages regionPages
  rw [if_pos hsel]
  split
  · rfl
  · rename_i hne
    refine framesIn_nil ?_
    have hw : ¬ wrap64 (alignUp e.base pageSize + 4096) ≤ wrap64 (e.base + e.length) := fun hle => h ⟨hne, hle⟩
    simp only [wrap64] at hw
    unfold stopOf
    split <;> omega

theorem nodup_pages {map : List MemmapEntry} (h : EntriesOk map) : (map.flatMap MemmapEntry.pages).Nodup := by
  refine List.nodup_flatMap.mpr ⟨fun e _ => ?_, h.disjoint.imp_of_mem fun {e f} he hf hd a ha hb => ?_⟩
  · unfold MemmapEntry.pages regionPages
    split
    · split
      · exact List.nodup_nil
      · exact nodup_framesIn _ _
    · exact List.nodup_nil
  · have hbe := h.below e he
    have hbf := h.below f hf
    obtain ⟨hse, -, h₁, h₂⟩ := MemmapEntry.mem_pages hbe ha
    obtain ⟨hsf, -, h₃, h₄⟩ := MemmapEntry.mem_pages hbf hb
    have hle := hse.2
    have hlf := hsf.2
    simp only [pageSize] at hle hlf
    have hdisj := hd hse.1 hsf.1
    unfold MemmapEntry.Disjoint at hdisj
    unfold stopOf at h₂ h₄
    -- two entries that reach the top page would share bytes
    split at h₂ <;> split at h₄ <;> omega

namespace Phys

def coming (p : Phys) : List Nat :=
  regionPages p.nextPhys p.regionEnd ++ (p.memmap.drop p.regionIndex).flatMap MemmapEntry.pages

structure Sane (p : Phys) (free : List Nat) : Prop where
  chain : Chain p.nextFree (ptr p.freeHead) free
  nodup : (free ++ p.coming).Nodup
  page : ∀ a ∈ free ++ p.coming, IsPage a
  below : ∀ e ∈ p.memmap.drop p.regionIndex, e.base + e.length < 2 ^ 64
  stop : p.regionEnd < 2 ^ 64
  next : p.nextPhys ≠ 0 → p.nextPhys % 4096 = 0 ∧ p.nextPhys + 4096 ≤ 2 ^ 64 ∧
    (p.regionEnd < 2 ^ 64 - 4096 → p.nextPhys + 4096 < 2 ^ 64)

variable {p q : Phys} {free : List Nat} {a : Nat}

theorem Sane.pageReady_iff (h : p.Sane free) :
    p.pageReady = true ↔ p.nextPhys ≠ 0 ∧ p.nextPhys + 4096 ≤ stopOf p.regionEnd := by
  have hstop := h.stop
  rw [pageReady, Bool.and_eq_true, decide_eq_true_iff, decide_eq_true_iff, wrap64, pageSize]
  refine and_congr_right fun hne => ?_
  obtain ⟨h₁, h₂, h₃⟩ := h.next hne
  unfold stopOf
  split <;> omega

theorem Sane.regionPages_nil (h : p.Sane free) (hr : ¬ p.pageReady = true) : regionPages p.nextPhys p.regionEnd = [] := by
  rw [h.pageReady_iff] at hr
  unfold regionPages
  split
  · rfl
  · exact framesIn_nil (by omega)

theorem nextFree_memset {b : Nat} (ha : IsPage a) (hb : IsPage b) (hne : a ≠ b) (m : Mem) :
    ptr ((m.memset b 0 pageSize).load64 a) = ptr (m.load64 a) := by
  have hd := ha.disjoint hb hne
  rw [Mem.load64_congr fun i hi => Mem.memset_apply_outside (by simp only [pageSize]; omega)]

theorem Sane.takePage (h : p.Sane free) (hr : p.pageReady = true) :
    p.takePage.1 ≠ 0 ∧ p.coming = p.takePage.1 :: p.takePage.2.coming ∧ p.takePage.2.Sane free := by
  obtain ⟨hne, hle⟩ := h.pageReady_iff.mp hr
  obtain ⟨h₁, h₂, h₃⟩ := h.next hne
  have hw : regionPages (wrap64 (p.nextPhys + pageSize)) p.regionEnd =
      framesIn (p.nextPhys + 4096) (stopOf p.regionEnd) := by
    have hstop : stopOf p.regionEnd ≤ 2 ^ 64 := by
      have := h.stop
      unfold stopOf
      split <;> omega
    unfold regionPages wrap64 pageSize
    by_cases htop : p.nextPhys + 4096 = 2 ^ 64
    · rw [htop, Nat.mod_self, if_pos rfl]
      exact (framesIn_nil (by omega)).symm
    · rw [Nat.mod_eq_of_lt (by omega), if_neg (by omega)]
  have hcoming : p.coming = p.takePage.1 :: p.takePage.2.coming := by
    simp only [coming, Phys.takePage, hw]
    rw [regionPages, if_neg hne, framesIn_cons hle, List.cons_append]
  have hnd := h.nodup
  have hpg := h.page
  rw [hcoming] at hnd hpg
  refine ⟨hne, hcoming, ?_⟩
  constructor
  · refine h.chain.congr fun b hb => ?_
    have hbn : b ≠ p.nextPhys := by
      rintro rfl
      exact List.disjoint_of_nodup_append hnd hb (by simp [Phys.takePage])
    exact nextFree_memset (h.page b (List.mem_append_left _ hb)) (hpg p.nextPhys (by simp [Phys.takePage])) hbn p.mem
  · exact hnd.sublist ((List.Sublist.refl free).append (List.sublist_cons_self _ _))
  · intro b hb
    refine hpg b ?_
    rcases List.mem_append.mp hb with hb | hb
    · exact List.mem_append_left _ hb
    · exact List.mem_append_right _ (List.mem_cons_of_mem _ hb)
  · exact h.below
  · exact h.stop
  · simp only [Phys.takePage, pageSize, wrap64]
    intro hz
    have hstop := h.stop
    unfold stopOf at hle
    split at hle <;> omega

theorem Sane.popFree (h : p.Sane free) (hne : p.freeHead ≠ 0) :
    ∃ rest, free = p.freeHead :: rest ∧ Sane { p with
      freeHead := p.mem.load64 p.freeHead
      mem := p.mem.memset p.freeHead 0 pageSize } rest := by
  have hchain := h.chain
  rw [ptr_of_ne hne] at hchain
  obtain ⟨rest, rfl, hc⟩ := Chain.some_iff.mp hchain
  have hnot : p.freeHead ∉ rest := (List.nodup_cons.mp hchain.nodup).1
  refine ⟨rest, rfl, ?_, (List.nodup_cons.mp h.nodup).2, fun b hb => h.page b (List.mem_cons_of_mem _ hb), h.below,
    h.stop, h.next⟩
  refine hc.congr fun b hb => ?_
  exact nextFree_memset (h.page b (by simp [hb])) (h.page p.freeHead (by simp)) (ne_of_mem_of_not_mem hb hnot) p.mem

theorem nextRegion_cases {es : List MemmapEntry} (hes : p.memmap.drop p.regionIndex = es) :
    (∃ k, nextRegion es p = { p with regionIndex := k } ∧ p.memmap.drop k = [] ∧ ∀ e ∈ es, ¬ e.Selected) ∨
    ∃ passed e rest k, es = passed ++ e :: rest ∧ (∀ f ∈ passed, ¬ f.Selected) ∧ e.Selected ∧
      p.memmap.drop k = rest ∧ nextRegion es p = { p with
        regionIndex := k
        nextPhys := alignUp e.base pageSize
        regionEnd := wrap64 (e.base + e.length) } := by
  induction es generalizing p with
  | nil => exact .inl ⟨p.regionIndex, rfl, hes, by simp⟩
  | cons e es ih =>
    have hdrop : p.memmap.drop (p.regionIndex + 1) = es := by
      rw [← List.drop_drop, hes, List.drop_one, List.tail_cons]
    rw [nextRegion]
    split
    · rename_i hskip
      have hnot : ¬ e.Selected := fun hs => hskip.elim (fun h => h hs.1) fun h => absurd hs.2 (not_le.mpr h)
      rcases ih (p := { p with regionIndex := p.regionIndex + 1 }) hdrop with
        ⟨k, hk, hend, hall⟩ | ⟨passed, f, rest, k, rfl, hpassed, hf, hk, hnext⟩
      · exact .inl ⟨k, hk, hend, List.forall_mem_cons.mpr ⟨hnot, hall⟩⟩
      · exact .inr ⟨e :: passed, f, rest, k, rfl, List.forall_mem_cons.mpr ⟨hnot, hpassed⟩, hf, hk, hnext⟩
    · rename_i huse
      simp only [not_or, not_not, not_lt] at huse
      exact .inr ⟨[], e, es, p.regionIndex + 1, rfl, by simp, huse, hdrop, rfl⟩

theorem flatMap_pages_nil {es : List MemmapEntry} (h : ∀ e ∈ es, ¬ e.Selected) : es.flatMap MemmapEntry.pages = [] := by
  rw [List.flatMap_eq_nil_iff]
  exact fun e he => if_neg (h e he)

inductive Searched (p q : Phys) : Prop
  | finished : q.coming = [] → q.memmap.drop q.regionIndex = [] → Searched p q
  | region (passed : List MemmapEntry) (e : MemmapEntry) (rest : List MemmapEntry) :
      p.memmap.drop p.regionIndex = passed ++ e :: rest → (∀ f ∈ passed, ¬ f.Selected) → e.Selected →
      q.memmap.drop q.regionIndex = rest → (q.pageReady = true ↔ e.Ready) → Searched p q

theorem Sane.nextRegion (h : p.Sane free) (hr : ¬ p.pageReady = true) :
    (nextRegion (p.memmap.drop p.regionIndex) p).Sane free ∧
      (nextRegion (p.memmap.drop p.regionIndex) p).coming = p.coming ∧
      (nextRegion (p.memmap.drop p.regionIndex) p).memmap = p.memmap ∧
      Searched p (nextRegion (p.memmap.drop p.regionIndex) p) := by
  have hregion := h.regionPages_nil hr
  rcases nextRegion_cases (p := p) rfl with ⟨k, hk, hend, hall⟩ | ⟨passed, e, rest, k, hes, hpassed, hsel, hk, hnext⟩
  · have hcoming : coming { p with regionIndex := k } = p.coming := by
      simp [coming, hend, flatMap_pages_nil hall]
    rw [hk]
    refine ⟨⟨h.chain, by rw [hcoming]; exact h.nodup, by rw [hcoming]; exact h.page, by simp [hend], h.stop, h.next⟩,
      hcoming, rfl, .finished ?_ hend⟩
    simp [coming, hend, hregion]
  · have hbelow := h.below e (by simp [hes])
    have hlen := hsel.2
    simp only [pageSize] at hlen
    obtain ⟨h₁, h₂, h₃⟩ := alignUp_page (x := e.base) (by omega)
    have hend : wrap64 (e.base + e.length) = e.base + e.length := Nat.mod_eq_of_lt hbelow
    have hcoming : coming { p with
        regionIndex := k
        nextPhys := alignUp e.base pageSize
        regionEnd := wrap64 (e.base + e.length) } = p.coming := by
      simp only [coming, hk, hend, hes, hregion, List.flatMap_append, List.flatMap_cons, flatMap_pages_nil hpassed,
        List.nil_append]
      rw [MemmapEntry.pages, if_pos hsel]
    rw [hnext]
    refine ⟨⟨h.chain, by rw [hcoming]; exact h.nodup, by rw [hcoming]; exact h.page, ?_, ?_, ?_⟩, hcoming, rfl,
      .region passed e rest hes hpassed hsel hk ?_⟩
    · intro f hf
      rw [hk] at hf
      exact h.below f (by simp [hes, hf])
    · rw [hend]
      exact hbelow
    · rw [hend]
      intro hne
      refine ⟨h₁, ?_, fun hlow => ?_⟩
      · dsimp only
        omega
      · dsimp only at hlow ⊢
        omega
    · simp only [pageReady, MemmapEntry.Ready, Bool.and_eq_true, decide_eq_true_eq]

-- ---------------------------------------------------------------------------
-- One call
-- ---------------------------------------------------------------------------

def Passes (p q : Phys) : Prop :=
  q.memmap.drop q.regionIndex = p.memmap.drop p.regionIndex ∨
    ∃ passed e rest, p.memmap.drop p.regionIndex = passed ++ e :: rest ∧ (∀ f ∈ passed, ¬ f.Selected) ∧ e.Ready ∧
      q.memmap.drop q.regionIndex = rest

theorem Sane.pmmAllocPage (h : p.Sane free) :
    (∃ q, p.pmmAllocPage = (0, q) ∧ free = [] ∧ q.Sane [] ∧ q.coming = p.coming ∧ q.memmap = p.memmap ∧
      Searched p q ∧ ¬ q.pageReady = true) ∨
    ∃ a q free', p.pmmAllocPage = (a, q) ∧ a ≠ 0 ∧ q.Sane free' ∧
      (↑(free ++ p.coming) : Multiset Nat) = a ::ₘ ↑(free' ++ q.coming) ∧ q.memmap = p.memmap ∧
      (free = [] → free' = []) ∧ Passes p q := by
  unfold Phys.pmmAllocPage
  split
  · rename_i hne
    obtain ⟨rest, hfree, hrest⟩ := h.popFree hne
    refine .inr ⟨_, _, rest, rfl, hne, hrest, ?_, rfl, fun hnil => ?_, .inl rfl⟩
    · rw [hfree]
      rfl
    · rw [hfree] at hnil
      cases hnil
  · rename_i hz
    have hfree : free = [] := by
      have hc := h.chain
      rw [not_not.mp hz] at hc
      exact Chain.nil_iff.mp hc
    split
    · rename_i hr
      obtain ⟨hne, hcoming, hsane⟩ := h.takePage hr
      refine .inr ⟨p.takePage.1, p.takePage.2, free, rfl, hne, hsane, ?_, rfl, fun hnil => hnil, .inl rfl⟩
      rw [hcoming, hfree, List.nil_append, List.nil_append, Multiset.cons_coe]
    · rename_i hr
      obtain ⟨hsane, hcoming, hmap, hsearch⟩ := h.nextRegion hr
      dsimp only
      split
      · rename_i hready
        obtain ⟨hne, htake, hsane'⟩ := hsane.takePage hready
        refine .inr ⟨Prod.fst (Phys.takePage _), Prod.snd (Phys.takePage _), free, rfl, hne, hsane', ?_, hmap, fun hnil => hnil, ?_⟩
        · rw [← hcoming, htake, hfree, List.nil_append, List.nil_append, Multiset.cons_coe]
        · cases hsearch with
          | finished hnone hend =>
            rw [htake] at hnone
            cases hnone
          | region passed e rest hes hpassed hsel hrest hiff =>
            exact .inr ⟨passed, e, rest, hes, hpassed, hiff.mp hready, hrest⟩
      · rename_i hready
        exact .inl ⟨_, rfl, hfree, hfree ▸ hsane, hcoming, hmap, hsearch, hready⟩

theorem Sane.pmmFreePage (h : p.Sane free) (ha : IsPage a) (hn : a ∉ free ++ p.coming) :
    (p.pmmFreePage a).Sane (a :: free) ∧ (p.pmmFreePage a).coming = p.coming ∧ (p.pmmFreePage a).memmap = p.memmap := by
  have hlt : p.freeHead < 2 ^ 64 := by
    by_cases hz : p.freeHead = 0
    · omega
    · have hc := h.chain
      rw [ptr_of_ne hz] at hc
      obtain ⟨rest, rfl, -⟩ := Chain.some_iff.mp hc
      have := (h.page p.freeHead (by simp)).below
      omega
  have hfr : p.pmmFreePage a = { p with mem := p.mem.store64 a p.freeHead, freeHead := a } := by
    unfold Phys.pmmFreePage
    rw [if_neg]
    simp [ha.pos, ha.aligned, pageSize]
  rw [hfr]
  refine ⟨⟨?_, List.nodup_cons.mpr ⟨hn, h.nodup⟩, List.forall_mem_cons.mpr ⟨ha, h.page⟩, h.below, h.stop, h.next⟩, rfl, rfl⟩
  simp only [ptr_of_ne ha.pos]
  refine .cons ?_
  have hlink : nextFree { p with mem := p.mem.store64 a p.freeHead, freeHead := a } a = ptr p.freeHead := by
    simp only [nextFree, Mem.load64_store64, Nat.mod_eq_of_lt hlt]
  rw [hlink]
  refine h.chain.congr fun b hb => ?_
  have hd := (h.page b (List.mem_append_left _ hb)).disjoint ha fun e => hn (e ▸ List.mem_append_left _ hb)
  unfold nextFree
  rw [Mem.load64_store64_of_disjoint (by omega)]

theorem Sane.setMem (h : p.Sane free) {m : Mem} (hm : ∀ b ∈ free, ∀ i < 8, m (b + i) = p.mem (b + i)) :
    Sane { p with mem := m } free :=
  ⟨h.chain.congr fun b hb => by unfold nextFree; rw [Mem.load64_congr (hm b hb)], h.nodup, h.page, h.below, h.stop, h.next⟩

-- ---------------------------------------------------------------------------
-- Runs
-- ---------------------------------------------------------------------------

/-- The runs of the allocator from `mm_init`, with the pages that are allocated. Only an
allocated page is freed, and what its owner writes to it is not the allocator's. -/
inductive PmmRun (map : List MemmapEntry) (mem : Mem) : Phys → Multiset Nat → Prop
  | init : PmmRun map mem (mmInit map mem []) 0
  | alloc {p out} : PmmRun map mem p out → p.pmmAllocPage.1 ≠ 0 →
      PmmRun map mem p.pmmAllocPage.2 (p.pmmAllocPage.1 ::ₘ out)
  | failed {p out} : PmmRun map mem p out → p.pmmAllocPage.1 = 0 → PmmRun map mem p.pmmAllocPage.2 out
  | free {p out a} : PmmRun map mem p out → a ∈ out → PmmRun map mem (p.pmmFreePage a) (out.erase a)
  | use {p out} (m : Mem) : PmmRun map mem p out →
      (∀ b, (∀ a ∈ out, b < a ∨ a + 4096 ≤ b) → m b = p.mem b) → PmmRun map mem { p with mem := m } out

def Exhausted (map : List MemmapEntry) (p : Phys) (out : Multiset Nat) : Prop :=
  p.pmmAllocPage.1 = 0 → ∀ e ∈ map, ∀ a, e.Contains a → a ∈ out

structure Accounts (map : List MemmapEntry) (p : Phys) (out : Multiset Nat) (free : List Nat) : Prop where
  memmap : p.memmap = map
  sane : p.Sane free
  total : (↑(free ++ p.coming) : Multiset Nat) + out = ↑(map.flatMap MemmapEntry.pages)

variable {map : List MemmapEntry} {mem : Mem} {out : Multiset Nat}

theorem accounts_init (h : EntriesOk map) (mem : Mem) : Accounts map (mmInit map mem []) 0 [] where
  memmap := rfl
  sane := by
    have hcoming : (mmInit map mem []).coming = map.flatMap MemmapEntry.pages := by
      simp [coming, mmInit, regionPages]
    refine ⟨.nil, ?_, ?_, h.below, by simp [mmInit], fun hne => absurd rfl hne⟩
    · rw [hcoming]
      exact nodup_pages h
    · intro a ha
      rw [List.nil_append, hcoming, List.mem_flatMap] at ha
      obtain ⟨e, he, ha⟩ := ha
      exact (MemmapEntry.mem_pages (h.below e he) ha).2.1
  total := by simp [coming, mmInit, regionPages]

theorem Accounts.apart (h : Accounts map p out free) (hmap : EntriesOk map) (ha : a ∈ out) :
    IsPage a ∧ a ∉ free ++ p.coming := by
  have hnd : (↑(free ++ p.coming) + out : Multiset Nat).Nodup := by
    rw [h.total]
    exact Multiset.coe_nodup.mpr (nodup_pages hmap)
  refine ⟨?_, fun hin => (Multiset.disjoint_left.mp (Multiset.nodup_add.mp hnd).2.2) (Multiset.mem_coe.mpr hin) ha⟩
  have hmem : a ∈ (↑(map.flatMap MemmapEntry.pages) : Multiset Nat) := by
    rw [← h.total]
    exact Multiset.mem_add.mpr (.inr ha)
  obtain ⟨e, he, hpage⟩ := List.mem_flatMap.mp (Multiset.mem_coe.mp hmem)
  exact (MemmapEntry.mem_pages (hmap.below e he) hpage).2.1

theorem PmmRun.accounts (hmap : EntriesOk map) (hrun : PmmRun map mem p out) : ∃ free, Accounts map p out free := by
  induction hrun with
  | init => exact ⟨[], accounts_init hmap mem⟩
  | @alloc p out _ hne ih =>
    obtain ⟨free, h⟩ := ih
    rcases h.sane.pmmAllocPage with ⟨q, hq, -⟩ | ⟨a, q, free', hq, -, hsane, htotal, hm, -⟩
    · rw [hq] at hne
      exact absurd rfl hne
    · rw [hq]
      refine ⟨free', hm.trans h.memmap, hsane, ?_⟩
      rw [← h.total, htotal, Multiset.add_cons, Multiset.cons_add]
  | @failed p out _ hz ih =>
    obtain ⟨free, h⟩ := ih
    rcases h.sane.pmmAllocPage with ⟨q, hq, rfl, hsane, hcoming, hm, -⟩ | ⟨a, q, free', hq, hne, -⟩
    · rw [hq]
      exact ⟨[], hm.trans h.memmap, hsane, by rw [hcoming]; exact h.total⟩
    · rw [hq] at hz
      exact absurd hz hne
  | @free p out a _ ha ih =>
    obtain ⟨free, h⟩ := ih
    obtain ⟨hpage, hn⟩ := h.apart hmap ha
    obtain ⟨hsane, hcoming, hm⟩ := h.sane.pmmFreePage hpage hn
    refine ⟨a :: free, hm.trans h.memmap, hsane, ?_⟩
    rw [hcoming, ← h.total, List.cons_append, ← Multiset.cons_coe, Multiset.cons_add, ← Multiset.add_cons,
      Multiset.cons_erase ha]
  | @use p out m _ hm ih =>
    obtain ⟨free, h⟩ := ih
    refine ⟨free, h.memmap, h.sane.setMem fun b hb i hi => hm _ fun a ha => ?_, h.total⟩
    obtain ⟨hpage, hn⟩ := h.apart hmap ha
    have hb' : b ∈ free ++ p.coming := List.mem_append_left _ hb
    have := (h.sane.page b hb').disjoint hpage (ne_of_mem_of_not_mem hb' hn)
    omega

-- ---------------------------------------------------------------------------
-- When the answer 0 is right
-- ---------------------------------------------------------------------------

theorem PmmRun.exhausted (hmap : EntriesOk map) (hfirst : PagesFirst map) (hrun : PmmRun map mem p out) :
    Exhausted map p out := by
  intro hz e he a ha
  obtain ⟨free, h⟩ := hrun.accounts hmap
  rcases h.sane.pmmAllocPage with ⟨q, hq, rfl, hsane, hcoming, hm, hsearch, hready⟩ | ⟨b, q, free', hq, hne, -⟩
  · have hbelow := hmap.below e he
    have hlow : a + 4096 < 2 ^ 64 := by
      have := ha.stop
      omega
    have hpos : e.base ≠ 0 := by
      intro hzero
      -- an entry at 0 is selected and not ready, and it has the page itself
      have hstop := ha.stop
      have hstart := ha.start
      have hsel : e.Selected := ⟨ha.usable, by simp only [pageSize]; omega⟩
      have hnot : ¬ e.Ready := fun hr => hr.1 (by rw [hzero]; rfl)
      obtain ⟨passed, rest, hsplit⟩ := List.append_of_mem he
      exact hfirst passed e rest hsplit hsel hnot e List.mem_cons_self a ha
    have hmem : a ∈ (([] ++ p.coming : List Nat) : Multiset Nat) + out := by
      rw [h.total]
      exact Multiset.mem_coe.mpr (List.mem_flatMap.mpr ⟨e, he, ha.mem_pages hbelow hpos⟩)
    rcases Multiset.mem_add.mp hmem with hin | hout
    · exfalso
      rw [List.nil_append, ← hcoming, Multiset.mem_coe] at hin
      cases hsearch with
      | finished hnone _ =>
        rw [hnone] at hin
        cases hin
      | region passed f rest hes hpassed hsel hrest hiff =>
        rw [coming, hsane.regionPages_nil hready, List.nil_append, hrest, List.mem_flatMap] at hin
        obtain ⟨g, hg, hpage⟩ := hin
        have hsplit : map = map.take p.regionIndex ++ passed ++ f :: rest := by
          rw [List.append_assoc, ← hes, h.memmap, List.take_append_drop]
        have hgmap : g ∈ map := by
          rw [hsplit]
          exact List.mem_append_right _ (List.mem_cons_of_mem _ hg)
        exact hfirst _ f rest hsplit hsel (mt hiff.mpr hready) g (List.mem_cons_of_mem _ hg) a
          (MemmapEntry.contains_of_mem_pages (hmap.below g hgmap) hpage hlow)
    · exact hout
  · rw [hq] at hz
    exact absurd hz hne

/-- The calls go through the map in order: before an entry without a page is reached, no
call has failed, and the one that reaches it does. -/
theorem PmmRun.drain (hrun : PmmRun map mem p out) (h : Accounts map p out []) {e : MemmapEntry}
    {rest : List MemmapEntry} (hsel : e.Selected) (hnot : ¬ e.Ready)
    (hahead : ∃ passed, p.memmap.drop p.regionIndex = passed ++ e :: rest) :
    ∃ q out', PmmRun map mem q out' ∧ Accounts map q out' [] ∧ q.pmmAllocPage.1 = 0 ∧
      ∃ passed, q.memmap.drop q.regionIndex = passed ++ e :: rest := by
  induction hk : p.coming.length generalizing p out with
  | zero =>
    rcases h.sane.pmmAllocPage with ⟨q, hq, -⟩ | ⟨a, q, free', hq, -, -, htotal, -⟩
    · exact ⟨p, out, hrun, h, by rw [hq], hahead⟩
    · have := congrArg Multiset.card htotal
      simp [List.eq_nil_of_length_eq_zero hk] at this
  | succ k ih =>
    rcases h.sane.pmmAllocPage with ⟨q, hq, -⟩ | ⟨a, q, free', hq, hne, hsane, htotal, hm, hfree, hpass⟩
    · exact ⟨p, out, hrun, h, by rw [hq], hahead⟩
    · have hnext := hrun.alloc (by rw [hq]; exact hne)
      rw [hq] at hnext
      rw [hfree rfl] at hsane htotal
      have hacc : Accounts map q (a ::ₘ out) [] := by
        refine ⟨hm.trans h.memmap, hsane, ?_⟩
        rw [← h.total, htotal, Multiset.add_cons, Multiset.cons_add]
      have hlen : q.coming.length = k := by
        have := congrArg Multiset.card htotal
        simp only [List.nil_append, Multiset.coe_card, Multiset.card_cons] at this
        omega
      refine ih hnext hacc ?_ hlen
      obtain ⟨passed, hes⟩ := hahead
      rcases hpass with hsame | ⟨passed', f, rest', hes', hpassed', hready, hrest'⟩
      · exact ⟨passed, hsame.trans hes⟩
      · rw [hes, List.append_eq_append_iff] at hes'
        rcases hes' with ⟨l, rfl, hl⟩ | ⟨l, rfl, hl⟩
        · -- the entry would be among those passed over, or the one that was taken
          cases l with
          | nil =>
            cases hl
            exact absurd hready hnot
          | cons g l =>
            cases hl
            exact absurd hsel (hpassed' e (by simp))
        · cases l with
          | nil =>
            cases hl
            exact absurd hready hnot
          | cons g l =>
            cases hl
            exact ⟨l, hrest'⟩

theorem exists_not_exhausted (hmap : EntriesOk map) (hfirst : ¬ PagesFirst map) (mem : Mem) :
    ∃ p out, PmmRun map mem p out ∧ ¬ Exhausted map p out := by
  simp only [PagesFirst, not_forall, not_not] at hfirst
  obtain ⟨passed, e, rest, hsplit, hsel, hnot, f, hf, a, ha⟩ := hfirst
  obtain ⟨p, out, hrun, h, hz, passed', hahead⟩ := PmmRun.drain .init (accounts_init hmap mem) hsel hnot
    ⟨passed, by simpa [mmInit] using hsplit⟩
  refine ⟨p, out, hrun, fun hex => ?_⟩
  have hfmap : f ∈ map := by
    rw [hsplit]
    exact List.mem_append_right _ hf
  have hout := hex hz f hfmap a ha
  obtain ⟨-, hn⟩ := h.apart hmap hout
  -- what is allocated is a page of some entry, and the entries are disjoint
  have hbelow := hmap.below f hfmap
  by_cases hpos : f.base = 0
  · have hmem : a ∈ (↑(map.flatMap MemmapEntry.pages) : Multiset Nat) := by
      rw [← h.total]
      exact Multiset.mem_add.mpr (.inr hout)
    obtain ⟨g, hg, hpage⟩ := List.mem_flatMap.mp (Multiset.mem_coe.mp hmem)
    obtain ⟨hgsel, -, hgstart, -⟩ := MemmapEntry.mem_pages (hmap.below g hg) hpage
    have hfg : f = g := by
      by_contra hne
      have hdisj := hmap.apart hfmap hg hne ha.usable hgsel.1
      have hlen := hgsel.2
      have := ha.stop
      unfold MemmapEntry.Disjoint at hdisj
      simp only [pageSize] at hlen
      omega
    subst hfg
    have hempty : f.pages = [] := MemmapEntry.pages_of_not_ready hbelow hgsel fun hr => hr.1 (by rw [hpos]; rfl)
    rw [hempty] at hpage
    cases hpage
  · refine hn (List.mem_append_right _ ?_)
    rw [coming, hahead, List.flatMap_append]
    exact List.mem_append_right _ (List.mem_append_right _
      (List.mem_flatMap.mpr ⟨f, hf, ha.mem_pages hbelow hpos⟩))

/-- When the allocator answers 0 only for want of pages. -/
theorem pmmAllocPage_exhausted_iff (hmap : EntriesOk map) (mem : Mem) :
    (∀ p out, PmmRun map mem p out → Exhausted map p out) ↔ PagesFirst map := by
  constructor
  · intro h
    by_contra hfirst
    obtain ⟨p, out, hrun, hnot⟩ := exists_not_exhausted hmap hfirst mem
    exact hnot (h p out hrun)
  · exact fun hfirst p out hrun => hrun.exhausted hmap hfirst

def onePage : List MemmapEntry := [⟨0x10000, 0x1000, limineMemmapUsable⟩]
def lastTaken : Phys := (mmInit onePage (fun _ => 0) []).pmmAllocPage.2

theorem pmmAllocPage_exhausted_last : lastTaken.pmmAllocPage.1 = 0 ∧
    ∀ e ∈ onePage, ∀ a, e.Contains a → a ∈ ({0x10000} : Multiset Nat) := by
  have hmap : EntriesOk onePage := ⟨by decide, List.pairwise_singleton _ _⟩
  have hfirst : PagesFirst onePage := by
    intro passed e rest hsplit hsel hnot
    have he : e ∈ onePage := by
      rw [hsplit]
      simp
    rw [onePage, List.mem_singleton] at he
    subst he
    exact absurd (by decide) hnot
  have hpage : (mmInit onePage (fun _ => 0) []).pmmAllocPage.1 = 0x10000 := by decide
  have hrun : PmmRun onePage (fun _ => 0) lastTaken {0x10000} := by
    have hstart : PmmRun onePage (fun _ => 0) _ 0 := .init
    have halloc := hstart.alloc (by rw [hpage]; decide)
    rwa [hpage] at halloc
  have hz : lastTaken.pmmAllocPage.1 = 0 := by decide
  exact ⟨hz, (pmmAllocPage_exhausted_iff hmap fun _ => 0).mpr hfirst _ _ hrun hz⟩

/-- A page-sized entry that is not aligned, and one with sixteen pages behind it: the
first call answers 0. -/
theorem pmmAllocPage_gives_up : ¬ ∀ map mem, EntriesOk map → ∀ p out, PmmRun map mem p out → Exhausted map p out := by
  intro h
  have hmap : EntriesOk [⟨0x1800, 0x1000, limineMemmapUsable⟩, ⟨0x10000, 0x10000, limineMemmapUsable⟩] :=
    ⟨by decide, by simp [MemmapEntry.Disjoint]⟩
  have hout := h _ (fun _ => 0) hmap _ _ .init (by rfl) ⟨0x10000, 0x10000, limineMemmapUsable⟩ (by simp) 0x10000
    ⟨rfl, by decide, by decide, by decide, by decide⟩
  exact Multiset.notMem_zero _ hout

end Phys

end NarcOs
