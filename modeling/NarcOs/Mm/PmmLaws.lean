import NarcOs.Lib.Chain
import NarcOs.Mm.Pmm

/-!
# What the page allocator owns

`Avail p A` says that the allocator's state is sound and that `A` is the
multiset of frames it may still hand out: the free list and the part of the
memory map it has not reached. An allocation moves one frame out of `A` and
zeroes it, a free moves one frame in, and a write to memory outside the frames
of `A` changes nothing. Everything else in the kernel uses only these rules.
-/

namespace NarcOs

/-- A frame the boot memory map may offer. The bound is the widest physical
address of the architecture, so that a frame fits the address field of a
page-table entry. -/
structure IsFrame (a : Nat) : Prop where
  pos : a ≠ 0
  aligned : a % 4096 = 0
  below : a + 4096 ≤ 2 ^ 52

theorem IsFrame.disjoint (ha : IsFrame a) (hb : IsFrame b) (h : a ≠ b) :
    a + 4096 ≤ b ∨ b + 4096 ≤ a := by
  have := ha.aligned
  have := hb.aligned
  omega

/-- What the boot protocol promises about a usable entry. -/
structure EntryOk (e : MemmapEntry) : Prop where
  base : e.base % 4096 = 0
  length : e.length % 4096 = 0
  pos : e.base ≠ 0
  below : e.base + e.length ≤ 2 ^ 52

def MemmapEntry.Disjoint (e f : MemmapEntry) : Prop :=
  e.base + e.length ≤ f.base ∨ f.base + f.length ≤ e.base

/-- The usable entries are page-aligned, avoid frame 0 and are pairwise disjoint. -/
structure MemmapOk (map : List MemmapEntry) : Prop where
  entry : ∀ e ∈ map, e.type = limineMemmapUsable → EntryOk e
  disjoint : map.Pairwise fun e f =>
    e.type = limineMemmapUsable → f.type = limineMemmapUsable → e.Disjoint f

def smallMap : List MemmapEntry := [⟨0x100000, 0x10000, limineMemmapUsable⟩]

theorem smallMap_ok : MemmapOk smallMap where
  entry := by
    intro e he _
    rw [smallMap, List.mem_singleton] at he
    subst he
    exact ⟨by decide, by decide, by decide, by decide⟩
  disjoint := List.pairwise_singleton _ _

def framesIn (start stop : Nat) : List Nat :=
  (List.range ((stop - start) / 4096)).map fun i => start + 4096 * i

theorem mem_framesIn : a ∈ framesIn s t ↔ s ≤ a ∧ (a - s) % 4096 = 0 ∧ a + 4096 ≤ t := by
  simp only [framesIn, List.mem_map, List.mem_range]
  constructor
  · rintro ⟨i, hi, rfl⟩
    omega
  · rintro ⟨h₁, h₂, h₃⟩
    exact ⟨(a - s) / 4096, by omega, by omega⟩

theorem nodup_framesIn (s t : Nat) : (framesIn s t).Nodup :=
  List.nodup_range.map fun i j h => by simpa using h

theorem framesIn_cons (h : s + 4096 ≤ t) : framesIn s t = s :: framesIn (s + 4096) t := by
  obtain ⟨n, hn⟩ : ∃ n, (t - s) / 4096 = n + 1 := ⟨(t - s) / 4096 - 1, by omega⟩
  have hn' : (t - (s + 4096)) / 4096 = n := by omega
  simp only [framesIn, hn, hn', List.range_succ_eq_map, List.map_cons, List.map_map]
  congr 1
  refine List.map_congr_left fun i _ => ?_
  simp only [Function.comp]
  omega

theorem framesIn_nil (h : t < s + 4096) : framesIn s t = [] := by
  simp [framesIn, show (t - s) / 4096 = 0 by omega]

def MemmapEntry.frames (e : MemmapEntry) : List Nat :=
  if e.type = limineMemmapUsable then framesIn e.base (e.base + e.length) else []

def ptr (n : Nat) : Option Nat := if n = 0 then none else some n

@[simp] theorem ptr_zero : ptr 0 = none := rfl
theorem ptr_of_ne (h : n ≠ 0) : ptr n = some n := if_neg h

namespace Phys

def nextFree (p : Phys) (a : Nat) : Option Nat := ptr (p.mem.load64 a)

def virgin (p : Phys) : List Nat :=
  framesIn p.nextPhys p.regionEnd ++ (p.memmap.drop p.regionIndex).flatMap MemmapEntry.frames

structure Ok (p : Phys) (free : List Nat) : Prop where
  chain : Chain p.nextFree (ptr p.freeHead) free
  nodup : (free ++ p.virgin).Nodup
  frame : ∀ a ∈ free ++ p.virgin, IsFrame a
  entry : ∀ e ∈ p.memmap.drop p.regionIndex, e.type = limineMemmapUsable → EntryOk e
  region : (p.nextPhys = 0 ∧ p.regionEnd = 0) ∨
    (p.nextPhys ≠ 0 ∧ p.nextPhys % 4096 = 0 ∧ p.nextPhys ≤ p.regionEnd ∧ p.regionEnd ≤ 2 ^ 52)

def Avail (p : Phys) (A : Multiset Nat) : Prop :=
  ∃ free, p.Ok free ∧ A = ↑(free ++ p.virgin)

variable {p p' : Phys} {A : Multiset Nat} {a : Nat}

theorem Avail.nodup (h : p.Avail A) : A.Nodup := by
  obtain ⟨free, ok, rfl⟩ := h
  exact Multiset.coe_nodup.mpr ok.nodup

theorem Avail.unique {B : Multiset Nat} (h : p.Avail A) (h' : p.Avail B) : A = B := by
  obtain ⟨free, hok, rfl⟩ := h
  obtain ⟨free', hok', rfl⟩ := h'
  rw [hok.chain.unique hok'.chain]

theorem Avail.isFrame (h : p.Avail A) (ha : a ∈ A) : IsFrame a := by
  obtain ⟨free, ok, rfl⟩ := h
  exact ok.frame a (Multiset.mem_coe.mp ha)

-- ---------------------------------------------------------------------------
-- Boot
-- ---------------------------------------------------------------------------

theorem MemmapEntry_frames_isFrame (h : e.type = limineMemmapUsable → EntryOk e)
    (ha : a ∈ MemmapEntry.frames e) : IsFrame a ∧ e.type = limineMemmapUsable ∧
      e.base ≤ a ∧ a + 4096 ≤ e.base + e.length := by
  unfold MemmapEntry.frames at ha
  split at ha
  · rename_i hu
    obtain ⟨h₁, h₂, h₃⟩ := mem_framesIn.mp ha
    have he := h hu
    have := he.base
    have := he.pos
    have := he.below
    exact ⟨⟨by omega, by omega, by omega⟩, hu, h₁, h₃⟩
  · cases ha

theorem nodup_flatMap_frames (h : MemmapOk map) : (map.flatMap MemmapEntry.frames).Nodup := by
  refine List.nodup_flatMap.mpr ⟨fun e _ => ?_, h.disjoint.imp_of_mem fun he hf hd a ha hb => ?_⟩
  · unfold MemmapEntry.frames
    split
    · exact nodup_framesIn _ _
    · exact List.nodup_nil
  · obtain ⟨-, hu, h₁, h₂⟩ := MemmapEntry_frames_isFrame (h.entry _ he) ha
    obtain ⟨-, hv, h₃, h₄⟩ := MemmapEntry_frames_isFrame (h.entry _ hf) hb
    rcases hd hu hv with h | h <;> omega

theorem virgin_mmInit {m : Mem} {ds : List Bool} : (mmInit map m ds).virgin = map.flatMap MemmapEntry.frames := by
  simp [virgin, mmInit, framesIn]

theorem avail_mmInit {m : Mem} {ds : List Bool} (h : MemmapOk map) :
    (mmInit map m ds).Avail ↑(map.flatMap MemmapEntry.frames) := by
  refine ⟨[], ⟨.nil, ?_, ?_, h.entry, .inl ⟨rfl, rfl⟩⟩, by simp [virgin_mmInit]⟩
  · simpa [virgin_mmInit] using nodup_flatMap_frames h
  · intro a ha
    simp only [List.nil_append, virgin_mmInit, List.mem_flatMap] at ha
    obtain ⟨e, he, ha⟩ := ha
    exact (MemmapEntry_frames_isFrame (h.entry e he) ha).1

-- ---------------------------------------------------------------------------
-- Memory writes
-- ---------------------------------------------------------------------------

theorem Ok.congr {free : List Nat} {m : Mem} (h : p.Ok free)
    (hm : ∀ a ∈ free, ∀ i < 8, m (a + i) = p.mem (a + i)) : Ok { p with mem := m } free where
  chain := h.chain.congr fun a ha => by
    unfold nextFree
    rw [Mem.load64_congr (hm a ha)]
  nodup := h.nodup
  frame := h.frame
  entry := h.entry
  region := h.region

/-- Memory outside the available frames is the rest of the kernel's to write. -/
theorem Avail.setMem {m : Mem} (h : p.Avail A)
    (hm : ∀ a ∈ A, ∀ i < 4096, m (a + i) = p.mem (a + i)) : Avail { p with mem := m } A := by
  obtain ⟨free, ok, rfl⟩ := h
  refine ⟨free, ok.congr fun a ha i hi => hm a ?_ i (by omega), rfl⟩
  exact Multiset.mem_coe.mpr (List.mem_append_left _ ha)

-- ---------------------------------------------------------------------------
-- Allocation
-- ---------------------------------------------------------------------------

theorem Ok.pageReady_iff {free : List Nat} (h : p.Ok free) :
    p.pageReady = true ↔ p.nextPhys ≠ 0 ∧ p.nextPhys + 4096 ≤ p.regionEnd := by
  have hr := h.region
  rw [pageReady, Bool.and_eq_true, decide_eq_true_iff, decide_eq_true_iff, wrap64, pageSize]
  omega

theorem Ok.takePage {free : List Nat} (h : p.Ok free) (hr : p.pageReady = true) :
    p.takePage.1 ≠ 0 ∧ p.takePage.2.mem = p.mem.memset p.takePage.1 0 4096 ∧
      p.takePage.2.Ok free ∧ p.virgin = p.takePage.1 :: p.takePage.2.virgin := by
  obtain ⟨hne, hle⟩ := h.pageReady_iff.mp hr
  have hreg := h.region
  have hw : wrap64 (p.nextPhys + 4096) = p.nextPhys + 4096 := by
    unfold wrap64
    omega
  have hv : p.virgin = p.takePage.1 :: p.takePage.2.virgin := by
    simp only [virgin, Phys.takePage, pageSize, hw]
    rw [framesIn_cons hle, List.cons_append]
  have hnd := h.nodup
  have hfr := h.frame
  rw [hv] at hnd hfr
  refine ⟨hne, rfl, ?_, hv⟩
  have hnot : p.nextPhys ∉ free := fun hm =>
    (List.disjoint_of_nodup_append hnd) hm (by simp [Phys.takePage])
  constructor
  · -- the zeroed page is not on the free list
    refine h.chain.congr fun a ha => ?_
    have hf := h.frame a (List.mem_append_left _ ha)
    have hn : IsFrame p.nextPhys := hfr _ (by simp [Phys.takePage])
    have hd := hf.disjoint hn (fun e => hnot (e ▸ ha))
    unfold nextFree
    rw [Mem.load64_congr fun i hi => ?_]
    exact Mem.memset_apply_outside (by simp only [pageSize]; omega)
  · exact hnd.sublist ((List.Sublist.refl free).append (List.sublist_cons_self _ _))
  · exact fun a ha => hfr a (by
      rcases List.mem_append.mp ha with h | h
      · exact List.mem_append_left _ h
      · exact List.mem_append_right _ (List.mem_cons_of_mem _ h))
  · exact h.entry
  · right
    simp only [Phys.takePage, pageSize, hw]
    omega

theorem nextRegion_ok {free : List Nat} {es : List MemmapEntry} (h : p.Ok free)
    (hes : p.memmap.drop p.regionIndex = es) (hnr : ¬ p.pageReady = true) :
    (nextRegion es p).Ok free ∧ (nextRegion es p).virgin = p.virgin ∧
      (nextRegion es p).mem = p.mem ∧ (nextRegion es p).freeHead = p.freeHead ∧
      (nextRegion es p).denied = p.denied := by
  induction es generalizing p with
  | nil => exact ⟨h, rfl, rfl, rfl, rfl⟩
  | cons e es ih =>
    have hdrop : p.memmap.drop (p.regionIndex + 1) = es := by
      rw [← List.drop_drop, hes, List.drop_one, List.tail_cons]
    have hempty : framesIn p.nextPhys p.regionEnd = [] := by
      have := h.pageReady_iff.not.mp hnr
      have := h.region
      exact framesIn_nil (by omega)
    have hent : e.type = limineMemmapUsable → EntryOk e := h.entry e (by simp [hes])
    have hrest : ∀ f ∈ es, f.type = limineMemmapUsable → EntryOk f :=
      fun f hf => h.entry f (by simp [hes, hf])
    simp only [nextRegion]
    split
    · -- an entry that is skipped has no frames
      rename_i hskip
      have hfr : e.frames = [] := by
        unfold MemmapEntry.frames
        split
        · rename_i hu
          rcases hskip with hs | hs
          · exact absurd hu hs
          · exact framesIn_nil (by simp only [pageSize] at hs; omega)
        · rfl
      have hv : virgin { p with regionIndex := p.regionIndex + 1 } = p.virgin := by
        simp [virgin, hdrop, hes, hfr]
      have h' : Ok { p with regionIndex := p.regionIndex + 1 } free :=
        ⟨h.chain, hv ▸ h.nodup, hv ▸ h.frame, by simpa [hdrop] using hrest, h.region⟩
      obtain ⟨h₁, h₂, h₃⟩ := ih h' hdrop hnr
      exact ⟨h₁, h₂.trans hv, h₃⟩
    · rename_i huse
      simp only [not_or, not_not] at huse
      have he := hent huse.1
      have hb := he.base
      have hl := he.length
      have hp := he.pos
      have hbl := he.below
      have hau : alignUp e.base pageSize = e.base := by
        simp only [alignUp, wrap64, pageSize]
        omega
      have hre : wrap64 (e.base + e.length) = e.base + e.length := by
        simp only [wrap64]
        omega
      have hfr : e.frames = framesIn e.base (e.base + e.length) := if_pos huse.1
      rw [hau, hre]
      have hv : virgin { p with
          regionIndex := p.regionIndex + 1
          nextPhys := e.base
          regionEnd := e.base + e.length } = p.virgin := by
        simp [virgin, hdrop, hes, hfr, hempty]
      refine ⟨⟨h.chain, hv ▸ h.nodup, hv ▸ h.frame, by simpa [hdrop] using hrest, ?_⟩, hv, rfl,
        rfl, rfl⟩
      right
      exact ⟨hp, hb, Nat.le_add_right _ _, hbl⟩

theorem Ok.popFree {free : List Nat} (h : p.Ok free) (hne : p.freeHead ≠ 0) :
    ∃ rest, free = p.freeHead :: rest ∧
      Ok { p with
        freeHead := p.mem.load64 p.freeHead
        mem := p.mem.memset p.freeHead 0 pageSize } rest := by
  have hchain := h.chain
  rw [ptr_of_ne hne] at hchain
  obtain ⟨rest, rfl, hc⟩ := Chain.some_iff.mp hchain
  have hnot : p.freeHead ∉ rest := (List.nodup_cons.mp hchain.nodup).1
  have hlink : ∀ a ∈ rest, ptr ((p.mem.memset p.freeHead 0 pageSize).load64 a) = p.nextFree a := by
    intro a ha
    have hd := (h.frame a (by simp [ha])).disjoint (h.frame p.freeHead (by simp))
      fun e => hnot (e ▸ ha)
    rw [Mem.load64_congr fun i hi => Mem.memset_apply_outside (by simp only [pageSize]; omega)]
    rfl
  refine ⟨rest, rfl, ?_⟩
  constructor
  · exact hc.congr hlink
  · exact (List.nodup_cons.mp h.nodup).2
  · exact fun a ha => h.frame a (List.mem_cons_of_mem _ ha)
  · exact h.entry
  · exact h.region

/-- A refused or exhausted allocator answers 0 and changes no memory; otherwise
one available frame leaves the allocator, zeroed. -/
theorem Avail.pmmAllocPage (h : p.Avail A) :
    (p.pmmAllocPage.1 = 0 ∧ p.pmmAllocPage.2.Avail A ∧ p.pmmAllocPage.2.mem = p.mem) ∨
      ∃ B, p.pmmAllocPage.1 ≠ 0 ∧ A = p.pmmAllocPage.1 ::ₘ B ∧ p.pmmAllocPage.2.Avail B ∧
        p.pmmAllocPage.2.mem = p.mem.memset p.pmmAllocPage.1 0 4096 := by
  obtain ⟨free, ok, rfl⟩ := h
  have taken : ∀ q : Phys, q.Ok [] → q.pageReady = true →
      ∃ B, q.takePage.1 ≠ 0 ∧ (↑q.virgin : Multiset Nat) = q.takePage.1 ::ₘ B ∧
        q.takePage.2.Avail B ∧ q.takePage.2.mem = q.mem.memset q.takePage.1 0 4096 := by
    intro q hq hr
    obtain ⟨hne, hm, hok, hv⟩ := hq.takePage hr
    exact ⟨↑q.takePage.2.virgin, hne, by rw [hv]; rfl, ⟨[], hok, rfl⟩, hm⟩
  unfold Phys.pmmAllocPage
  split
  · rename_i hne
    obtain ⟨rest, rfl, hok⟩ := ok.popFree hne
    exact .inr ⟨↑(rest ++ p.virgin), hne, rfl, ⟨rest, hok, rfl⟩, rfl⟩
  · rename_i hz
    have hfree : free = [] := by
      have hc := ok.chain
      rw [not_not.mp hz] at hc
      exact Chain.nil_iff.mp hc
    subst hfree
    split
    · rename_i hr
      exact .inr (by simpa using taken p ok hr)
    · rename_i hnr
      obtain ⟨hok, hv, hm, -⟩ := nextRegion_ok ok rfl hnr
      simp only
      split
      · rename_i hr
        have := taken _ hok hr
        rw [hv, hm] at this
        exact .inr (by simpa using this)
      · exact .inl ⟨rfl, ⟨[], hok, by rw [hv]⟩, hm⟩

theorem Avail.setDenied (h : p.Avail A) (ds : List Bool) : Avail { p with denied := ds } A := by
  obtain ⟨free, ok, rfl⟩ := h
  exact ⟨free, ⟨ok.chain, ok.nodup, ok.frame, ok.entry, ok.region⟩, rfl⟩

theorem Avail.allocPage (h : p.Avail A) :
    (p.allocPage.1 = 0 ∧ p.allocPage.2.Avail A ∧ p.allocPage.2.mem = p.mem) ∨
      ∃ B, p.allocPage.1 ≠ 0 ∧ A = p.allocPage.1 ::ₘ B ∧ p.allocPage.2.Avail B ∧
        p.allocPage.2.mem = p.mem.memset p.allocPage.1 0 4096 := by
  unfold Phys.allocPage
  split
  · exact h.pmmAllocPage
  · exact .inl ⟨rfl, h.setDenied _, rfl⟩
  · exact (h.setDenied _).pmmAllocPage

-- ---------------------------------------------------------------------------
-- Release
-- ---------------------------------------------------------------------------

/-- A frame outside the allocator comes back to it; only its first word changes. -/
theorem Avail.pmmFreePage (h : p.Avail A) (ha : IsFrame a) (hn : a ∉ A) :
    (p.pmmFreePage a).Avail (a ::ₘ A) := by
  obtain ⟨free, ok, rfl⟩ := h
  rw [Multiset.mem_coe] at hn
  have hlt : p.freeHead < 2 ^ 64 := by
    by_cases hz : p.freeHead = 0
    · omega
    · have hc := ok.chain
      rw [ptr_of_ne hz] at hc
      obtain ⟨rest, rfl, -⟩ := Chain.some_iff.mp hc
      have := (ok.frame p.freeHead (by simp)).below
      omega
  have hfr : p.pmmFreePage a = { p with mem := p.mem.store64 a p.freeHead, freeHead := a } := by
    unfold Phys.pmmFreePage
    rw [if_neg]
    simp [ha.pos, ha.aligned, pageSize]
  rw [hfr]
  refine ⟨a :: free, ⟨?_, List.nodup_cons.mpr ⟨hn, ok.nodup⟩, ?_, ok.entry, ok.region⟩, rfl⟩
  · simp only [ptr_of_ne ha.pos]
    refine .cons ?_
    have hlink : nextFree { p with mem := p.mem.store64 a p.freeHead, freeHead := a } a =
        ptr p.freeHead := by
      simp only [nextFree, Mem.load64_store64, Nat.mod_eq_of_lt hlt]
    rw [hlink]
    refine ok.chain.congr fun b hb => ?_
    have hd := (ok.frame b (List.mem_append_left _ hb)).disjoint ha
      fun e => hn (e ▸ List.mem_append_left _ hb)
    unfold nextFree
    rw [Mem.load64_store64_of_disjoint (by omega)]
  · intro b hb
    rcases List.mem_cons.mp hb with rfl | hb
    · exact ha
    · exact ok.frame b hb

theorem pmmFreePage_mem_outside (h : b < a ∨ a + 8 ≤ b) : (p.pmmFreePage a).mem b = p.mem b := by
  unfold pmmFreePage
  split
  · rfl
  · exact Mem.store64_apply_outside h

theorem allocPage_denied (p : Phys) : p.allocPage.2.denied = p.denied.tail := by
  have hregion : ∀ (es : List MemmapEntry) (p : Phys), (nextRegion es p).denied = p.denied := by
    intro es
    induction es with
    | nil => exact fun _ => rfl
    | cons e es ih =>
      intro p
      rw [nextRegion]
      split
      · exact ih _
      · rfl
  have hpmm : ∀ p : Phys, p.pmmAllocPage.2.denied = p.denied := by
    intro p
    unfold pmmAllocPage
    split
    · rfl
    split
    · rfl
    simp only
    split <;> exact hregion _ p
  unfold allocPage
  split
  · rename_i h
    rw [hpmm, h]
    rfl
  · rename_i h
    rw [h]
    rfl
  · rename_i h
    rw [hpmm, h]
    rfl

theorem pmmFreePage_denied (p : Phys) (phys : Nat) : (p.pmmFreePage phys).denied = p.denied := by
  unfold pmmFreePage
  split <;> rfl

end Phys

end NarcOs
