import NarcOs.Mm.RadixCopy

/-!
# Address spaces of an architecture

A `Layout` is a format of entries with the shape of a root: how many levels
there are and which entries of the root are the user's. The functions of
`kernel/mm.h` on spaces are given for any layout.
-/

namespace NarcOs

structure Layout where
  pte : PteFormat
  /-- The level of the tables below a root; the last tables have level 0. -/
  below : Nat
  /-- The entries of a root from here on belong to the kernel. -/
  bound : Nat
  /-- The last address that `vmm_user_range_ok` lets through. -/
  last : Nat
  /-- Entries of a root that `vmm_space_clone` copies as pages. -/
  rootEnds : Nat → Bool

namespace Layout

section
variable (L : Layout)

def top : Nat := L.below + 1

/-- `vmm_space_create`: the new root. -/
def spaceCreate (p : Phys) (active : Nat) : Option Nat × Phys :=
  let (root, p) := p.allocPage
  if root = 0 then (none, p)
  else
    let p := (List.range (512 - L.bound)).foldl
      (fun p i => p.setEntry root (L.bound + i) (p.entry active (L.bound + i))) p
    (some root, p)

/-- `vmm_space_destroy`; the space's root becomes 0 unless it is the active one. -/
def spaceDestroy (p : Phys) (active root : Nat) : Nat × Phys :=
  if root = 0 ∨ active = root then (root, p)
  else
    (0, (L.pte.freeEntries (fun _ => false) (L.pte.freeTable L.below) L.bound p root).pmmFreePage root)

/-- `vmm_space_clone`: the new root. -/
def spaceClone (p : Phys) (active src : Nat) : Option Nat × Phys :=
  match L.spaceCreate p active with
  | (none, p) => (none, p)
  | (some dst, p) =>
    let (done, p) := L.pte.copyEntries L.rootEnds (L.pte.copyTable L.below) L.bound p dst src
    if done then (some dst, p) else (none, (L.spaceDestroy p active dst).2)

end

structure Lawful (L : Layout) : Prop where
  pte : L.pte.Lawful
  bound : L.bound ≤ 512
  rootEnds : ∀ e, L.pte.present e = true → L.pte.block e = false → L.rootEnds e = false

variable {L : Layout} {K : Set Nat} {p : Phys} {root active src : Nat} {A : Multiset Nat}
  {kids : Fin 512 → PTree}

def IsSpace (L : Layout) (K : Set Nat) (m : Mem) (root : Nat) (kids : Fin 512 → PTree) : Prop :=
  L.pte.IsSpace K m L.top L.bound root kids

structure KernelRoot (L : Layout) (K : Set Nat) (m : Mem) (root : Nat) : Prop where
  frame : IsFrame root
  clean : ∀ j : Fin 512, L.bound ≤ j.val → L.pte.Clean K m L.top (m.load64 (root + 8 * j))

theorem IsSpace.kernelRoot {m : Mem} (h : L.IsSpace K m root kids) : L.KernelRoot K m root :=
  ⟨h.frame, h.kernel⟩

theorem KernelRoot.within {m m' : Mem} {S : Multiset Nat} (h : L.KernelRoot K m root)
    (hm : Mem.Within S m m') (hK : ∀ f ∈ K, IsFrame f ∧ f ∉ S) (hn : root ∉ S) :
    L.KernelRoot K m' root := by
  refine ⟨h.frame, fun j hj => ?_⟩
  rw [load64_within hm h.frame hn j.isLt]
  exact (h.clean j hj).within hm hK

-- ---------------------------------------------------------------------------
-- New spaces
-- ---------------------------------------------------------------------------

theorem copyKernel_spec (hr : IsFrame root) (ha : IsFrame active) (hne : active ≠ root) (b n : Nat)
    (hn : b + n ≤ 512) (p : Phys) :
    let p' := (List.range n).foldl
      (fun p i => p.setEntry root (b + i) (p.entry active (b + i))) p
    p' = { p with mem := p'.mem } ∧ Mem.Within {root} p.mem p'.mem ∧
      (∀ i < n, p'.entry root (b + i) = p.entry active (b + i)) ∧
      ∀ i < b, p'.entry root i = p.entry root i := by
  induction n with
  | zero => exact ⟨rfl, Mem.Within.refl _ _, fun i hi => absurd hi (Nat.not_lt_zero _), fun _ _ => rfl⟩
  | succ n ih =>
    obtain ⟨hrest, hw, hcopied, hlow⟩ := ih (by omega)
    rw [List.range_succ, List.foldl_append]
    simp only [List.foldl_cons, List.foldl_nil]
    generalize (List.range n).foldl
      (fun p i => p.setEntry root (b + i) (p.entry active (b + i))) p = q at hrest hw hcopied hlow ⊢
    have hactive : ∀ i < 512, q.entry active i = p.entry active i := fun i hi =>
      load64_within hw ha (by simpa using hne) hi
    have hw' := Phys.within_setEntry (p := q) (v := q.entry active (b + n)) hr
      (Multiset.mem_singleton_self root) (show b + n < 512 by omega)
    refine ⟨?_, hw.trans hw', ?_, ?_⟩
    · rw [hrest]
      rfl
    · intro i hi
      by_cases hin : i = n
      · subst hin
        rw [Phys.entry_setEntry_self (show q.entry active (b + i) < 2 ^ 64 from Mem.load64_lt _ _),
          hactive _ (by omega)]
      · rw [Phys.entry_setEntry_of_ne (by omega)]
        exact hcopied i (by omega)
    · intro i hi
      rw [Phys.entry_setEntry_of_ne (by omega)]
      exact hlow i hi

/-- A new space has a root and nothing else; the kernel's entries are copied. -/
theorem Lawful.spaceCreate (hL : L.Lawful) (hA : p.Avail A) (hK : ∀ f ∈ K, IsFrame f ∧ f ∉ A)
    (ha : L.KernelRoot K p.mem active) (hn : active ∉ A) :
    (p.allocPage.1 = 0 ∧ (L.spaceCreate p active).1 = none ∧ (L.spaceCreate p active).2.Avail A ∧
      (L.spaceCreate p active).2.mem = p.mem) ∨
    ∃ root B, p.allocPage.1 ≠ 0 ∧ (L.spaceCreate p active).1 = some root ∧ A = root ::ₘ B ∧
      (L.spaceCreate p active).2.Avail B ∧
      L.IsSpace K (L.spaceCreate p active).2.mem root (fun _ => .empty) ∧
      Mem.Within {root} p.mem (L.spaceCreate p active).2.mem := by
  unfold Layout.spaceCreate
  rcases hA.allocPage with ⟨hz, hav, hmem⟩ | ⟨B, hne, hAB, hav, hmem⟩
  · left
    simp only [if_pos hz]
    exact ⟨hz, trivial, hav, hmem⟩
  · right
    simp only [if_neg hne]
    generalize p.allocPage.1 = root at *
    generalize p.allocPage.2 = q at *
    have hroot : root ∈ A := hAB ▸ Multiset.mem_cons_self _ _
    have hframe : IsFrame root := hA.isFrame hroot
    have hnB : root ∉ B := by
      have := hA.nodup
      rw [hAB] at this
      exact (Multiset.nodup_cons.mp this).1
    have hw₁ : Mem.Within {root} p.mem q.mem :=
      hmem ▸ Mem.within_memset hframe (Multiset.mem_singleton_self _) 0
    have hne' : active ≠ root := fun e => hn (e ▸ hroot)
    have hbound := hL.bound
    obtain ⟨hrest, hw, hcopied, hlow⟩ :=
      copyKernel_spec hframe ha.frame hne' L.bound (512 - L.bound) (by omega) q
    generalize (List.range (512 - L.bound)).foldl (fun p i => p.setEntry root (L.bound + i)
      (p.entry active (L.bound + i))) q = r at hrest hw hcopied hlow ⊢
    have hKr : ∀ f ∈ K, IsFrame f ∧ f ∉ ({root} : Multiset Nat) := fun f hf => by
      refine ⟨(hK f hf).1, fun hm => (hK f hf).2 ?_⟩
      rw [Multiset.mem_singleton.mp hm]
      exact hroot
    refine ⟨root, B, hne, rfl, hAB, ?_, ⟨hframe, ?_, fun _ _ => rfl, ?_⟩, hw₁.trans hw⟩
    · refine hav.within hw (fun f hf => ?_) hrest
      rw [Multiset.mem_singleton]
      rintro rfl
      exact hnB hf
    · intro j hj
      have hz : q.mem.load64 (root + 8 * j) = 0 := Mem.load64_zero fun x hx => by
        rw [hmem, Nat.add_assoc]
        exact Mem.memset_apply_inside (by omega)
      have := hlow j hj
      rw [Phys.entry, Phys.entry, hz] at this
      rw [this]
      exact PteFormat.rep_empty hL.pte.absent
    · intro j hj
      have hj' := hcopied (j - L.bound) (by omega)
      rw [show L.bound + (j.val - L.bound) = j.val by omega, Phys.entry, Phys.entry] at hj'
      rw [hj', load64_within hw₁ ha.frame (by simpa using hne') j.isLt]
      exact (ha.clean j hj).within (hw₁.trans hw) hKr

-- ---------------------------------------------------------------------------
-- The end of a space
-- ---------------------------------------------------------------------------

theorem Lawful.destroyTrees (hL : L.Lawful) (hf : IsFrame root) (hent : L.pte.Entries p.mem L.top root L.bound kids)
    (hup : ∀ j : Fin 512, L.bound ≤ j.val → kids j = .empty) (hA : p.Avail A)
    (hnd : (A + L.pte.frames root kids).Nodup) (hne : active ≠ root) :
    (L.spaceDestroy p active root).1 = 0 ∧
      (L.spaceDestroy p active root).2.Avail (A + L.pte.frames root kids) ∧
      Mem.Within (L.pte.frames root kids) p.mem (L.spaceDestroy p active root).2.mem := by
  have hpos := hf.pos
  have hcut : PteFormat.cut L.bound kids = kids := PteFormat.cut_of_upper hup
  have hfr := PteFormat.frames_eq (F := L.pte) root kids
  rw [hfr] at hnd ⊢
  have hb : L.pte.FreesBelow L.top (fun _ => false) (L.pte.freeTable L.below) :=
    ⟨fun _ _ _ => rfl, PteFormat.freeTable_frees hL.pte L.below⟩
  obtain ⟨hav, hw⟩ := PteFormat.freeEntries_spec hb hA hf hL.bound hent (by rwa [hcut])
  rw [hcut] at hav hw
  unfold Layout.spaceDestroy
  rw [if_neg (by rintro (h | h) <;> omega)]
  have hn : root ∉ A + sumFin fun i => L.pte.treeFrames (kids i) := by
    rw [← Multiset.singleton_add, add_left_comm, Multiset.singleton_add] at hnd
    exact (Multiset.nodup_cons.mp hnd).1
  refine ⟨rfl, ?_, ?_⟩
  · have := hav.pmmFreePage hf hn
    rw [← Multiset.singleton_add, add_left_comm, Multiset.singleton_add] at this
    exact this
  · exact (hw.mono (Multiset.subset_cons _ _)).trans
      (Phys.within_pmmFreePage hf (Multiset.mem_cons_self _ _))

theorem Lawful.spaceDestroy (hL : L.Lawful) (h : L.IsSpace K p.mem root kids) (hA : p.Avail A)
    (hnd : (A + L.pte.frames root kids).Nodup) (hne : active ≠ root) :
    (L.spaceDestroy p active root).1 = 0 ∧
      (L.spaceDestroy p active root).2.Avail (A + L.pte.frames root kids) ∧
      Mem.Within (L.pte.frames root kids) p.mem (L.spaceDestroy p active root).2.mem :=
  hL.destroyTrees h.frame h.entries h.upper hA hnd hne

-- ---------------------------------------------------------------------------
-- Copies of a space
-- ---------------------------------------------------------------------------

theorem Lawful.spaceClone (hL : L.Lawful) (h : L.IsSpace K p.mem src kids) (hA : p.Avail A)
    (hfit : L.pte.Fits A) (hnd : (A + L.pte.frames src kids).Nodup) (hK : ∀ f ∈ K, IsFrame f ∧ f ∉ A)
    (ha : L.KernelRoot K p.mem active) (hn : active ∉ A) :
    ((L.spaceClone p active src).1 = none ∧ (L.spaceClone p active src).2.Avail A ∧
      Mem.Within A p.mem (L.spaceClone p active src).2.mem) ∨
    ∃ dst B kids', (L.spaceClone p active src).1 = some dst ∧
      (L.spaceClone p active src).2.Avail B ∧
      L.IsSpace K (L.spaceClone p active src).2.mem dst kids' ∧ B + L.pte.frames dst kids' = A ∧
      Mem.Within A p.mem (L.spaceClone p active src).2.mem ∧
      ∀ i, L.pte.Copy p.mem (L.spaceClone p active src).2.mem (kids i) (kids' i) := by
  unfold Layout.spaceClone
  rcases hL.spaceCreate hA hK ha hn with ⟨-, hnone, hav, hmem⟩ | ⟨dst, B, -, hsome, hAB, hav, hsp, hw⟩
  · generalize L.spaceCreate p active = r at hnone hav hmem ⊢
    obtain ⟨_, q⟩ := r
    cases hnone
    exact .inl ⟨rfl, hav, hmem.symm ▸ Mem.Within.refl _ _⟩
  generalize L.spaceCreate p active = r at hsome hav hsp hw ⊢
  obtain ⟨_, q⟩ := r
  cases hsome
  simp only
  replace hav : q.Avail B := hav
  replace hsp : L.IsSpace K q.mem dst fun _ => .empty := hsp
  replace hw : Mem.Within {dst} p.mem q.mem := hw
  have hdA : dst ∈ A := hAB ▸ Multiset.mem_cons_self _ _
  have hBA : B ⊆ A := by
    rw [hAB]
    exact Multiset.subset_cons _ _
  have hdB : dst ∉ B := by
    have := hA.nodup
    rw [hAB] at this
    exact (Multiset.nodup_cons.mp this).1
  have hwA : Mem.Within A p.mem q.mem := hw.mono fun f hf => Multiset.mem_singleton.mp hf ▸ hdA
  -- the source has none of the frames that the copy is made of
  have hsrc : ∀ f ∈ L.pte.frames src kids, f ∉ A := fun f hf hm => not_mem_of_add hnd hm hf
  have hcons : ∀ {f}, f ∈ dst ::ₘ B → f ∈ A := fun hm => hAB ▸ hm
  have hsrcSpace : L.IsSpace K q.mem src kids := h.within hwA hK fun f hf =>
    hsrc f (Multiset.mem_add.mpr (.inl hf))
  have hb : L.pte.CopiesBelow L.top L.rootEnds (L.pte.copyTable L.below) :=
    ⟨hL.rootEnds, PteFormat.copyTable_copies hL.pte L.below⟩
  obtain ⟨C, kids', hc⟩ := PteFormat.copyEntries_spec hL.pte hb hav (hfit.mono hBA) hsp.frame hdB
    hsp.entries h.frame hsrcSpace.entries (fun f hf hm => hsrc f hf (hcons hm)) le_rfl hL.bound
  generalize L.pte.copyEntries L.rootEnds (L.pte.copyTable L.below) L.bound q dst src = r at hc ⊢
  obtain ⟨done, r⟩ := r
  simp only
  replace hc : L.pte.Copied q r L.top dst L.bound L.bound B C kids kids' done := hc
  have hfrC : C + L.pte.frames dst kids' = A := by
    rw [PteFormat.frames_eq, hAB, ← hc.frames, Multiset.add_cons]
  have hwr : Mem.Within A p.mem r.mem := hwA.trans (hc.within.mono fun f hf => hcons hf)
  have hdst : L.IsSpace K r.mem dst kids' := by
    refine ⟨hsp.frame, hc.entries, hc.rest, fun j hj => ?_⟩
    have hload := hc.entry j hj
    rw [Phys.entry, Phys.entry] at hload
    rw [hload]
    exact (hsp.kernel j hj).within hc.within fun f hf => ⟨(hK f hf).1, fun hm => (hK f hf).2 (hcons hm)⟩
  cases done with
  | false =>
    left
    have hne : active ≠ dst := fun e => hn (e ▸ hdA)
    have hndC : (C + L.pte.frames dst kids').Nodup := by
      rw [hfrC]
      exact hA.nodup
    obtain ⟨-, hav', hw'⟩ := hL.spaceDestroy hdst hc.avail hndC hne
    rw [hfrC] at hav'
    refine ⟨rfl, hav', hwr.trans (hw'.mono fun f hf => ?_)⟩
    rw [← hfrC]
    exact Multiset.mem_add.mpr (.inr hf)
  | true =>
    right
    refine ⟨dst, C, kids', rfl, hc.avail, hdst, hfrC, hwr, fun i => ?_⟩
    have hin : ∀ {f}, f ∈ L.pte.treeFrames (kids i) → f ∈ L.pte.frames src kids := fun hf => by
      rw [PteFormat.frames_eq]
      exact Multiset.mem_cons_of_mem (mem_sumFin.mpr ⟨i, hf⟩)
    have hcopy : L.pte.Copy q.mem r.mem (kids i) (kids' i) := by
      by_cases hi : i.val < L.bound
      · exact hc.copy rfl i hi
      · rw [h.upper i (Nat.not_lt.mp hi), hc.rest i (Nat.not_lt.mp hi)]
        trivial
    refine hcopy.congr (fun f hf x hx => ?_) fun _ _ _ _ => rfl
    have hf' := hin (Multiset.mem_add.mpr (.inr hf))
    exact hwA f (h.isFrame hf') (hsrc f hf') x hx

end Layout

end NarcOs
