import NarcOs.Mm.Space

/-!
# The map and unmap system calls

`handle_map` and `handle_unmap` of `kernel/syscall.c`, on the address space
with root `root`, the current one. An unmap request is checked by an unsigned
subtraction from the end of the window, which does not bound the address from
above; `handleUnmap_confined_iff` says exactly which requests get through.
-/

namespace NarcOs

def userMmapBase : Nat := 0x0000000100000000
def userMmapEnd : Nat := 0x0000000140000000

inductive NarcStatus
  | invalidArgument
  | noMemory
  deriving DecidableEq

def narcMapRead : Nat := 1 <<< 0
def narcMapWrite : Nat := 1 <<< 1

/-- `page_align`, which answers 0 when the result does not fit. -/
def pageAlign (value : Nat) : Nat :=
  if value > 2 ^ 64 - 1 - (pageSize - 1) then 0 else alignUp value pageSize

namespace Phys

/-- One page more at an address, as `handle_map` and `map_range` do it. -/
def mapNew (p : Phys) (root virt flags : Nat) : Bool × Phys :=
  let (phys, p) := p.allocPage
  if phys = 0 then (false, p)
  else
    match p.vmmMapUser root virt phys flags with
    | (true, p) => (true, p)
    | (false, p) => (false, p.pmmFreePage phys)

/-- The `while (mapped < size)` loop, with the number of pages left. -/
def mapPages (root base flags : Nat) : Nat → Nat → Phys → Nat × Phys
  | 0, mapped, p => (mapped, p)
  | left + 1, mapped, p =>
    match p.mapNew root (wrap64 (base + mapped)) flags with
    | (true, p) => mapPages root base flags left (mapped + pageSize) p
    | (false, p) => (mapped, p)

/-- `vmm_unmap_user` at each page of `[base, base + size)`. -/
def unmapPages (p : Phys) (root base size : Nat) : Phys :=
  (List.range (size / pageSize)).foldl
    (fun p k => (p.vmmUnmapUser root (wrap64 (base + pageSize * k))).2) p

/-- `handle_map`: the result and the task's next `mmap_next`. -/
def handleMap (p : Phys) (root mmapNext length flags : Nat) :
    Except NarcStatus Nat × Nat × Phys :=
  let known := narcMapRead ||| narcMapWrite
  if length = 0 ∨ flags ≠ flags &&& known ∨ flags &&& narcMapRead = 0 then
    (.error .invalidArgument, mmapNext, p)
  else
    let size := pageAlign length
    let base := pageAlign mmapNext
    if size = 0 ∨ base < userMmapBase ∨ size > wrap64 (2 ^ 64 + userMmapEnd - base) then
      (.error .noMemory, mmapNext, p)
    else
      let (mapped, p) := mapPages root base
        (if flags &&& narcMapWrite ≠ 0 then vmmWrite else 0) (size / pageSize) 0 p
      if mapped ≠ size then (.error .noMemory, mmapNext, p.unmapPages root base mapped)
      else (.ok base, base + size, p)

def handleUnmap (p : Phys) (root address length : Nat) : Except NarcStatus Nat × Phys :=
  if length = 0 ∨ address % pageSize ≠ 0 then (.error .invalidArgument, p)
  else
    let size := pageAlign length
    if size = 0 ∨ address < userMmapBase ∨ size > wrap64 (2 ^ 64 + userMmapEnd - address) then
      (.error .invalidArgument, p)
    else if (List.range (size / pageSize)).any fun k =>
        p.vmmUserPhys root (wrap64 (address + pageSize * k)) = 0 then
      (.error .invalidArgument, p)
    else (.ok 0, p.unmapPages root address size)

end Phys

theorem pageAlign_aligned (length : Nat) : pageAlign length % 4096 = 0 := by
  unfold pageAlign
  split
  · rfl
  · rw [alignUp, pageSize]
    exact Nat.mul_mod_left _ _

-- ---------------------------------------------------------------------------
-- Pages
-- ---------------------------------------------------------------------------

variable {p p' p'' : Phys} {root virt : Nat} {A B C lost lost' : Multiset Nat}
  {kids kids' kids'' : Fin 512 → PTree}

theorem Remapped.trans (h : Remapped p p' root A B kids kids' 0 lost)
    (h' : Remapped p' p'' root B C kids' kids'' 0 lost') :
    Remapped p p'' root A C kids kids'' 0 (lost + lost') := by
  refine ⟨h'.avail, h'.space, ?_, h.within.trans (h'.within.mono ?_)⟩
  · have h₁ := h.frames
    have h₂ := h'.frames
    rw [add_zero] at h₁ h₂ ⊢
    rw [← h₁, ← h₂]
    abel
  · have hf := h.frames
    rw [add_zero] at hf
    rw [← hf]
    exact Multiset.subset_of_le (Multiset.le_add_right _ _)

theorem Remapped.refl (hA : p.Avail A) (h : IsSpace p.mem root kids) :
    Remapped p p root A A kids kids 0 0 :=
  ⟨hA, h, rfl, Mem.Within.refl _ _⟩

/-- The root is a sound space, with frames that nothing else has. -/
def Sound (p : Phys) (root : Nat) : Prop :=
  ∃ A kids, p.Avail A ∧ IsSpace p.mem root kids ∧ (A + spaceFrames root kids).Nodup

theorem Remapped.sound (h : Remapped p p' root A B kids kids' 0 lost)
    (hnd : (A + spaceFrames root kids).Nodup) : Sound p' root :=
  ⟨B, kids', h.avail, h.space, h.nodup (by rwa [add_zero])⟩

/-- A new page comes from the allocator, and goes back when it cannot be mapped. -/
theorem IsSpace.mapNew (h : IsSpace p.mem root kids) (hA : p.Avail A)
    (hnd : (A + spaceFrames root kids).Nodup) (hv : UserHalf virt) (flags : Nat) :
    ∃ B kids',
      ((p.mapNew root virt flags).1 = false ∧
        Remapped p (p.mapNew root virt flags).2 root A B kids kids' 0 0 ∧
        ∀ v, PTree.lookup 3 kids' v = PTree.lookup 3 kids v) ∨
      ((p.mapNew root virt flags).1 = true ∧
        Remapped p (p.mapNew root virt flags).2 root A B kids kids' 0 (leafFrames kids virt) ∧
        ∃ phys, IsFrame phys ∧ ∀ v, PTree.lookup 3 kids' v = if PTree.SamePath 3 virt v
          then some (leafEntry phys flags true) else PTree.lookup 3 kids v) := by
  unfold Phys.mapNew
  rcases hA.allocPage with ⟨hz, hav, hmem⟩ | ⟨B, hne, hAB, hav, hmem⟩
  · refine ⟨A, kids, .inl ?_⟩
    simp only [if_pos hz]
    exact ⟨trivial, ⟨hav, hmem.symm ▸ h, rfl, hmem.symm ▸ Mem.Within.refl _ _⟩, fun _ => trivial⟩
  · simp only [if_neg hne]
    generalize p.allocPage.1 = phys at *
    generalize p.allocPage.2 = q at *
    have hphys : phys ∈ A := hAB ▸ Multiset.mem_cons_self _ _
    have hframe : IsFrame phys := hA.isFrame hphys
    have hwz : Mem.Within {phys} p.mem q.mem :=
      hmem ▸ Mem.within_memset hframe (Multiset.mem_singleton_self _) 0
    have hnot : phys ∉ spaceFrames root kids := not_mem_of_add hnd hphys
    have hq : IsSpace q.mem root kids := h.within hwz fun f hf => by
      rw [Multiset.mem_singleton]
      rintro rfl
      exact hnot (Multiset.mem_add.mpr (.inl hf))
    have htotal : A + spaceFrames root kids = B + spaceFrames root kids + {phys} := by
      rw [hAB, ← Multiset.singleton_add]
      abel
    have hndq : (B + spaceFrames root kids).Nodup := by
      rw [htotal] at hnd
      exact (Multiset.nodup_add.mp hnd).1
    have hwz' : Mem.Within (A + spaceFrames root kids) p.mem q.mem := by
      refine hwz.mono fun f hf => ?_
      rw [Multiset.mem_singleton.mp hf]
      exact Multiset.mem_add.mpr (.inl hphys)
    have hsub : B + spaceFrames root kids ⊆ A + spaceFrames root kids := by
      rw [htotal]
      exact Multiset.subset_of_le (Multiset.le_add_right _ _)
    obtain ⟨C, kids', hcase⟩ := hq.vmmMap hav hndq hv hframe flags true
    unfold Phys.vmmMapUser
    generalize q.vmmMap root virt phys flags true = r at hcase ⊢
    obtain ⟨ok, r⟩ := r
    rcases hcase with ⟨hok, hre, hl⟩ | ⟨hok, hre, hl⟩
    · cases hok
      have hfr := hre.frames
      rw [add_zero, add_zero] at hfr
      have hnC : phys ∉ C + spaceFrames root kids' := by
        intro hm
        rw [htotal, ← hfr] at hnd
        exact not_mem_of_add hnd hm (Multiset.mem_singleton_self _)
      have hfree := Phys.within_pmmFreePage (p := r) (S := {phys}) hframe
        (Multiset.mem_singleton_self _)
      refine ⟨phys ::ₘ C, kids', .inl ⟨rfl, ⟨?_, ?_, ?_, ?_⟩, hl⟩⟩
      · exact hre.avail.pmmFreePage hframe fun hm => hnC (Multiset.mem_add.mpr (.inl hm))
      · refine hre.space.within hfree fun f hf => ?_
        rw [Multiset.mem_singleton]
        rintro rfl
        exact hnC (Multiset.mem_add.mpr (.inr (Multiset.mem_add.mpr (.inl hf))))
      · rw [htotal, ← hfr, ← Multiset.singleton_add]
        abel
      · refine (hwz'.trans (hre.within.mono hsub)).trans (hfree.mono fun f hf => ?_)
        rw [Multiset.mem_singleton.mp hf]
        exact Multiset.mem_add.mpr (.inl hphys)
    · cases hok
      refine ⟨C, kids', .inr ⟨rfl, ⟨hre.avail, hre.space, ?_, hwz'.trans (hre.within.mono hsub)⟩,
        phys, hframe, hl⟩⟩
      rw [hre.frames, htotal, add_zero]

theorem PTree.lookup_samePath {level virt' : Nat} (h : PTree.SamePath level virt virt') :
    PTree.lookup level kids virt = PTree.lookup level kids virt' := by
  induction level generalizing kids with
  | zero => rw [PTree.lookup, PTree.lookup, PTree.slot, PTree.slot, h 0 (Nat.le_refl _)]
  | succ level ih =>
    obtain ⟨hi, hs⟩ := PTree.samePath_succ.mp h
    rw [PTree.lookup_succ, PTree.lookup_succ, hi, ih hs]

/-- After an unmap, whatever it answers, no user leaf is left at the address. -/
theorem IsSpace.unmapUser (h : IsSpace p.mem root kids) (hA : p.Avail A)
    (hnd : (A + spaceFrames root kids).Nodup) (hv : UserHalf virt) :
    ∃ B kids', Remapped p (p.vmmUnmapUser root virt).2 root A B kids kids' 0 0 ∧
      ∀ v, PTree.lookup 3 kids' v = if PTree.SamePath 3 virt v
        then (PTree.lookup 3 kids v).filter (fun e => !isUser e) else PTree.lookup 3 kids v := by
  rcases h.vmmUnmapUser hA hnd hv with ⟨hr, hnone⟩ | ⟨e, kids', hl, hu, -, hre, hlook⟩
  · rw [hr]
    refine ⟨A, kids, Remapped.refl hA h, fun v => ?_⟩
    split
    · rename_i hp
      rw [← PTree.lookup_samePath hp]
      cases hl : PTree.lookup 3 kids virt with
      | none => rfl
      | some e => simp [Option.filter, hnone e hl]
    · rfl
  · refine ⟨_, kids', hre, fun v => ?_⟩
    rw [hlook]
    split
    · rename_i hp
      rw [← PTree.lookup_samePath hp, hl]
      simp [Option.filter, hu]
    · rfl

theorem IsSpace.unmapPages (h : IsSpace p.mem root kids) (hA : p.Avail A)
    (hnd : (A + spaceFrames root kids).Nodup) (base n : Nat)
    (hv : ∀ k < n, UserHalf (wrap64 (base + pageSize * k))) :
    ∃ B kids', Remapped p ((List.range n).foldl
        (fun p k => (p.vmmUnmapUser root (wrap64 (base + pageSize * k))).2) p) root A B kids kids' 0 0 ∧
      ∀ v, PTree.lookup 3 kids' v =
        if ∃ k < n, PTree.SamePath 3 (wrap64 (base + pageSize * k)) v
        then (PTree.lookup 3 kids v).filter (fun e => !isUser e) else PTree.lookup 3 kids v := by
  induction n with
  | zero => exact ⟨A, kids, Remapped.refl hA h, fun v => by simp⟩
  | succ n ih =>
    obtain ⟨B, kids₁, hre₁, hl₁⟩ := ih fun k hk => hv k (Nat.lt_succ_of_lt hk)
    obtain ⟨C, kids₂, hre₂, hl₂⟩ := hre₁.space.unmapUser hre₁.avail
      (hre₁.nodup (by rwa [add_zero])) (hv n (Nat.lt_succ_self n))
    rw [List.range_succ, List.foldl_append, List.foldl_cons, List.foldl_nil]
    refine ⟨C, kids₂, ?_, fun v => ?_⟩
    · simpa using hre₁.trans hre₂
    · have hex : (∃ k < n + 1, PTree.SamePath 3 (wrap64 (base + pageSize * k)) v) ↔
          (∃ k < n, PTree.SamePath 3 (wrap64 (base + pageSize * k)) v) ∨
            PTree.SamePath 3 (wrap64 (base + pageSize * n)) v := by
        constructor
        · rintro ⟨k, hk, hp⟩
          rcases Nat.lt_succ_iff_lt_or_eq.mp hk with hlt | rfl
          · exact .inl ⟨k, hlt, hp⟩
          · exact .inr hp
        · rintro (⟨k, hk, hp⟩ | hp)
          · exact ⟨k, Nat.lt_succ_of_lt hk, hp⟩
          · exact ⟨n, Nat.lt_succ_self n, hp⟩
      rw [hl₂, hl₁]
      simp only [hex]
      by_cases h₁ : ∃ k < n, PTree.SamePath 3 (wrap64 (base + pageSize * k)) v
      · by_cases h₂ : PTree.SamePath 3 (wrap64 (base + pageSize * n)) v
        · rw [if_pos h₂, if_pos h₁, if_pos (.inl h₁), Option.filter_filter]
          simp
        · rw [if_neg h₂, if_pos h₁, if_pos (.inl h₁)]
      · by_cases h₂ : PTree.SamePath 3 (wrap64 (base + pageSize * n)) v
        · rw [if_pos h₂, if_neg h₁, if_pos (.inr h₂)]
        · rw [if_neg h₂, if_neg h₁, if_neg (not_or.mpr ⟨h₁, h₂⟩)]

theorem IsSpace.mapPages (h : IsSpace p.mem root kids) (hA : p.Avail A)
    (hnd : (A + spaceFrames root kids).Nodup) (base flags left mapped : Nat)
    (hend : base + mapped + pageSize * left ≤ 2 ^ 47) :
    ∃ B kids' lost, Remapped p (Phys.mapPages root base flags left mapped p).2 root A B kids kids' 0 lost ∧
      (Phys.mapPages root base flags left mapped p).1 ≤ mapped + pageSize * left := by
  induction left generalizing p A kids mapped with
  | zero => exact ⟨A, kids, 0, Remapped.refl hA h, Nat.le_add_right _ _⟩
  | succ left ih =>
    have hv : UserHalf (wrap64 (base + mapped)) := by
      apply userHalf_of_lt
      unfold wrap64 pageSize at *
      omega
    obtain ⟨B, kids₁, hcase⟩ := h.mapNew hA hnd hv flags
    rw [Phys.mapPages]
    generalize p.mapNew root (wrap64 (base + mapped)) flags = r at hcase ⊢
    obtain ⟨ok, q⟩ := r
    rcases hcase with ⟨hok, hre, -⟩ | ⟨hok, hre, -⟩
    · cases hok
      exact ⟨B, kids₁, 0, hre, Nat.le_add_right _ _⟩
    · cases hok
      obtain ⟨C, kids₂, lost, hre₂, hle⟩ := ih hre.space hre.avail (hre.nodup (by rwa [add_zero]))
        (mapped + pageSize) (by unfold pageSize at *; omega)
      refine ⟨C, kids₂, _, hre.trans hre₂, ?_⟩
      unfold pageSize at *
      simp only at hle ⊢
      omega

/-- `handle_map` keeps the space sound and its `mmap_next` inside the window. -/
theorem IsSpace.handleMap (h : IsSpace p.mem root kids) (hA : p.Avail A)
    (hnd : (A + spaceFrames root kids).Nodup) {mmapNext : Nat} (hm : mmapNext ≤ userMmapEnd)
    (length flags : Nat) :
    (p.handleMap root mmapNext length flags).2.1 ≤ userMmapEnd ∧
      ∃ B kids' lost, Remapped p (p.handleMap root mmapNext length flags).2.2 root A B kids kids' 0 lost := by
  unfold Phys.handleMap
  simp only
  split
  · exact ⟨hm, A, kids, 0, Remapped.refl hA h⟩
  split
  · exact ⟨hm, A, kids, 0, Remapped.refl hA h⟩
  rename_i hrange
  simp only [not_or, Nat.not_lt] at hrange
  obtain ⟨-, hbase, hfits⟩ := hrange
  have hbe : pageAlign mmapNext ≤ userMmapEnd := by
    have hsize : userMmapEnd = 4096 * 1310720 := rfl
    unfold pageAlign alignUp wrap64 pageSize
    split <;> omega
  have hend : pageAlign mmapNext + pageAlign length ≤ userMmapEnd := by
    unfold wrap64 userMmapEnd at *
    omega
  have hal := pageAlign_aligned length
  obtain ⟨B, kids₁, lost, hre, hle⟩ := h.mapPages hA hnd (pageAlign mmapNext)
    (if flags &&& narcMapWrite ≠ 0 then vmmWrite else 0) (pageAlign length / pageSize) 0
    (by unfold userMmapEnd pageSize at *; omega)
  generalize Phys.mapPages root (pageAlign mmapNext) _ (pageAlign length / pageSize) 0 p = r at hre hle ⊢
  obtain ⟨mapped, q⟩ := r
  simp only at hre hle ⊢
  split
  · obtain ⟨C, kids₂, hre₂, -⟩ := hre.space.unmapPages hre.avail (hre.nodup (by rwa [add_zero]))
      (pageAlign mmapNext) (mapped / pageSize) fun k hk => by
        apply userHalf_of_lt
        unfold wrap64 userMmapEnd pageSize at *
        omega
    exact ⟨hm, C, kids₂, _, hre.trans hre₂⟩
  · exact ⟨hend, B, kids₁, lost, hre⟩

-- ---------------------------------------------------------------------------
-- Confinement
-- ---------------------------------------------------------------------------

def Phys.mapping (p : Phys) (root virt : Nat) : Option Nat :=
  (p.presentPte root virt).map fun t => t.2.2

theorem IsSpace.mapping (h : IsSpace p.mem root kids) (hv : UserHalf virt) :
    p.mapping root virt = PTree.lookup 3 kids virt := by
  have hp := h.presentPte hv
  unfold Phys.mapping
  cases hl : PTree.lookup 3 kids virt with
  | none =>
    rw [hl] at hp
    rw [hp]
    rfl
  | some e =>
    rw [hl] at hp
    obtain ⟨pt, i, hs, -⟩ := hp
    rw [hs]
    rfl

def userStackTop : Nat := 0x0000000080000000

/-- What an unmap request may do: a successful one removes the pages of its
range, all inside the window, and a failed one removes none. The image and the
stack stay in either case. -/
structure UnmapConfined (p : Phys) (root address length : Nat) : Prop where
  ok : ∀ v, (p.handleUnmap root address length).1 = .ok v →
    userMmapBase ≤ address ∧ address + pageAlign length ≤ userMmapEnd ∧
    ∀ va < 2 ^ 47, (p.handleUnmap root address length).2.mapping root va =
      if address ≤ va ∧ va < address + pageAlign length then none else p.mapping root va
  error : ∀ e, (p.handleUnmap root address length).1 = .error e →
    ∀ va, (p.handleUnmap root address length).2.mapping root va = p.mapping root va
  program : ∀ va < userStackTop,
    (p.handleUnmap root address length).2.mapping root va = p.mapping root va

/-- A request above the window that the checks let through: the subtraction
wraps, and the pages the low 48 bits name are user pages. -/
def Escapes (p : Phys) (root address length : Nat) : Prop :=
  userMmapEnd < address ∧ address % pageSize = 0 ∧ length ≠ 0 ∧ pageAlign length ≠ 0 ∧
    pageAlign length ≤ 2 ^ 64 + userMmapEnd - address ∧
    ∀ k < pageAlign length / pageSize, p.vmmUserPhys root (wrap64 (address + pageSize * k)) ≠ 0

section
variable {address length : Nat}

/-- The checks of `handle_unmap`. -/
structure Accepted (p : Phys) (root address length : Nat) : Prop where
  nonzero : length ≠ 0
  aligned : address % pageSize = 0
  size : pageAlign length ≠ 0
  base : userMmapBase ≤ address
  fits : pageAlign length ≤ wrap64 (2 ^ 64 + userMmapEnd - address)
  mapped : ∀ k < pageAlign length / pageSize,
    p.vmmUserPhys root (wrap64 (address + pageSize * k)) ≠ 0

theorem Phys.handleUnmap_cases (p : Phys) (root address length : Nat) :
    (Accepted p root address length ∧ p.handleUnmap root address length =
      (.ok 0, p.unmapPages root address (pageAlign length))) ∨
    (¬ Accepted p root address length ∧
      p.handleUnmap root address length = (.error .invalidArgument, p)) := by
  unfold Phys.handleUnmap
  simp only
  split
  · rename_i h
    exact .inr ⟨fun ha => h.elim ha.nonzero fun hn => hn ha.aligned, rfl⟩
  rename_i hform
  split
  · rename_i h
    refine .inr ⟨fun ha => ?_, rfl⟩
    rcases h with h | h | h
    · exact ha.size h
    · exact absurd ha.base (Nat.not_le.mpr h)
    · exact absurd ha.fits (Nat.not_le.mpr h)
  rename_i hrange
  split
  · rename_i h
    obtain ⟨k, hk, hz⟩ := List.any_eq_true.mp h
    exact .inr ⟨fun ha => ha.mapped k (List.mem_range.mp hk) (of_decide_eq_true hz), rfl⟩
  · rename_i h
    simp only [not_or, not_not, Nat.not_lt] at hform hrange
    refine .inl ⟨⟨hform.1, hform.2, hrange.1, hrange.2.1, hrange.2.2, fun k hk hz => h ?_⟩, rfl⟩
    exact List.any_eq_true.mpr ⟨k, List.mem_range.mpr hk, decide_eq_true hz⟩

/-- Up to the end of the window the subtraction is exact, and the range is inside. -/
theorem Accepted.within (h : Accepted p root address length) (hle : address ≤ userMmapEnd) :
    address + pageAlign length ≤ userMmapEnd := by
  have hf := h.fits
  unfold wrap64 userMmapEnd at *
  omega

theorem accepted_iff_escapes (h : userMmapEnd < address) (ha : address < 2 ^ 64) :
    Accepted p root address length ↔ Escapes p root address length := by
  have hw : wrap64 (2 ^ 64 + userMmapEnd - address) = 2 ^ 64 + userMmapEnd - address := by
    unfold wrap64 userMmapEnd at *
    omega
  constructor
  · intro hacc
    exact ⟨h, hacc.aligned, hacc.nonzero, hacc.size, hw ▸ hacc.fits, hacc.mapped⟩
  · rintro ⟨-, h₁, h₂, h₃, h₄, h₅⟩
    exact ⟨h₂, h₁, h₃, by unfold userMmapBase userMmapEnd at *; omega, hw.symm ▸ h₄, h₅⟩

theorem samePath_range {va : Nat} (ha : address % pageSize = 0)
    (hend : address + pageAlign length ≤ userMmapEnd) (hva : va < 2 ^ 47) :
    (∃ k < pageAlign length / pageSize,
      PTree.SamePath 3 (wrap64 (address + pageSize * k)) va) ↔
    address ≤ va ∧ va < address + pageAlign length := by
  have hal := pageAlign_aligned length
  unfold pageSize userMmapEnd wrap64 at *
  constructor
  · rintro ⟨k, hk, hp⟩
    rw [PTree.samePath_iff] at hp
    omega
  · rintro ⟨h₁, h₂⟩
    refine ⟨(va - address) / 4096, by omega, ?_⟩
    rw [PTree.samePath_iff]
    omega

theorem Accepted.mapping (hs : Sound p root) (h : Accepted p root address length)
    (hend : address + pageAlign length ≤ userMmapEnd) {va : Nat} (hva : va < 2 ^ 47) :
    (p.unmapPages root address (pageAlign length)).mapping root va =
      if address ≤ va ∧ va < address + pageAlign length then none else p.mapping root va := by
  obtain ⟨A, kids, hA, hsp, hnd⟩ := hs
  have hhalf : ∀ k < pageAlign length / pageSize, UserHalf (wrap64 (address + pageSize * k)) := by
    intro k hk
    apply userHalf_of_lt
    have hal := pageAlign_aligned length
    unfold pageSize userMmapEnd wrap64 at *
    omega
  obtain ⟨B, kids', hre, hl⟩ := hsp.unmapPages hA hnd _ _ hhalf
  rw [Phys.unmapPages, hre.space.mapping (userHalf_of_lt hva), hsp.mapping (userHalf_of_lt hva), hl]
  simp only [samePath_range h.aligned hend hva]
  by_cases hin : address ≤ va ∧ va < address + pageAlign length
  · rw [if_pos hin, if_pos hin]
    obtain ⟨k, hk, hp⟩ := (samePath_range h.aligned hend hva).mpr hin
    obtain ⟨e, he, hu⟩ := (hsp.vmmUserPhys (hhalf k hk)).mp (h.mapped k hk)
    rw [← PTree.lookup_samePath hp, he]
    simp [Option.filter, hu]
  · rw [if_neg hin, if_neg hin]

/-- The request is confined unless its address is above the window and the
checks let it through all the same. -/
theorem handleUnmap_confined_iff (hs : Sound p root) (ha : address < 2 ^ 64) :
    UnmapConfined p root address length ↔ ¬ Escapes p root address length := by
  rcases p.handleUnmap_cases root address length with ⟨hacc, hr⟩ | ⟨hacc, hr⟩
  · by_cases hle : address ≤ userMmapEnd
    · have hend := hacc.within hle
      refine ⟨fun _ hesc => absurd hle (Nat.not_le.mpr hesc.1), fun _ => ⟨?_, ?_, ?_⟩⟩
      · rintro v -
        refine ⟨hacc.base, hend, fun va hva => ?_⟩
        rw [hr]
        exact hacc.mapping hs hend hva
      · intro e he
        rw [hr] at he
        cases he
      · intro va hva
        have hb := hacc.base
        unfold userStackTop userMmapBase at *
        rw [hr]
        refine (hacc.mapping hs hend (by omega)).trans ?_
        rw [if_neg (by omega)]
    · have hgt := Nat.not_le.mp hle
      have hesc := (accepted_iff_escapes hgt ha).mp hacc
      refine ⟨fun hc => ?_, fun hn => absurd hesc hn⟩
      obtain ⟨-, hend, -⟩ := hc.ok 0 (by rw [hr])
      exact absurd (Nat.le_trans (Nat.le_add_right _ _) hend) hle
  · have hesc : ¬ Escapes p root address length := fun he =>
      hacc ((accepted_iff_escapes he.1 ha).mpr he)
    refine ⟨fun _ => hesc, fun _ => ⟨?_, ?_, ?_⟩⟩
    · intro v hv
      rw [hr] at hv
      cases hv
    · rintro e - va
      rw [hr]
    · intro va _
      rw [hr]

end

-- ---------------------------------------------------------------------------
-- A task with one page of its image
-- ---------------------------------------------------------------------------

theorem Phys.Avail.sound_create (hA : p.Avail A) {cr3 : Nat}
    (hr : (p.vmmSpaceCreate cr3).1 = some root) : Sound (p.vmmSpaceCreate cr3).2 root := by
  rcases hA.vmmSpaceCreate cr3 with ⟨hnone, -⟩ | ⟨root', B, hsome, hAB, hav, hsp, -⟩
  · rw [hnone] at hr
    cases hr
  · obtain rfl : root' = root := Option.some.inj (hsome.symm.trans hr)
    refine ⟨B, _, hav, hsp, ?_⟩
    rw [spaceFrames_empty, add_comm, Multiset.singleton_add, ← hAB]
    exact hA.nodup

theorem Sound.mapNew (hs : Sound p root) (hv : UserHalf virt) (flags : Nat) :
    Sound (p.mapNew root virt flags).2 root := by
  obtain ⟨A, kids, hA, hsp, hnd⟩ := hs
  obtain ⟨B, kids', ⟨-, hre, -⟩ | ⟨-, hre, -⟩⟩ := hsp.mapNew hA hnd hv flags
  · exact hre.sound hnd
  · exact hre.sound hnd

theorem Sound.handleMap (hs : Sound p root) {mmapNext : Nat} (hm : mmapNext ≤ userMmapEnd)
    (length flags : Nat) : Sound (p.handleMap root mmapNext length flags).2.2 root := by
  obtain ⟨A, kids, hA, hsp, hnd⟩ := hs
  obtain ⟨-, B, kids', lost, hre⟩ := hsp.handleMap hA hnd hm length flags
  exact hre.sound hnd

def imageTask : Phys :=
  (((mmInit smallMap (fun _ => 0) []).vmmSpaceCreate 0).2.mapNew 0x100000 0x400000 vmmWrite).2

def windowTask : Phys := (imageTask.handleMap 0x100000 userMmapBase 4096 narcMapRead).2.2

theorem imageTask_sound : Sound imageTask 0x100000 :=
  (((Phys.avail_mmInit smallMap_ok).sound_create (by decide +kernel)).mapNew
    (userHalf_of_lt (by decide)) vmmWrite)

theorem windowTask_sound : Sound windowTask 0x100000 :=
  imageTask_sound.handleMap (by decide) 4096 narcMapRead

theorem handleUnmap_confined_window :
    (windowTask.handleUnmap 0x100000 userMmapBase 4096).1 = .ok 0 ∧
      UnmapConfined windowTask 0x100000 userMmapBase 4096 :=
  ⟨by decide +kernel, (handleUnmap_confined_iff windowTask_sound (by decide)).mpr fun h =>
    absurd h.1 (by decide)⟩

/-- Bits above 47 are not looked at: the first page of the image goes. -/
theorem handleUnmap_escapes : ¬ UnmapConfined imageTask 0x100000 (2 ^ 48 + 0x400000) 4096 := by
  intro h
  have hlost := h.program 0x400000 (by decide)
  revert hlost
  decide +kernel

end NarcOs
