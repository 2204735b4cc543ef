import NarcOs.Mm.Machines
import NarcOs.Mm.PageMap

/-!
# Page tables refine maps

Runs of the calls on address spaces, on any of the machines, beside the maps
they are for. The rest of the kernel takes part in a run: it allocates and frees
frames, holds the frames that it has not yet mapped, and writes to these and to
mapped pages. All frames that are free, held or part of a space stay the same
over a run; only their owners change.
-/

namespace NarcOs

namespace Layout

def userEnd (L : Layout) : Nat := L.bound * 512 ^ L.top * 4096

def span (L : Layout) : Nat := 512 ^ (L.top + 1) * 4096

def pageMap (L : Layout) (kids : Fin 512 → PTree) : PageMap := fun page =>
  if page < 512 ^ (L.top + 1) then
    (L.pte.userLeaf L.top kids (page * 4096)).map fun e => (L.pte.addr e, L.pte.write e)
  else none

structure Shape (L : Layout) : Prop where
  user : L.userEnd ≤ L.last + 1
  last : L.last < L.span
  aligned : (L.last + 1) % 4096 = 0

variable {L : Layout} {K : Set Nat} {p : Phys} {root virt : Nat} {kids kids' : Fin 512 → PTree}

theorem Lawful.userEnd_le (hL : L.Lawful) : L.userEnd ≤ L.span := by
  have := Nat.mul_le_mul_right 4096 (Nat.mul_le_mul_right (512 ^ L.top) hL.bound)
  rwa [← Nat.pow_succ'] at this

theorem index_lt_iff (hv : virt < L.span) : tableIndex virt L.top < L.bound ↔ virt < L.userEnd := by
  have hq : virt / 4096 / 512 ^ L.top < 512 := by
    rw [Nat.div_div_eq_div_mul]
    refine Nat.div_lt_of_lt_mul ?_
    rw [span, Nat.pow_succ] at hv
    rwa [Nat.mul_comm 4096, Nat.mul_assoc, Nat.mul_comm 4096, ← Nat.mul_assoc]
  rw [tableIndex, Nat.mod_eq_of_lt hq, Nat.div_div_eq_div_mul,
    Nat.div_lt_iff_lt_mul (by positivity), userEnd, Nat.mul_comm 4096, Nat.mul_assoc]

theorem samePath_page {page : Nat} (hp : page < 512 ^ (L.top + 1)) (hv : virt < L.span) :
    PTree.SamePath L.top virt (page * 4096) ↔ virt / pageSize = page := by
  rw [PTree.samePath_iff_page hv (Nat.mul_lt_mul_of_pos_right hp (by decide)),
    Nat.mul_div_cancel _ (by decide)]
  rfl

theorem lookup_page : PTree.lookup L.top kids (virt / 4096 * 4096) = PTree.lookup L.top kids virt := by
  have hp : PTree.SamePath L.top (virt / 4096 * 4096) virt := fun l _ => by
    refine Fin.ext ?_
    show virt / 4096 * 4096 / 4096 / 512 ^ l % 512 = virt / 4096 / 512 ^ l % 512
    rw [Nat.mul_div_cancel _ (by decide)]
  rw [PTree.lookup, PTree.lookup, PTree.slot_congr hp]

theorem pageMap_get (hv : virt < L.span) : (L.pageMap kids).get virt =
    (L.pte.userLeaf L.top kids virt).map fun e => (L.pte.addr e, L.pte.write e) := by
  have hp : virt / pageSize < 512 ^ (L.top + 1) := Nat.div_lt_of_lt_mul (by rwa [span, Nat.mul_comm] at hv)
  rw [PageMap.get, pageMap, if_pos hp, PteFormat.userLeaf, PteFormat.userLeaf]
  rw [show virt / pageSize * 4096 = virt / 4096 * 4096 from rfl, lookup_page]

theorem pageMap_set {leaf : Option Nat} (hv : virt < L.span)
    (h : ∀ v, PTree.lookup L.top kids' v =
      if PTree.SamePath L.top virt v then leaf else PTree.lookup L.top kids v) :
    L.pageMap kids' = (L.pageMap kids).set virt
      ((leaf.filter L.pte.user).map fun e => (L.pte.addr e, L.pte.write e)) := by
  funext page
  unfold pageMap PageMap.set
  by_cases hp : page < 512 ^ (L.top + 1)
  · rw [if_pos hp, PteFormat.userLeaf, h]
    by_cases he : virt / pageSize = page
    · rw [if_pos ((samePath_page hp hv).mpr he), ← he, Function.update_self]
    · rw [if_neg (fun hs => he ((samePath_page hp hv).mp hs)), Function.update_of_ne (Ne.symm he),
        if_pos hp]
      rfl
  · have hne : page ≠ virt / pageSize := by
      rintro rfl
      exact hp (Nat.div_lt_of_lt_mul (by rwa [span, Nat.mul_comm] at hv))
    rw [if_neg hp, Function.update_of_ne hne, if_neg hp]

-- ---------------------------------------------------------------------------
-- Queries
-- ---------------------------------------------------------------------------

theorem userLeaf_of_userEnd_le (h : L.IsSpace K p.mem root kids) (hv : virt < L.span)
    (hu : L.userEnd ≤ virt) : L.pte.userLeaf L.top kids virt = none := by
  have hi : L.bound ≤ (PTree.index virt L.top).val :=
    Nat.not_lt.mp fun hlt => Nat.not_lt.mpr hu ((index_lt_iff hv).mp hlt)
  have he := h.upper _ hi
  rw [PteFormat.userLeaf, Layout.top, PTree.lookup_succ, ← Layout.top, he, PTree.children,
    PTree.lookup_empty]
  rfl

theorem IsSpace.userPte (h : L.IsSpace K p.mem root kids) (hv : virt < L.span) :
    (L.pte.userPte L.top p root virt).map (fun e => e.2.2) = L.pte.userLeaf L.top kids virt := by
  by_cases hu : virt < L.userEnd
  · have hpte := PteFormat.IsSpace.userPte h ((index_lt_iff hv).mpr hu)
    cases hl : L.pte.userLeaf L.top kids virt with
    | none =>
      rw [hl] at hpte
      rw [hpte]
      rfl
    | some e =>
      rw [hl] at hpte
      obtain ⟨pt, i, -, hsome⟩ := hpte
      rw [hsome]
      rfl
  · have hi : L.bound ≤ (PTree.index virt L.top).val :=
      Nat.not_lt.mp fun hlt => hu ((index_lt_iff hv).mp hlt)
    have hk : L.pte.Clean K p.mem L.top (p.mem.load64 (root + 8 * tableIndex virt L.top)) :=
      h.kernel (PTree.index virt L.top) hi
    rw [userLeaf_of_userEnd_le h hv (Nat.not_lt.mp hu), hk.userPte]
    rfl

theorem IsSpace.leaf_isFrame (h : L.IsSpace K p.mem root kids) (hv : virt < L.span) {e : Nat}
    (hl : L.pte.userLeaf L.top kids virt = some e) : IsFrame (L.pte.addr e) := by
  have hu : virt < L.userEnd := by
    by_contra hu
    rw [userLeaf_of_userEnd_le h hv (Nat.not_lt.mp hu)] at hl
    cases hl
  exact (h.entries.leaf ((index_lt_iff hv).mpr hu) (PteFormat.userLeaf_eq_some.mp hl).1).1.2.2.2

/-- `vmm_user_phys` reads the map. -/
theorem IsSpace.userPhys (h : L.IsSpace K p.mem root kids) (hv : virt < L.span) :
    L.vmm.userPhys p root virt = (L.pageMap kids).phys virt := by
  have hpte := h.userPte hv
  show L.pte.userPhys L.top p root virt = _
  unfold PteFormat.userPhys PageMap.phys
  rw [pageMap_get hv, ← hpte]
  cases hw : L.pte.userPte L.top p root virt with
  | none => rfl
  | some w =>
    obtain ⟨pt, i, e⟩ := w
    rw [hw] at hpte
    have hframe := h.leaf_isFrame hv hpte.symm
    exact or_eq_add hframe.aligned (Nat.mod_lt _ (by decide))

theorem pageMap_mapped (h : L.IsSpace K p.mem root kids) {page : Nat} {e : Nat × Bool}
    (he : L.pageMap kids page = some e) : page * 4096 < L.userEnd := by
  unfold pageMap at he
  split at he
  · rename_i hp
    by_contra hu
    rw [userLeaf_of_userEnd_le h (Nat.mul_lt_mul_of_pos_right hp (by decide)) (Nat.not_lt.mp hu)] at he
    cases he
  · cases he

theorem IsSpace.pageOk (h : L.IsSpace K p.mem root kids) {page : Nat} (hp : page * 4096 < L.span)
    (write : Bool) :
    (match L.pte.userPte L.top p root (page * 4096) with
      | none => false
      | some (_, _, pte) => !write || L.pte.write pte) = true ↔
    ∃ frame w, L.pageMap kids page = some (frame, w) ∧ (write = true → w = true) := by
  have hpte := h.userPte hp
  have hget : (L.pageMap kids).get (page * 4096) = _ := pageMap_get hp
  rw [PageMap.get, pageSize, Nat.mul_div_cancel _ (by decide), ← hpte] at hget
  rw [hget]
  cases L.pte.userPte L.top p root (page * 4096) with
  | none => simp
  | some w =>
    obtain ⟨pt, i, e⟩ := w
    cases write <;> simp

/-- `vmm_user_range_ok` reads the map. -/
theorem IsSpace.userRangeOk (hs : L.Shape) (h : L.IsSpace K p.mem root kids) (virt len : Nat)
    (write : Bool) :
    L.vmm.userRangeOk p root virt len write = true ↔ (L.pageMap kids).rangeOk virt len write := by
  have huser := hs.user
  have hlast := hs.last
  have hal := hs.aligned
  show L.pte.userRangeOk L.top L.last p root virt len write = true ↔ _
  unfold PteFormat.userRangeOk PageMap.rangeOk
  split
  · rename_i hz
    exact ⟨fun _ hn => absurd hz hn, fun _ => rfl⟩
  rename_i hz
  -- a page above the last address is not mapped
  have hout : ∀ page, L.last < page * 4096 + 4095 →
      ¬ ∃ frame w, L.pageMap kids page = some (frame, w) ∧ (write = true → w = true) := by
    rintro page hp ⟨frame, w, he, -⟩
    have := pageMap_mapped h he
    omega
  split
  · rename_i hv
    simp only [Bool.false_eq_true, false_iff]
    intro hall
    exact hout (virt / 4096) (by omega) (hall hz _ le_rfl (Nat.div_le_div_right (by omega)))
  split
  · simp only [Bool.false_eq_true, false_iff]
    intro hall
    exact hout ((virt + len - 1) / 4096) (by omega)
      (hall hz _ (Nat.div_le_div_right (by omega)) le_rfl)
  · have hk : ∀ k, alignDown virt + pageSize * k = (virt / 4096 + k) * 4096 := fun k => by
      simp only [alignDown, pageSize]
      ring
    have hn : (alignDown (virt + len - 1) - alignDown virt) / pageSize =
        (virt + len - 1) / 4096 - virt / 4096 := by
      simp only [alignDown, pageSize]
      omega
    rw [List.all_eq_true, hn]
    constructor
    · intro hall _ page hlo hhi
      simp only [pageSize] at hlo hhi
      have := hall (page - virt / 4096) (List.mem_range.mpr (by omega))
      rw [hk, show virt / 4096 + (page - virt / 4096) = page by omega] at this
      exact (h.pageOk (by omega) write).mp this
    · intro hall k hmem
      have hlt := List.mem_range.mp hmem
      rw [hk]
      exact (h.pageOk (by omega) write).mpr (hall hz _ (by simp [pageSize]) (by
        simp only [pageSize]
        omega))

end Layout

-- ---------------------------------------------------------------------------
-- Runs
-- ---------------------------------------------------------------------------

/-- Memory, the active root and the `root` fields of the spaces. `held` is not
part of the source: it has the frames that the rest of the kernel holds. -/
structure VmState where
  phys : Phys
  active : Nat
  root : Nat → Nat
  held : Multiset Nat

def Vmm.call (V : Vmm) (st : VmState) : VmmCall → Bool × VmState
  | .create s =>
    match V.spaceCreate st.active st.phys with
    | (none, p) => (false, { st with phys := p })
    | (some root, p) => (true, { st with
        phys := p
        root := Function.update st.root s root })
  | .activate s => (true, { st with active := st.root s })
  | .map s virt phys flags =>
    let (ok, p) := V.mapUser st.phys (st.root s) virt phys flags
    let old := V.userPhys st.phys (st.root s) (alignDown virt)
    (ok, { st with
      phys := p
      held := if ok then (st.held.erase phys) + (if old = 0 then 0 else {old}) else st.held })
  | .protect s virt flags =>
    let (ok, p) := V.protectUser st.phys (st.root s) virt flags
    (ok, { st with phys := p })
  | .unmap s virt =>
    let (ok, p) := V.unmapUser st.phys (st.root s) virt
    (ok, { st with phys := p })
  | .destroy s =>
    let (root, p) := V.spaceDestroy st.active st.phys (st.root s)
    (true, { st with
      phys := p
      root := Function.update st.root s root })

namespace Layout

def memory (L : Layout) (st : VmState) : VmmCall → Bool
  | .create _ => st.phys.allocPage.1 ≠ 0
  | .map s virt _ _ => !L.pte.refuses L.top st.phys (st.root s) virt
  | _ => true

/-- What the callers see to: spaces are created before they are used and not
twice, addresses are the user's, and the frame to map is one that the caller
holds. -/
def Legal (L : Layout) (st : VmState) : VmmCall → Prop
  | .create s => st.root s = 0
  | .activate s => st.root s ≠ 0
  | .map s virt phys _ => st.root s ≠ 0 ∧ virt < L.userEnd ∧ phys ∈ st.held
  | .protect s virt _ => st.root s ≠ 0 ∧ virt < L.userEnd
  | .unmap s virt => st.root s ≠ 0 ∧ virt < L.userEnd
  | .destroy _ => True

end Layout

/-- Calls on a machine, each with whether it found memory, and their results;
between them the rest of the kernel takes frames, gives them back and writes. -/
inductive VmRun (m : Machine) : VmState → List (VmmCall × Bool) → List Bool → VmState → Prop
  | nil (st : VmState) : VmRun m st [] [] st
  | call {st st' : VmState} {cs : List (VmmCall × Bool)} {oks : List Bool} (c : VmmCall)
      (legal : m.layout.Legal st c) (rest : VmRun m (m.vmm.call st c).2 cs oks st') :
      VmRun m st ((c, m.layout.memory st c) :: cs) ((m.vmm.call st c).1 :: oks) st'
  | take {st st' : VmState} {cs : List (VmmCall × Bool)} {oks : List Bool}
      (found : st.phys.allocPage.1 ≠ 0)
      (rest : VmRun m { st with
        phys := st.phys.allocPage.2
        held := st.phys.allocPage.1 ::ₘ st.held } cs oks st') :
      VmRun m st cs oks st'
  | give {st st' : VmState} {cs : List (VmmCall × Bool)} {oks : List Bool} (f : Nat) (holds : f ∈ st.held)
      (rest : VmRun m { st with
        phys := st.phys.pmmFreePage f
        held := st.held.erase f } cs oks st') :
      VmRun m st cs oks st'
  | write {st st' : VmState} {cs : List (VmmCall × Bool)} {oks : List Bool} (f : Nat) (mem : Mem)
      (may : f ∈ st.held ∨ f ≠ 0 ∧ ∃ s virt, st.root s ≠ 0 ∧ virt < m.layout.span ∧ virt % pageSize = 0 ∧
        m.vmm.userPhys st.phys (st.root s) virt = f)
      (within : Mem.Within {f} st.phys.mem mem)
      (rest : VmRun m { st with phys := { st.phys with mem := mem } } cs oks st') :
      VmRun m st cs oks st'

-- ---------------------------------------------------------------------------
-- Owners of frames
-- ---------------------------------------------------------------------------

namespace Layout

/-- Frames that go round between the allocator, the kernel and the spaces, apart
from the kernel's tables. -/
structure Pool (L : Layout) (K : Set Nat) (O : Multiset Nat) : Prop where
  nodup : O.Nodup
  frame : ∀ f ∈ O, IsFrame f ∧ f < L.pte.limit ∧ f ∉ K
  kernel : ∀ f ∈ K, IsFrame f

/-- Every frame of the pool is free, held or in one space; the spaces have the
maps of `a`. -/
structure Owned (L : Layout) (K : Set Nat) (O : Multiset Nat) (st : VmState) (a : Spaces)
    (A : Multiset Nat) (live : Finset Nat) (kids : Nat → Fin 512 → PTree) : Prop where
  avail : st.phys.Avail A
  frames : A + (∑ s ∈ live, L.pte.frames (st.root s) (kids s)) + st.held = O
  space : ∀ s ∈ live, L.IsSpace K st.phys.mem (st.root s) (kids s)
  user : ∀ s ∈ live, ∀ virt e, PTree.lookup L.top (kids s) virt = some e → L.pte.user e = true
  maps : ∀ s, a.maps s = if s ∈ live then some (L.pageMap (kids s)) else none
  dead : ∀ s, s ∉ live → st.root s = 0
  active : ∀ s, a.active = some s → s ∈ live ∧ st.active = st.root s
  kernel : a.active = none → st.active ∈ K ∧ L.KernelRoot K st.phys.mem st.active

variable {L : Layout} {K : Set Nat} {O A B : Multiset Nat} {st : VmState} {a : Spaces}
  {live : Finset Nat} {kids : Nat → Fin 512 → PTree} {s : Nat}

theorem Owned.live_iff (h : L.Owned K O st a A live kids) : s ∈ live ↔ st.root s ≠ 0 := by
  constructor
  · intro hs hz
    have := (h.space s hs).frame.pos
    omega
  · intro hne
    by_contra hs
    exact hne (h.dead s hs)

theorem Owned.split (h : L.Owned K O st a A live kids) (hs : s ∈ live) :
    A + L.pte.frames (st.root s) (kids s) +
      ((∑ t ∈ live.erase s, L.pte.frames (st.root t) (kids t)) + st.held) = O := by
  have := h.frames
  rw [← Finset.add_sum_erase live _ hs] at this
  rw [← this]
  abel

theorem Owned.apart (hO : L.Pool K O) (h : L.Owned K O st a A live kids) (hs : s ∈ live) {t : Nat}
    (ht : t ∈ live) (hne : t ≠ s) {f : Nat} (hf : f ∈ L.pte.frames (st.root t) (kids t)) :
    f ∉ A + L.pte.frames (st.root s) (kids s) := by
  have hnd := hO.nodup
  rw [← h.split hs] at hnd
  refine fun hm => not_mem_of_add hnd hm (Multiset.mem_add.mpr (.inl ?_))
  exact Multiset.mem_sum.mpr ⟨t, Finset.mem_erase.mpr ⟨hne, ht⟩, hf⟩

theorem Owned.mem_pool (h : L.Owned K O st a A live kids) (hs : s ∈ live) {f : Nat}
    (hf : f ∈ A + L.pte.frames (st.root s) (kids s)) : f ∈ O := by
  rw [← h.split hs]
  exact Multiset.mem_add.mpr (.inl hf)

theorem Pool.kernel_apart (hO : L.Pool K O) {S : Multiset Nat} (hS : ∀ f ∈ S, f ∈ O) :
    ∀ f ∈ K, IsFrame f ∧ f ∉ S :=
  fun f hf => ⟨hO.kernel f hf, fun hm => (hO.frame f (hS f hm)).2.2 hf⟩

theorem Owned.kernelRoot (h : L.Owned K O st a A live kids) : L.KernelRoot K st.phys.mem st.active := by
  cases ha : a.active with
  | none => exact (h.kernel ha).2
  | some s =>
    rw [(h.active s ha).2]
    exact (h.space s (h.active s ha).1).kernelRoot

theorem Owned.active_not_free (hO : L.Pool K O) (h : L.Owned K O st a A live kids) : st.active ∉ A := by
  intro hm
  cases ha : a.active with
  | none =>
    refine (hO.frame st.active ?_).2.2 (h.kernel ha).1
    rw [← h.frames, add_assoc]
    exact Multiset.mem_add.mpr (.inl hm)
  | some s =>
    obtain ⟨hs, he⟩ := h.active s ha
    have hnd := hO.nodup
    rw [← h.split hs] at hnd
    refine not_mem_of_add (Multiset.nodup_add.mp hnd).1 hm ?_
    rw [he]
    exact Multiset.mem_add.mpr (.inl (Multiset.mem_cons_self _ _))

/-- One space is given other trees; frames move between it, the allocator and
the rest of the kernel. -/
theorem Owned.remap (hO : L.Pool K O) (h : L.Owned K O st a A live kids) (hs : s ∈ live) {p' : Phys}
    {new : Fin 512 → PTree} {gained lost held : Multiset Nat}
    (hr : L.pte.Remapped K st.phys p' L.top L.bound (st.root s) A B (kids s) new gained lost)
    (hu : ∀ virt e, PTree.lookup L.top new virt = some e → L.pte.user e = true)
    (hheld : held + gained = st.held + lost) :
    L.Owned K O { st with
      phys := p'
      held := held } (a.setMap s (some (L.pageMap new))) B live (Function.update kids s new) where
  avail := hr.avail
  frames := by
    have hsum : ∑ t ∈ live.erase s, L.pte.frames (st.root t) (Function.update kids s new t) =
        ∑ t ∈ live.erase s, L.pte.frames (st.root t) (kids t) :=
      Finset.sum_congr rfl fun t ht => by rw [Function.update_of_ne (Finset.ne_of_mem_erase ht)]
    have hfr := hr.frames
    rw [← Finset.add_sum_erase live _ hs, Function.update_self, hsum, ← h.split hs]
    generalize (∑ t ∈ live.erase s, L.pte.frames (st.root t) (kids t)) = E
    generalize L.pte.frames (st.root s) new = F' at hfr ⊢
    generalize L.pte.frames (st.root s) (kids s) = F at hfr ⊢
    apply add_right_cancel (b := lost + gained)
    calc B + (F' + E) + held + (lost + gained) = (B + F' + lost) + E + (held + gained) := by abel
      _ = (A + F + gained) + E + (st.held + lost) := by rw [hfr, hheld]
      _ = _ := by abel
  space t ht := by
    by_cases hne : t = s
    · subst hne
      rw [Function.update_self]
      exact hr.space
    · rw [Function.update_of_ne hne]
      exact (h.space t ht).within hr.within (hO.kernel_apart fun f hf => h.mem_pool hs hf)
        fun f hf => h.apart hO hs ht hne (Multiset.mem_add.mpr (.inl hf))
  user t ht := by
    by_cases hne : t = s
    · subst hne
      rw [Function.update_self]
      exact hu
    · rw [Function.update_of_ne hne]
      exact h.user t ht
  maps t := by
    by_cases hne : t = s
    · subst hne
      rw [if_pos hs, Function.update_self]
      exact Function.update_self _ _ _
    · rw [Spaces.setMap_maps_of_ne hne, h.maps t, Function.update_of_ne hne]
  dead := h.dead
  active := h.active
  kernel ha := by
    obtain ⟨hk, hroot⟩ := h.kernel ha
    refine ⟨hk, hroot.within hr.within (hO.kernel_apart fun f hf => h.mem_pool hs hf) ?_⟩
    exact fun hm => (hO.frame _ (h.mem_pool hs hm)).2.2 hk

theorem Owned.leafFrames (h : L.Owned K O st a A live kids) (hs : s ∈ live) (virt : Nat) :
    L.pte.leafFrames L.top (kids s) virt = match L.pte.userLeaf L.top (kids s) virt with
      | some e => {L.pte.addr e}
      | none => 0 := by
  unfold PteFormat.leafFrames PteFormat.userLeaf
  cases hl : PTree.lookup L.top (kids s) virt with
  | none => rfl
  | some e => simp [Option.filter, h.user s hs virt e hl]

-- ---------------------------------------------------------------------------
-- Steps
-- ---------------------------------------------------------------------------

def Stands (L : Layout) (K : Set Nat) (O : Multiset Nat) (st : VmState) (a : Spaces) : Prop :=
  ∃ A live kids, L.Owned K O st a A live kids

theorem Owned.edit_some (h : L.Owned K O st a A live kids) (hs : s ∈ live)
    {change : PageMap → Option PageMap} {M : PageMap} (hc : change (L.pageMap (kids s)) = some M) :
    a.edit s change = (true, a.setMap s (some M)) := by
  unfold Spaces.edit
  rw [h.maps s, if_pos hs, Option.bind_some, hc]

theorem Owned.edit_none (h : L.Owned K O st a A live kids) (hs : s ∈ live)
    {change : PageMap → Option PageMap} (hc : change (L.pageMap (kids s)) = none) :
    a.edit s change = (false, a) := by
  unfold Spaces.edit
  rw [h.maps s, if_pos hs, Option.bind_some, hc]

theorem Owned.remap_same (hO : L.Pool K O) (h : L.Owned K O st a A live kids) (hs : s ∈ live)
    {p' : Phys} {new : Fin 512 → PTree}
    (hr : L.pte.Remapped K st.phys p' L.top L.bound (st.root s) A B (kids s) new 0 0)
    (hl : ∀ v, PTree.lookup L.top new v = PTree.lookup L.top (kids s) v) :
    L.Stands K O { st with phys := p' } a := by
  have hown := h.remap hO hs hr (fun v e he => h.user s hs v e (by rw [← hl, he])) rfl
  have hmap : L.pageMap new = L.pageMap (kids s) := by
    funext page
    unfold pageMap PteFormat.userLeaf
    rw [hl]
  have ha : a.setMap s (some (L.pageMap new)) = a := by
    have hm := h.maps s
    rw [if_pos hs] at hm
    rw [hmap, ← hm, Spaces.setMap, Function.update_eq_self]
  rw [ha] at hown
  exact ⟨_, _, _, hown⟩

theorem Owned.space_free (hO : L.Pool K O) (h : L.Owned K O st a A live kids) (hs : s ∈ live) :
    (A + L.pte.frames (st.root s) (kids s)).Nodup ∧
      ∀ f ∈ K, IsFrame f ∧ f ∉ A + L.pte.frames (st.root s) (kids s) := by
  have hnd := hO.nodup
  rw [← h.split hs] at hnd
  exact ⟨(Multiset.nodup_add.mp hnd).1, hO.kernel_apart fun f hf => h.mem_pool hs hf⟩

theorem Owned.fits (hO : L.Pool K O) (h : L.Owned K O st a A live kids) : L.pte.Fits A := by
  intro f hm
  refine (hO.frame f ?_).2.1
  rw [← h.frames, add_assoc]
  exact Multiset.mem_add.mpr (.inl hm)

def Agrees (L : Layout) (K : Set Nat) (O : Multiset Nat) (st : VmState) (a : Spaces) (c : VmmCall) :
    Prop :=
  (L.vmm.call st c).1 = (a.call (L.memory st c) c).1 ∧
    L.Stands K O (L.vmm.call st c).2 (a.call (L.memory st c) c).2

section
variable {virt phys flags : Nat}

theorem call_map : L.vmm.call st (.map s virt phys flags) =
    let r := L.pte.mapPage L.top st.phys (st.root s) virt phys flags
    let old := L.vmm.userPhys st.phys (st.root s) (alignDown virt)
    (r.1, { st with
      phys := r.2
      held := if r.1 then (st.held.erase phys) + (if old = 0 then 0 else {old}) else st.held }) := rfl

theorem call_protect : L.vmm.call st (.protect s virt flags) =
    let r := L.pte.protectUser L.top st.phys (st.root s) virt flags
    (r.1, { st with phys := r.2 }) := rfl

theorem call_unmap : L.vmm.call st (.unmap s virt) =
    let r := L.pte.unmapUser L.top st.phys (st.root s) virt
    (r.1, { st with phys := r.2 }) := rfl

theorem call_destroy : L.vmm.call st (.destroy s) =
    let r := L.spaceDestroy st.phys st.active (st.root s)
    (true, { st with
      phys := r.2
      root := Function.update st.root s r.1 }) := rfl

end

theorem Owned.dropped (h : L.Owned K O st a A live kids) (hs : s ∈ live) {virt phys : Nat}
    (hv : virt < L.span) (hf : phys ∈ st.held) :
    let old := L.vmm.userPhys st.phys (st.root s) (alignDown virt)
    (st.held.erase phys + (if old = 0 then 0 else {old})) + {phys} =
      st.held + L.pte.leafFrames L.top (kids s) virt := by
  intro old
  have hdown : alignDown virt < L.span := Nat.lt_of_le_of_lt (Nat.div_mul_le_self _ _) hv
  have hget : (L.pageMap (kids s)).get (alignDown virt) = (L.pageMap (kids s)).get virt := by
    unfold PageMap.get alignDown
    rw [Nat.mul_div_cancel _ (by decide)]
  have hold : (if old = 0 then (0 : Multiset Nat) else {old}) = L.pte.leafFrames L.top (kids s) virt := by
    have hphys : old = (L.pageMap (kids s)).phys (alignDown virt) := (h.space s hs).userPhys hdown
    have hmod : alignDown virt % pageSize = 0 := Nat.mul_mod_left _ _
    rw [h.leafFrames hs, hphys, PageMap.phys, hget, pageMap_get hv, hmod]
    cases hl : L.pte.userLeaf L.top (kids s) virt with
    | none => rfl
    | some e =>
      have hpos := ((h.space s hs).leaf_isFrame hv hl).pos
      show (if L.pte.addr e + 0 = 0 then (0 : Multiset Nat) else {L.pte.addr e + 0}) = {L.pte.addr e}
      rw [if_neg (by omega), Nat.add_zero]
  have herase := Multiset.cons_erase hf
  rw [hold, add_right_comm, Multiset.add_comm _ {phys}, Multiset.singleton_add, herase]

theorem Owned.map (hL : L.Lawful) (hG : L.pte.Grants) (hO : L.Pool K O)
    (h : L.Owned K O st a A live kids) (hs : s ∈ live) {virt phys : Nat} (hv : virt < L.userEnd)
    (hf : phys ∈ st.held) (flags : Nat) : L.Agrees K O st a (.map s virt phys flags) := by
  have hspan : virt < L.span := Nat.lt_of_lt_of_le hv hL.userEnd_le
  obtain ⟨hnd, hK⟩ := h.space_free hO hs
  have hfO : phys ∈ O := by
    rw [← h.frames]
    exact Multiset.mem_add.mpr (.inr hf)
  obtain ⟨hframe, hlim, -⟩ := hO.frame phys hfO
  obtain ⟨B, new, hmap⟩ := (h.space s hs).mapPage hL.pte h.avail (h.fits hO) hnd hK
    ((index_lt_iff hspan).mpr hv) hframe hlim flags
  have hdrop := h.dropped hs hspan hf
  rw [Agrees, call_map]
  generalize L.pte.mapPage L.top st.phys (st.root s) virt phys flags = w at hmap ⊢
  obtain ⟨ok, p'⟩ := w
  rcases hmap with ⟨hok, hre, hr, hlook⟩ | ⟨hok, hre, hr, hlook⟩
  · replace hok : ok = false := hok
    subst hok
    rw [Spaces.call, h.edit_none hs (by rw [Layout.memory, hre]; rfl)]
    exact ⟨rfl, h.remap_same hO hs hr hlook⟩
  · replace hok : ok = true := hok
    subst hok
    obtain ⟨hu, hwr⟩ := hG phys flags hframe hlim
    obtain ⟨-, -, haddr, -⟩ := hL.pte.leaf phys flags hframe hlim
    have hset : L.pageMap new = (L.pageMap (kids s)).set virt (some (phys, flags.testBit 1)) := by
      rw [pageMap_set hspan hlook, Option.filter, if_pos hu, Option.map_some, haddr, hwr]
    rw [Spaces.call, h.edit_some hs (M := L.pageMap new) (by rw [hset, Layout.memory, hre]; rfl)]
    refine ⟨rfl, _, _, _, h.remap hO hs hr (fun v e he => ?_) hdrop⟩
    rw [hlook] at he
    split at he
    · cases he
      exact hu
    · exact h.user s hs v e he

theorem Owned.protect (hL : L.Lawful) (hO : L.Pool K O) (h : L.Owned K O st a A live kids)
    (hs : s ∈ live) {virt : Nat} (hv : virt < L.userEnd) (flags : Nat) :
    L.Agrees K O st a (.protect s virt flags) := by
  have hspan : virt < L.span := Nat.lt_of_lt_of_le hv hL.userEnd_le
  obtain ⟨hnd, hK⟩ := h.space_free hO hs
  have hpro := (h.space s hs).protectUser hL.pte h.avail hnd hK ((index_lt_iff hspan).mpr hv) flags
  have hget : (L.pageMap (kids s)).get virt = _ := pageMap_get hspan
  rw [Agrees, call_protect]
  generalize L.pte.protectUser L.top st.phys (st.root s) virt flags = w at hpro ⊢
  cases hl : L.pte.userLeaf L.top (kids s) virt with
  | none =>
    rw [hl] at hpro hget
    obtain rfl : w = (false, st.phys) := hpro
    rw [Spaces.call, h.edit_none hs (by rw [hget]; rfl)]
    exact ⟨rfl, _, _, _, h⟩
  | some e =>
    rw [hl] at hpro hget
    obtain ⟨ok, p'⟩ := w
    obtain ⟨hok, new, hr, hlook⟩ := hpro
    replace hok : ok = true := hok
    subst hok
    obtain ⟨hle, hue⟩ := PteFormat.userLeaf_eq_some.mp hl
    obtain ⟨⟨hlt, hp, hpage, -⟩, -⟩ := (h.space s hs).entries.leaf ((index_lt_iff hspan).mpr hv) hle
    obtain ⟨-, -, haddr, -, hu, hwr⟩ := hL.pte.protect e flags hlt hp hpage
    rw [hue] at hu
    have hset : L.pageMap new =
        (L.pageMap (kids s)).set virt (some (L.pte.addr e, flags.testBit 1)) := by
      rw [pageMap_set hspan hlook, Option.filter, if_pos hu, Option.map_some, haddr, hwr]
    rw [Spaces.call, h.edit_some hs (M := L.pageMap new) (by rw [hget, hset]; rfl)]
    refine ⟨rfl, _, _, _, h.remap hO hs hr (fun v e' he => ?_) rfl⟩
    rw [hlook] at he
    split at he
    · cases he
      exact hu
    · exact h.user s hs v e' he

theorem Owned.unmap (hL : L.Lawful) (hO : L.Pool K O) (h : L.Owned K O st a A live kids)
    (hs : s ∈ live) {virt : Nat} (hv : virt < L.userEnd) : L.Agrees K O st a (.unmap s virt) := by
  have hspan : virt < L.span := Nat.lt_of_lt_of_le hv hL.userEnd_le
  obtain ⟨hnd, hK⟩ := h.space_free hO hs
  have hun := (h.space s hs).unmapUser hL.pte h.avail hnd hK ((index_lt_iff hspan).mpr hv)
  have hget : (L.pageMap (kids s)).get virt = _ := pageMap_get hspan
  rw [Agrees, call_unmap]
  generalize L.pte.unmapUser L.top st.phys (st.root s) virt = w at hun ⊢
  cases hl : L.pte.userLeaf L.top (kids s) virt with
  | none =>
    rw [hl] at hun hget
    obtain rfl : w = (false, st.phys) := hun
    rw [Spaces.call, h.edit_none hs (by rw [hget]; rfl)]
    exact ⟨rfl, _, _, _, h⟩
  | some e =>
    rw [hl] at hun hget
    obtain ⟨ok, p'⟩ := w
    obtain ⟨hok, new, hr, hlook⟩ := hun
    replace hok : ok = true := hok
    subst hok
    have hset : L.pageMap new = (L.pageMap (kids s)).set virt none := pageMap_set hspan hlook
    rw [Spaces.call, h.edit_some hs (M := L.pageMap new) (by rw [hget, hset]; rfl)]
    refine ⟨rfl, _, _, _, h.remap hO hs hr (fun v e' he => ?_) rfl⟩
    rw [hlook] at he
    split at he
    · cases he
    · exact h.user s hs v e' he

theorem Owned.setMem (hO : L.Pool K O) (h : L.Owned K O st a A live kids) {p' : Phys} {S held : Multiset Nat}
    (hav : p'.Avail B) (hw : Mem.Within S st.phys.mem p'.mem) (hS : ∀ f ∈ S, f ∈ O)
    (hd : ∀ s ∈ live, ∀ f ∈ st.root s ::ₘ sumFin fun j => L.pte.tables (kids s j), f ∉ S)
    (hfr : B + (∑ s ∈ live, L.pte.frames (st.root s) (kids s)) + held = O) :
    L.Owned K O { st with
      phys := p'
      held := held } a B live kids where
  avail := hav
  frames := hfr
  space s hs := (h.space s hs).within hw (hO.kernel_apart hS) (hd s hs)
  user := h.user
  maps := h.maps
  dead := h.dead
  active := h.active
  kernel ha := by
    obtain ⟨hk, hroot⟩ := h.kernel ha
    exact ⟨hk, hroot.within hw (hO.kernel_apart hS) fun hm => (hO.frame _ (hS _ hm)).2.2 hk⟩

theorem frames_empty (root : Nat) : L.pte.frames root (fun _ => .empty) = {root} := by
  simp [PteFormat.frames, PteFormat.tables, PteFormat.pages, sumFin_zero]

theorem pageMap_empty : L.pageMap (fun _ => .empty) = .empty := by
  funext page
  unfold pageMap PteFormat.userLeaf
  rw [PTree.lookup_empty]
  exact ite_self _

theorem Owned.adopt (h : L.Owned K O st a A live kids) (hs : s ∉ live) {root : Nat} {new : Fin 512 → PTree}
    {held : Multiset Nat} (hheld : st.held = L.pte.frames root new + held)
    (hsp : L.IsSpace K st.phys.mem root new)
    (hu : ∀ virt e, PTree.lookup L.top new virt = some e → L.pte.user e = true) :
    L.Owned K O { st with
      root := Function.update st.root s root
      held := held } (a.setMap s (some (L.pageMap new))) A (insert s live)
      (Function.update kids s new) := by
  have hne : ∀ t ∈ live, t ≠ s := fun t ht e => hs (e ▸ ht)
  refine ⟨h.avail, ?_, fun t ht => ?_, fun t ht => ?_, fun t => ?_, fun t ht => ?_, fun t ha => ?_,
    h.kernel⟩
  · show A + (∑ t ∈ insert s live, L.pte.frames (Function.update st.root s root t)
        (Function.update kids s new t)) + held = O
    have hsum : ∑ t ∈ live, L.pte.frames (Function.update st.root s root t)
        (Function.update kids s new t) = ∑ t ∈ live, L.pte.frames (st.root t) (kids t) :=
      Finset.sum_congr rfl fun t ht => by
        rw [Function.update_of_ne (hne t ht), Function.update_of_ne (hne t ht)]
    have hfr := h.frames
    rw [Finset.sum_insert hs, hsum, Function.update_self, Function.update_self, ← hfr, hheld]
    abel
  · show L.IsSpace K st.phys.mem (Function.update st.root s root t) _
    rcases Finset.mem_insert.mp ht with rfl | ht
    · rw [Function.update_self, Function.update_self]
      exact hsp
    · rw [Function.update_of_ne (hne t ht), Function.update_of_ne (hne t ht)]
      exact h.space t ht
  · rcases Finset.mem_insert.mp ht with rfl | ht
    · rw [Function.update_self]
      exact hu
    · rw [Function.update_of_ne (hne t ht)]
      exact h.user t ht
  · by_cases hts : t = s
    · subst hts
      rw [if_pos (Finset.mem_insert_self _ _), Function.update_self]
      exact Function.update_self _ _ _
    · rw [Spaces.setMap_maps_of_ne hts, h.maps t, Function.update_of_ne hts]
      simp only [Finset.mem_insert, hts, false_or]
  · rw [Finset.mem_insert, not_or] at ht
    show Function.update st.root s root t = 0
    rw [Function.update_of_ne ht.1]
    exact h.dead t ht.2
  · obtain ⟨ht, he⟩ := h.active t ha
    refine ⟨Finset.mem_insert_of_mem ht, ?_⟩
    show st.active = Function.update st.root s root t
    rw [Function.update_of_ne (hne t ht)]
    exact he

theorem Owned.create (hL : L.Lawful) (hO : L.Pool K O) (h : L.Owned K O st a A live kids)
    (hs : s ∉ live) : L.Agrees K O st a (.create s) := by
  have hAO : ∀ f ∈ A, f ∈ O := fun f hf => by
    rw [← h.frames, add_assoc]
    exact Multiset.mem_add.mpr (.inl hf)
  have hcre := hL.spaceCreate h.avail (hO.kernel_apart hAO) h.kernelRoot (h.active_not_free hO)
  have hcall : L.vmm.call st (.create s) = match L.spaceCreate st.phys st.active with
    | (none, p) => (false, { st with phys := p })
    | (some root, p) => (true, { st with
        phys := p
        root := Function.update st.root s root }) := rfl
  rw [Agrees, hcall]
  generalize L.spaceCreate st.phys st.active = w at hcre ⊢
  obtain ⟨r, p'⟩ := w
  rcases hcre with ⟨hz, hr, hav, hmem⟩ | ⟨root, B, hnz, hr, hAB, hav, hsp, hw⟩
  · replace hr : r = none := hr
    subst hr
    have hm : L.memory st (.create s) = false := by simp [Layout.memory, hz]
    rw [hm]
    refine ⟨rfl, A, live, kids, ?_⟩
    exact h.setMem hO (S := 0) hav (fun f _ _ x _ => congrFun hmem (f + x)) (fun f hf => by simp at hf)
      (fun t _ f _ => Multiset.notMem_zero f) h.frames
  · replace hr : r = some root := hr
    subst hr
    have hm : L.memory st (.create s) = true := by simp [Layout.memory, hnz]
    have hrA : root ∈ A := hAB ▸ Multiset.mem_cons_self _ _
    rw [hm]
    -- the root is the kernel's before it is the space's
    have hheld : L.Owned K O { st with
        phys := p'
        held := root ::ₘ st.held } a B live kids := by
      refine h.setMem hO hav hw (fun f hf => hAO f (Multiset.mem_singleton.mp hf ▸ hrA))
        (fun t ht f hf hmem => ?_) ?_
      · obtain rfl := Multiset.mem_singleton.mp hmem
        exact not_mem_of_add (h.space_free hO ht).1 hrA (Multiset.mem_add.mpr (.inl hf))
      · have hfr := h.frames
        rw [← hfr, hAB, ← Multiset.singleton_add, ← Multiset.singleton_add]
        abel
    have hown := hheld.adopt hs (by rw [frames_empty, Multiset.singleton_add]) hsp fun virt e he => by
      rw [PTree.lookup_empty] at he
      cases he
    rw [pageMap_empty] at hown
    exact ⟨rfl, B, _, _, hown⟩

theorem Owned.active_iff (hO : L.Pool K O) (h : L.Owned K O st a A live kids) (hs : s ∈ live) :
    st.active = st.root s ↔ a.active = some s := by
  cases ha : a.active with
  | none =>
    refine ⟨fun he => absurd (h.kernel ha).1 ?_, fun he => by cases he⟩
    rw [he]
    exact (hO.frame _ (h.mem_pool hs (Multiset.mem_add.mpr (.inr (Multiset.mem_add.mpr
      (.inl (Multiset.mem_cons_self _ _))))))).2.2
  | some t =>
    obtain ⟨ht, hat⟩ := h.active t ha
    constructor
    · intro he
      by_contra hne
      have hroot : st.root t = st.root s := hat.symm.trans he
      refine h.apart hO hs ht (fun e => hne (congrArg some e)) (f := st.root t)
        (Multiset.mem_add.mpr (.inl (Multiset.mem_cons_self _ _))) (Multiset.mem_add.mpr (.inr ?_))
      rw [hroot]
      exact Multiset.mem_add.mpr (.inl (Multiset.mem_cons_self _ _))
    · rintro ⟨⟩
      exact hat

theorem Owned.dissolve (hO : L.Pool K O) (h : L.Owned K O st a A live kids) (hs : s ∈ live)
    (hna : a.active ≠ some s) {p' : Phys} (hav : p'.Avail (A + L.pte.frames (st.root s) (kids s)))
    (hw : Mem.Within (L.pte.frames (st.root s) (kids s)) st.phys.mem p'.mem) :
    L.Owned K O { st with
      phys := p'
      root := Function.update st.root s 0 } (a.setMap s none)
      (A + L.pte.frames (st.root s) (kids s)) (live.erase s) kids := by
  have hne : ∀ t ∈ live.erase s, t ≠ s := fun t ht => Finset.ne_of_mem_erase ht
  have hK := hO.kernel_apart fun f hf => h.mem_pool hs (Multiset.mem_add.mpr (.inr hf))
  refine ⟨hav, ?_, fun t ht => ?_, fun t ht => h.user t (Finset.mem_of_mem_erase ht), fun t => ?_,
    fun t ht => ?_, fun t ha => ?_, fun ha => ?_⟩
  · have hsum : ∑ t ∈ live.erase s, L.pte.frames (Function.update st.root s 0 t) (kids t) =
        ∑ t ∈ live.erase s, L.pte.frames (st.root t) (kids t) :=
      Finset.sum_congr rfl fun t ht => by rw [Function.update_of_ne (hne t ht)]
    rw [hsum, ← h.split hs, add_assoc _ _ st.held]
  · show L.IsSpace K p'.mem (Function.update st.root s 0 t) (kids t)
    rw [Function.update_of_ne (hne t ht)]
    exact (h.space t (Finset.mem_of_mem_erase ht)).within hw hK fun f hf hm =>
      h.apart hO hs (Finset.mem_of_mem_erase ht) (hne t ht) (Multiset.mem_add.mpr (.inl hf))
        (Multiset.mem_add.mpr (.inr hm))
  · by_cases hts : t = s
    · subst hts
      rw [if_neg (Finset.notMem_erase _ _)]
      exact Function.update_self _ _ _
    · rw [Spaces.setMap_maps_of_ne hts, h.maps t]
      simp only [Finset.mem_erase, ne_eq, hts, not_false_eq_true, true_and]
  · show Function.update st.root s 0 t = 0
    by_cases hts : t = s
    · rw [hts, Function.update_self]
    · rw [Function.update_of_ne hts]
      exact h.dead t fun hm => ht (Finset.mem_erase.mpr ⟨hts, hm⟩)
  · obtain ⟨ht, he⟩ := h.active t ha
    have hts : t ≠ s := fun e => hna (e ▸ ha)
    refine ⟨Finset.mem_erase.mpr ⟨hts, ht⟩, ?_⟩
    show st.active = Function.update st.root s 0 t
    rw [Function.update_of_ne hts]
    exact he
  · obtain ⟨hk, hroot⟩ := h.kernel ha
    exact ⟨hk, hroot.within hw hK fun hm => (hK _ hk).2 hm⟩

theorem Owned.destroy (hL : L.Lawful) (hO : L.Pool K O) (h : L.Owned K O st a A live kids) (s : Nat) :
    L.Agrees K O st a (.destroy s) := by
  rw [Agrees, call_destroy, Spaces.call]
  simp only
  by_cases hs : s ∈ live
  · by_cases hna : a.active = some s
    · have he := (h.active_iff hO hs).mpr hna
      rw [if_pos hna, Layout.spaceDestroy, if_pos (.inr he)]
      simp only [Function.update_eq_self]
      exact ⟨trivial, A, live, kids, h⟩
    · obtain ⟨hz, hav, hw⟩ := hL.spaceDestroy (h.space s hs) h.avail (h.space_free hO hs).1
        (fun he => hna ((h.active_iff hO hs).mp he))
      rw [if_neg hna, hz]
      exact ⟨trivial, _, _, kids, h.dissolve hO hs hna hav hw⟩
  · have hz := h.dead s hs
    have ha : (if a.active = some s then a else a.setMap s none) = a := by
      split
      · rfl
      · have hm := h.maps s
        rw [if_neg hs] at hm
        rw [← hm, Spaces.setMap, Function.update_eq_self]
    rw [ha, Layout.spaceDestroy, if_pos (.inl hz)]
    simp only [Function.update_eq_self]
    exact ⟨trivial, A, live, kids, h⟩

theorem Owned.activate (h : L.Owned K O st a A live kids) (hs : s ∈ live) :
    L.Agrees K O st a (.activate s) :=
  ⟨rfl, A, live, kids, h.avail, h.frames, h.space, h.user, h.maps, h.dead, fun t ht => by
    obtain rfl : s = t := Option.some.inj ht
    exact ⟨hs, rfl⟩, fun ht => by cases ht⟩

theorem Stands.call (hL : L.Lawful) (hG : L.pte.Grants) (hO : L.Pool K O) (h : L.Stands K O st a)
    {c : VmmCall} (hc : L.Legal st c) : L.Agrees K O st a c := by
  obtain ⟨A, live, kids, h⟩ := h
  cases c with
  | create s => exact h.create hL hO fun hs => h.live_iff.mp hs hc
  | activate s => exact h.activate (h.live_iff.mpr hc)
  | map s virt phys flags => exact h.map hL hG hO (h.live_iff.mpr hc.1) hc.2.1 hc.2.2 flags
  | protect s virt flags => exact h.protect hL hO (h.live_iff.mpr hc.1) hc.2 flags
  | unmap s virt => exact h.unmap hL hO (h.live_iff.mpr hc.1) hc.2
  | destroy s => exact h.destroy hL hO s

-- ---------------------------------------------------------------------------
-- The rest of the kernel
-- ---------------------------------------------------------------------------

theorem Owned.mem_of_free (h : L.Owned K O st a A live kids) {f : Nat} (hf : f ∈ A) : f ∈ O := by
  rw [← h.frames, add_assoc]
  exact Multiset.mem_add.mpr (.inl hf)

theorem Owned.mem_of_held (h : L.Owned K O st a A live kids) {f : Nat} (hf : f ∈ st.held) : f ∈ O := by
  rw [← h.frames]
  exact Multiset.mem_add.mpr (.inr hf)

theorem Owned.held_apart (hO : L.Pool K O) (h : L.Owned K O st a A live kids) {f : Nat}
    (hf : f ∈ st.held) : f ∉ A ∧ ∀ s ∈ live, f ∉ L.pte.frames (st.root s) (kids s) := by
  have hnd := hO.nodup
  rw [← h.frames] at hnd
  have hn := fun hm => not_mem_of_add hnd hm hf
  refine ⟨fun hm => hn (Multiset.mem_add.mpr (.inl hm)), fun s hs hm => hn ?_⟩
  exact Multiset.mem_add.mpr (.inr (Multiset.mem_sum.mpr ⟨s, hs, hm⟩))

theorem Stands.take (hO : L.Pool K O) (h : L.Stands K O st a) (hne : st.phys.allocPage.1 ≠ 0) :
    L.Stands K O { st with
      phys := st.phys.allocPage.2
      held := st.phys.allocPage.1 ::ₘ st.held } a := by
  obtain ⟨A, live, kids, h⟩ := h
  rcases h.avail.allocPage with ⟨hz, -, -⟩ | ⟨B, -, hAB, hav, hmem⟩
  · exact absurd hz hne
  generalize st.phys.allocPage.1 = f at *
  have hf : f ∈ A := hAB ▸ Multiset.mem_cons_self _ _
  have hw := hmem ▸ Mem.within_memset (m := st.phys.mem) (h.avail.isFrame hf)
    (Multiset.mem_singleton_self f) 0
  refine ⟨B, live, kids, h.setMem hO hav hw (fun g hg => ?_) (fun s hs g hg hm => ?_) ?_⟩
  · exact h.mem_of_free (Multiset.mem_singleton.mp hg ▸ hf)
  · obtain rfl := Multiset.mem_singleton.mp hm
    exact not_mem_of_add (h.space_free hO hs).1 hf (Multiset.mem_add.mpr (.inl hg))
  · rw [← h.frames, hAB, ← Multiset.singleton_add, ← Multiset.singleton_add]
    abel

theorem Stands.give (hO : L.Pool K O) (h : L.Stands K O st a) {f : Nat} (hf : f ∈ st.held) :
    L.Stands K O { st with
      phys := st.phys.pmmFreePage f
      held := st.held.erase f } a := by
  obtain ⟨A, live, kids, h⟩ := h
  obtain ⟨hframe, -, -⟩ := hO.frame f (h.mem_of_held hf)
  obtain ⟨hnA, hns⟩ := h.held_apart hO hf
  have hw := Phys.within_pmmFreePage (p := st.phys) hframe (Multiset.mem_singleton_self f)
  refine ⟨f ::ₘ A, live, kids,
    h.setMem hO (h.avail.pmmFreePage hframe hnA) hw (fun g hg => ?_) (fun s hs g hg hm => ?_) ?_⟩
  · exact h.mem_of_held (Multiset.mem_singleton.mp hg ▸ hf)
  · obtain rfl := Multiset.mem_singleton.mp hm
    exact hns s hs (Multiset.mem_add.mpr (.inl hg))
  · have herase := Multiset.cons_erase hf
    have hfr := h.frames
    generalize st.held.erase f = rest at herase ⊢
    rw [← hfr, ← herase, ← Multiset.singleton_add, ← Multiset.singleton_add]
    abel

/-- What `vmm_user_phys` finds for a page is a page of the space. -/
theorem Owned.page_of_userPhys (h : L.Owned K O st a A live kids) (hs : s ∈ live) {virt f : Nat}
    (hv : virt < L.span) (hal : virt % pageSize = 0) (hne : f ≠ 0)
    (hf : L.vmm.userPhys st.phys (st.root s) virt = f) :
    f ∈ sumFin fun j => L.pte.pages (kids s j) := by
  rw [(h.space s hs).userPhys hv, PageMap.phys, pageMap_get hv, hal] at hf
  cases hl : L.pte.userLeaf L.top (kids s) virt with
  | none =>
    rw [hl] at hf
    exact absurd hf.symm hne
  | some e =>
    rw [hl] at hf
    obtain rfl : L.pte.addr e = f := hf
    have hu : virt < L.userEnd := by
      by_contra hu
      rw [userLeaf_of_userEnd_le (h.space s hs) hv (Nat.not_lt.mp hu)] at hl
      cases hl
    exact ((h.space s hs).entries.leaf ((index_lt_iff hv).mpr hu) (PteFormat.userLeaf_eq_some.mp hl).1).2

theorem Owned.page_apart (hO : L.Pool K O) (h : L.Owned K O st a A live kids) (hs : s ∈ live) {f : Nat}
    (hf : f ∈ sumFin fun j => L.pte.pages (kids s j)) {t : Nat} (ht : t ∈ live) :
    f ∉ st.root t ::ₘ sumFin fun j => L.pte.tables (kids t j) := by
  have hin : f ∈ A + L.pte.frames (st.root s) (kids s) :=
    Multiset.mem_add.mpr (.inr (Multiset.mem_add.mpr (.inr hf)))
  intro hm
  by_cases hts : t = s
  · subst hts
    have hnd := (Multiset.nodup_add.mp (h.space_free hO hs).1).2.1
    exact not_mem_of_add hnd hm hf
  · exact h.apart hO hs ht hts (Multiset.mem_add.mpr (.inl hm)) hin

theorem Stands.write (hO : L.Pool K O) (h : L.Stands K O st a) {f : Nat} {mem : Mem}
    (may : f ∈ st.held ∨ f ≠ 0 ∧ ∃ s virt, st.root s ≠ 0 ∧ virt < L.span ∧ virt % pageSize = 0 ∧
      L.vmm.userPhys st.phys (st.root s) virt = f)
    (hw : Mem.Within {f} st.phys.mem mem) :
    L.Stands K O { st with phys := { st.phys with mem := mem } } a := by
  obtain ⟨A, live, kids, h⟩ := h
  obtain ⟨hfO, hnA, hd⟩ : f ∈ O ∧ f ∉ A ∧ ∀ t ∈ live,
      f ∉ st.root t ::ₘ sumFin fun j => L.pte.tables (kids t j) := by
    rcases may with hf | ⟨hne, s, virt, hs, hv, hal, hf⟩
    · obtain ⟨hnA, hns⟩ := h.held_apart hO hf
      exact ⟨h.mem_of_held hf, hnA, fun t ht hm => hns t ht (Multiset.mem_add.mpr (.inl hm))⟩
    · have hs := h.live_iff.mpr hs
      have hp := h.page_of_userPhys hs hv hal hne hf
      have hin : f ∈ L.pte.frames (st.root s) (kids s) := Multiset.mem_add.mpr (.inr hp)
      exact ⟨h.mem_pool hs (Multiset.mem_add.mpr (.inr hin)),
        fun hm => not_mem_of_add (h.space_free hO hs).1 hm hin, fun t ht => h.page_apart hO hs hp ht⟩
  have hnot : ∀ {g}, g ∈ ({f} : Multiset Nat) → g = f := fun hg => Multiset.mem_singleton.mp hg
  have hav : ({ st.phys with mem := mem } : Phys).Avail A :=
    h.avail.within hw (fun g hg hm => hnA (hnot hm ▸ hg)) rfl
  exact ⟨A, live, kids, h.setMem hO hav hw (fun g hg => hnot hg ▸ hfO)
    (fun s hs g hg hm => hd s hs (hnot hm ▸ hg)) h.frames⟩

end Layout

-- ---------------------------------------------------------------------------
-- Whole runs
-- ---------------------------------------------------------------------------

/-- There is no space yet; the kernel's tables, in `K`, have nothing for users. -/
structure Boot (m : Machine) (K : Set Nat) (st : VmState) : Prop where
  pool : ∃ A, st.phys.Avail A ∧ m.layout.Pool K (A + st.held)
  root : ∀ s, st.root s = 0
  active : st.active ∈ K
  kernel : m.layout.KernelRoot K st.phys.mem st.active

variable {m : Machine} {K : Set Nat} {O : Multiset Nat} {st st' : VmState} {a : Spaces}
  {cs : List (VmmCall × Bool)} {oks : List Bool}

theorem Boot.stands (h : Boot m K st) : ∃ O, m.layout.Pool K O ∧ m.layout.Stands K O st .boot := by
  obtain ⟨A, hav, hpool⟩ := h.pool
  refine ⟨_, hpool, A, ∅, fun _ _ => .empty, hav, ?_, ?_, ?_, ?_, ?_, ?_, ?_⟩
  · rw [Finset.sum_empty, add_zero]
  · exact fun s hs => absurd hs (Finset.notMem_empty s)
  · exact fun s hs => absurd hs (Finset.notMem_empty s)
  · exact fun s => (if_neg (Finset.notMem_empty s)).symm
  · exact fun s _ => h.root s
  · exact fun s hs => by cases hs
  · exact fun _ => ⟨h.active, h.kernel⟩

theorem VmRun.stands (hO : m.layout.Pool K O) (run : VmRun m st cs oks st')
    (h : m.layout.Stands K O st a) : oks = (a.run cs).1 ∧ m.layout.Stands K O st' (a.run cs).2 := by
  induction run generalizing a with
  | nil st => exact ⟨rfl, h⟩
  | @call st st' cs oks c legal rest ih =>
    rw [m.vmm_eq] at ih ⊢
    obtain ⟨hok, hst⟩ := h.call m.lawful m.grants hO legal
    obtain ⟨hoks, hend⟩ := ih hst
    rw [hok, hoks]
    exact ⟨rfl, hend⟩
  | take found rest ih => exact ih (h.take hO found)
  | give f holds rest ih => exact ih (h.give hO holds)
  | write f mem may within rest ih =>
    rw [m.vmm_eq] at may
    exact ih (h.write hO may within)

theorem Machine.shape (m : Machine) : m.layout.Shape := by
  cases m <;> exact ⟨by decide, by decide, by decide⟩

structure Answers (m : Machine) (st : VmState) (a : Spaces) : Prop where
  spaces : ∀ s, st.root s ≠ 0 ↔ (a.maps s).isSome
  phys : ∀ s M, a.maps s = some M → ∀ virt < m.layout.span,
    m.vmm.userPhys st.phys (st.root s) virt = M.phys virt
  rangeOk : ∀ s M, a.maps s = some M → ∀ virt len write,
    m.vmm.userRangeOk st.phys (st.root s) virt len write = true ↔ M.rangeOk virt len write
  freed : ∀ s M, a.maps s = some M → ∀ virt < m.layout.userEnd, ∀ frame w, M.get virt = some (frame, w) →
    ∀ A, st.phys.Avail A → (m.vmm.unmapUser st.phys (st.root s) virt).2.Avail (frame ::ₘ A)

theorem Layout.Stands.answers (hO : m.layout.Pool K O) (h : m.layout.Stands K O st a) :
    Answers m st a := by
  obtain ⟨A, live, kids, h⟩ := h
  have hlive : ∀ {s M}, a.maps s = some M → s ∈ live ∧ M = m.layout.pageMap (kids s) := by
    intro s M hM
    have hs := h.maps s
    rw [hM] at hs
    split at hs
    · rename_i hl
      exact ⟨hl, Option.some.inj hs⟩
    · cases hs
  refine ⟨fun s => ?_, fun s M hM virt hv => ?_, fun s M hM virt len write => ?_, ?_⟩
  · rw [← h.live_iff, h.maps s]
    split <;> simp [*]
  · obtain ⟨hs, rfl⟩ := hlive hM
    rw [m.vmm_eq]
    exact (h.space s hs).userPhys hv
  · obtain ⟨hs, rfl⟩ := hlive hM
    rw [m.vmm_eq]
    exact (h.space s hs).userRangeOk m.shape virt len write
  · intro s M hM virt hv frame w hget A' hA'
    obtain ⟨hs, rfl⟩ := hlive hM
    obtain rfl := h.avail.unique hA'
    have hspan : virt < m.layout.span := Nat.lt_of_lt_of_le hv m.lawful.userEnd_le
    obtain ⟨hnd, hK⟩ := h.space_free hO hs
    have hun := (h.space s hs).unmapUser m.lawful.pte h.avail hnd hK ((Layout.index_lt_iff hspan).mpr hv)
    rw [Layout.pageMap_get hspan] at hget
    rw [m.vmm_eq]
    cases hl : m.layout.pte.userLeaf m.layout.top (kids s) virt with
    | none =>
      rw [hl] at hget
      cases hget
    | some e =>
      rw [hl] at hget hun
      obtain ⟨-, new, hr, -⟩ := hun
      cases hget
      exact hr.avail

/-- On every machine the calls do to the spaces what they do to the maps. Machines
that are called alike, and find memory for the same calls, answer alike. -/
theorem vmm_refines_maps {st₀ : VmState} (boot : Boot m K st₀) (run : VmRun m st₀ cs oks st) :
    (oks = (Spaces.boot.run cs).1 ∧ Answers m st (Spaces.boot.run cs).2) ∧
      (∀ (a : Spaces) memory c, ((a.call memory c).1 = false → (a.call memory c).2 = a) ∧
        ∀ s, s ≠ c.space → (a.call memory c).2.maps s = a.maps s) ∧
      ∀ {m' : Machine} {K' : Set Nat} {st₀' st' : VmState} {oks' : List Bool}, Boot m' K' st₀' →
        VmRun m' st₀' cs oks' st' → oks' = oks ∧
          ∀ s, (st'.root s ≠ 0 ↔ st.root s ≠ 0) ∧ (st.root s ≠ 0 →
            (∀ virt, virt < m.layout.span → virt < m'.layout.span →
              m'.vmm.userPhys st'.phys (st'.root s) virt = m.vmm.userPhys st.phys (st.root s) virt) ∧
            ∀ virt len write, m'.vmm.userRangeOk st'.phys (st'.root s) virt len write =
              m.vmm.userRangeOk st.phys (st.root s) virt len write) := by
  have hone : ∀ {m : Machine} {K : Set Nat} {st₀ st : VmState} {oks : List Bool}, Boot m K st₀ →
      VmRun m st₀ cs oks st → oks = (Spaces.boot.run cs).1 ∧ Answers m st (Spaces.boot.run cs).2 := by
    intro m K st₀ st oks boot run
    obtain ⟨O, hO, hst⟩ := boot.stands
    obtain ⟨hoks, hend⟩ := run.stands hO hst
    exact ⟨hoks, hend.answers hO⟩
  obtain ⟨hoks, hans⟩ := hone boot run
  refine ⟨⟨hoks, hans⟩, fun a memory c => ⟨Spaces.call_failed, fun s => Spaces.call_other⟩, ?_⟩
  intro m' K' st₀' st' oks' boot' run'
  obtain ⟨hoks', hans'⟩ := hone boot' run'
  refine ⟨hoks'.trans hoks.symm, fun s => ⟨(hans'.spaces s).trans (hans.spaces s).symm, fun hs => ?_⟩⟩
  obtain ⟨M, hM⟩ := Option.isSome_iff_exists.mp ((hans.spaces s).mp hs)
  refine ⟨fun virt hv hv' => ?_, fun virt len write => ?_⟩
  · rw [hans'.phys s M hM virt hv', hans.phys s M hM virt hv]
  · rw [Bool.eq_iff_iff, hans'.rangeOk s M hM, hans.rangeOk s M hM]

def smallStart : VmState where
  phys := mmInit smallMap (fun _ => 0) []
  active := 0x1000
  root := fun _ => 0
  held := 0

def smallTaken : VmState := { smallStart with
  phys := smallStart.phys.allocPage.2
  held := smallStart.phys.allocPage.1 ::ₘ smallStart.held }

def smallCreated : VmState := (Machine.x86_64.vmm.call smallTaken (.create 0)).2

def smallMapped : VmState := (Machine.x86_64.vmm.call smallCreated (.map 0 0x400000 0x100000 2)).2

theorem smallStart_boots (m : Machine) : Boot m {0x1000} smallStart where
  pool := by
    have hav : smallStart.phys.Avail ↑(smallMap.flatMap MemmapEntry.frames) :=
      Phys.avail_mmInit smallMap_ok
    have hlist : ∀ f ∈ smallMap.flatMap MemmapEntry.frames, f < 2 ^ 48 ∧ f ≠ 0x1000 := by decide +kernel
    have hlimit : 2 ^ 48 ≤ m.layout.pte.limit := by cases m <;> decide
    refine ⟨_, hav, ?_, fun f hf => ?_, ?_⟩
    · exact hav.nodup
    · have hf' : f ∈ smallMap.flatMap MemmapEntry.frames := by simpa [smallStart] using hf
      exact ⟨hav.isFrame hf', Nat.lt_of_lt_of_le (hlist f hf').1 hlimit, (hlist f hf').2⟩
    · rintro f rfl
      exact ⟨by decide, by decide, by decide⟩
  root _ := rfl
  active := rfl
  kernel := by
    refine ⟨⟨by decide, by decide, by decide⟩, fun j _ => ?_⟩
    have hz : smallStart.phys.mem.load64 (smallStart.active + 8 * j) = 0 := Mem.load64_zero fun _ _ => rfl
    rw [hz]
    intro hp
    rw [m.lawful.pte.absent] at hp
    cases hp

theorem smallStart_boot : Boot .x86_64 {0x1000} smallStart := smallStart_boots .x86_64

theorem smallMapped_run : VmRun .x86_64 smallStart
    [(.create 0, Machine.x86_64.layout.memory smallTaken (.create 0)),
      (.map 0 0x400000 0x100000 2,
        Machine.x86_64.layout.memory smallCreated (.map 0 0x400000 0x100000 2))]
    [(Machine.x86_64.vmm.call smallTaken (.create 0)).1,
      (Machine.x86_64.vmm.call smallCreated (.map 0 0x400000 0x100000 2)).1] smallMapped := by
  refine .take (by decide +kernel) (.call _ rfl (.call _ ⟨?_, ?_, ?_⟩ (.nil _)))
  · show smallCreated.root 0 ≠ 0
    decide +kernel
  · decide
  · show 0x100000 ∈ smallCreated.held
    decide +kernel

theorem vmm_refines_maps_smallMapped :
    Machine.x86_64.vmm.userPhys smallMapped.phys (smallMapped.root 0) 0x400123 = 0x100123 := by
  obtain ⟨-, h⟩ := (vmm_refines_maps smallStart_boot smallMapped_run).1
  have hm : Machine.x86_64.layout.memory smallTaken (.create 0) = true := by decide +kernel
  have hm' : Machine.x86_64.layout.memory smallCreated (.map 0 0x400000 0x100000 2) = true := by
    decide +kernel
  rw [hm, hm'] at h
  exact h.phys 0 (PageMap.set .empty 0x400000 (some (0x100000, true))) rfl 0x400123 (by decide)

-- ---------------------------------------------------------------------------
-- One frame at two pages
-- ---------------------------------------------------------------------------

def Vmm.calls (V : Vmm) (st : VmState) : List VmmCall → List Bool × VmState
  | [] => ([], st)
  | c :: cs =>
    let (ok, st) := V.call st c
    let (oks, st) := V.calls st cs
    (ok :: oks, st)

def Layout.Aligned (L : Layout) : VmmCall → Prop
  | .map _ virt phys _ => virt < L.userEnd ∧ virt % pageSize = 0 ∧ phys % pageSize = 0
  | .protect _ virt _ | .unmap _ virt => virt < L.userEnd ∧ virt % pageSize = 0
  | .create _ | .activate _ | .destroy _ => True

def smallTwo : VmState := { smallTaken with
  phys := smallTaken.phys.allocPage.2
  held := smallTaken.phys.allocPage.1 ::ₘ smallTaken.held }

/-- One frame at two pages; it is free after the first unmap, becomes a table, and is
cleared by the second. -/
def mappedTwice : List VmmCall :=
  [.create 0, .map 0 0x400000 0x100000 2, .map 0 0x401000 0x100000 2, .unmap 0 0x400000,
    .map 0 0x600000 0x101000 2, .unmap 0 0x401000]

theorem vmm_not_refines_maps : ¬ ∀ (m : Machine) (K : Set Nat) (st₀ st₁ : VmState), Boot m K st₀ →
    VmRun m st₀ [] [] st₁ → ∀ cs : List VmmCall, (∀ c ∈ cs, m.layout.Aligned c) →
      (m.vmm.calls st₁ cs).1 = (Spaces.boot.run (cs.map fun c => (c, true))).1 →
      ∀ s M, (Spaces.boot.run (cs.map fun c => (c, true))).2.maps s = some M → ∀ virt < m.layout.userEnd,
        m.vmm.userPhys (m.vmm.calls st₁ cs).2.phys ((m.vmm.calls st₁ cs).2.root s) virt = M.phys virt := by
  intro h
  have hmap : ((Spaces.boot.run (mappedTwice.map fun c => (c, true))).2.maps 0).map (PageMap.phys · 0x600000) =
      some 0x101000 := by decide +kernel
  obtain ⟨M, hM, hphys⟩ := Option.map_eq_some_iff.mp hmap
  have halign : ∀ c ∈ mappedTwice, Machine.x86_64.layout.Aligned c := by
    simp only [mappedTwice, List.forall_mem_cons, Layout.Aligned, List.not_mem_nil, IsEmpty.forall_iff, implies_true, and_true]
    decide
  have hlost := h .x86_64 {0x1000} smallStart smallTwo smallStart_boot
    (.take (by decide +kernel) (.take (by decide +kernel) (.nil _))) mappedTwice halign (by decide +kernel) 0 M hM 0x600000
    (by decide)
  rw [hphys] at hlost
  revert hlost
  decide +kernel

end NarcOs
