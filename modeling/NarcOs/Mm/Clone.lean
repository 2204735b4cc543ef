import NarcOs.Mm.Refinement

/-!
# Clones of spaces

A clone has the pages of its source, with the bits and contents that these
have, on frames that were free before; a failed one has left nothing behind.
The source is any space that a run of the calls has made.
-/

namespace NarcOs

namespace PteFormat

variable {F : PteFormat} {m m' : Mem} {level virt : Nat} {kids kids' : Fin 512 → PTree}

def SamePage (F : PteFormat) (m m' : Mem) (e e' : Nat) : Prop :=
  F.bits e' = F.bits e ∧ ∀ x < 4096, m' (F.addr e' + x) = m (F.addr e + x)

theorem copy_lookup (h : ∀ i, F.Copy m m' (kids i) (kids' i)) :
    Option.Rel (F.SamePage m m') (PTree.lookup level kids virt) (PTree.lookup level kids' virt) := by
  induction level generalizing kids kids' with
  | zero =>
    have hi := h (PTree.index virt 0)
    unfold PTree.lookup PTree.slot
    rw [Option.bind_some, Option.bind_some]
    cases hk : kids (PTree.index virt 0) <;> cases hk' : kids' (PTree.index virt 0) <;>
      rw [hk, hk'] at hi
    case page.page => exact .some hi
    case empty.empty => exact .none
    case table.table => exact .none
    all_goals exact hi.elim
  | succ level ih =>
    have hi := h (PTree.index virt (level + 1))
    rw [PTree.lookup_succ, PTree.lookup_succ]
    cases hk : kids (PTree.index virt (level + 1)) <;> cases hk' : kids' (PTree.index virt (level + 1)) <;>
      rw [hk, hk'] at hi
    case table.table => exact ih hi.2
    case empty.empty => exact ih fun _ => trivial
    case page.page => exact ih fun _ => trivial
    all_goals exact hi.elim

theorem copy_userLeaf (hF : F.Lawful) (h : ∀ i, F.Copy m m' (kids i) (kids' i)) :
    Option.Rel (F.SamePage m m') (F.userLeaf level kids virt) (F.userLeaf level kids' virt) := by
  have hl : Option.Rel (F.SamePage m m') (PTree.lookup level kids virt) (PTree.lookup level kids' virt) :=
    copy_lookup h
  unfold userLeaf
  generalize PTree.lookup level kids virt = l at hl ⊢
  generalize PTree.lookup level kids' virt = l' at hl ⊢
  cases hl with
  | none => exact .none
  | some he =>
    rename_i e e'
    have hu : F.user e' = F.user e := (hF.bits e' e he.1).1
    simp only [Option.filter, hu]
    split
    · exact .some he
    · exact .none

theorem copy_user (hF : F.Lawful) (h : ∀ i, F.Copy m m' (kids i) (kids' i))
    (hu : ∀ virt e, PTree.lookup level kids virt = some e → F.user e = true) {e : Nat}
    (he : PTree.lookup level kids' virt = some e) : F.user e = true := by
  have hl : Option.Rel (F.SamePage m m') (PTree.lookup level kids virt) (PTree.lookup level kids' virt) :=
    copy_lookup h
  rw [he] at hl
  cases hk : PTree.lookup level kids virt with
  | none =>
    rw [hk] at hl
    cases hl
  | some e₀ =>
    rw [hk] at hl
    cases hl with
    | some hsame => exact (hF.bits e e₀ hsame.1).1.trans (hu virt e₀ hk)

end PteFormat

namespace Layout

def entryAt (L : Layout) (p : Phys) (root virt : Nat) : Option Nat :=
  (L.pte.userPte L.top p root virt).map fun e => e.2.2

/-- The space has the frames of `own`, and these are its alone: none is free. -/
structure Owns (L : Layout) (K : Set Nat) (p : Phys) (root : Nat) (own A : Multiset Nat) : Prop where
  space : ∃ kids, L.IsSpace K p.mem root kids ∧ L.pte.frames root kids = own
  apart : ∀ f ∈ own, f ∉ A

variable {L : Layout} {K : Set Nat} {O A : Multiset Nat} {st : VmState} {a : Spaces} {live : Finset Nat}
  {kids : Nat → Fin 512 → PTree} {src dst : Nat}

/-- A clone adds a space with copied trees, or leaves every space and frame as it was. -/
theorem Owned.spaceClone (hL : L.Lawful) (hO : L.Pool K O) (h : L.Owned K O st a A live kids)
    (hs : src ∈ live) (hd : dst ∉ live) :
    let r := L.spaceClone st.phys st.active (st.root src)
    Mem.Within A st.phys.mem r.2.mem ∧
      ((r.1 = none ∧ L.Owned K O { st with phys := r.2 } a A live kids) ∨
        ∃ root B new, r.1 = some root ∧ B + L.pte.frames root new = A ∧
          (∀ i, L.pte.Copy st.phys.mem r.2.mem (kids src i) (new i)) ∧
          L.Owned K O { st with
            phys := r.2
            root := Function.update st.root dst root } (a.setMap dst (some (L.pageMap new))) B
            (insert dst live) (Function.update kids dst new)) := by
  intro r
  obtain ⟨hnd, -⟩ := h.space_free hO hs
  have hK : ∀ f ∈ K, IsFrame f ∧ f ∉ A := hO.kernel_apart fun f hf => h.mem_of_free hf
  have htables : ∀ s ∈ live, ∀ f ∈ st.root s ::ₘ sumFin fun j => L.pte.tables (kids s j), f ∉ A :=
    fun s hs f hf hm => not_mem_of_add (h.space_free hO hs).1 hm (Multiset.mem_add.mpr (.inl hf))
  have hclone := hL.spaceClone (h.space src hs) h.avail (h.fits hO) hnd hK h.kernelRoot (h.active_not_free hO)
  rcases hclone with ⟨hnone, hav, hw⟩ | ⟨root, B, new, hsome, hav, hsp, hfr, hw, hcopy⟩
  · exact ⟨hw, .inl ⟨hnone, h.setMem hO hav hw (fun f hf => h.mem_of_free hf) htables h.frames⟩⟩
  -- the new frames are held before they are the space's
  have hheld : L.Owned K O { st with
      phys := r.2
      held := L.pte.frames root new + st.held } a B live kids := by
    refine h.setMem hO hav hw (fun f hf => h.mem_of_free hf) htables ?_
    rw [← h.frames, ← hfr]
    abel
  have huser : ∀ virt e, PTree.lookup L.top new virt = some e → L.pte.user e = true := fun virt e he =>
    PteFormat.copy_user hL.pte hcopy (h.user src hs) he
  exact ⟨hw, .inr ⟨root, B, new, hsome, hfr, hcopy, hheld.adopt hd rfl hsp huser⟩⟩

structure Keeps (L : Layout) (p p' : Phys) (root : Nat) : Prop where
  entry : ∀ virt < L.userEnd, L.entryAt p' root virt = L.entryAt p root virt
  page : ∀ virt < L.userEnd, ∀ e, L.entryAt p root virt = some e →
    ∀ x < 4096, p'.mem (L.pte.addr e + x) = p.mem (L.pte.addr e + x)

def Duplicates (L : Layout) (p p' : Phys) (src dst : Nat) : Prop :=
  ∀ virt < L.userEnd, Option.Rel (L.pte.SamePage p.mem p'.mem) (L.entryAt p src virt) (L.entryAt p' dst virt)

theorem Owned.keeps (hL : L.Lawful) (h : L.Owned K O st a A live kids) {s : Nat} (hs : s ∈ live)
    {p' : Phys} {S : Multiset Nat} (hw : Mem.Within S st.phys.mem p'.mem) (hK : ∀ f ∈ K, IsFrame f ∧ f ∉ S)
    (hapart : ∀ f ∈ L.pte.frames (st.root s) (kids s), f ∉ S) : L.Keeps st.phys p' (st.root s) := by
  have hsp := h.space s hs
  have hsp' : L.IsSpace K p'.mem (st.root s) (kids s) :=
    hsp.within hw hK fun f hf => hapart f (Multiset.mem_add.mpr (.inl hf))
  have hspan : ∀ {virt}, virt < L.userEnd → virt < L.span := fun hv => Nat.lt_of_lt_of_le hv hL.userEnd_le
  refine ⟨fun virt hv => ?_, fun virt hv e he x hx => ?_⟩
  · rw [entryAt, entryAt, hsp'.userPte (hspan hv), hsp.userPte (hspan hv)]
  · rw [entryAt, hsp.userPte (hspan hv)] at he
    obtain ⟨hleaf, -⟩ := PteFormat.userLeaf_eq_some.mp he
    obtain ⟨⟨-, -, -, hframe⟩, hmem⟩ := hsp.entries.leaf ((index_lt_iff (hspan hv)).mpr hv) hleaf
    exact hw _ hframe (hapart _ (Multiset.mem_add.mpr (.inr hmem))) x hx

theorem Owned.free_apart (hO : L.Pool K O) (h : L.Owned K O st a A live kids) {s : Nat} (hs : s ∈ live) :
    ∀ f ∈ L.pte.frames (st.root s) (kids s), f ∉ A :=
  fun _ hf hm => not_mem_of_add (h.space_free hO hs).1 hm hf

end Layout

variable {m : Machine} {K : Set Nat} {st₀ st : VmState} {cs : List (VmmCall × Bool)} {oks : List Bool}
  {s : Nat}

/-- `vmm_space_clone` copies every page to frames that were free, or gives back
every frame it took; either way it writes to no other. -/
theorem vmm_space_clone_copies (boot : Boot m K st₀) (run : VmRun m st₀ cs oks st)
    (live : st.root s ≠ 0) :
    let r := m.vmm.spaceClone st.active st.phys (st.root s)
    ∃ A own, st.phys.Avail A ∧ m.layout.Owns K st.phys (st.root s) own A ∧
      (m.layout.Owns K r.2 (st.root s) own A ∧ Mem.Within A st.phys.mem r.2.mem ∧
        ∀ virt < m.layout.userEnd,
          m.layout.entryAt r.2 (st.root s) virt = m.layout.entryAt st.phys (st.root s) virt) ∧
      (r.1 = none → r.2.Avail A) ∧
      ∀ dst, r.1 = some dst → ∃ B fresh, r.2.Avail B ∧ B + fresh = A ∧ m.layout.Owns K r.2 dst fresh B ∧
        ∀ virt < m.layout.userEnd, Option.Rel (m.layout.pte.SamePage st.phys.mem r.2.mem)
          (m.layout.entryAt st.phys (st.root s) virt) (m.layout.entryAt r.2 dst virt) := by
  intro r
  obtain ⟨O, hO, hboot⟩ := boot.stands
  obtain ⟨-, A, alive, kids, h⟩ := run.stands hO hboot
  have hs : s ∈ alive := h.live_iff.mpr live
  have hsp := h.space s hs
  have hapart := h.free_apart hO hs
  have hr : r = m.layout.spaceClone st.phys st.active (st.root s) := by
    show m.vmm.spaceClone st.active st.phys (st.root s) = _
    rw [m.vmm_eq]
    rfl
  have hspan : ∀ {virt}, virt < m.layout.userEnd → virt < m.layout.span :=
    fun hv => Nat.lt_of_lt_of_le hv m.lawful.userEnd_le
  -- the clone goes to a space that is not live
  obtain ⟨d, hd⟩ := Infinite.exists_notMem_finset alive
  have hne : s ≠ d := fun e => hd (e ▸ hs)
  obtain ⟨hw, hclone⟩ := h.spaceClone m.lawful hO hs hd
  rw [← hr] at hw hclone
  have hsrc : m.layout.IsSpace K r.2.mem (st.root s) (kids s) := by
    refine hsp.within hw (hO.kernel_apart fun f hf => h.mem_of_free hf) fun f hf => ?_
    exact hapart f (Multiset.mem_add.mpr (.inl hf))
  have hkeeps := h.keeps m.lawful hs hw (hO.kernel_apart fun f hf => h.mem_of_free hf) hapart
  refine ⟨A, _, h.avail, ⟨⟨kids s, hsp, rfl⟩, hapart⟩, ⟨⟨⟨kids s, hsrc, rfl⟩, hapart⟩, hw, hkeeps.entry⟩, ?_, ?_⟩
  · intro hnone
    rcases hclone with ⟨-, hown⟩ | ⟨_, _, _, hsome, -⟩
    · exact hown.avail
    · rw [hnone] at hsome
      cases hsome
  · intro dst hdst
    rcases hclone with ⟨hnone, -⟩ | ⟨root, B, new, hsome, hfr, hcopy, hown⟩
    · rw [hdst] at hnone
      cases hnone
    obtain rfl : dst = root := Option.some.inj (hdst.symm.trans hsome)
    have hnd' := h.avail.nodup
    rw [← hfr] at hnd'
    have hdsp := hown.space d (Finset.mem_insert_self _ _)
    simp only [Function.update_self] at hdsp
    refine ⟨B, _, hown.avail, hfr, ⟨⟨new, hdsp, rfl⟩, fun f hf hm => not_mem_of_add hnd' hm hf⟩, ?_⟩
    intro virt hv
    rw [Layout.entryAt, Layout.entryAt, hdsp.userPte (hspan hv), hsp.userPte (hspan hv)]
    exact PteFormat.copy_userLeaf m.lawful.pte hcopy

def lastMapped : VmState :=
  (Machine.aarch64.vmm.call (Machine.aarch64.vmm.call smallTaken (.create 0)).2
    (.map 0 0xfffffffff000 0x100000 2)).2

theorem lastMapped_run : ∃ cs oks, VmRun .aarch64 smallStart cs oks lastMapped := by
  refine ⟨_, _, .take (by decide +kernel) (.call (.create 0) rfl (.call (.map 0 0xfffffffff000 0x100000 2)
    ⟨?_, ?_, ?_⟩ (.nil _)))⟩
  · show (Machine.aarch64.vmm.call smallTaken (.create 0)).2.root 0 ≠ 0
    decide +kernel
  · decide
  · show 0x100000 ∈ (Machine.aarch64.vmm.call smallTaken (.create 0)).2.held
    decide +kernel

theorem lastMapped_cloned :
    (Machine.aarch64.vmm.spaceClone lastMapped.active lastMapped.phys (lastMapped.root 0)).1.isSome := by
  decide +kernel

theorem vmm_space_clone_copies_lastMapped :
    let r := Machine.aarch64.vmm.spaceClone lastMapped.active lastMapped.phys (lastMapped.root 0)
    ∃ dst e e', r.1 = some dst ∧
      Machine.aarch64.layout.entryAt lastMapped.phys (lastMapped.root 0) 0xfffffffff000 = some e ∧
      Machine.aarch64.layout.entryAt r.2 dst 0xfffffffff000 = some e' ∧
      Machine.aarch64.layout.pte.SamePage lastMapped.phys.mem r.2.mem e e' := by
  dsimp only
  obtain ⟨cs, oks, hrun⟩ := lastMapped_run
  have hlive : lastMapped.root 0 ≠ 0 := by decide +kernel
  have hmapped : (Machine.aarch64.layout.entryAt lastMapped.phys (lastMapped.root 0) 0xfffffffff000).isSome := by
    decide +kernel
  obtain ⟨A, own, -, -, -, -, hcopied⟩ := vmm_space_clone_copies (smallStart_boots .aarch64) hrun hlive
  obtain ⟨dst, hdst⟩ := Option.isSome_iff_exists.mp lastMapped_cloned
  obtain ⟨e, he⟩ := Option.isSome_iff_exists.mp hmapped
  obtain ⟨B, fresh, -, -, -, hpages⟩ := hcopied dst hdst
  have hpage := hpages 0xfffffffff000 (by decide)
  rw [he] at hpage
  generalize he' : Machine.aarch64.layout.entryAt _ dst 0xfffffffff000 = o at hpage
  cases hpage with
  | some hsame => exact ⟨dst, e, _, hdst, he, he', hsame⟩

-- ---------------------------------------------------------------------------
-- Runs with clones
-- ---------------------------------------------------------------------------

/-- `vmm_space_clone` of the space `src`, to the `root` field of `dst`. -/
def Vmm.clone (V : Vmm) (st : VmState) (dst src : Nat) : VmState :=
  match V.spaceClone st.active st.phys (st.root src) with
  | (none, p) => { st with phys := p }
  | (some root, p) => { st with
      phys := p
      root := Function.update st.root dst root }

inductive SpaceRun (m : Machine) (st₀ : VmState) : VmState → Prop
  | start : SpaceRun m st₀ st₀
  | calls {st st' : VmState} {cs : List (VmmCall × Bool)} {oks : List Bool} (run : SpaceRun m st₀ st)
      (calls : VmRun m st cs oks st') : SpaceRun m st₀ st'
  | clone {st : VmState} {dst src : Nat} (run : SpaceRun m st₀ st) (free : st.root dst = 0)
      (live : st.root src ≠ 0) : SpaceRun m st₀ (m.vmm.clone st dst src)

theorem Layout.Stands.clone {O : Multiset Nat} {a : Spaces} {dst src : Nat} (hO : m.layout.Pool K O)
    (h : m.layout.Stands K O st a) (free : st.root dst = 0) (live : st.root src ≠ 0) :
    ∃ a', m.layout.Stands K O (m.vmm.clone st dst src) a' := by
  obtain ⟨A, alive, kids, h⟩ := h
  have hd : dst ∉ alive := fun hd => h.live_iff.mp hd free
  obtain ⟨-, hclone⟩ := h.spaceClone m.lawful hO (h.live_iff.mpr live) hd
  have hcall : m.vmm.spaceClone st.active st.phys (st.root src) =
      m.layout.spaceClone st.phys st.active (st.root src) := by
    rw [m.vmm_eq]
    rfl
  unfold Vmm.clone
  rw [hcall]
  generalize m.layout.spaceClone st.phys st.active (st.root src) = r at hclone
  obtain ⟨_ | root, p⟩ := r
  · rcases hclone with ⟨-, hown⟩ | ⟨_, _, _, hsome, -⟩
    · exact ⟨a, A, alive, kids, hown⟩
    · cases hsome
  · rcases hclone with ⟨hnone, -⟩ | ⟨_, B, new, hsome, -, -, hown⟩
    · cases hnone
    · cases hsome
      exact ⟨_, B, _, _, hown⟩

theorem SpaceRun.stands {O : Multiset Nat} {a : Spaces} (hO : m.layout.Pool K O)
    (h : m.layout.Stands K O st₀ a) (run : SpaceRun m st₀ st) : ∃ a', m.layout.Stands K O st a' := by
  induction run with
  | start => exact ⟨a, h⟩
  | calls run calls ih =>
    obtain ⟨a', ih⟩ := ih
    exact ⟨_, (calls.stands hO ih).2⟩
  | clone run free live ih =>
    obtain ⟨a', ih⟩ := ih
    exact ih.clone hO free live

end NarcOs
