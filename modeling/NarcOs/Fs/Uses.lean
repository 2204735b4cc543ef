import NarcOs.Fs.InitLaws

/-!
# Types, sizes and counts

Most operations keep the type, the size and the reference count of every vnode.
The lemmas here say which, so that invariants of these fields are about the few
operations that do not. The addresses of vnodes are the heap's answers.
-/

namespace NarcOs

structure Vnode.SameUse (v w : Vnode) : Prop where
  type : v.type = w.type
  size : v.size = w.size
  refs : v.refs = w.refs

theorem Vnode.SameUse.refl (v : Vnode) : v.SameUse v := ⟨rfl, rfl, rfl⟩

theorem Vnode.SameUse.trans {u v w : Vnode} (h : u.SameUse v) (h' : v.SameUse w) : u.SameUse w :=
  ⟨h.type.trans h'.type, h.size.trans h'.size, h.refs.trans h'.refs⟩

theorem Vnode.SameData.use {v w : Vnode} (h : v.SameData w) : v.SameUse w := ⟨h.type, h.size, h.refs⟩

namespace Vfs

variable {s t u : Vfs} {p q n d : Ptr} {name : List UInt8}

def SameUses (t s : Vfs) : Prop := ∀ q, (t.node q).SameUse (s.node q)

theorem SameUses.refl (s : Vfs) : s.SameUses s := fun _ => .refl _

theorem SameUses.trans (h : u.SameUses t) (h' : t.SameUses s) : u.SameUses s :=
  fun q => (h q).trans (h' q)

theorem sameUses_of_node (h : t.node = s.node) : t.SameUses s := by
  intro q
  rw [h]
  exact .refl _

theorem modify_sameUses {f : Vnode → Vnode} (hf : ∀ v, (f v).SameUse v) : (s.modify p f).SameUses s := by
  intro q
  rw [modify_node]
  split
  · exact hf _
  · exact .refl _

theorem attach_sameUses (d n : Ptr) : (s.attach d n).SameUses s := fun q => (attach_data s d n q).use

theorem detach_sameUses (n : Ptr) : (s.detach n).SameUses s := fun q => (detach_data s n q).use

theorem foldl_sameUses {f : Vfs → Nat → Vfs} (hf : ∀ s i, (f s i).SameUses s) (l : List Nat) :
    (l.foldl f s).SameUses s := by
  induction l generalizing s with
  | nil => exact .refl s
  | cons i l ih => exact ih.trans (hf s i)

theorem releasePages_sameUses : (s.releasePages n).SameUses s := by
  refine foldl_sameUses (fun s i => ?_) _
  unfold releasePage
  refine (modify_sameUses fun v => by constructor <;> rfl).trans ?_
  split <;> exact sameUses_of_node rfl

theorem releaseNode_sameUses : (s.releaseNode n).SameUses s :=
  (sameUses_of_node rfl).trans releasePages_sameUses

theorem removeNode_sameUses : (s.removeNode n).SameUses s := by
  unfold removeNode
  dsimp only
  split
  · exact releaseNode_sameUses.trans (detach_sameUses n)
  · exact detach_sameUses n

theorem moveNode_sameUses (target : Option Ptr) : (s.moveNode n target d name).SameUses s := by
  unfold moveNode
  refine (attach_sameUses d n).trans ((modify_sameUses fun v => by constructor <;> rfl).trans
    ((detach_sameUses n).trans ?_))
  split
  · exact .refl s
  · exact removeNode_sameUses

theorem kmalloc_sameUses : s.kmalloc.2.SameUses s := by
  obtain ⟨heap, h⟩ := kmalloc_rest s
  rw [h]
  exact sameUses_of_node rfl

theorem allocPages_sameUses (l : List Nat) : (allocPages n l s).2.SameUses s := by
  induction l generalizing s with
  | nil => exact .refl s
  | cons i l ih =>
    unfold allocPages
    split
    · exact ih
    · have hm : SameUses (modify { s with phys := s.phys.allocPage.2 } n fun v =>
          { v with pages := Function.update v.pages i s.phys.allocPage.1 }) s :=
        (modify_sameUses fun v => by constructor <;> rfl).trans (sameUses_of_node rfl)
      simp only
      split
      · exact hm
      · exact ih.trans hm

theorem ensurePages_sameUses {stop : Nat} : (s.ensurePages n stop).2.SameUses s := by
  unfold ensurePages
  split
  · exact .refl s
  have ha := allocPages_sameUses (s := s) (n := n) (List.range ((stop + pageSize - 1) / pageSize))
  split
  · rename_i h
    rwa [h] at ha
  · rename_i h
    rw [h] at ha
    split
    · exact ha
    · dsimp only
      refine (modify_sameUses fun v => by constructor <;> rfl).trans
        ((foldl_sameUses (fun s i => ?_) _).trans ha)
      exact sameUses_of_node rfl

theorem writeLoop_sameUses (k position : Nat) (bytes : List UInt8) :
    (writeLoop n k position bytes s).SameUses s := by
  induction k generalizing position bytes s with
  | zero => exact .refl s
  | succ k ih =>
    unfold writeLoop
    split
    · exact .refl s
    · exact (ih _ _).trans (sameUses_of_node rfl)

-- ---------------------------------------------------------------------------
-- Calls
-- ---------------------------------------------------------------------------

theorem vfsUnlink_sameUses (path : CString) (removeDirectory : Bool) :
    (s.vfsUnlink path removeDirectory).2.SameUses s := by
  unfold vfsUnlink
  split
  · exact .refl s
  split
  · exact .refl s
  split
  · exact .refl s
  split
  · exact .refl s
  split
  · exact .refl s
  · exact removeNode_sameUses

theorem vfsRename_sameUses (oldPath newPath : CString) : (s.vfsRename oldPath newPath).2.SameUses s := by
  unfold vfsRename
  split
  · exact .refl s
  split
  · exact .refl s
  split
  · exact .refl s
  split
  · exact .refl s
  dsimp only
  split
  · exact .refl s
  split
  · exact .refl s
  have hk := kmalloc_sameUses (s := s)
  split <;> rename_i h <;> rw [h] at hk
  · exact hk
  · exact (moveNode_sameUses _).trans hk

theorem newNode_use {type : VType} {mode : Nat} (h : s.newNode d name type mode = (some n, t)) :
    n ∉ s.live ∧ t.live = insert n s.live ∧ (t.node n).type = type ∧ (t.node n).size = 0 ∧
      (t.node n).refs = 0 ∧ ∀ q, q ≠ n → (t.node q).SameUse (s.node q) := by
  obtain ⟨heap, hn | ⟨m, hm, hn⟩⟩ := newNode_cases s d name type mode
  · rw [hn] at h
    cases h
  rw [hn] at h
  cases h
  have hdata := fun q => attach_data (withNode { s with heap := heap } n name type mode) d n q
  have hself := hdata n
  rw [withNode_self] at hself
  refine ⟨hm, (attach_rest _ d n).live, hself.type, hself.size, hself.refs, fun q hq => ?_⟩
  have hother := hdata q
  rw [withNode_of_ne hq] at hother
  exact hother.use

theorem newNode_none_uses {type : VType} {mode : Nat} (h : s.newNode d name type mode = (none, t)) :
    t.SameUses s ∧ t.live = s.live := by
  obtain ⟨heap, hn | ⟨m, -, hn⟩⟩ := newNode_cases s d name type mode
  · rw [hn] at h
    cases h
    exact ⟨sameUses_of_node rfl, rfl⟩
  · rw [hn] at h
    cases h

-- ---------------------------------------------------------------------------
-- Addresses
-- ---------------------------------------------------------------------------

structure Draws (t s : Vfs) : Prop where
  heap : ∀ a ∈ t.heap, a ∈ s.heap
  live : ∀ p ∈ t.live, p ∈ s.live ∨ some p ∈ s.heap

theorem Draws.refl (s : Vfs) : s.Draws s := ⟨fun _ => id, fun _ => .inl⟩

theorem Draws.trans (h : u.Draws t) (h' : t.Draws s) : u.Draws s where
  heap a ha := h'.heap a (h.heap a ha)
  live p hp := by
    rcases h.live p hp with hp | hp
    · exact h'.live p hp
    · exact .inr (h'.heap _ hp)

theorem draws_of_eq (hlive : t.live ⊆ s.live) (hheap : t.heap = s.heap) : t.Draws s :=
  ⟨fun _ ha => hheap ▸ ha, fun _ hp => .inl (hlive hp)⟩

theorem SameRest.draws (h : t.SameRest s) : t.Draws s := draws_of_eq h.live.subset h.heap

theorem modify_draws {f : Vnode → Vnode} : (s.modify p f).Draws s := draws_of_eq subset_rfl rfl

theorem foldl_draws {f : Vfs → Nat → Vfs} (hf : ∀ s i, (f s i).Draws s) (l : List Nat) :
    (l.foldl f s).Draws s := by
  induction l generalizing s with
  | nil => exact .refl s
  | cons i l ih => exact ih.trans (hf s i)

theorem releasePages_draws : (s.releasePages n).Draws s := by
  refine foldl_draws (fun s i => ?_) _
  unfold releasePage
  refine modify_draws.trans ?_
  split <;> exact draws_of_eq subset_rfl rfl

theorem releaseNode_draws : (s.releaseNode n).Draws s := by
  unfold releaseNode
  refine Draws.trans (t := s.releasePages n) (draws_of_eq ?_ rfl) releasePages_draws
  exact Finset.erase_subset _ _

theorem removeNode_draws : (s.removeNode n).Draws s := by
  unfold removeNode
  dsimp only
  split
  · exact releaseNode_draws.trans (detach_rest s n).draws
  · exact (detach_rest s n).draws

theorem moveNode_draws (target : Option Ptr) : (s.moveNode n target d name).Draws s := by
  unfold moveNode
  refine (attach_rest _ d n).draws.trans (modify_draws.trans ((detach_rest _ n).draws.trans ?_))
  split
  · exact .refl s
  · exact removeNode_draws

theorem kmalloc_draws : s.kmalloc.2.Draws s := by
  obtain ⟨heap, h⟩ := kmalloc_rest s
  refine ⟨kmalloc_heap.1, ?_⟩
  rw [h]
  exact fun p hp => .inl hp

theorem newNode_draws (type : VType) (mode : Nat) : (s.newNode d name type mode).2.Draws s := by
  unfold newNode
  have hd := kmalloc_draws (s := s)
  have hp := (kmalloc_heap (s := s)).2
  split <;> rename_i hk <;> rw [hk] at hd hp
  · exact hd
  rename_i n t
  have hd' := kmalloc_draws (s := t)
  split <;> rename_i hk' <;> rw [hk'] at hd'
  · exact hd'.trans hd
  · rename_i m u
    refine (attach_rest _ d n).draws.trans ⟨fun a ha => hd.heap a (hd'.heap a ha), fun q hq => ?_⟩
    rcases Finset.mem_insert.mp hq with rfl | hq
    · exact .inr (hp q rfl)
    · exact (hd'.trans hd).live q hq

theorem openNode_draws {flags : OpenFlags} : (s.openNode n flags).2.2.Draws s := by
  unfold openNode
  split
  · exact .refl s
  split
  · exact .refl s
  dsimp only
  refine modify_draws.trans ?_
  unfold truncateNode
  split
  · exact modify_draws.trans releasePages_draws
  · exact .refl s

theorem vfsOpen_draws (path : CString) (flags : OpenFlags) : (s.vfsOpen path flags).2.2.Draws s := by
  unfold vfsOpen
  split
  · split
    · exact .refl s
    · exact openNode_draws
  split
  · split
    · exact .refl s
    · rename_i parent name _
      have hn : (s.newNode parent name .reg (sIfreg ||| 0o666)).2.Draws s := newNode_draws _ _
      split <;> rename_i he <;> rw [he] at hn
      · exact hn
      · exact openNode_draws.trans hn
  · exact .refl s

theorem vfsClose_draws (file : File) : (s.vfsClose file).2.Draws s := by
  unfold vfsClose
  split
  · exact .refl s
  · have hd : ∀ n, (s.dropRef n).Draws s := fun n => by
      unfold dropRef
      split
      · exact modify_draws
      · exact .refl s
    dsimp only
    split
    · exact releaseNode_draws.trans (hd _)
    · exact hd _

theorem allocPages_draws (l : List Nat) : (allocPages n l s).2.Draws s := by
  induction l generalizing s with
  | nil => exact .refl s
  | cons i l ih =>
    unfold allocPages
    split
    · exact ih
    · dsimp only
      split
      · exact draws_of_eq subset_rfl rfl
      · exact ih.trans (draws_of_eq subset_rfl rfl)

theorem ensurePages_draws {stop : Nat} : (s.ensurePages n stop).2.Draws s := by
  unfold ensurePages
  split
  · exact .refl s
  have ha := allocPages_draws (s := s) (n := n) (List.range ((stop + pageSize - 1) / pageSize))
  split <;> rename_i h <;> rw [h] at ha
  · exact ha
  split
  · exact ha
  · dsimp only
    refine modify_draws.trans ((foldl_draws (fun s i => ?_) _).trans ha)
    exact draws_of_eq subset_rfl rfl

theorem writeLoop_draws (k position : Nat) (bytes : List UInt8) :
    (writeLoop n k position bytes s).Draws s := by
  induction k generalizing position bytes s with
  | zero => exact .refl s
  | succ k ih =>
    unfold writeLoop
    split
    · exact .refl s
    · exact (ih _ _).trans (draws_of_eq subset_rfl rfl)

theorem vfsWrite_draws (file : File) (bytes : List UInt8) : (s.vfsWrite file bytes).2.2.Draws s := by
  unfold vfsWrite
  cases file.node with
  | none => exact .refl s
  | some n =>
    simp only
    split
    · exact .refl s
    split
    · exact .refl s
    split <;> rename_i t he
    · have hs := congrArg (fun r => Draws r.2 s) he
      exact hs.mp ensurePages_draws
    · have hs := congrArg (fun r => Draws r.2 s) he
      dsimp only
      exact modify_draws.trans ((writeLoop_draws _ _ _).trans (hs.mp ensurePages_draws))

theorem vfsMkdir_draws (path : CString) (mode : Nat) : (s.vfsMkdir path mode).2.Draws s := by
  unfold vfsMkdir
  split
  · exact .refl s
  rename_i parent name _
  split
  · exact .refl s
  have hn : (s.newNode parent name .dir (sIfdir ||| (mode &&& 0o777))).2.Draws s := newNode_draws _ _
  split <;> rename_i he <;> rw [he] at hn <;> exact hn

theorem vfsUnlink_draws (path : CString) (removeDirectory : Bool) :
    (s.vfsUnlink path removeDirectory).2.Draws s := by
  unfold vfsUnlink
  split
  · exact .refl s
  split
  · exact .refl s
  split
  · exact .refl s
  split
  · exact .refl s
  split
  · exact .refl s
  · exact removeNode_draws

theorem vfsRename_draws (oldPath newPath : CString) : (s.vfsRename oldPath newPath).2.Draws s := by
  unfold vfsRename
  split
  · exact .refl s
  split
  · exact .refl s
  split
  · exact .refl s
  split
  · exact .refl s
  dsimp only
  split
  · exact .refl s
  split
  · exact .refl s
  have hk := kmalloc_draws (s := s)
  split <;> rename_i h <;> rw [h] at hk
  · exact hk
  · exact (moveNode_draws _).trans hk

theorem draws_loadStable (s : Vfs) : LoadStable fun t => t.Draws s where
  newNode h := (newNode_draws _ _).trans h
  setMode h := modify_draws.trans h
  setArchive h _ _ := modify_draws.trans h

theorem vfsInit_draws {tarData : Mem} {tarSize : Nat} {heap : List (Option Ptr)} {phys : Phys}
    (h : vfsInit tarData tarSize heap phys = some s) : s.Draws (blank tarData tarSize heap phys) := by
  obtain ⟨root, heap', hroot, hheap, hl⟩ := vfsInit_from h
  refine (draws_loadStable _).loadMembers ⟨hheap, fun p hp => .inr ?_⟩ hl
  rw [Finset.mem_singleton.mp hp]
  exact hroot

structure Addressed (s : Vfs) : Prop where
  heap : ∀ p, some p ∈ s.heap → p < 2 ^ 64
  live : ∀ p ∈ s.live, p < 2 ^ 64

theorem Addressed.draws (h : s.Addressed) (hd : t.Draws s) : t.Addressed where
  heap p hp := h.heap p (hd.heap _ hp)
  live p hp := (hd.live p hp).elim (h.live p) (h.heap p)

theorem addressed_vfsInit {tarData : Mem} {tarSize : Nat} {heap : List (Option Ptr)} {phys : Phys}
    (hheap : ∀ p, some p ∈ heap → p < 2 ^ 64) (h : vfsInit tarData tarSize heap phys = some s) :
    s.Addressed :=
  Addressed.draws (t := s) ⟨hheap, by simp [blank]⟩ (vfsInit_draws h)

-- ---------------------------------------------------------------------------
-- Sizes of directories
-- ---------------------------------------------------------------------------

def DirsEmpty (s : Vfs) : Prop := ∀ p, (s.node p).type = .dir → (s.node p).size = 0

theorem DirsEmpty.uses (h : s.DirsEmpty) (hu : t.SameUses s) : t.DirsEmpty := by
  intro p hp
  rw [(hu p).type] at hp
  rw [(hu p).size]
  exact h p hp

theorem DirsEmpty.modify (h : s.DirsEmpty) {f : Vnode → Vnode}
    (hf : (s.node n).type = .dir → (f (s.node n)).size = 0) (ht : (f (s.node n)).type = (s.node n).type) :
    (s.modify n f).DirsEmpty := by
  intro p hp
  rw [modify_node] at hp ⊢
  split at hp
  · rename_i he
    subst he
    rw [if_pos rfl]
    rw [ht] at hp
    exact hf hp
  · rename_i he
    rw [if_neg he]
    exact h p hp

theorem DirsEmpty.newNode (h : s.DirsEmpty) (type : VType) (mode : Nat) :
    (s.newNode d name type mode).2.DirsEmpty := by
  rcases hn : s.newNode d name type mode with ⟨_ | n, t⟩
  · exact h.uses (newNode_none_uses hn).1
  · obtain ⟨-, -, -, hsize, -, hother⟩ := newNode_use hn
    intro p hp
    by_cases hpn : p = n
    · rw [hpn]
      exact hsize
    · rw [(hother p hpn).size]
      exact h p ((hother p hpn).type ▸ hp)

theorem DirsEmpty.openNode (h : s.DirsEmpty) (n : Ptr) (flags : OpenFlags) :
    (s.openNode n flags).2.2.DirsEmpty := by
  unfold Vfs.openNode
  split
  · exact h
  split
  · exact h
  have ht : (s.truncateNode n flags).DirsEmpty := by
    unfold truncateNode
    split
    · exact (h.uses releasePages_sameUses).modify (fun _ => rfl) rfl
    · exact h
  dsimp only
  refine DirsEmpty.modify ht (fun hd => ?_) ?_
  · exact ht n hd
  · rfl

theorem DirsEmpty.vfsOpen (h : s.DirsEmpty) (path : CString) (flags : OpenFlags) :
    (s.vfsOpen path flags).2.2.DirsEmpty := by
  unfold Vfs.vfsOpen
  split
  · split
    · exact h
    · exact h.openNode _ flags
  split
  · split
    · exact h
    · rename_i parent name _
      have hn : (s.newNode parent name .reg (sIfreg ||| 0o666)).2.DirsEmpty := h.newNode _ _
      split <;> rename_i he <;> rw [he] at hn
      · exact hn
      · exact hn.openNode _ flags
  · exact h

theorem DirsEmpty.vfsClose (h : s.DirsEmpty) (file : File) : (s.vfsClose file).2.DirsEmpty := by
  unfold Vfs.vfsClose
  split
  · exact h
  · rename_i n _
    have hd : (s.dropRef n).DirsEmpty := by
      unfold dropRef
      split
      · exact h.modify (fun hd => h n hd) rfl
      · exact h
    dsimp only
    split
    · exact hd.uses releaseNode_sameUses
    · exact hd

/-- A write keeps every count and type, and the size of all but a regular file. -/
theorem vfsWrite_use (file : File) (bytes : List UInt8) (q : Ptr) :
    ((s.vfsWrite file bytes).2.2.node q).type = (s.node q).type ∧
      ((s.vfsWrite file bytes).2.2.node q).refs = (s.node q).refs ∧
      ((s.node q).type = .dir → ((s.vfsWrite file bytes).2.2.node q).size = (s.node q).size) := by
  unfold vfsWrite
  cases file.node with
  | none => exact ⟨rfl, rfl, fun _ => rfl⟩
  | some n =>
    simp only
    split
    · exact ⟨rfl, rfl, fun _ => rfl⟩
    rename_i hreg
    split
    · exact ⟨rfl, rfl, fun _ => rfl⟩
    split
    · rename_i t he
      have hs := congrArg (fun r => SameUses r.2 s) he
      have hu := hs.mp ensurePages_sameUses q
      exact ⟨hu.type, hu.refs, fun _ => hu.size⟩
    · rename_i t he
      have hs := congrArg (fun r => SameUses r.2 s) he
      have hw : SameUses (writeLoop n bytes.length (s.writeOffset n file) bytes t) t :=
        writeLoop_sameUses _ _ _
      have hu := (hw.trans (hs.mp ensurePages_sameUses)) q
      dsimp only
      rw [modify_node]
      split
      · rename_i hq
        subst hq
        refine ⟨hu.type, hu.refs, fun hd => ?_⟩
        exact absurd (.inl (by rw [hd]; decide)) hreg
      · exact ⟨hu.type, hu.refs, fun _ => hu.size⟩

theorem DirsEmpty.vfsWrite (h : s.DirsEmpty) (file : File) (bytes : List UInt8) :
    (s.vfsWrite file bytes).2.2.DirsEmpty := by
  intro p hp
  obtain ⟨htype, -, hsize⟩ := vfsWrite_use (s := s) file bytes p
  rw [htype] at hp
  rw [hsize hp]
  exact h p hp

theorem DirsEmpty.vfsMkdir (h : s.DirsEmpty) (path : CString) (mode : Nat) :
    (s.vfsMkdir path mode).2.DirsEmpty := by
  unfold Vfs.vfsMkdir
  split
  · exact h
  rename_i parent name _
  split
  · exact h
  have hn : (s.newNode parent name .dir (sIfdir ||| (mode &&& 0o777))).2.DirsEmpty := h.newNode _ _
  split <;> rename_i he <;> rw [he] at hn <;> exact hn

theorem dirsEmpty_loadStable : LoadStable DirsEmpty where
  newNode h := h.newNode _ _
  setMode h := h.modify (fun hdir => h _ hdir) rfl
  setArchive h hreg _ := h.modify (fun hdir => by rw [hreg] at hdir; cases hdir) rfl

theorem dirsEmpty_vfsInit {tarData : Mem} {tarSize : Nat} {heap : List (Option Ptr)} {phys : Phys}
    (h : vfsInit tarData tarSize heap phys = some s) : s.DirsEmpty := by
  obtain ⟨root, heap', -, -, hl⟩ := vfsInit_from h
  refine dirsEmpty_loadStable.loadMembers (fun p _ => ?_) hl
  have hnode : ((blank tarData tarSize heap' phys).withRoot root).node p =
      if p = root then { ino := 1, type := .dir, mode := sIfdir ||| 0o755, linked := true }
      else {} := Function.update_apply _ _ _ _
  rw [hnode]
  split <;> rfl

end Vfs

namespace Session

theorem dirsEmpty_call {s : Session} (h : s.vfs.DirsEmpty) (c : FsCall) : (s.call c).vfs.DirsEmpty := by
  cases c with
  | openPath handle path flags =>
    simp only [call]
    split
    · exact h
    · exact h.vfsOpen path flags
  | close handle =>
    simp only [call]
    split
    · exact h
    · exact h.vfsClose _
  | read | seek | readdir =>
    simp only [call]
    split <;> exact h
  | write handle bytes =>
    simp only [call]
    split
    · exact h
    · exact h.vfsWrite _ bytes
  | mkdir path mode => exact h.vfsMkdir path mode
  | unlink path removeDirectory => exact h.uses (Vfs.vfsUnlink_sameUses path removeDirectory)
  | rename oldPath newPath => exact h.uses (Vfs.vfsRename_sameUses oldPath newPath)

theorem call_draws (s : Session) (c : FsCall) : (s.call c).vfs.Draws s.vfs := by
  cases c with
  | openPath handle path flags =>
    simp only [call]
    split
    · exact .refl _
    · exact Vfs.vfsOpen_draws path flags
  | close handle =>
    simp only [call]
    split
    · exact .refl _
    · exact Vfs.vfsClose_draws _
  | read | seek | readdir =>
    simp only [call]
    split <;> exact .refl _
  | write handle bytes =>
    simp only [call]
    split
    · exact .refl _
    · exact Vfs.vfsWrite_draws _ bytes
  | mkdir path mode => exact Vfs.vfsMkdir_draws path mode
  | unlink path removeDirectory => exact Vfs.vfsUnlink_draws path removeDirectory
  | rename oldPath newPath => exact Vfs.vfsRename_draws oldPath newPath

end Session

end NarcOs
