import NarcOs.Fs.Arrays
import NarcOs.Fs.Keys

/-!
# The namespace as a map

`names s` maps each canonical key to the inode it names, with its type, mode
and contents. A successful call that creates, removes or renames changes this
map as its arguments say and in no other place; the storage of the files that
the call does not touch stays theirs because no frame is shared.
-/

namespace NarcOs

namespace Vfs

variable {s t u : Vfs} {A : Multiset Nat} {kids : Ptr → List Ptr} {p q n d o : Ptr}
  {name : List UInt8} {key k : Key}

-- ---------------------------------------------------------------------------
-- Frames in every state
-- ---------------------------------------------------------------------------

def Framed (s : Vfs) : Prop := ∃ A, s.Frames A

theorem Framed.congr (h : s.Framed) (hphys : t.phys = s.phys)
    (hpages : ∀ p, (t.node p).pages = (s.node p).pages) : t.Framed := by
  obtain ⟨A, hA⟩ := h
  exact ⟨A, hA.congr hphys hpages⟩

theorem Framed.setHeap (h : s.Framed) (heap : List (Option Ptr)) :
    Framed { s with heap := heap } := h.congr rfl fun _ => rfl

/-- A copy inside one page slot; an empty slot is the page at 0, which no frame is. -/
theorem Frames.poke (h : s.Frames A) (n : Ptr) (i offset : Nat) {bytes : List UInt8}
    (hlen : offset + bytes.length ≤ 4096) : (s.poke (s.slot n i + offset) bytes).Frames A := by
  refine ⟨h.avail.setMem fun a ha j hj => Mem.write_apply_outside ?_, h.frame, h.held, h.inj,
    h.bound⟩
  have hframe := h.avail.isFrame ha
  by_cases hz : s.slot n i = 0
  · have := hframe.pos
    have := hframe.aligned
    omega
  · have hd := hframe.disjoint (h.frame n i hz) fun e => h.held n i hz (e ▸ ha)
    omega

theorem Frames.writeLoop (n : Ptr) (k position : Nat) (bytes : List UInt8) (h : s.Frames A) :
    (writeLoop n k position bytes s).Frames A := by
  induction k generalizing position bytes s with
  | zero => exact h
  | succ k ih =>
    unfold Vfs.writeLoop
    split
    · exact h
    · refine ih _ _ (h.poke n (position / pageSize) (position % pageSize) ?_)
      have := chunkAt_eq_min position bytes.length
      rw [List.length_take, pageSize]
      omega

theorem Frames.copyArchive (n : Ptr) (archive : Nat) (l : List Nat) (h : s.Frames A) :
    (l.foldl (copyArchivePage n archive) s).Frames A := by
  induction l generalizing s with
  | nil => exact h
  | cons i l ih =>
    refine ih ?_
    rw [copyArchivePage_eq]
    refine h.poke n _ _ ?_
    rw [Mem.length_read, Nat.mul_mod_left]
    omega

theorem Framed.ensurePages (h : s.Framed) (n : Ptr) (stop : Nat) :
    (s.ensurePages n stop).2.Framed := by
  obtain ⟨A, hA⟩ := h
  unfold Vfs.ensurePages
  split
  · exact ⟨A, hA⟩
  · rename_i hmax
    simp only [vfsFileMax] at hmax
    obtain ⟨hg, -⟩ := allocPages_grown n (List.range ((stop + pageSize - 1) / pageSize)) s
      fun i hi => by
        rw [List.mem_range, pageSize] at hi
        omega
    have hgrown := hg.frames A hA
    split
    · rename_i t he
      rw [he] at hgrown
      exact hgrown
    · rename_i t he
      rw [he] at hgrown
      obtain ⟨B, hB⟩ := hgrown
      split
      · exact ⟨B, hB⟩
      · rename_i archive _
        refine Framed.congr ⟨B, hB.copyArchive n archive _⟩ rfl fun p => ?_
        rw [modify_node]
        split <;> rfl

theorem Framed.vfsWrite (h : s.Framed) (file : File) (bytes : List UInt8) :
    (s.vfsWrite file bytes).2.2.Framed := by
  unfold Vfs.vfsWrite
  cases file.node with
  | none => exact h
  | some n =>
    simp only
    split
    · exact h
    split
    · exact h
    split
    · rename_i t he
      have hs := congrArg (fun r => Framed r.2) he
      exact hs.mp (h.ensurePages n _)
    · rename_i t he
      have hs := congrArg (fun r => Framed r.2) he
      obtain ⟨B, hB⟩ := hs.mp (h.ensurePages n _)
      dsimp only
      refine Framed.congr ⟨B, hB.writeLoop n _ _ bytes⟩ rfl fun p => ?_
      rw [modify_node]
      split <;> rfl

theorem Framed.releasePages (h : s.Framed) (n : Ptr) : (s.releasePages n).Framed := by
  obtain ⟨A, hA⟩ := h
  exact (releasePages_released s n).frames A hA

theorem Framed.modify (h : s.Framed) (n : Ptr) {f : Vnode → Vnode}
    (hf : ∀ v, (f v).pages = v.pages) : (s.modify n f).Framed := by
  refine h.congr rfl fun p => ?_
  rw [modify_node]
  split
  · exact hf _
  · rfl

theorem Framed.openNode (h : s.Framed) (n : Ptr) (flags : OpenFlags) :
    (s.openNode n flags).2.2.Framed := by
  unfold Vfs.openNode
  split
  · exact h
  split
  · exact h
  · have htrunc : (s.truncateNode n flags).Framed := by
      unfold truncateNode
      split
      · exact (h.releasePages n).modify n fun _ => rfl
      · exact h
    dsimp only
    exact htrunc.modify n fun _ => rfl

theorem Framed.created (h : s.Framed) (n d : Ptr) (name : List UInt8) (type : VType) (mode : Nat) :
    ((s.withNode n name type mode).attach d n).Framed := by
  obtain ⟨A, hA⟩ := h
  have hr := attach_rest (s.withNode n name type mode) d n
  have hsame := fun p (hp : p ≠ n) => created_sameFile s n d name type mode hp
  obtain ⟨-, -, hslot⟩ := created_self s n d name type mode
  have hkeep : ∀ p i, ((s.withNode n name type mode).attach d n).slot p i ≠ 0 →
      ((s.withNode n name type mode).attach d n).slot p i = s.slot p i := by
    intro p i hp
    refine (hsame p ?_).slot i
    rintro rfl
    exact hp (hslot i)
  refine ⟨A, hA.shrink ?_ hkeep ?_⟩
  · rw [hr.phys]
    exact hA.avail
  · intro p i hp
    have e := hkeep p i hp
    exact e ▸ hA.held p i (e ▸ hp)

theorem Framed.newNode (h : s.Framed) (d : Ptr) (name : List UInt8) (type : VType) (mode : Nat) :
    (s.newNode d name type mode).2.Framed := by
  obtain ⟨heap, hn | ⟨n, -, hn⟩⟩ := newNode_cases s d name type mode
  · rw [hn]
    exact h.setHeap heap
  · rw [hn]
    exact (h.setHeap heap).created n d name type mode

theorem Framed.vfsOpen (h : s.Framed) (path : CString) (flags : OpenFlags) :
    (s.vfsOpen path flags).2.2.Framed := by
  unfold Vfs.vfsOpen
  split
  · split
    · exact h
    · exact h.openNode _ flags
  split
  · split
    · exact h
    · rename_i parent name _
      have hn := h.newNode parent name .reg (sIfreg ||| 0o666)
      split <;> rename_i he <;> rw [he] at hn
      · exact hn
      · exact hn.openNode _ flags
  · exact h

theorem Framed.releaseNode (h : s.Framed) (n : Ptr) : (s.releaseNode n).Framed :=
  (h.releasePages n).congr rfl fun _ => rfl

theorem Framed.vfsClose (h : s.Framed) (file : File) : (s.vfsClose file).2.Framed := by
  unfold Vfs.vfsClose
  split
  · exact h
  · rename_i n _
    have hdrop : (s.dropRef n).Framed := by
      unfold dropRef
      split
      · exact h.modify n fun _ => rfl
      · exact h
    dsimp only
    split
    · exact hdrop.releaseNode n
    · exact hdrop

theorem Framed.vfsMkdir (h : s.Framed) (path : CString) (mode : Nat) :
    (s.vfsMkdir path mode).2.Framed := by
  unfold Vfs.vfsMkdir
  split
  · exact h
  split
  · exact h
  · rename_i parent name _ _
    have hn := h.newNode parent name .dir (sIfdir ||| (mode &&& 0o777))
    split <;> rename_i he <;> rw [he] at hn <;> exact hn

theorem Framed.detach (h : s.Framed) (n : Ptr) : (s.detach n).Framed :=
  h.congr (detach_rest s n).phys fun p => (detach_data s n p).pages

theorem Framed.removeNode (h : s.Framed) (n : Ptr) : (s.removeNode n).Framed := by
  unfold Vfs.removeNode
  dsimp only
  split
  · exact (h.detach n).releaseNode n
  · exact h.detach n

theorem Framed.vfsUnlink (h : s.Framed) (path : CString) (removeDirectory : Bool) :
    (s.vfsUnlink path removeDirectory).2.Framed := by
  unfold Vfs.vfsUnlink
  split
  · exact h
  split
  · exact h
  split
  · exact h
  split
  · exact h
  split
  · exact h
  · exact h.removeNode _

theorem Framed.reattach (h : s.Framed) (n d : Ptr) (name : List UInt8) :
    (s.reattach n d name).Framed := by
  refine h.congr (reattach_rest s n d name).phys fun p => ?_
  rw [(reattach_node s n d p name).pages]
  split <;> rfl

theorem Framed.moveNode (h : s.Framed) (n d : Ptr) (target : Option Ptr) (name : List UInt8) :
    (s.moveNode n target d name).Framed := by
  unfold Vfs.moveNode
  cases target with
  | none => exact h.reattach n d name
  | some target => exact (h.removeNode target).reattach n d name

theorem Framed.vfsRename (h : s.Framed) (oldPath newPath : CString) :
    (s.vfsRename oldPath newPath).2.Framed := by
  unfold Vfs.vfsRename
  split
  · exact h
  split
  · exact h
  split
  · exact h
  split
  · exact h
  dsimp only
  split
  · exact h
  split
  · exact h
  obtain ⟨heap, hk⟩ := kmalloc_rest s
  split <;> rename_i t hkm <;> rw [hkm] at hk <;> simp only at hk <;> subst hk
  · exact h.setHeap heap
  · exact (h.setHeap heap).moveNode _ _ _ _

end Vfs

theorem Session.framed_call {s : Session} (h : s.vfs.Framed) (c : FsCall) : (s.call c).vfs.Framed := by
  cases c with
  | openPath handle path flags =>
    simp only [call]
    split
    · exact h
    · exact h.vfsOpen path flags
  | close handle =>
    simp only [call]
    split
    · exact h
    · exact h.vfsClose _
  | read | seek | readdir =>
    simp only [call]
    split <;> exact h
  | write handle bytes =>
    simp only [call]
    split
    · exact h
    · exact h.vfsWrite _ bytes
  | mkdir path mode => exact h.vfsMkdir path mode
  | unlink path removeDirectory => exact h.vfsUnlink path removeDirectory
  | rename oldPath newPath => exact h.vfsRename oldPath newPath

theorem Session.Steps.framed {s t : Session} (hs : Steps s t) (h : s.vfs.Framed) : t.vfs.Framed := by
  induction hs with
  | refl => exact h
  | tail _ hstep ih =>
    obtain ⟨c, rfl⟩ := hstep
    exact framed_call ih c

-- ---------------------------------------------------------------------------
-- The map
-- ---------------------------------------------------------------------------

structure Inode where
  ino : Nat
  type : VType
  mode : Nat
  contents : List UInt8
  deriving DecidableEq

/-- What a key names after everything under `old` has moved under `new`. -/
def movedNames (names : Key → Option Inode) (old new : Key) : Key → Option Inode := fun k =>
  if new <+: k then names (old ++ k.drop new.length) else if old <+: k then none else names k

namespace Vfs

variable {s t u : Vfs} {A : Multiset Nat} {kids : Ptr → List Ptr} {p q n d o : Ptr}
  {name : List UInt8} {key k : Key}

def inode (s : Vfs) (p : Ptr) : Inode where
  ino := (s.node p).ino
  type := (s.node p).type
  mode := (s.node p).mode
  contents := s.contents p

def names (s : Vfs) (k : Key) : Option Inode := (s.reach k).map s.inode

theorem SameFile.inode (h : t.SameFile s p) (hino : (t.node p).ino = (s.node p).ino)
    (htype : (t.node p).type = (s.node p).type) (hmode : (t.node p).mode = (s.node p).mode) :
    t.inode p = s.inode p := by
  unfold Vfs.inode
  rw [hino, htype, hmode, h.contents]

theorem names_congr (hreach : t.reach = s.reach)
    (h : ∀ k p, s.reach k = some p → t.inode p = s.inode p) : t.names = s.names := by
  funext k
  unfold names
  rw [hreach]
  cases hk : s.reach k with
  | none => rfl
  | some p => exact congrArg some (h k p hk)

theorem names_update {b : Option Ptr} (hreach : t.reach = Function.update s.reach key b)
    (h : ∀ k p, k ≠ key → s.reach k = some p → t.inode p = s.inode p) :
    t.names = Function.update s.names key (b.map t.inode) := by
  funext k
  unfold names
  rw [hreach]
  by_cases hk : k = key
  · rw [hk, Function.update_self, Function.update_self]
  · rw [Function.update_of_ne hk, Function.update_of_ne hk]
    cases hp : s.reach k with
    | none => rfl
    | some p => exact congrArg some (h k p hk hp)

theorem created_inode (s : Vfs) (n d : Ptr) (name : List UInt8) (type : VType) (mode : Nat) :
    ((s.withNode n name type mode).attach d n).inode n = ⟨s.nextInode, type, mode, []⟩ := by
  have hd := attach_data (s.withNode n name type mode) d n n
  rw [withNode_self] at hd
  unfold inode
  rw [hd.ino, hd.type, hd.mode, contents_eq_nil (created_self s n d name type mode).1]

theorem created_inode_of_ne (s : Vfs) (d : Ptr) (name : List UInt8) (type : VType) (mode : Nat)
    (hp : p ≠ n) : ((s.withNode n name type mode).attach d n).inode p = s.inode p := by
  have hd := attach_data (s.withNode n name type mode) d n p
  rw [withNode_of_ne hp] at hd
  exact (created_sameFile s n d name type mode hp).inode hd.ino hd.type hd.mode

theorem openNode_mode (s : Vfs) (n : Ptr) (flags : OpenFlags) (p : Ptr) :
    ((s.openNode n flags).2.2.node p).mode = (s.node p).mode := by
  have hr : ((s.releasePages n).node p).mode = (s.node p).mode := by
    rw [(releasePages_released s n).node p]
  have htrunc : ((s.truncateNode n flags).node p).mode = (s.node p).mode := by
    unfold truncateNode
    split
    · rw [modify_node]
      split <;> exact hr
    · rfl
  unfold openNode
  split
  · rfl
  split
  · rfl
  · dsimp only
    rw [modify_node]
    split <;> exact htrunc

theorem openNode_inode (h : s.Frames A) (hf : s.Filled n) (he : s.contents n = [])
    (flags : OpenFlags) (p : Ptr) : (s.openNode n flags).2.2.inode p = s.inode p := by
  have hst : (s.openNode n flags).2.2.SameTree s := openNode_sameTree
  obtain ⟨hh, -⟩ := openNode_holds h hf flags
  have hc : (s.openNode n flags).2.2.contents p = s.contents p := by
    by_cases hp : p = n
    · rw [hp, hh.contents, he, ite_self]
    · exact (hh.other p hp).contents
  unfold inode
  rw [(hst.node p).ino, (hst.node p).type, openNode_mode, hc]

theorem removeNode_inode (h : s.Framed) (hp : p ≠ n) : (s.removeNode n).inode p = s.inode p := by
  have hd := detach_data s n p
  have hr := detach_rest s n
  have hdf : (s.detach n).SameFile s p :=
    sameFile_of_mem_eq hr.tarData (by rw [hr.phys]) hd.size hd.archive hd.pages
  have hdetach := hdf.inode hd.ino hd.type hd.mode
  unfold removeNode
  dsimp only
  split
  · obtain ⟨A, hA⟩ := h.detach n
    have hrel := releasePages_released (s.detach n) n
    refine Eq.trans ?_ hdetach
    have hfile : ((s.detach n).releaseNode n).SameFile (s.detach n) p :=
      SameFile.trans (t := (s.detach n).releasePages n) ⟨rfl, rfl, rfl, rfl, fun _ => rfl⟩
        (hrel.other A hA p hp)
    refine hfile.inode ?_ ?_ ?_
    all_goals rw [releaseNode, hrel.node p]
  · exact hdetach

theorem reattach_inode (s : Vfs) (n d : Ptr) (name : List UInt8) (p : Ptr) :
    (s.reattach n d name).inode p = s.inode p := by
  have hr := reattach_rest s n d name
  have hn := reattach_node s n d p name
  have hself : ∀ {α : Type} (f : Vnode → α), (∀ v : Vnode, f { v with name := name } = f v) →
      f (if p = n then { s.node p with name := name } else s.node p) = f (s.node p) := by
    intro α f hf
    split
    · exact hf _
    · rfl
  refine SameFile.inode (sameFile_of_mem_eq hr.tarData (by rw [hr.phys]) ?_ ?_ ?_) ?_ ?_ ?_
  · exact hn.size.trans (hself _ fun _ => rfl)
  · exact hn.archive.trans (hself _ fun _ => rfl)
  · exact hn.pages.trans (hself _ fun _ => rfl)
  · exact hn.ino.trans (hself _ fun _ => rfl)
  · exact hn.type.trans (hself _ fun _ => rfl)
  · exact hn.mode.trans (hself _ fun _ => rfl)

theorem setHeap_names (h : s.Tree kids) (heap : List (Option Ptr)) :
    names { s with heap := heap } = s.names :=
  names_congr ((setHeap_sameTree heap).reach h) fun _ _ _ => rfl

-- ---------------------------------------------------------------------------
-- Calls
-- ---------------------------------------------------------------------------

/-- The key of `path` is new, names a fresh vnode after the call, and every
other key names what it did. -/
structure AddsName (t s : Vfs) (path : CString) (type : VType) (mode : Nat) : Prop where
  parent : ∃ key d name, s.lookupParent path.bytes = .ok (d, name) ∧ s.reach key = some d ∧
    canonical path.bytes = key ++ [name]
  unbound : s.names (canonical path.bytes) = none
  fresh : ∃ n ∉ s.live, t.reach (canonical path.bytes) = some n
  names : t.names =
    Function.update s.names (canonical path.bytes) (some ⟨s.nextInode, type, mode, []⟩)

theorem Tree.created_names (h : s.Tree kids) {path : CString} (heap : List (Option Ptr))
    (type : VType) (mode : Nat) (hpar : s.lookupParent path.bytes = .ok (d, name))
    (hnew : s.childNamed d name = none) (hn : n ∉ s.live) :
    AddsName ((withNode { s with heap := heap } n name type mode).attach d n) s path type mode := by
  have hp := lookupParent_ok path.noNul hpar
  obtain ⟨key, hkey, hd⟩ := h.parentOf_key hp
  have hst : SameTree { s with heap := heap } s := setHeap_sameTree heap
  have hreach := hst.reach h
  have hcr := (h.setHeap heap).create_reach type mode hn hp.dir hp.good
    (hreach ▸ hd) hnew
  rw [hreach] at hcr
  constructor
  · exact ⟨key, d, name, hpar, hd, hkey⟩
  · rw [names, h.entry_reach hp, hnew]
    rfl
  · exact ⟨n, hn, by rw [hcr, hkey, Function.update_self]⟩
  · rw [hkey, names_update hcr]
    · simp only [Option.map_some, created_inode]
    · intro k p _ hk
      have hpn : p ≠ n := ne_of_mem_of_not_mem (h.live (h.reach_linked hk)) hn
      exact created_inode_of_ne _ d name type mode hpn

theorem Tree.vfsOpen_names (h : s.Tree kids) (hA : s.Framed) (path : CString) (flags : OpenFlags)
    (hl : s.lookup path.bytes = .error .notFound) (hok : (s.vfsOpen path flags).1 = .ok) :
    AddsName (s.vfsOpen path flags).2.2 s path .reg (sIfreg ||| 0o666) := by
  unfold Vfs.vfsOpen at hok ⊢
  rw [hl] at hok ⊢
  simp only [true_and] at hok ⊢
  split at hok
  · rename_i hcreate
    rw [if_pos hcreate]
    split at hok
    · rename_i status hpar
      simp only at hok
      subst hok
      exact absurd hpar (lookupParent_ne_ok path.bytes)
    · rename_i parent name hpar
      have hp := lookupParent_ok path.noNul hpar
      have hnew := hp.childNamed_eq_none hl
      obtain ⟨heap, hnn | ⟨n, hfresh, hnn⟩⟩ := newNode_cases s parent name .reg (sIfreg ||| 0o666)
      · rw [hnn] at hok
        cases hok
      · rw [hnn]
        simp only
        have hadd := h.created_names heap .reg (sIfreg ||| 0o666) hpar hnew hfresh
        obtain ⟨kids', htree⟩ := (@Create.mk { s with heap := heap } _ _ _ .reg
          (sIfreg ||| 0o666) hfresh (h.parentOf_linked hp) hp.dir hp.good hnew).tree
          (h.setHeap heap)
        obtain ⟨B, hB⟩ := (hA.setHeap heap).created n parent name .reg (sIfreg ||| 0o666)
        obtain ⟨hsize, -, hslot⟩ :=
          created_self { s with heap := heap } n parent name .reg (sIfreg ||| 0o666)
        generalize (withNode { s with heap := heap } n name .reg (sIfreg ||| 0o666)).attach
          parent n = t at hadd htree hB hsize hslot
        have hfilled : t.Filled n := by
          refine ⟨?_, fun _ x hx => ?_, fun x hx => absurd (hslot _) hx⟩
          · rw [hsize]
            exact Nat.zero_le _
          · rw [hsize] at hx
            exact absurd hx (Nat.not_lt_zero x)
        have hreach : (t.openNode n flags).2.2.reach = t.reach :=
          SameTree.reach openNode_sameTree htree
        refine ⟨hadd.parent, hadd.unbound, ?_, ?_⟩
        · rw [hreach]
          exact hadd.fresh
        · rw [← hadd.names]
          exact names_congr hreach fun k p _ =>
            openNode_inode hB hfilled (contents_eq_nil hsize) flags p
  · cases hok

theorem Tree.vfsMkdir_names (h : s.Tree kids) (path : CString) (mode : Nat)
    (hok : (s.vfsMkdir path mode).1 = .ok) :
    AddsName (s.vfsMkdir path mode).2 s path .dir (sIfdir ||| (mode &&& 0o777)) := by
  unfold Vfs.vfsMkdir at hok ⊢
  split at hok
  · rename_i status hpar
    simp only at hok
    subst hok
    exact absurd hpar (lookupParent_ne_ok path.bytes)
  · rename_i parent name hpar
    split at hok
    · cases hok
    rename_i hnew
    rw [if_neg hnew]
    obtain ⟨heap, hnn | ⟨n, hfresh, hnn⟩⟩ :=
      newNode_cases s parent name .dir (sIfdir ||| (mode &&& 0o777))
    · rw [hnn] at hok
      cases hok
    · rw [hnn]
      exact h.created_names heap .dir _ hpar (Option.not_isSome_iff_eq_none.mp hnew) hfresh

theorem Tree.removeNode_names (h : s.Tree kids) (hA : s.Framed) (hd : s.reach key = some d)
    (hkid : n ∈ kids d) (hk : kids n = []) :
    (s.removeNode n).names = Function.update s.names (key ++ [(s.node n).name]) none := by
  have hdl := h.reach_linked hd
  have hn := h.kid_linked hdl hkid
  refine names_update (h.remove_reach hn hd hkid hk) fun k p hne hp => removeNode_inode hA ?_
  rintro rfl
  have hreach : s.reach (key ++ [(s.node p).name]) = some p := by
    rw [reach_snoc, hd]
    exact h.edge_eq_some.mpr ⟨hdl, hkid, rfl⟩
  exact hne (h.treelike.resolve_inj hp hreach)

theorem Tree.vfsUnlink_names (h : s.Tree kids) (hA : s.Framed) (path : CString)
    (removeDirectory : Bool) (hok : (s.vfsUnlink path removeDirectory).1 = .ok) :
    s.names (canonical path.bytes) ≠ none ∧ (s.vfsUnlink path removeDirectory).2.names =
      Function.update s.names (canonical path.bytes) none := by
  obtain ⟨parent, name, n, hpar, hn, hempty, hs⟩ := vfsUnlink_ok hok
  have hp := lookupParent_ok path.noNul hpar
  obtain ⟨key, hkey, hd⟩ := h.parentOf_key hp
  obtain ⟨hdl, hnl, -, hkid⟩ := h.entry hp hn
  have hname := ((h.childNamed_eq_some hdl hp.good.noNul).mp hn).2
  have hk : kids n = [] := (h.links.children_eq_none hnl).mp hempty
  refine ⟨?_, ?_⟩
  · rw [names, h.entry_reach hp, hn]
    simp
  · rw [hs, hkey, ← hname]
    exact h.removeNode_names hA hd hkid hk

theorem Tree.reattach_names {anc : List Ptr} {old : Key} (h : s.Tree kids)
    (ho : s.reach old = some o) (hkid : n ∈ kids o) (hd : s.reach key = some d)
    (hdir : (s.node d).type = .dir) (hanc : Chain s.parent (some d) anc) (hnanc : n ∉ anc)
    (hgood : GoodName name) (hnew : s.childNamed d name = none) :
    (s.reattach n d name).names =
      movedNames s.names (old ++ [(s.node n).name]) (key ++ [name]) := by
  have hfree := (h.childNamed_eq_none (h.reach_linked hd) hgood.noNul).mp hnew
  obtain ⟨hin, hout⟩ := h.move_reach (h.kid_linked (h.reach_linked ho) hkid) ho hkid hd hdir hanc
    hnanc hgood fun c hc _ => hfree c hc
  have hinode : (s.reattach n d name).inode = s.inode := funext (reattach_inode s n d name)
  funext k
  unfold movedNames names
  rw [hinode]
  split
  · rename_i hpre
    obtain ⟨r, rfl⟩ := hpre
    rw [hin, List.drop_left]
  · rename_i hpre
    rw [hout k hpre]
    split <;> rfl

theorem Tree.moveNode_names {old : Key} (h : s.Tree kids) (hA : s.Framed)
    (ho : s.reach old = some o) (hkid : n ∈ kids o) (hd : s.reach key = some d)
    (hdir : (s.node d).type = .dir) (hanc : n ∉ s.ancestors d) (hgood : GoodName name)
    (hne : s.childNamed d name ≠ some n)
    (hrep : (s.childNamed d name).bind (s.replaceError n) = none) :
    (s.moveNode n (s.childNamed d name) d name).names =
      movedNames s.names (old ++ [(s.node n).name]) (key ++ [name]) := by
  have hol := h.reach_linked ho
  have hdl := h.reach_linked hd
  have hchain := (h.ancestors hdl).1
  cases htarget : s.childNamed d name with
  | none => exact h.reattach_names ho hkid hd hdir hchain hanc hgood htarget
  | some target =>
    rw [htarget] at hrep hne
    have hnt : n ≠ target := fun e => hne (e ▸ rfl)
    obtain ⟨hk, htn⟩ := (h.childNamed_eq_some hdl hgood.noNul).mp htarget
    have htl := h.kid_linked hdl hk
    have htk : kids target = [] := (h.links.children_eq_none htl).mp (replaceError_eq_none hrep)
    have hn := h.kid_linked hol hkid
    have hv := h.vacated hn (h.links.parent_eq hol hkid) hdl hdir hgood htarget hnt htk
    have htree := h.removeNode htl (h.links.parent_eq hdl hk) htk
    have hreach := h.remove_reach htl hd hk htk
    have hnames := h.removeNode_names hA hd hk htk
    rw [htn] at hreach hnames
    have hot : o ≠ target := by
      rintro rfl
      rw [htk] at hkid
      cases hkid
    have hedge : s.reach (key ++ [name]) = some target := by
      rw [reach_snoc, hd]
      exact h.edge_eq_some.mpr ⟨hdl, hk, htn⟩
    have hkid' : n ∈ Function.update kids d ((kids d).erase target) o := by
      by_cases hod : o = d
      · subst hod
        rw [Function.update_self]
        exact (List.mem_erase_of_ne hnt).mpr hkid
      · rwa [Function.update_of_ne hod]
    have ho' : (s.removeNode target).reach old = some o := by
      rw [hreach, Function.update_of_ne, ho]
      rintro rfl
      rw [hedge] at ho
      exact hot (Option.some.inj ho).symm
    have hd' : (s.removeNode target).reach key = some d := by
      rw [hreach, Function.update_of_ne (by simp), hd]
    have hname : ((s.removeNode target).node n).name = (s.node n).name := by
      rw [(removeNode_node n).name, (detach_data s target n).name]
    have hmove := htree.reattach_names ho' hkid' hd' hv.dir hv.ancestors hanc hgood hv.free
    rw [hname, hnames] at hmove
    refine Eq.trans hmove ?_
    -- the target is not under the moved node, so its key is only read under the new prefix
    have hapart : ¬ old ++ [(s.node n).name] <+: key ++ [name] := by
      rintro ⟨r, hr⟩
      have hbelow : resolve s.edge n r = some target := by
        rw [← hr, reach_append, reach_snoc, ho] at hedge
        have he : s.edge o (s.node n).name = some n := h.edge_eq_some.mpr ⟨hol, hkid, rfl⟩
        simpa [he] using hedge
      have htp : s.parent target = some d := h.links.parent_eq hdl hk
      have htanc : Chain s.parent (some target) (target :: s.ancestors d) := .cons (htp ▸ hchain)
      rcases List.mem_cons.mp (h.resolve_ancestor hbelow htanc) with e | e
      · exact hnt e
      · exact hanc e
    funext k
    unfold movedNames
    split
    · rw [Function.update_of_ne]
      intro e
      exact hapart ⟨_, e⟩
    · rename_i hpre
      split
      · rfl
      · rw [Function.update_of_ne]
        rintro rfl
        exact hpre (List.prefix_refl _)

theorem Tree.vfsRename_names (h : s.Tree kids) (hA : s.Framed) (oldPath newPath : CString)
    (hok : (s.vfsRename oldPath newPath).1 = .ok) :
    s.names (canonical oldPath.bytes) ≠ none ∧
    (s.reach (canonical oldPath.bytes) = s.reach (canonical newPath.bytes) →
      (s.vfsRename oldPath newPath).2 = s) ∧
    (s.reach (canonical oldPath.bytes) ≠ s.reach (canonical newPath.bytes) →
      (s.vfsRename oldPath newPath).2.names =
        movedNames s.names (canonical oldPath.bytes) (canonical newPath.bytes)) := by
  obtain ⟨n, o, oldName, d, name, hpar, hn, hpar', hanc, hcase⟩ := vfsRename_ok hok
  have hop := lookupParent_ok oldPath.noNul hpar
  have hnp := lookupParent_ok newPath.noNul hpar'
  have hold := h.entry_reach hop
  have hnew := h.entry_reach hnp
  rw [hn] at hold
  refine ⟨by simp [names, hold], ?_⟩
  rw [hold, hnew]
  rcases hcase with ⟨hsame, hid⟩ | ⟨hne, hrep, heap, hmove⟩
  · exact ⟨fun _ => hid, fun hdiff => absurd hsame.symm hdiff⟩
  · refine ⟨fun e => absurd e.symm hne, fun _ => ?_⟩
    obtain ⟨old, holdkey, ho⟩ := h.parentOf_key hop
    obtain ⟨key, hkey, hd⟩ := h.parentOf_key hnp
    obtain ⟨hol, -, -, hkid⟩ := h.entry hop hn
    have hname := ((h.childNamed_eq_some hol hop.good.noNul).mp hn).2
    have hreach := (setHeap_sameTree heap).reach h
    rw [hmove, holdkey, hkey, ← hname, ← setHeap_names h heap]
    exact (h.setHeap heap).moveNode_names (hA.setHeap heap) (hreach ▸ ho) hkid (hreach ▸ hd)
      hnp.dir hanc hnp.good hne hrep

end Vfs

namespace Session

/-- The namespace after each call, from every state of every run: a creating
open and a mkdir add one name, an unlink removes one, a rename moves all names
under one key. The new inode number is in use nowhere while neither `vfs_init`
nor a later call has wrapped `next_inode`. -/
theorem steps_names (tarData : Mem) (tarSize : Nat) (heap : List (Option Ptr)) (phys : Phys)
    (A : Multiset Nat) (hphys : phys.Avail A) (v : Vfs)
    (hv : Vfs.vfsInit tarData tarSize heap phys = some v) (s : Session)
    (hs : Steps (start v) s) :
    (∀ path flags, s.vfs.lookup path.bytes = .error .notFound →
      (s.vfs.vfsOpen path flags).1 = .ok →
        (s.vfs.vfsOpen path flags).2.2.AddsName s.vfs path .reg (sIfreg ||| 0o666)) ∧
    (∀ path mode, (s.vfs.vfsMkdir path mode).1 = .ok →
      (s.vfs.vfsMkdir path mode).2.AddsName s.vfs path .dir (sIfdir ||| (mode &&& 0o777))) ∧
    (v.live.card + 1 < 2 ^ 64 → UnwrappedSteps (start v) s →
      ∀ p ∈ s.vfs.live, (s.vfs.node p).ino ≠ s.vfs.nextInode) ∧
    (∀ path removeDirectory, (s.vfs.vfsUnlink path removeDirectory).1 = .ok →
      s.vfs.names (canonical path.bytes) ≠ none ∧
      (s.vfs.vfsUnlink path removeDirectory).2.names =
        Function.update s.vfs.names (canonical path.bytes) none) ∧
    (∀ oldPath newPath, (s.vfs.vfsRename oldPath newPath).1 = .ok →
      s.vfs.names (canonical oldPath.bytes) ≠ none ∧
      (s.vfs.reach (canonical oldPath.bytes) = s.vfs.reach (canonical newPath.bytes) →
        (s.vfs.vfsRename oldPath newPath).2 = s.vfs) ∧
      (s.vfs.reach (canonical oldPath.bytes) ≠ s.vfs.reach (canonical newPath.bytes) →
        (s.vfs.vfsRename oldPath newPath).2.names =
          movedNames s.vfs.names (canonical oldPath.bytes) (canonical newPath.bytes))) := by
  obtain ⟨kids₀, h₀⟩ := Vfs.tree_vfsInit hv
  obtain ⟨kids, h⟩ := hs.tree h₀
  have hA : s.vfs.Framed := hs.framed ⟨A, (Vfs.loaded_vfsInit hv).frames hphys⟩
  refine ⟨fun path flags hl hok => h.vfsOpen_names hA path flags hl hok,
    fun path mode hok => h.vfsMkdir_names path mode hok, fun hcard hrun p hp => ?_,
    fun path rd hok => h.vfsUnlink_names hA path rd hok,
    fun old new hok => h.vfsRename_names hA old new hok⟩
  exact Nat.ne_of_lt ((hrun.boot_inodes hv hcard).lt p hp)

/-- A run that makes `/a` and `/a/b`, and the effect of renaming `/a` to `/c`. -/
theorem steps_names_rename :
    let s := ((start (emptyBoot [some 3, some 4, some 5, some 6, some 7] scratchPhys)).call
      (.mkdir ⟨[47, 97], by decide⟩ 0o755)).call (.mkdir ⟨[47, 97, 47, 98], by decide⟩ 0o755)
    (s.vfs.vfsRename ⟨[47, 97], by decide⟩ ⟨[47, 46, 47, 99], by decide⟩).2.names [[99], [98]] =
      s.vfs.names [[97], [98]] := by
  intro s
  have h := (steps_names _ _ _ _ _ (Phys.avail_mmInit memmapOk_scratchPhys) _
    (vfsInit_emptyBoot _ _) s (.tail (.single ⟨_, rfl⟩) ⟨_, rfl⟩)).2.2.2.2
    ⟨[47, 97], by decide⟩ ⟨[47, 46, 47, 99], by decide⟩ (by decide +kernel)
  rw [h.2.2 (by decide +kernel)]
  rfl

end Session

end NarcOs
