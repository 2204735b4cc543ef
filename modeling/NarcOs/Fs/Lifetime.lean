import NarcOs.Fs.Handles
import NarcOs.Fs.Names

/-!
# The lifetime of a vnode

The vnodes that a call passes to `release_node`, read off the three places that do.
Along every run each of them is allocated, has neither entry nor handle left, and is
gone after the call with its frames back at the allocator.
-/

namespace NarcOs

namespace Vfs

/-- What `remove_node` passes to `release_node`; `detach` leaves the count alone. -/
def removed (s : Vfs) (n : Ptr) : Multiset Ptr := if (s.node n).refs = 0 then {n} else 0

def closed (s : Vfs) (file : File) : Multiset Ptr :=
  match file.node with
  | none => 0
  | some n => if ¬ (s.node n).linked ∧ (s.node n).refs - 1 = 0 then {n} else 0

def unlinked (s : Vfs) (path : CString) (removeDirectory : Bool) : Multiset Ptr :=
  if (s.vfsUnlink path removeDirectory).1 = .ok then
    match s.lookupParent path.bytes with
    | .ok (parent, name) => (s.childNamed parent name).elim 0 s.removed
    | .error _ => 0
  else 0

def replaced (s : Vfs) (oldPath newPath : CString) : Multiset Ptr :=
  if (s.vfsRename oldPath newPath).1 = .ok then
    match s.lookupParent oldPath.bytes, s.lookupParent newPath.bytes with
    | .ok (oldParent, oldName), .ok (newParent, newName) =>
      if s.childNamed newParent newName = s.childNamed oldParent oldName then 0
      else (s.childNamed newParent newName).elim 0 s.removed
    | _, _ => 0
  else 0

theorem mem_closed {s : Vfs} {n : Ptr} {file : File} :
    n ∈ s.closed file ↔ file.node = some n ∧ ¬ (s.node n).linked ∧ (s.node n).refs - 1 = 0 := by
  unfold closed
  split
  · rename_i hfile
    simp [hfile]
  · rename_i m hfile
    rw [hfile, Option.some_inj]
    split
    · rename_i hc
      rw [Multiset.mem_singleton]
      exact ⟨fun e => by rw [e]; exact ⟨rfl, hc⟩, fun e => e.1.symm⟩
    · rename_i hc
      refine ⟨fun e => absurd e (Multiset.notMem_zero _), ?_⟩
      rintro ⟨rfl, h⟩
      exact absurd h hc

theorem heldFrames_congr {s t : Vfs} {n : Ptr} (h : (t.node n).pages = (s.node n).pages) :
    t.heldFrames n = s.heldFrames n := by
  have hslot : t.slot n = s.slot n := h
  rw [heldFrames, heldFrames, hslot]

theorem Frames.releaseNode {s : Vfs} {B : Multiset Nat} (h : s.Frames B) (n : Ptr) :
    (s.releaseNode n).Frames (s.heldFrames n + B) :=
  (h.releasePages n).congr rfl fun _ => rfl

theorem Frames.removeNode {s : Vfs} {B : Multiset Nat} {n : Ptr} (h : s.Frames B) (hz : (s.node n).refs = 0) :
    (s.removeNode n).Frames (s.heldFrames n + B) := by
  have hdata := fun p => (detach_data s n p).pages
  have hd : (s.detach n).Frames B := h.congr (detach_rest s n).phys hdata
  unfold Vfs.removeNode
  dsimp only
  rw [if_pos ((detach_data s n n).refs.trans hz), ← heldFrames_congr (hdata n)]
  exact hd.releaseNode n

theorem Frames.vfsClose {s : Vfs} {B : Multiset Nat} {n : Ptr} {file : File} (h : s.Frames B) (hn : n ∈ s.closed file) :
    (s.vfsClose file).2.Frames (s.heldFrames n + B) := by
  obtain ⟨hfile, hc⟩ := mem_closed.mp hn
  have hpages : ∀ p, ((s.dropRef n).node p).pages = (s.node p).pages := fun p => by
    unfold dropRef
    split
    · rw [modify_node]
      split <;> rfl
    · rfl
  have hphys : (s.dropRef n).phys = s.phys := by
    unfold dropRef
    split <;> rfl
  have hd : (s.dropRef n).Frames B := h.congr hphys hpages
  have hst : (s.dropRef n).SameTree s := dropRef_sameTree
  unfold Vfs.vfsClose
  rw [hfile]
  dsimp only
  rw [if_pos ⟨by rw [(hst.node n).linked]; exact hc.1, by rw [dropRef_refs, if_pos rfl]; exact hc.2⟩,
    ← heldFrames_congr (hpages n)]
  exact hd.releaseNode n

theorem newNode_live (s : Vfs) (d : Ptr) (name : List UInt8) (type : VType) (mode : Nat) :
    s.live ⊆ (s.newNode d name type mode).2.live := by
  obtain ⟨heap, hn | ⟨n, -, hn⟩⟩ := newNode_cases s d name type mode
  · rw [hn]
  · rw [hn, (attach_rest _ d n).live]
    exact Finset.subset_insert n s.live

theorem vfsOpen_live (s : Vfs) (path : CString) (flags : OpenFlags) : s.live ⊆ (s.vfsOpen path flags).2.2.live := by
  unfold vfsOpen
  split
  · split
    · exact subset_rfl
    · rw [openNode_sameTree.live]
  split
  · split
    · exact subset_rfl
    · rename_i parent name _
      have hn := newNode_live s parent name .reg (sIfreg ||| 0o666)
      split <;> rename_i he <;> rw [he] at hn
      · exact hn
      · rw [openNode_sameTree.live]
        exact hn
  · exact subset_rfl

theorem vfsMkdir_live (s : Vfs) (path : CString) (mode : Nat) : s.live ⊆ (s.vfsMkdir path mode).2.live := by
  unfold vfsMkdir
  split
  · exact subset_rfl
  split
  · exact subset_rfl
  · rename_i parent name _ _
    have hn := newNode_live s parent name .dir (sIfdir ||| (mode &&& 0o777))
    split <;> rename_i he <;> rw [he] at hn <;> exact hn

end Vfs

namespace Session

/-- The vnodes that a call passes to `release_node`. -/
def freed (s : Session) : FsCall → Multiset Ptr
  | .close handle => (s.file handle).elim 0 s.vfs.closed
  | .unlink path removeDirectory => s.vfs.unlinked path removeDirectory
  | .rename oldPath newPath => s.vfs.replaced oldPath newPath
  | .openPath .. | .read .. | .write .. | .seek .. | .readdir .. | .mkdir .. => 0

variable {s t : Session} {n d : Ptr} {k : Nat}

-- ---------------------------------------------------------------------------
-- Each vnode is given back once
-- ---------------------------------------------------------------------------

def made (s : Session) (c : FsCall) : Multiset Ptr := ((s.call c).vfs.live \ s.vfs.live).val

def Balances (s t : Vfs) (freed : Multiset Ptr) : Prop := s.live.val + (t.live \ s.live).val = t.live.val + freed

theorem balances_grow {s t : Vfs} (h : s.live ⊆ t.live) : Balances s t 0 := by
  unfold Balances
  rw [Finset.sdiff_val, add_zero]
  exact add_tsub_cancel_of_le (Finset.val_le_iff.mpr h)

theorem balances_erase {s t : Vfs} (hn : n ∈ s.live) (h : t.live = s.live.erase n) : Balances s t {n} := by
  have hsub : t.live \ s.live = ∅ := by
    rw [h]
    exact Finset.sdiff_eq_empty_iff_subset.mpr (Finset.erase_subset n s.live)
  unfold Balances
  rw [hsub, Finset.empty_val, add_zero, h, Finset.erase_val, add_comm, Multiset.singleton_add, Multiset.cons_erase hn]

theorem balances_removeNode {s u : Vfs} (hn : n ∈ s.live) (hd : s.parent n = some d)
    (hu : u.live = (s.removeNode n).live) : Balances s u (s.removed n) := by
  have hlive := hu.trans (Vfs.removeNode_life hd).1
  unfold Vfs.removed
  split
  · rename_i hz
    rw [if_pos hz] at hlive
    exact balances_erase hn hlive
  · rename_i hz
    rw [if_neg hz] at hlive
    exact balances_grow hlive.symm.subset

theorem Counted.balances (h : s.Counted) (c : FsCall) : Balances s.vfs (s.call c).vfs (s.freed c) := by
  obtain ⟨kids, htree⟩ := h.tree
  have hrefl : Balances s.vfs s.vfs 0 := balances_grow subset_rfl
  cases c with
  | openPath k path flags =>
    simp only [Session.call]
    cases s.file k with
    | some file => exact hrefl
    | none => exact balances_grow (Vfs.vfsOpen_live s.vfs path flags)
  | close k =>
    simp only [Session.call, freed]
    cases hk : s.file k with
    | none => exact hrefl
    | some file =>
      simp only [Option.elim_some, Vfs.closed]
      cases hfile : file.node with
      | none =>
        unfold Vfs.vfsClose
        rw [hfile]
        exact hrefl
      | some n =>
        have hlive := (Vfs.vfsClose_life (s := s.vfs) hfile).1
        simp only
        split
        · rename_i hc
          rw [if_pos hc] at hlive
          refine balances_erase ((h.live n).mpr (.inr ⟨k, ?_⟩)) hlive
          rw [mem_holders, hk, Option.bind_some, hfile]
        · rename_i hc
          rw [if_neg hc] at hlive
          exact balances_grow hlive.symm.subset
  | read | seek | readdir =>
    simp only [Session.call]
    split <;> exact hrefl
  | write k bytes =>
    simp only [Session.call]
    split
    · exact hrefl
    · exact balances_grow (Vfs.vfsWrite_sameTree _ bytes).live.symm.subset
  | mkdir path mode => exact balances_grow (Vfs.vfsMkdir_live s.vfs path mode)
  | unlink path removeDirectory =>
    simp only [Session.call, freed, Vfs.unlinked]
    split
    · rename_i hok
      obtain ⟨d, name, n, hpar, hn, -, hs⟩ := Vfs.vfsUnlink_ok hok
      obtain ⟨-, hnl, hnp, -⟩ := htree.entry (Vfs.lookupParent_ok path.noNul hpar) hn
      rw [hs, hpar]
      simp only [hn, Option.elim_some]
      exact balances_removeNode (htree.live hnl) hnp rfl
    · rename_i hfail
      exact balances_grow (Vfs.vfsUnlink_failed hfail).live.symm.subset
  | rename oldPath newPath =>
    simp only [Session.call, freed, Vfs.replaced]
    split
    · rename_i hok
      obtain ⟨n, o, oldName, d, name, hold, hn, hnew, -, hcase⟩ := Vfs.vfsRename_ok hok
      rw [hold, hnew]
      simp only [hn]
      rcases hcase with ⟨hsame, hs⟩ | ⟨hne, -, heap, hs⟩
      · rw [hs, if_pos hsame]
        exact hrefl
      · rw [hs, if_neg hne]
        cases htarget : s.vfs.childNamed d name with
        | none => exact balances_grow (Vfs.reattach_rest { s.vfs with heap := heap } n d name).live.symm.subset
        | some target =>
          obtain ⟨-, htl, htp, -⟩ := htree.entry (Vfs.lookupParent_ok newPath.noNul hnew) htarget
          refine balances_removeNode (htree.live htl) htp ((Vfs.reattach_rest _ n d name).live.trans ?_)
          rw [(Vfs.removeNode_life htp).1]
          exact (Vfs.removeNode_life (s := { s.vfs with heap := heap }) htp).1
    · rename_i hfail
      exact balances_grow (Vfs.vfsRename_failed hfail).live.symm.subset

def AllEntered (v : Vfs) : Prop :=
  (∀ n, n ∈ v.live ↔ n ∈ v.linked) ∧ ∀ n ∉ v.linked, v.parent n = none ∧ (v.node n).children = none

theorem AllEntered.grows {v w : Vfs} (h : AllEntered v) (hg : Vfs.Grows v w) : AllEntered w := by
  induction hg with
  | refl => exact h
  | @tail t w _ hg ih =>
    obtain ⟨hlive, halone⟩ := ih
    cases hg with
    | same hs =>
      have hlinked : w.linked = t.linked := Set.ext fun p => by
        rw [Vfs.mem_linked, Vfs.mem_linked, (hs.node p).linked]
      refine ⟨fun n => by rw [hs.live, hlinked, hlive n], fun n hn => ?_⟩
      rw [hlinked] at hn
      exact ⟨(hs.node n).parent.trans (halone n hn).1, (hs.node n).children.trans (halone n hn).2⟩
    | create hc =>
      obtain ⟨m, -, hl, hlinked, -, hother⟩ := hc.life
      refine ⟨fun n => ?_, fun n hn => ?_⟩
      · rw [hl, hlinked, Finset.mem_insert, Set.mem_insert_iff, hlive n]
      · obtain ⟨hn', hp, hch⟩ := hother n hn
        exact ⟨hp.trans (halone n hn').1, hch.trans (halone n hn').2⟩

theorem refs_loadStable : Vfs.LoadStable fun v => ∀ n, (v.node n).refs = 0 where
  newNode {v d name type mode} h n := by
    cases he : v.newNode d name type mode with
    | mk answer w =>
      cases answer with
      | none => exact ((Vfs.newNode_none_uses he).1 n).refs.trans (h n)
      | some m =>
        obtain ⟨-, -, -, -, hz, hother⟩ := Vfs.newNode_use he
        by_cases hn : n = m
        · rw [hn]
          exact hz
        · exact (hother n hn).refs.trans (h n)
  setMode h n := by
    rw [Vfs.modify_node]
    split <;> exact h _
  setArchive h _ _ n := by
    rw [Vfs.modify_node]
    split <;> exact h _

theorem counted_start {tarData : Mem} {tarSize : Nat} {heap : List (Option Ptr)} {phys : Phys} {boot : Vfs}
    (h : Vfs.vfsInit tarData tarSize heap phys = some boot) : (start boot).Counted := by
  obtain ⟨root, heap', -, -, hl⟩ := Vfs.vfsInit_from h
  have hnode : ∀ p, ((Vfs.blank tarData tarSize heap' phys).withRoot root).node p =
      if p = root then { ino := 1, type := .dir, mode := sIfdir ||| 0o755, linked := true }
      else {} := fun p => Function.update_apply _ _ _ _
  have hrefs : ∀ n, (boot.node n).refs = 0 := refs_loadStable.loadMembers (fun n => by
    rw [hnode]
    split <;> rfl) hl
  have hentered : AllEntered boot := by
    refine AllEntered.grows ⟨fun n => ?_, fun n hn => ?_⟩ ((Vfs.tree_withRoot rfl).loadMembers hl)
    · rw [Vfs.mem_linked, hnode]
      show n ∈ ({root} : Finset Ptr) ↔ _
      rw [Finset.mem_singleton]
      split <;> rename_i hn <;> simp [hn]
    · rw [Vfs.mem_linked, hnode] at hn
      split at hn
      · exact absurd rfl hn
      · rename_i hne
        rw [Vfs.parent, hnode, if_neg hne]
        exact ⟨rfl, rfl⟩
  have hnone : ∀ n, (start boot).holders n = ∅ := fun n => Set.eq_empty_of_forall_notMem fun k hk => by cases hk
  constructor
  · exact Vfs.tree_vfsInit h
  · exact Set.finite_empty.subset fun k hk => absurd rfl hk
  · intro n
    rw [hnone]
    exact (hentered.1 n).trans (or_iff_left Set.not_nonempty_empty).symm
  · intro n
    rw [hnone, Set.ncard_empty]
    exact hrefs n
  · exact hentered.2

-- ---------------------------------------------------------------------------
-- Runs
-- ---------------------------------------------------------------------------

theorem call_file_other (s : Session) {c : FsCall} (h : k ∉ c.handle) : (s.call c).file k = s.file k := by
  have hset : ∀ (t : Session) (j : Nat) (f : Option File), j ≠ k → (t.setFile j f).file k = t.file k := by
    intro t j f hj
    show Function.update t.file j f k = t.file k
    exact Function.update_of_ne hj.symm f t.file
  cases c with
  | openPath j | close j | read j | write j | seek j | readdir j =>
    have hj : j ≠ k := fun e => h (e ▸ rfl)
    simp only [call]
    split
    · rfl
    · exact hset _ j _ hj
  | mkdir | unlink | rename => rfl

/-- A run from boot, with the vnodes that it has made and given back, in which no count
has wrapped. -/
inductive Logged (boot : Vfs) : Session → Multiset Ptr → Multiset Ptr → Prop
  | start : Logged boot (start boot) boot.live.val 0
  | call {s made freed} (c : FsCall) : Logged boot s made freed → (s.call c).Bounded →
      Logged boot (s.call c) (made + s.made c) (freed + s.freed c)

structure PointsToLive (s : Session) : Prop where
  root : s.vfs.root ∈ s.vfs.live
  handle : ∀ k file n, s.file k = some file → file.node = some n → n ∈ s.vfs.live
  parent : ∀ n p, s.vfs.parent n = some p → p ∈ s.vfs.live
  children : ∀ n, ∀ c ∈ s.vfs.entries n, c ∈ s.vfs.live

theorem Counted.pointsToLive (h : s.Counted) : s.PointsToLive := by
  obtain ⟨kids, htree⟩ := h.tree
  constructor
  · exact htree.live htree.root
  · intro k file n hk hn
    refine (h.live n).mpr (.inr ⟨k, ?_⟩)
    rw [mem_holders, hk, Option.bind_some, hn]
  · intro n p hp
    by_cases hn : n ∈ s.vfs.linked
    · exact htree.live (htree.links.up n hn p hp)
    · rw [(h.alone n hn).1] at hp
      cases hp
  · intro n c hc
    by_cases hn : n ∈ s.vfs.linked
    · rw [htree.links.entries_eq hn] at hc
      exact htree.live (htree.kid_linked hn hc)
    · rw [Vfs.entries, (h.alone n hn).2, Chain.nil.visited_eq (Nat.zero_le _)] at hc
      cases hc

theorem Logged.counted {boot : Vfs} {made freed : Multiset Ptr} (hrun : Logged boot s made freed)
    (h : (Session.start boot).Counted) : s.Counted ∧ made = s.vfs.live.val + freed := by
  induction hrun with
  | start => exact ⟨h, (add_zero _).symm⟩
  | call c _ hb ih =>
    obtain ⟨hc, hbal⟩ := ih
    refine ⟨hc.call c hb, ?_⟩
    have hstep := hc.balances c
    rw [hbal, add_right_comm, show _ + Session.made _ c = _ from hstep, add_assoc, add_comm (Session.freed _ c)]

theorem Logged.steps {boot : Vfs} {made freed : Multiset Ptr} (hrun : Logged boot s made freed) :
    Steps (Session.start boot) s := by
  induction hrun with
  | start => exact .refl
  | call c _ _ ih => exact ih.tail ⟨c, rfl⟩

theorem exists_logged {boot : Vfs} (F : Finset Nat) (hF : F.card < 2 ^ 32) (cs : List FsCall)
    (hcs : ∀ c ∈ cs, ∀ k ∈ c.handle, k ∈ F) : ∃ made freed, Logged boot (cs.foldl call (Session.start boot)) made freed := by
  have hgen : ∀ cs : List FsCall, (∀ c ∈ cs, ∀ k ∈ c.handle, k ∈ F) → ∀ {s : Session} {made freed},
      Logged boot s made freed → (∀ k ∉ F, s.file k = none) → ∃ made freed, Logged boot (cs.foldl call s) made freed := by
    intro cs
    induction cs with
    | nil => exact fun _ s made freed h _ => ⟨made, freed, h⟩
    | cons c cs ih =>
      intro hcs s made freed h hs
      have hs' : ∀ k ∉ F, (s.call c).file k = none := fun k hk =>
        (call_file_other s fun hc => hk (hcs c List.mem_cons_self k hc)).trans (hs k hk)
      refine ih (fun d hd => hcs d (List.mem_cons_of_mem _ hd)) (h.call c fun n => ?_) hs'
      refine (Set.ncard_le_ncard (t := ↑F) (fun k hk => ?_) F.finite_toSet).trans_lt ?_
      · by_contra hkF
        rw [mem_holders, hs' k hkF] at hk
        cases hk
      · rwa [Set.ncard_coe_finset]
  exact hgen cs hcs .start fun k _ => rfl

end Session

end NarcOs
