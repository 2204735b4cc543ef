import NarcOs.Fs.Uses

/-!
# What a call does to the entries of a directory

The entries that stay in a directory keep their order, and new ones come after
them. `Drops` says it of one change to the tree and composes; `Loses` is the
result for a call.
-/

namespace NarcOs

namespace Vfs

variable {s t u : Vfs} {kids kids' : Ptr → List Ptr} {p q n d o : Ptr} {name : List UInt8}

def Stays (s t : Vfs) (d p : Ptr) : Prop := t.parent p = some d ∧ (t.node p).name = (s.node p).name

instance (s t : Vfs) (d p : Ptr) : Decidable (s.Stays t d p) :=
  inferInstanceAs (Decidable (_ ∧ _))

structure Drops (s t : Vfs) (gone : List Ptr) : Prop where
  linked : ∀ p ∈ s.linked, p ∉ gone → p ∈ t.linked
  same : ∀ p ∈ s.linked, p ∉ gone → t.parent p = s.parent p ∧ (t.node p).name = (s.node p).name
  entries : ∀ d ∈ s.linked, d ∈ t.linked →
    ∃ new, t.entries d = (s.entries d).filter (· ∉ gone) ++ new
  leaf : ∀ d ∈ s.linked, d ∉ t.linked → s.entries d = []

theorem Drops.trans {gone gone' : List Ptr} (h : s.Drops t gone) (h' : t.Drops u gone')
    (hl : u.linked = t.linked) : s.Drops u (gone ++ gone') where
  linked p hp hg := by
    rw [List.mem_append, not_or] at hg
    exact h'.linked p (h.linked p hp hg.1) hg.2
  same p hp hg := by
    rw [List.mem_append, not_or] at hg
    have h₁ := h.same p hp hg.1
    have h₂ := h'.same p (h.linked p hp hg.1) hg.2
    exact ⟨h₂.1.trans h₁.1, h₂.2.trans h₁.2⟩
  entries d hd hdu := by
    obtain ⟨new, hnew⟩ := h.entries d hd (hl ▸ hdu)
    obtain ⟨new', hnew'⟩ := h'.entries d (hl ▸ hdu) hdu
    refine ⟨new.filter (· ∉ gone') ++ new', ?_⟩
    rw [hnew', hnew, List.filter_append, List.filter_filter, ← List.append_assoc]
    congr 2
    refine List.filter_congr fun p _ => ?_
    simp [Bool.and_comm]
  leaf d hd hdu := h.leaf d hd (hl ▸ hdu)

theorem Drops.of_heap {gone : List Ptr} {heap : List (Option Ptr)} (h : Drops { s with heap := heap } t gone) :
    s.Drops t gone := ⟨h.linked, h.same, h.entries, h.leaf⟩

theorem filter_notMem_nil (l : List Ptr) : l.filter (· ∉ ([] : List Ptr)) = l :=
  List.filter_eq_self.mpr fun _ _ => by simp

theorem SameTree.drops (hs : t.SameTree s) (h : s.Tree kids) : s.Drops t [] := by
  have ht : t.Tree kids := h.congr hs.root (fun p hp => by rw [hs.live]; exact h.live hp) hs.node
  refine ⟨fun p hp _ => ?_, fun p _ _ => ⟨(hs.node p).parent, (hs.node p).name⟩, fun d hd hd' => ⟨[], ?_⟩,
    fun d hd hd' => absurd ?_ hd'⟩
  · rw [mem_linked, (hs.node p).linked]
    exact hp
  · rw [filter_notMem_nil, List.append_nil, h.links.entries_eq hd, ht.links.entries_eq hd']
  · rw [mem_linked, (hs.node d).linked]
    exact hd

theorem SameTree.linked (hs : t.SameTree s) : t.linked = s.linked := Set.ext fun p => by
  rw [mem_linked, mem_linked, (hs.node p).linked]

theorem releaseNode_linked : (s.releaseNode n).linked = s.linked :=
  SameTree.linked (t := s.releasePages n) releasePages_sameTree

theorem releaseNode_drops (h : s.Tree kids) (hn : n ∉ s.linked) : s.Drops (s.releaseNode n) [] := by
  have hs : (s.releasePages n).SameTree s := releasePages_sameTree
  have ht : (s.releaseNode n).Tree kids :=
    (h.congr (t := s.releasePages n) hs.root (fun p hp => by rw [hs.live]; exact h.live hp) hs.node).congr rfl
      (fun p hp => by
        rw [hs.linked] at hp
        refine Finset.mem_erase.mpr ⟨ne_of_mem_of_not_mem hp hn, ?_⟩
        rw [hs.live]
        exact h.live hp) fun p => .refl _
  have hd := hs.drops h
  refine ⟨hd.linked, hd.same, fun d hd hd' => ⟨[], ?_⟩, hd.leaf⟩
  rw [filter_notMem_nil, List.append_nil, h.links.entries_eq hd, ht.links.entries_eq hd']

theorem Tree.create_drops (type : VType) (mode : Nat) (h : s.Tree kids) (hn : n ∉ s.live)
    (hd : d ∈ s.linked) (hdir : (s.node d).type = .dir) (hgood : GoodName name)
    (hnew : s.childNamed d name = none) :
    s.Drops ((s.withNode n name type mode).attach d n) [] := by
  have ht := h.create type mode hn hd hdir hgood ((h.childNamed_eq_none hd hgood.noNul).mp hnew)
  have hne : ∀ p ∈ s.linked, p ≠ n := fun p hp e => hn (e ▸ h.live hp)
  have hl : ∀ p ∈ s.linked, p ∈ ((s.withNode n name type mode).attach d n).linked := fun p hp => by
    rw [mem_linked, attach_linked, if_neg (hne p hp), withNode_of_ne (hne p hp)]
    exact hp
  refine ⟨fun p hp _ => hl p hp, fun p hp _ => ⟨?_, ?_⟩, fun q hq hq' => ?_, fun q hq hq' => absurd (hl q hq) hq'⟩
  · rw [parent, attach_parent, if_neg (hne p hp), withNode_of_ne (hne p hp)]
    rfl
  · rw [(attach_data _ d n p).name, withNode_of_ne (hne p hp)]
  · rw [filter_notMem_nil, h.links.entries_eq hq, ht.links.entries_eq hq']
    by_cases hqd : q = d
    · exact ⟨[n], by rw [hqd, Function.update_self]⟩
    · exact ⟨[], by rw [Function.update_of_ne hqd, Function.update_of_ne (hne q hq), List.append_nil]⟩

theorem Tree.without (h : s.Tree kids) (ho : s.parent n = some o) (hq : q ∈ s.linked) :
    Function.update kids o ((kids o).erase n) q = (kids q).filter (· ∉ [n]) := by
  by_cases hqo : q = o
  · rw [hqo, Function.update_self, (h.links.nodup (hqo ▸ hq)).erase_eq_filter]
    exact List.filter_congr fun p _ => Bool.eq_iff_iff.mpr (by simp)
  · rw [Function.update_of_ne hqo]
    refine (List.filter_eq_self.mpr fun p hp => ?_).symm
    have hpn : p ≠ n := by
      rintro rfl
      exact hqo (Option.some.inj ((h.links.parent_eq hq hp).symm.trans ho))
    simpa using hpn

theorem Tree.removeNode_drops (h : s.Tree kids) (hn : n ∈ s.linked) (ho : s.parent n = some o)
    (hk : kids n = []) : s.Drops (s.removeNode n) [n] := by
  have ht := h.removeNode hn ho hk
  have hl : ∀ p, p ≠ n → (p ∈ (s.removeNode n).linked ↔ p ∈ s.linked) := fun p hp => by
    rw [mem_linked, (removeNode_node p).linked, detach_linked ho, if_neg hp, mem_linked]
  refine ⟨fun p hp hg => (hl p (by simpa using hg)).mpr hp, fun p hp hg => ⟨?_, ?_⟩, fun q hq hq' => ?_,
    fun q hq hq' => ?_⟩
  · rw [parent, (removeNode_node p).parent, detach_parent ho, if_neg (by simpa using hg)]
    rfl
  · rw [(removeNode_node p).name, (detach_data s n p).name]
  · refine ⟨[], ?_⟩
    rw [h.links.entries_eq hq, ht.links.entries_eq hq', h.without ho hq, List.append_nil]
  · by_cases hqn : q = n
    · rw [hqn, h.links.entries_eq hn, hk]
    · exact absurd ((hl q hqn).mpr hq) hq'

theorem Tree.move_drops {anc : List Ptr} (h : s.Tree kids) (hn : n ∈ s.linked)
    (ho : s.parent n = some o) (hd : d ∈ s.linked) (hdir : (s.node d).type = .dir)
    (hanc : Chain s.parent (some d) anc) (hnanc : n ∉ anc) (hgood : GoodName name)
    (hnew : s.childNamed d name = none) : s.Drops (s.reattach n d name) [n] := by
  have ht := h.move hn ho hd hdir hanc hnanc hgood fun c hc _ =>
    (h.childNamed_eq_none hd hgood.noNul).mp hnew c hc
  have hl := reattach_linked ho d name hn
  refine ⟨fun p hp _ => hl ▸ hp, fun p hp hg => ⟨?_, ?_⟩, fun q hq hq' => ?_,
    fun q hq hq' => absurd (hl ▸ hq) hq'⟩
  · rw [reattach_parent ho, if_neg (by simpa using hg)]
  · rw [(reattach_node s n d p name).name, if_neg (by simpa using hg)]
  · rw [h.links.entries_eq hq, ht.links.entries_eq hq']
    by_cases hqd : q = d
    · subst hqd
      exact ⟨[n], by rw [Function.update_self, h.without ho hq]⟩
    · exact ⟨[], by rw [Function.update_of_ne hqd, h.without ho hq, List.append_nil]⟩

-- ---------------------------------------------------------------------------
-- Calls
-- ---------------------------------------------------------------------------

def Loses (s t : Vfs) : Prop := ∃ gone, s.Drops t gone ∧
  ∀ p ∈ gone, ¬ (t.parent p = s.parent p ∧ (t.node p).name = (s.node p).name)

theorem Loses.of_heap {heap : List (Option Ptr)} (h : Loses { s with heap := heap } t) : s.Loses t := by
  obtain ⟨gone, hd, hg⟩ := h
  exact ⟨gone, hd.of_heap, hg⟩

theorem Drops.loses (h : s.Drops t []) : s.Loses t := ⟨[], h, fun _ hp => by cases hp⟩

theorem newNode_drops (type : VType) (mode : Nat) (h : s.Tree kids) (hd : d ∈ s.linked)
    (hdir : (s.node d).type = .dir) (hgood : GoodName name) (hnew : s.childNamed d name = none) :
    s.Drops (s.newNode d name type mode).2 [] := by
  obtain ⟨heap, hn | ⟨n, hn, hm⟩⟩ := newNode_cases s d name type mode
  · rw [hn]
    exact (setHeap_sameTree heap).drops h
  · rw [hm]
    exact ((h.setHeap heap).create_drops type mode hn hd hdir hgood hnew).of_heap

theorem Tree.vfsOpen_loses (h : s.Tree kids) (path : CString) (flags : OpenFlags) :
    s.Loses (s.vfsOpen path flags).2.2 := by
  have hsame : s.Loses s := ((SameTree.refl s).drops h).loses
  unfold Vfs.vfsOpen
  split
  · split
    · exact hsame
    · exact (openNode_sameTree.drops h).loses
  rename_i status hlookup
  split
  · split
    · exact hsame
    rename_i parent name hpar
    have hp := lookupParent_ok path.noNul hpar
    have hnew := hp.childNamed_eq_none hlookup
    have hd := newNode_drops .reg (sIfreg ||| 0o666) h (h.parentOf_linked hp) hp.dir hp.good hnew
    obtain ⟨kids', ht⟩ := (newNode_changes .reg (sIfreg ||| 0o666) (h.parentOf_linked hp) hp.dir hp.good
      hnew).tree h
    split <;> rename_i hn <;> rw [hn] at hd ht
    · exact hd.loses
    · exact (hd.trans (openNode_sameTree.drops ht) openNode_sameTree.linked).loses
  · exact hsame

theorem Tree.vfsClose_loses (h : s.Tree kids) (file : File) : s.Loses (s.vfsClose file).2 := by
  unfold Vfs.vfsClose
  split
  · exact ((SameTree.refl s).drops h).loses
  rename_i n _
  have hs : (s.dropRef n).SameTree s := dropRef_sameTree
  obtain ⟨kids', ht⟩ := (Change.same hs).tree h
  dsimp only
  split
  · rename_i hr
    exact ((hs.drops h).trans (releaseNode_drops ht hr.1) releaseNode_linked).loses
  · exact (hs.drops h).loses

theorem Tree.vfsMkdir_loses (h : s.Tree kids) (path : CString) (mode : Nat) :
    s.Loses (s.vfsMkdir path mode).2 := by
  have hsame : s.Loses s := ((SameTree.refl s).drops h).loses
  unfold Vfs.vfsMkdir
  split
  · exact hsame
  rename_i parent name hpar
  have hp := lookupParent_ok path.noNul hpar
  split
  · exact hsame
  rename_i hnew
  have hd := newNode_drops .dir (sIfdir ||| (mode &&& 0o777)) h (h.parentOf_linked hp) hp.dir hp.good
    (Option.not_isSome_iff_eq_none.mp hnew)
  split <;> rename_i hn <;> rw [hn] at hd <;> exact hd.loses

theorem removeNode_parent (ho : s.parent n = some o) : (s.removeNode n).parent n = none := by
  rw [parent, (removeNode_node n).parent, detach_parent ho, if_pos rfl]

theorem Tree.vfsUnlink_loses (h : s.Tree kids) (path : CString) (removeDirectory : Bool) :
    s.Loses (s.vfsUnlink path removeDirectory).2 := by
  have hsame : s.Loses s := ((SameTree.refl s).drops h).loses
  unfold Vfs.vfsUnlink
  split
  · exact hsame
  rename_i parent name hpar
  have hp := lookupParent_ok path.noNul hpar
  split
  · exact hsame
  rename_i n hn
  obtain ⟨-, hnl, hnp, -⟩ := h.entry hp hn
  split
  · exact hsame
  split
  · exact hsame
  split
  · exact hsame
  rename_i hch
  have hk := (h.links.children_eq_none hnl).mp (Option.not_isSome_iff_eq_none.mp hch)
  refine ⟨[n], h.removeNode_drops hnl hnp hk, fun p hp hst => ?_⟩
  rw [List.mem_singleton] at hp
  subst hp
  have := hst.1
  rw [removeNode_parent hnp, hnp] at this
  cases this

theorem reattach_moved (ho : s.parent n = some o) (h : u.Tree kids)
    (hn : n ∈ u.linked) (hd : d ∈ u.linked) (hgood : GoodName name) (hne : u.childNamed d name ≠ some n) :
    ¬ ((s.reattach n d name).parent n = u.parent n ∧
      ((s.reattach n d name).node n).name = (u.node n).name) := by
  rintro ⟨hpar, hname⟩
  rw [reattach_parent ho, if_pos rfl] at hpar
  rw [(reattach_node s n d n name).name, if_pos rfl] at hname
  refine hne ((h.childNamed_eq_some hd hgood.noNul).mpr ⟨?_, hname.symm⟩)
  exact (h.links.kid d hd n).mpr ⟨hn, hpar.symm⟩

theorem Tree.moveNode_loses (h : s.Tree kids) (hn : n ∈ s.linked) (ho : s.parent n = some o)
    (hd : d ∈ s.linked) (hdir : (s.node d).type = .dir) (hanc : n ∉ s.ancestors d)
    (hgood : GoodName name) (hne : s.childNamed d name ≠ some n)
    (hrep : (s.childNamed d name).bind (s.replaceError n) = none) :
    s.Loses (s.moveNode n (s.childNamed d name) d name) := by
  cases htarget : s.childNamed d name with
  | none =>
    refine ⟨[n], h.move_drops hn ho hd hdir (h.ancestors hd).1 hanc hgood htarget, fun p hp => ?_⟩
    rw [List.mem_singleton] at hp
    subst hp
    exact reattach_moved ho h hn hd hgood hne
  | some target =>
    rw [htarget] at hrep
    have hnt : n ≠ target := fun e => hne (e ▸ htarget)
    have hk := ((h.childNamed_eq_some hd hgood.noNul).mp htarget).1
    have htl := h.kid_linked hd hk
    have htp := h.links.parent_eq hd hk
    have htk := (h.links.children_eq_none htl).mp (replaceError_eq_none hrep)
    have hv := h.vacated hn ho hd hdir hgood htarget hnt htk
    have hmove := (h.removeNode htl htp htk).move_drops hv.node hv.parent hv.directory hv.dir hv.ancestors
      hanc hgood hv.free
    refine ⟨[target] ++ [n], (h.removeNode_drops htl htp htk).trans hmove
      (reattach_linked hv.parent d name hv.node), fun p hp => ?_⟩
    rcases List.mem_append.mp hp with hp | hp <;> rw [List.mem_singleton] at hp <;> subst hp
    · rintro ⟨hpar, -⟩
      have : ((s.removeNode p).reattach n d name).parent p = none := by
        rw [reattach_parent hv.parent, if_neg hnt.symm, removeNode_parent htp]
      rw [show s.moveNode n (some p) d name = (s.removeNode p).reattach n d name from rfl, this,
        show s.parent p = some d from htp] at hpar
      cases hpar
    · exact reattach_moved hv.parent h hn hd hgood hne

theorem Tree.vfsRename_loses (h : s.Tree kids) (oldPath newPath : CString) :
    s.Loses (s.vfsRename oldPath newPath).2 := by
  have hsame : s.Loses s := ((SameTree.refl s).drops h).loses
  unfold Vfs.vfsRename
  split
  · exact hsame
  rename_i oldParent oldName hold
  have hop := lookupParent_ok oldPath.noNul hold
  split
  · exact hsame
  rename_i n hn
  obtain ⟨-, hnl, hnp, -⟩ := h.entry hop hn
  split
  · exact hsame
  rename_i d name hnew
  have hnp' := lookupParent_ok newPath.noNul hnew
  split
  · exact hsame
  rename_i hanc
  dsimp only
  split
  · exact hsame
  rename_i hne
  split
  · exact hsame
  rename_i hrep
  obtain ⟨heap, hk⟩ := kmalloc_rest s
  split <;> rename_i t hkm <;> rw [hkm] at hk <;> simp only at hk <;> subst hk
  · exact ((setHeap_sameTree heap).drops h).loses
  · exact ((h.setHeap heap).moveNode_loses hnl hnp (h.parentOf_linked hnp') hnp'.dir hanc hnp'.good hne
      hrep).of_heap

/-- A directory after a call: its entries that stay, in their order, and then the new ones. -/
theorem Loses.entries (hl : s.Loses t) (h : s.Tree kids) (hd : d ∈ s.linked) (hd' : d ∈ t.linked) :
    ∃ new, t.entries d = (s.entries d).filter (s.Stays t d) ++ new := by
  obtain ⟨gone, hdrops, hgone⟩ := hl
  obtain ⟨new, hnew⟩ := hdrops.entries d hd hd'
  refine ⟨new, ?_⟩
  rw [hnew]
  congr 1
  refine List.filter_congr fun p hp => ?_
  rw [h.links.entries_eq hd] at hp
  have hpar : s.parent p = some d := h.links.parent_eq hd hp
  refine decide_eq_decide.mpr ⟨fun hg => ?_, fun hst hg => hgone p hg ⟨hst.1.trans hpar.symm, hst.2⟩⟩
  obtain ⟨h₁, h₂⟩ := hdrops.same p (h.kid_linked hd hp) hg
  exact ⟨h₁.trans hpar, h₂⟩

end Vfs

theorem Session.call_loses {s : Session} {kids : Ptr → List Ptr} (h : s.vfs.Tree kids) (c : FsCall) :
    s.vfs.Loses (s.call c).vfs := by
  have hsame : s.vfs.Loses s.vfs := ((Vfs.SameTree.refl s.vfs).drops h).loses
  cases c with
  | openPath handle path flags =>
    simp only [call]
    split
    · exact hsame
    · exact h.vfsOpen_loses path flags
  | close handle =>
    simp only [call]
    split
    · exact hsame
    · exact h.vfsClose_loses _
  | read | seek | readdir =>
    simp only [call]
    split <;> exact hsame
  | write handle bytes =>
    simp only [call]
    split
    · exact hsame
    · exact ((Vfs.vfsWrite_sameTree _ bytes).drops h).loses
  | mkdir path mode => exact h.vfsMkdir_loses path mode
  | unlink path removeDirectory => exact h.vfsUnlink_loses path removeDirectory
  | rename oldPath newPath => exact h.vfsRename_loses oldPath newPath

theorem Vfs.Loses.linked {s t : Vfs} {d p : Ptr} (hl : s.Loses t) (hd : d ∈ s.linked) (hp : p ∈ s.entries d) :
    d ∈ t.linked := by
  obtain ⟨gone, hdrops, -⟩ := hl
  by_contra hd'
  rw [hdrops.leaf d hd hd'] at hp
  cases hp

end NarcOs
