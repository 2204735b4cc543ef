import NarcOs.Fs.FailedNames
import NarcOs.Fs.Uses

/-!
# Handles and reference counts

A vnode is allocated as long as it is entered in a directory or a `struct file`
refers to it, and its count is the number of those that do. `Counted` says so of one
state; each way in which a call changes the counts, the tree or the allocated vnodes
keeps it, as long as fewer than 2^32 handles refer to one vnode.
-/

namespace NarcOs

namespace Vfs

/-- `remove_node` takes the vnode out of the tree, and gives it back when no handle is left. -/
theorem removeNode_life {s : Vfs} {n d : Ptr} (hd : s.parent n = some d) :
    (s.removeNode n).live = (if (s.node n).refs = 0 then s.live.erase n else s.live) ∧
      (s.removeNode n).linked = s.linked \ {n} := by
  have hrefs : ((s.detach n).node n).refs = (s.node n).refs := (detach_data s n n).refs
  constructor
  · unfold removeNode
    dsimp only
    rw [hrefs]
    split
    · show (releasePages _ n).live.erase n = _
      rw [releasePages_sameTree.live, (detach_rest s n).live]
    · exact (detach_rest s n).live
  · ext q
    rw [mem_linked, (removeNode_node q).linked, detach_linked hd, Set.mem_sdiff, Set.mem_singleton_iff,
      mem_linked]
    by_cases hq : q = n <;> simp [hq]

/-- An open that succeeds counts the new handle, and another one changes nothing. -/
theorem openNode_count (s : Vfs) (n : Ptr) (flags : OpenFlags) :
    ((s.openNode n flags).2.1 = none ∧ (s.openNode n flags).2.2 = s) ∨
      ∃ file, (s.openNode n flags).2.1 = some file ∧ file.node = some n ∧
        ∀ q, ((s.openNode n flags).2.2.node q).refs =
          if q = n then ((s.node n).refs + 1) % 2 ^ 32 else (s.node q).refs := by
  unfold openNode
  split
  · exact .inl ⟨rfl, rfl⟩
  split
  · exact .inl ⟨rfl, rfl⟩
  refine .inr ⟨_, rfl, rfl, fun q => ?_⟩
  have htrunc : ∀ q, ((s.truncateNode n flags).node q).refs = (s.node q).refs := by
    intro q
    unfold truncateNode
    split
    · rw [modify_node]
      split
      · exact (releasePages_sameUses q).refs
      · exact (releasePages_sameUses q).refs
    · rfl
  dsimp only
  rw [modify_node]
  split
  · rename_i hq
    rw [hq, htrunc]
  · exact htrunc q

theorem dropRef_refs (s : Vfs) (n q : Ptr) :
    ((s.dropRef n).node q).refs = if q = n then (s.node n).refs - 1 else (s.node q).refs := by
  unfold dropRef
  split
  · rw [modify_node]
    split
    · rename_i hq
      rw [hq]
    · rfl
  · rename_i hz
    split
    · rename_i hq
      rw [hq, not_not.mp hz]
    · rfl

/-- A close drops one count, and gives back a vnode without entry when none is left. -/
theorem vfsClose_life {s : Vfs} {n : Ptr} {file : File} (hfile : file.node = some n) :
    (s.vfsClose file).2.live =
        (if ¬ (s.node n).linked ∧ (s.node n).refs - 1 = 0 then s.live.erase n else s.live) ∧
      (∀ q, ((s.vfsClose file).2.node q).SameShape (s.node q)) ∧
      ∀ q, ((s.vfsClose file).2.node q).refs = if q = n then (s.node n).refs - 1 else (s.node q).refs := by
  have hst : (s.dropRef n).SameTree s := dropRef_sameTree
  have hrefs : ((s.dropRef n).node n).refs = (s.node n).refs - 1 := by rw [dropRef_refs, if_pos rfl]
  unfold vfsClose
  rw [hfile]
  dsimp only
  rw [(hst.node n).linked, hrefs]
  split
  · refine ⟨?_, fun q => ?_, fun q => ?_⟩
    · show ((s.dropRef n).releasePages n).live.erase n = _
      rw [releasePages_sameTree.live, hst.live]
    · exact (releasePages_sameTree.node q).trans (hst.node q)
    · exact (releasePages_sameUses q).refs.trans (dropRef_refs s n q)
  · exact ⟨hst.live, hst.node, dropRef_refs s n⟩

theorem Create.life {s t : Vfs} (hc : Create s t) : ∃ n, n ∉ s.live ∧ t.live = insert n s.live ∧
    t.linked = insert n s.linked ∧ (∀ q, (t.node q).refs = if q = n then 0 else (s.node q).refs) ∧
    ∀ q ∉ t.linked, q ∉ s.linked ∧ t.parent q = s.parent q ∧ (t.node q).children = (s.node q).children := by
  cases hc with
  | @mk n d name type mode hn hd hdir hgood hnew =>
    have hlinked : ((s.withNode n name type mode).attach d n).linked = insert n s.linked := by
      ext q
      rw [mem_linked, attach_linked, Set.mem_insert_iff, mem_linked]
      by_cases hq : q = n
      · simp [hq]
      · simp [hq, withNode_of_ne hq]
    refine ⟨n, hn, (attach_rest _ d n).live, hlinked, fun q => ?_, fun q hq => ?_⟩
    · rw [(attach_data _ d n q).refs]
      split
      · rename_i hq
        rw [hq, withNode_self]
      · rename_i hq
        rw [withNode_of_ne hq]
    · rw [hlinked, Set.mem_insert_iff, not_or] at hq
      have hqd : q ≠ d := (ne_of_mem_of_not_mem hd hq.2).symm
      refine ⟨hq.2, ?_, ?_⟩
      · rw [parent, attach_parent, if_neg hq.1, withNode_of_ne hq.1]
        rfl
      · rw [attach_children, if_neg fun e : _ ∧ q = d => hqd e.2, withNode_of_ne hq.1]

theorem vfsRead_node (s : Vfs) (file : File) (length : Nat) : (s.vfsRead file length).2.node = file.node := by
  unfold vfsRead
  split
  · rfl
  split
  · rfl
  split <;> rfl

theorem vfsSeek_node (s : Vfs) (file : File) (offset : Int) (origin : Nat) :
    (s.vfsSeek file offset origin).2.node = file.node := by
  unfold vfsSeek
  split
  · rfl
  rename_i n hn
  dsimp only
  generalize (if origin = 0 then (0 : Int) else if origin = 1 then toSigned file.offset
    else if origin = 2 then toSigned (s.node n).size else -1) = base
  split
  · rfl
  split
  · rfl
  split <;> rfl

theorem vfsReaddir_node (s : Vfs) (file : File) (entry : VfsDirent) : (s.vfsReaddir file entry).2.1.node = file.node := by
  unfold vfsReaddir
  split
  · rfl
  split
  · rfl
  split <;> rfl

theorem vfsWrite_node (s : Vfs) (file : File) (bytes : List UInt8) : (s.vfsWrite file bytes).2.1.node = file.node := by
  unfold vfsWrite
  cases hn : file.node with
  | none => exact hn
  | some n =>
    simp only
    split
    · exact hn
    split
    · rfl
    split <;> rfl

end Vfs

namespace Session

def holders (s : Session) (n : Ptr) : Set Nat := {k | (s.file k).bind File.node = some n}

def Bounded (s : Session) : Prop := ∀ n, (s.holders n).ncard < 2 ^ 32

structure Counted (s : Session) : Prop where
  tree : ∃ kids, s.vfs.Tree kids
  finite : {k | (s.file k).bind File.node ≠ none}.Finite
  live : ∀ n, n ∈ s.vfs.live ↔ n ∈ s.vfs.linked ∨ (s.holders n).Nonempty
  refs : ∀ n, (s.vfs.node n).refs = (s.holders n).ncard
  alone : ∀ n ∉ s.vfs.linked, s.vfs.parent n = none ∧ (s.vfs.node n).children = none

variable {s t : Session} {v : Vfs} {n d : Ptr} {k : Nat} {file : File}

theorem mem_holders : k ∈ s.holders n ↔ (s.file k).bind File.node = some n := Iff.rfl

theorem Counted.finite_holders (h : s.Counted) (n : Ptr) : (s.holders n).Finite :=
  h.finite.subset fun k hk => by
    rw [mem_holders] at hk
    rw [Set.mem_ofPred_eq, hk]
    exact Option.some_ne_none n

theorem Counted.refs_eq_zero (h : s.Counted) : (s.vfs.node n).refs = 0 ↔ s.holders n = ∅ := by
  rw [h.refs, Set.ncard_eq_zero (h.finite_holders n)]

theorem Counted.same (h : s.Counted) (hroot : t.vfs.root = s.vfs.root) (hlive : t.vfs.live = s.vfs.live)
    (hnode : ∀ p, (t.vfs.node p).SameShape (s.vfs.node p)) (hr : ∀ p, (t.vfs.node p).refs = (s.vfs.node p).refs)
    (hf : ∀ k, (t.file k).bind File.node = (s.file k).bind File.node) : t.Counted := by
  have hholders : t.holders = s.holders := funext fun n => Set.ext fun k => by
    rw [mem_holders, mem_holders, hf]
  have hlinked : t.vfs.linked = s.vfs.linked := Set.ext fun p => by
    rw [Vfs.mem_linked, Vfs.mem_linked, (hnode p).linked]
  obtain ⟨kids, hk⟩ := h.tree
  constructor
  · exact ⟨kids, hk.congr hroot (fun p hp => hlive ▸ hk.live hp) hnode⟩
  · simp only [hf]
    exact h.finite
  · rw [hlive, hlinked, hholders]
    exact h.live
  · intro n
    rw [hr, hholders]
    exact h.refs n
  · rw [hlinked]
    intro n hn
    obtain ⟨hp, hc⟩ := h.alone n hn
    exact ⟨(hnode n).parent.trans hp, (hnode n).children.trans hc⟩

theorem Counted.sameTree (h : s.Counted) (hv : v.SameTree s.vfs) (hr : ∀ p, (v.node p).refs = (s.vfs.node p).refs) :
    Counted { s with vfs := v } :=
  h.same hv.root hv.live hv.node hr fun _ => rfl

theorem Counted.untouched (h : s.Counted) (hv : v.Untouched s.vfs) : Counted { s with vfs := v } :=
  h.same hv.root hv.live (fun p => by rw [hv.node]; exact .refl _) (fun p => by rw [hv.node]) fun _ => rfl

/-- A handle is set to another one on the same vnode, or a closed one stays closed. -/
theorem Counted.setFile (h : s.Counted) {f : Option File} (hf : f.bind File.node = (s.file k).bind File.node) :
    (s.setFile k f).Counted :=
  h.same rfl rfl (fun _ => .refl _) (fun _ => rfl) fun j => by
    show (Function.update s.file k f j).bind File.node = _
    rw [Function.update_apply]
    split
    · rename_i hj
      rw [hj, hf]
    · rfl

theorem Counted.create (h : s.Counted) (hc : Vfs.Create s.vfs v) : Counted { s with vfs := v } := by
  obtain ⟨kids, hk⟩ := h.tree
  obtain ⟨n, hn, hlive, hlinked, hrefs, halone⟩ := hc.life
  have hnone : s.holders n = ∅ := by
    by_contra hne
    exact hn ((h.live n).mpr (.inr (Set.nonempty_iff_ne_empty.mpr hne)))
  constructor
  · exact hc.tree hk
  · exact h.finite
  · intro q
    show q ∈ v.live ↔ q ∈ v.linked ∨ (s.holders q).Nonempty
    rw [hlive, hlinked, Finset.mem_insert, Set.mem_insert_iff, h.live q, or_assoc]
  · intro q
    show (v.node q).refs = (s.holders q).ncard
    rw [hrefs]
    split
    · rename_i hq
      rw [hq, hnone, Set.ncard_empty]
    · exact h.refs q
  · intro q hq
    obtain ⟨hql, hp, hc⟩ := halone q hq
    exact ⟨hp.trans (h.alone q hql).1, hc.trans (h.alone q hql).2⟩

theorem Counted.removeNode (h : s.Counted) (hn : n ∈ s.vfs.linked) (hd : s.vfs.parent n = some d)
    (hch : (s.vfs.node n).children = none) : Counted { s with vfs := s.vfs.removeNode n } := by
  obtain ⟨kids, hk⟩ := h.tree
  obtain ⟨hlive, hlinked⟩ := Vfs.removeNode_life hd
  have hdl : d ∈ s.vfs.linked := hk.links.up n hn d hd
  constructor
  · exact ⟨_, hk.removeNode hn hd ((hk.links.children_eq_none hn).mp hch)⟩
  · exact h.finite
  · intro q
    rw [hlive, hlinked]
    show _ ↔ _ ∨ (s.holders q).Nonempty
    rw [Set.mem_sdiff, Set.mem_singleton_iff]
    by_cases hq : q = n
    · subst hq
      -- the vnode is kept exactly when a handle refers to it
      simp only [not_true_eq_false, and_false, false_or]
      split
      · rename_i hz
        simp [h.refs_eq_zero.mp hz]
      · rename_i hz
        rw [h.refs_eq_zero, ← ne_eq, ← Set.nonempty_iff_ne_empty] at hz
        exact ⟨fun _ => hz, fun _ => hk.live hn⟩
    · simp only [hq, not_false_eq_true, and_true]
      rw [← h.live q]
      split
      · rw [Finset.mem_erase, and_iff_right hq]
      · exact Iff.rfl
  · intro q
    exact (Vfs.removeNode_sameUses q).refs.trans (h.refs q)
  · intro q hq
    rw [hlinked, Set.mem_sdiff, Set.mem_singleton_iff, not_and, not_not] at hq
    show ((s.vfs.removeNode n).node q).parent = none ∧ ((s.vfs.removeNode n).node q).children = none
    rw [(Vfs.removeNode_node q).parent, (Vfs.removeNode_node q).children, Vfs.detach_parent hd, Vfs.detach_children hd]
    by_cases hqn : q = n
    · have hnd : n ≠ d := by
        rintro rfl
        have hself := (hk.links.kid n hn n).mpr ⟨hn, hd⟩
        rw [(hk.links.children_eq_none hn).mp hch] at hself
        cases hself
      subst hqn
      rw [if_pos rfl, if_neg fun e : _ ∧ q = d => hnd e.2]
      exact ⟨rfl, hch⟩
    · have hql : q ∉ s.vfs.linked := fun hl => hqn (hq hl)
      rw [if_neg hqn, if_neg fun e : _ ∧ q = d => hql (e.2 ▸ hdl)]
      exact h.alone q hql

theorem Counted.reattach (h : s.Counted) {o : Ptr} {name : List UInt8} {kids : Ptr → List Ptr} (hn : n ∈ s.vfs.linked)
    (ho : s.vfs.parent n = some o) (hd : d ∈ s.vfs.linked) (ht : (s.vfs.reattach n d name).Tree kids) :
    Counted { s with vfs := s.vfs.reattach n d name } := by
  obtain ⟨kids', hk⟩ := h.tree
  have hol : o ∈ s.vfs.linked := hk.links.up n hn o ho
  have hlinked := Vfs.reattach_linked ho d name hn
  constructor
  · exact ⟨kids, ht⟩
  · exact h.finite
  · intro q
    rw [hlinked, (Vfs.reattach_rest s.vfs n d name).live]
    exact h.live q
  · intro q
    refine Eq.trans ?_ (h.refs q)
    rw [(Vfs.reattach_node s.vfs n d q name).refs]
    split <;> rfl
  · intro q hq
    rw [hlinked] at hq
    have hqn : q ≠ n := ne_of_mem_of_not_mem hn hq |>.symm
    obtain ⟨hp, hc⟩ := h.alone q hq
    refine ⟨?_, ?_⟩
    · show (s.vfs.reattach n d name).parent q = none
      rw [Vfs.reattach_parent ho, if_neg hqn]
      exact hp
    · show ((s.vfs.reattach n d name).node q).children = none
      rw [Vfs.reattach, Vfs.attach_children, if_neg fun e : _ ∧ q = d => hq (e.2 ▸ hd), Vfs.modify_node, if_neg hqn,
        Vfs.detach_children ho, if_neg fun e : _ ∧ q = o => hq (e.2 ▸ hol)]
      exact hc

-- ---------------------------------------------------------------------------
-- Handles
-- ---------------------------------------------------------------------------

theorem setFile_bind (s : Session) (k : Nat) (f : Option File) (j : Nat) :
    ((s.setFile k f).file j).bind File.node = if j = k then f.bind File.node else (s.file j).bind File.node := by
  show (Function.update s.file k f j).bind File.node = _
  rw [Function.update_apply]
  split <;> rfl

theorem holders_setFile (s : Session) (k : Nat) (f : Option File) (n : Ptr) :
    (s.setFile k f).holders n = if f.bind File.node = some n then insert k (s.holders n) else s.holders n \ {k} := by
  ext j
  rw [mem_holders, setFile_bind]
  by_cases hf : f.bind File.node = some n
  · rw [if_pos hf, Set.mem_insert_iff, mem_holders]
    by_cases hj : j = k <;> simp [hj, hf]
  · rw [if_neg hf, Set.mem_sdiff, Set.mem_singleton_iff, mem_holders]
    by_cases hj : j = k <;> simp [hj, hf]

theorem finite_setFile (h : {j | (s.file j).bind File.node ≠ none}.Finite) (k : Nat) (f : Option File) :
    {j | ((s.setFile k f).file j).bind File.node ≠ none}.Finite := by
  refine (h.insert k).subset fun j hj => ?_
  rw [Set.mem_ofPred_eq, setFile_bind] at hj
  by_cases hjk : j = k
  · exact .inl hjk
  · rw [if_neg hjk] at hj
    exact .inr hj

theorem Counted.hold (h : s.Counted) (hn : n ∈ s.vfs.live) (hk : s.file k = none) (hv : v.SameTree s.vfs)
    (hfile : file.node = some n)
    (hr : ∀ q, (v.node q).refs = if q = n then ((s.vfs.node n).refs + 1) % 2 ^ 32 else (s.vfs.node q).refs)
    (hb : (Session.setFile { s with vfs := v } k (some file)).Bounded) :
    (Session.setFile { s with vfs := v } k (some file)).Counted := by
  have hlinked : v.linked = s.vfs.linked := Set.ext fun p => by
    rw [Vfs.mem_linked, Vfs.mem_linked, (hv.node p).linked]
  have hkn : ∀ q, k ∉ s.holders q := fun q hq => by
    rw [mem_holders, hk] at hq
    cases hq
  have hholders : ∀ q, (Session.setFile { s with vfs := v } k (some file)).holders q =
      if q = n then insert k (s.holders n) else s.holders q := by
    intro q
    rw [holders_setFile, Option.bind_some, hfile]
    by_cases hq : q = n
    · rw [if_pos (congrArg some hq.symm), if_pos hq, hq]
      rfl
    · rw [if_neg fun e => hq (Option.some_inj.mp e).symm, if_neg hq]
      exact Set.sdiff_singleton_eq_self (hkn q)
  obtain ⟨kids, htree⟩ := h.tree
  constructor
  · exact (Vfs.Change.same hv).tree htree
  · exact finite_setFile h.finite k (some file)
  · intro q
    show q ∈ v.live ↔ q ∈ v.linked ∨ _
    rw [hv.live, hlinked, hholders, h.live q]
    split
    · rename_i hq
      subst hq
      have hlive := (h.live q).mp hn
      simp [hlive]
    · exact Iff.rfl
  · intro q
    have hbq := hb q
    rw [hholders] at hbq ⊢
    show (v.node q).refs = _
    rw [hr q]
    split
    · rename_i hq
      rw [if_pos hq, Set.ncard_insert_of_notMem (hkn n) (h.finite_holders n)] at hbq
      rw [Set.ncard_insert_of_notMem (hkn n) (h.finite_holders n), h.refs n, Nat.mod_eq_of_lt hbq]
    · exact h.refs q
  · show ∀ q ∉ v.linked, _
    rw [hlinked]
    intro q hq
    obtain ⟨hp, hc⟩ := h.alone q hq
    exact ⟨(hv.node q).parent.trans hp, (hv.node q).children.trans hc⟩

theorem Counted.openNode (h : s.Counted) (hn : n ∈ s.vfs.live) (hk : s.file k = none) (flags : OpenFlags)
    (hb : (Session.setFile { s with vfs := (s.vfs.openNode n flags).2.2 } k (s.vfs.openNode n flags).2.1).Bounded) :
    (Session.setFile { s with vfs := (s.vfs.openNode n flags).2.2 } k (s.vfs.openNode n flags).2.1).Counted := by
  rcases s.vfs.openNode_count n flags with ⟨hnone, hsame⟩ | ⟨file, hsome, hfile, hr⟩
  · rw [hnone, hsame]
    exact h.setFile (by rw [hk])
  · rw [hsome] at hb ⊢
    exact h.hold hn hk Vfs.openNode_sameTree hfile hr hb

theorem Counted.vfsClose (h : s.Counted) (hk : s.file k = some file) :
    (Session.setFile { s with vfs := (s.vfs.vfsClose file).2 } k none).Counted := by
  cases hfile : file.node with
  | none =>
    have hsame : (s.vfs.vfsClose file).2 = s.vfs := by
      unfold Vfs.vfsClose
      rw [hfile]
    rw [hsame]
    exact h.setFile (by rw [hk, Option.bind_none, Option.bind_some, hfile])
  | some n =>
    obtain ⟨hlive, hshape, hrefs⟩ := Vfs.vfsClose_life (s := s.vfs) hfile
    obtain ⟨kids, htree⟩ := h.tree
    have hkn : k ∈ s.holders n := by rw [mem_holders, hk, Option.bind_some, hfile]
    have hkq : ∀ q, q ≠ n → k ∉ s.holders q := by
      intro q hq hkq
      rw [mem_holders, hk, Option.bind_some, hfile] at hkq
      exact hq (Option.some_inj.mp hkq).symm
    have hholders : ∀ q, (Session.setFile { s with vfs := (s.vfs.vfsClose file).2 } k none).holders q =
        s.holders q \ {k} := fun q => (holders_setFile _ k none q).trans (if_neg (by simp))
    have hlinked : (s.vfs.vfsClose file).2.linked = s.vfs.linked := Set.ext fun p => by
      rw [Vfs.mem_linked, Vfs.mem_linked, (hshape p).linked]
    have hcard : (s.holders n \ {k}).ncard = (s.vfs.node n).refs - 1 := by
      rw [Set.ncard_sdiff_singleton_of_mem hkn, h.refs n]
    constructor
    · exact (Vfs.vfsClose_quiet file).tree htree
    · exact finite_setFile h.finite k none
    · intro q
      show q ∈ (s.vfs.vfsClose file).2.live ↔ q ∈ (s.vfs.vfsClose file).2.linked ∨ _
      rw [hlive, hlinked, hholders]
      by_cases hq : q = n
      · subst hq
        -- the vnode goes when it has no entry and the last handle is dropped
        have hgone : (¬ (s.vfs.node q).linked = true ∧ (s.vfs.node q).refs - 1 = 0) ↔
            ¬ (q ∈ s.vfs.linked ∨ (s.holders q \ {k}).Nonempty) := by
          rw [← hcard, Set.ncard_eq_zero ((h.finite_holders q).sdiff), ← Set.not_nonempty_iff_eq_empty, not_or,
            Vfs.mem_linked]
        split
        · rename_i hc
          exact ⟨fun hq => absurd rfl (Finset.mem_erase.mp hq).1, fun hq => absurd hq (hgone.mp hc)⟩
        · rename_i hc
          exact ⟨fun _ => not_not.mp fun hq => hc (hgone.mpr hq), fun _ => (h.live q).mpr (.inr ⟨k, hkn⟩)⟩
      · rw [Set.sdiff_singleton_eq_self (hkq q hq), ← h.live q]
        split
        · rw [Finset.mem_erase, and_iff_right hq]
        · exact Iff.rfl
    · intro q
      rw [hholders]
      show ((s.vfs.vfsClose file).2.node q).refs = _
      rw [hrefs]
      split
      · rename_i hq
        rw [hq, hcard]
      · rename_i hq
        rw [Set.sdiff_singleton_eq_self (hkq q hq), h.refs q]
    · show ∀ q ∉ (s.vfs.vfsClose file).2.linked, _
      rw [hlinked]
      intro q hq
      obtain ⟨hp, hc⟩ := h.alone q hq
      exact ⟨(hshape q).parent.trans hp, (hshape q).children.trans hc⟩

-- ---------------------------------------------------------------------------
-- Calls
-- ---------------------------------------------------------------------------

theorem Counted.setHeap (h : s.Counted) (heap : List (Option Ptr)) :
    Counted { s with vfs := { s.vfs with heap := heap } } :=
  h.sameTree (Vfs.setHeap_sameTree heap) fun _ => rfl

theorem Counted.vfsOpen (h : s.Counted) (hk : s.file k = none) (path : CString) (flags : OpenFlags)
    (hb : (Session.setFile { s with vfs := (s.vfs.vfsOpen path flags).2.2 } k (s.vfs.vfsOpen path flags).2.1).Bounded) :
    (Session.setFile { s with vfs := (s.vfs.vfsOpen path flags).2.2 } k (s.vfs.vfsOpen path flags).2.1).Counted := by
  obtain ⟨kids, htree⟩ := h.tree
  have hfail : (s.setFile k none).Counted := h.setFile (by rw [hk])
  unfold Vfs.vfsOpen at hb ⊢
  split at hb
  · rename_i n hlookup
    split at hb
    · rename_i hexcl
      rw [if_pos hexcl]
      exact hfail
    · rename_i hexcl
      rw [if_neg hexcl]
      exact h.openNode (htree.live (htree.lookup_linked hlookup)) hk flags hb
  · rename_i status hlookup
    split at hb
    · rename_i hnf
      rw [if_pos hnf]
      split at hb
      · exact hfail
      · rename_i parent name hpar
        have hp := Vfs.lookupParent_ok path.noNul hpar
        have hnew := hp.childNamed_eq_none hlookup
        obtain ⟨heap, hn | ⟨n, hfresh, hn⟩⟩ :=
          Vfs.newNode_cases s.vfs parent name .reg (sIfreg ||| 0o666)
        · simp only [hn]
          exact (h.setHeap heap).setFile (by rw [hk])
        · simp only [hn] at hb ⊢
          have hc := (h.setHeap heap).create
            (@Vfs.Create.mk _ _ _ _ .reg (sIfreg ||| 0o666) hfresh (htree.parentOf_linked hp) hp.dir
              hp.good hnew)
          refine hc.openNode ?_ hk flags hb
          rw [(Vfs.attach_rest _ parent n).live]
          exact Finset.mem_insert_self _ _
    · rename_i hnf
      rw [if_neg hnf]
      exact hfail

theorem Counted.vfsMkdir (h : s.Counted) (path : CString) (mode : Nat) :
    Counted { s with vfs := (s.vfs.vfsMkdir path mode).2 } := by
  obtain ⟨kids, htree⟩ := h.tree
  unfold Vfs.vfsMkdir
  split
  · exact h
  · rename_i parent name hpar
    have hp := Vfs.lookupParent_ok path.noNul hpar
    split
    · exact h
    · rename_i hnew
      obtain ⟨heap, hn | ⟨n, hfresh, hn⟩⟩ :=
        Vfs.newNode_cases s.vfs parent name .dir (sIfdir ||| (mode &&& 0o777))
      · rw [hn]
        exact h.setHeap heap
      · rw [hn]
        exact (h.setHeap heap).create (.mk hfresh (htree.parentOf_linked hp) hp.dir hp.good
          (Option.not_isSome_iff_eq_none.mp hnew))

theorem Counted.vfsUnlink (h : s.Counted) (path : CString) (removeDirectory : Bool) :
    Counted { s with vfs := (s.vfs.vfsUnlink path removeDirectory).2 } := by
  obtain ⟨kids, htree⟩ := h.tree
  by_cases hok : (s.vfs.vfsUnlink path removeDirectory).1 = .ok
  · obtain ⟨d, name, n, hpar, hn, hch, hs⟩ := Vfs.vfsUnlink_ok hok
    obtain ⟨-, hnl, hnp, -⟩ := htree.entry (Vfs.lookupParent_ok path.noNul hpar) hn
    rw [hs]
    exact h.removeNode hnl hnp hch
  · exact h.untouched (Vfs.vfsUnlink_failed hok)

theorem Counted.vfsRename (h : s.Counted) (oldPath newPath : CString) :
    Counted { s with vfs := (s.vfs.vfsRename oldPath newPath).2 } := by
  obtain ⟨kids, htree⟩ := h.tree
  by_cases hok : (s.vfs.vfsRename oldPath newPath).1 = .ok
  · obtain ⟨n, o, oldName, d, name, hold, hn, hnew, hanc, hcase⟩ := Vfs.vfsRename_ok hok
    obtain ⟨-, hnl, hnp, -⟩ := htree.entry (Vfs.lookupParent_ok oldPath.noNul hold) hn
    rcases hcase with ⟨-, hs⟩ | ⟨hne, hrep, heap, hs⟩
    · rw [hs]
      exact h
    · rw [hs]
      have hheap := h.setHeap heap
      have hnew := Vfs.lookupParent_ok newPath.noNul hnew
      have hd := htree.parentOf_linked hnew
      have hq := (htree.setHeap heap).moveNode hnl hnp hd hnew.dir hanc hnew.good hne hrep
      obtain ⟨kids', htree'⟩ := Vfs.Quiet.tree hq (htree.setHeap heap)
      change Vfs.Tree (Vfs.moveNode _ n (s.vfs.childNamed d name) d name) kids' at htree'
      cases htarget : s.vfs.childNamed d name with
      | none =>
        rw [htarget] at htree'
        exact hheap.reattach hnl hnp hd htree'
      | some target =>
        rw [htarget] at hrep hne htree'
        obtain ⟨-, htl, htp, -⟩ := htree.entry hnew htarget
        have hch : (s.vfs.node target).children = none := Vfs.replaceError_eq_none hrep
        have hv := (htree.setHeap heap).vacated hnl hnp hd hnew.dir hnew.good htarget (fun e => hne (e ▸ rfl))
          ((htree.links.children_eq_none htl).mp hch)
        exact (hheap.removeNode htl htp hch).reattach hv.node hv.parent hv.directory htree'
  · exact h.untouched (Vfs.vfsRename_failed hok)

theorem Counted.call (h : s.Counted) (c : FsCall) (hb : (s.call c).Bounded) : (s.call c).Counted := by
  cases c with
  | openPath k path flags =>
    simp only [Session.call] at hb ⊢
    cases hk : s.file k with
    | some file => exact h
    | none =>
      simp only [hk] at hb
      exact h.vfsOpen hk path flags hb
  | close k =>
    simp only [Session.call]
    cases hk : s.file k with
    | none => exact h
    | some file => exact h.vfsClose hk
  | read k length =>
    simp only [Session.call]
    cases hk : s.file k with
    | none => exact h
    | some file => exact h.setFile (by rw [hk, Option.bind_some, Option.bind_some, Vfs.vfsRead_node])
  | write k bytes =>
    simp only [Session.call]
    cases hk : s.file k with
    | none => exact h
    | some file =>
      have hw := h.sameTree (Vfs.vfsWrite_sameTree file bytes) fun p => (Vfs.vfsWrite_use file bytes p).2.1
      exact hw.setFile (by rw [show Session.file _ = s.file from rfl, hk, Option.bind_some, Option.bind_some, Vfs.vfsWrite_node])
  | seek k offset origin =>
    simp only [Session.call]
    cases hk : s.file k with
    | none => exact h
    | some file => exact h.setFile (by rw [hk, Option.bind_some, Option.bind_some, Vfs.vfsSeek_node])
  | readdir k entry =>
    simp only [Session.call]
    cases hk : s.file k with
    | none => exact h
    | some file => exact h.setFile (by rw [hk, Option.bind_some, Option.bind_some, Vfs.vfsReaddir_node])
  | mkdir path mode => exact h.vfsMkdir path mode
  | unlink path removeDirectory => exact h.vfsUnlink path removeDirectory
  | rename oldPath newPath => exact h.vfsRename oldPath newPath

end Session

end NarcOs
