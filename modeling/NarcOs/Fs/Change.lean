import NarcOs.Fs.Tree

/-!
# What a call does to the tree

`Change` lists the ways in which the tree of vnodes can change. Each call of
the file system is a sequence of changes, so a property that every change
preserves holds after every call.
-/

namespace NarcOs

namespace Vfs

structure SameTree (t s : Vfs) : Prop where
  root : t.root = s.root
  live : t.live = s.live
  nextInode : t.nextInode = s.nextInode
  node : ∀ p, (t.node p).SameShape (s.node p)

inductive Change : Vfs → Vfs → Prop
  | same {s t} : SameTree t s → Change s t
  | forget {s n} : n ∉ s.linked → Change s { s with live := s.live.erase n }
  | remove {s n d} : n ∈ s.linked → s.parent n = some d → (s.node n).children = none →
      Change s (s.detach n)
  | move {s n o d name anc} : n ∈ s.linked → s.parent n = some o → d ∈ s.linked →
      (s.node d).type = .dir → Chain s.parent (some d) anc → n ∉ anc → GoodName name →
      s.childNamed d name = none → Change s (s.reattach n d name)

inductive Create : Vfs → Vfs → Prop
  | mk {s n d name type mode} : n ∉ s.live → d ∈ s.linked → (s.node d).type = .dir →
      GoodName name → s.childNamed d name = none →
      Create s ((s.withNode n name type mode).attach d n)

abbrev Quiet := Relation.ReflTransGen Change

inductive Changes : Vfs → Vfs → Prop
  | quiet {s t} : Quiet s t → Changes s t
  | create {s t a b} : Quiet s a → Create a b → Quiet b t → Changes s t

variable {s t u : Vfs} {kids : Ptr → List Ptr} {p q n d o : Ptr} {name : List UInt8}

theorem SameTree.refl (s : Vfs) : s.SameTree s := ⟨rfl, rfl, rfl, fun _ => .refl _⟩

theorem SameTree.trans (h : u.SameTree t) (h' : t.SameTree s) : u.SameTree s :=
  ⟨h.root.trans h'.root, h.live.trans h'.live, h.nextInode.trans h'.nextInode,
    fun p => (h.node p).trans (h'.node p)⟩

theorem modify_sameTree {f : Vnode → Vnode} (hf : ∀ v, (f v).SameShape v) :
    (s.modify n f).SameTree s := by
  refine ⟨rfl, rfl, rfl, fun p => ?_⟩
  rw [modify_node]
  split
  · exact hf _
  · exact .refl _

theorem foldl_sameTree {f : Vfs → Nat → Vfs} (hf : ∀ s i, (f s i).SameTree s) (l : List Nat) :
    (l.foldl f s).SameTree s := by
  induction l generalizing s with
  | nil => exact .refl s
  | cons i l ih => exact ih.trans (hf s i)

theorem setPhys_sameTree (phys : Phys) : SameTree { s with phys := phys } s :=
  ⟨rfl, rfl, rfl, fun _ => .refl _⟩

theorem setHeap_sameTree (heap : List (Option Ptr)) : SameTree { s with heap := heap } s :=
  ⟨rfl, rfl, rfl, fun _ => .refl _⟩

theorem Tree.setHeap (h : s.Tree kids) (heap : List (Option Ptr)) :
    Tree { s with heap := heap } kids :=
  h.congr rfl (fun _ hp => h.live hp) fun _ => .refl _

theorem releasePages_sameTree : (s.releasePages n).SameTree s := by
  refine foldl_sameTree (fun s i => ?_) _
  unfold releasePage
  refine (modify_sameTree fun v => by constructor <;> rfl).trans ?_
  split
  · exact setPhys_sameTree _
  · exact .refl s

theorem allocPages_sameTree (l : List Nat) : (allocPages n l s).2.SameTree s := by
  induction l generalizing s with
  | nil => exact .refl s
  | cons i l ih =>
    unfold allocPages
    split
    · exact ih
    · have hm : SameTree (modify { s with phys := s.phys.allocPage.2 } n fun v =>
          { v with pages := Function.update v.pages i s.phys.allocPage.1 }) s :=
        (modify_sameTree fun v => by constructor <;> rfl).trans (setPhys_sameTree _)
      simp only
      split
      · exact hm
      · exact ih.trans hm

theorem ensurePages_sameTree {stop : Nat} : (s.ensurePages n stop).2.SameTree s := by
  unfold ensurePages
  split
  · exact .refl s
  · have ha := allocPages_sameTree (s := s) (n := n)
      (List.range ((stop + pageSize - 1) / pageSize))
    split
    · rename_i h
      rw [h] at ha
      exact ha
    · rename_i h
      rw [h] at ha
      split
      · exact ha
      · dsimp only
        refine (modify_sameTree fun v => by constructor <;> rfl).trans
          (.trans (foldl_sameTree (fun s i => ?_) _) ha)
        exact setPhys_sameTree _

theorem writeLoop_sameTree (k position : Nat) (bytes : List UInt8) :
    (writeLoop n k position bytes s).SameTree s := by
  induction k generalizing position bytes s with
  | zero => exact .refl s
  | succ k ih =>
    unfold writeLoop
    split
    · exact .refl s
    · exact (ih _ _).trans (setPhys_sameTree _)

-- ---------------------------------------------------------------------------
-- Changes
-- ---------------------------------------------------------------------------

theorem SameTree.quiet (h : t.SameTree s) : Quiet s t := .single (.same h)

theorem Change.tree (h : s.Tree kids) (hc : Change s t) : ∃ kids', t.Tree kids' := by
  cases hc with
  | same hs =>
    refine ⟨kids, h.congr hs.root (fun p hp => ?_) hs.node⟩
    rw [hs.live]
    exact h.live hp
  | forget hn =>
    exact ⟨kids, h.congr rfl (fun p hp => Finset.mem_erase.mpr
      ⟨ne_of_mem_of_not_mem hp hn, h.live hp⟩) fun p => .refl _⟩
  | remove hn hd hch =>
    exact ⟨_, h.remove hn hd ((h.links.children_eq_none hn).mp hch)⟩
  | move hn ho hd hdir hanc hnanc hgood hnew =>
    exact ⟨_, h.move hn ho hd hdir hanc hnanc hgood fun c hc _ =>
      (h.childNamed_eq_none hd hgood.noNul).mp hnew c hc⟩

theorem Create.tree (h : s.Tree kids) (hc : Create s t) : ∃ kids', t.Tree kids' := by
  cases hc with
  | mk hn hd hdir hgood hnew =>
    exact ⟨_, h.create _ _ hn hd hdir hgood ((h.childNamed_eq_none hd hgood.noNul).mp hnew)⟩

theorem Quiet.tree (hc : Quiet s t) (h : s.Tree kids) : ∃ kids', t.Tree kids' := by
  induction hc with
  | refl => exact ⟨kids, h⟩
  | tail _ hc ih =>
    obtain ⟨kids', h'⟩ := ih
    exact hc.tree h'

theorem Changes.tree (hc : Changes s t) (h : s.Tree kids) : ∃ kids', t.Tree kids' := by
  cases hc with
  | quiet hq => exact hq.tree h
  | create h₁ h₂ h₃ =>
    obtain ⟨k₁, h₁⟩ := h₁.tree h
    obtain ⟨k₂, h₂⟩ := h₂.tree h₁
    exact h₃.tree h₂

theorem Changes.trans_quiet (hc : Changes s t) (hq : Quiet t u) : Changes s u := by
  cases hc with
  | quiet h => exact .quiet (h.trans hq)
  | create h₁ h₂ h₃ => exact .create h₁ h₂ (h₃.trans hq)

-- ---------------------------------------------------------------------------
-- Calls
-- ---------------------------------------------------------------------------

theorem Tree.lookup_linked (h : s.Tree kids) {path : CString} (hl : s.lookup path.bytes = .ok p) :
    p ∈ s.linked :=
  h.walkComponents_linked (fun _ hc h0 => path.noNul (mem_components hc h0)) h.root (walk_ok hl)

theorem Tree.parentOf_linked (h : s.Tree kids) {path : CString}
    (hp : s.ParentOf path.bytes d name) : d ∈ s.linked := by
  obtain ⟨front, hc, hw⟩ := hp.walk
  refine h.walkComponents_linked (fun c hm h0 => path.noNul (mem_components ?_ h0)) h.root hw
  rw [hc]
  exact List.mem_append_left _ hm

theorem kmalloc_rest (s : Vfs) : ∃ heap, s.kmalloc.2 = { s with heap := heap } := by
  unfold kmalloc
  split
  · exact ⟨s.heap, rfl⟩
  · exact ⟨_, rfl⟩

theorem kmalloc_fresh (h : s.kmalloc.1 = some n) : n ∉ s.live := by
  unfold kmalloc at h
  split at h
  · cases h
  · obtain ⟨-, h⟩ := Option.filter_eq_some_iff.mp h
    simpa using h

/-- A new node appears in its directory, or nothing but the heap's script moves. -/
theorem newNode_cases (s : Vfs) (d : Ptr) (name : List UInt8) (type : VType) (mode : Nat) :
    ∃ heap, (s.newNode d name type mode = (none, { s with heap := heap })) ∨
      ∃ n, n ∉ s.live ∧ s.newNode d name type mode =
        (some n, (withNode { s with heap := heap } n name type mode).attach d n) := by
  unfold newNode
  obtain ⟨heap₁, h₁⟩ := kmalloc_rest s
  split
  · rename_i t hk
    rw [hk] at h₁
    exact ⟨heap₁, .inl (by rw [← h₁])⟩
  · rename_i n t hk
    have hn : n ∉ s.live := kmalloc_fresh (by rw [hk])
    rw [hk] at h₁
    simp only at h₁
    subst h₁
    obtain ⟨heap₂, h₂⟩ := kmalloc_rest { s with heap := heap₁ }
    split
    · rename_i t hk'
      rw [hk'] at h₂
      exact ⟨heap₂, .inl (by rw [← h₂])⟩
    · rename_i m t hk'
      rw [hk'] at h₂
      simp only at h₂
      subst h₂
      exact ⟨heap₂, .inr ⟨n, hn, rfl⟩⟩

theorem newNode_changes (type : VType) (mode : Nat) (hd : d ∈ s.linked)
    (hdir : (s.node d).type = .dir) (hgood : GoodName name) (hnew : s.childNamed d name = none) :
    Changes s (s.newNode d name type mode).2 := by
  obtain ⟨heap, h | ⟨n, hn, h⟩⟩ := newNode_cases s d name type mode
  · rw [h]
    exact .quiet (setHeap_sameTree heap).quiet
  · rw [h]
    exact .create (setHeap_sameTree heap).quiet (.mk hn hd hdir hgood hnew) .refl

theorem openNode_sameTree {flags : OpenFlags} : (s.openNode n flags).2.2.SameTree s := by
  unfold openNode
  split
  · exact .refl s
  split
  · exact .refl s
  dsimp only
  refine (modify_sameTree fun v => by constructor <;> rfl).trans ?_
  unfold truncateNode
  split
  · exact (modify_sameTree fun v => by constructor <;> rfl).trans releasePages_sameTree
  · exact .refl s

theorem Tree.vfsOpen (h : s.Tree kids) (path : CString) (flags : OpenFlags) :
    Changes s (s.vfsOpen path flags).2.2 := by
  unfold Vfs.vfsOpen
  split
  · split
    · exact .quiet .refl
    · exact .quiet openNode_sameTree.quiet
  · rename_i status hlookup
    split
    · rename_i hnf
      split
      · exact .quiet .refl
      · rename_i parent name hpar
        have hp := lookupParent_ok path.noNul hpar
        have hnew := hp.childNamed_eq_none hlookup
        have hch := newNode_changes .reg (sIfreg ||| 0o666)
          (h.parentOf_linked hp) hp.dir hp.good hnew
        split
        · rename_i t hnn
          rw [hnn] at hch
          exact hch
        · rename_i n t hnn
          rw [hnn] at hch
          exact hch.trans_quiet openNode_sameTree.quiet
    · exact .quiet .refl

theorem releaseNode_quiet (hn : n ∉ s.linked) : Quiet s (s.releaseNode n) := by
  have hs : (s.releasePages n).SameTree s := releasePages_sameTree
  refine .tail hs.quiet (.forget ?_)
  rw [mem_linked, (hs.node n).linked]
  exact hn

theorem dropRef_sameTree : (s.dropRef n).SameTree s := by
  unfold dropRef
  split
  · exact modify_sameTree fun v => by constructor <;> rfl
  · exact .refl s

theorem vfsClose_quiet (file : File) : Quiet s (s.vfsClose file).2 := by
  unfold vfsClose
  split
  · exact .refl
  · rename_i n hn
    refine Relation.ReflTransGen.trans (dropRef_sameTree (n := n)).quiet ?_
    dsimp only
    split
    · rename_i hr
      exact releaseNode_quiet hr.1
    · exact .refl

theorem vfsWrite_sameTree (file : File) (bytes : List UInt8) :
    (s.vfsWrite file bytes).2.2.SameTree s := by
  unfold vfsWrite
  cases file.node with
  | none => exact .refl s
  | some n =>
    simp only
    split
    · exact .refl s
    split
    · exact .refl s
    split
    · rename_i t he
      have hs := congrArg (fun r => SameTree r.2 s) he
      exact hs.mp ensurePages_sameTree
    · rename_i t he
      have hs := congrArg (fun r => SameTree r.2 s) he
      dsimp only
      refine (modify_sameTree fun v => by constructor <;> rfl).trans ?_
      exact (writeLoop_sameTree _ _ _).trans (hs.mp ensurePages_sameTree)

theorem Tree.vfsMkdir (h : s.Tree kids) (path : CString) (mode : Nat) :
    Changes s (s.vfsMkdir path mode).2 := by
  unfold Vfs.vfsMkdir
  split
  · exact .quiet .refl
  · rename_i parent name hpar
    have hp := lookupParent_ok path.noNul hpar
    split
    · exact .quiet .refl
    · rename_i hnew
      have hch := newNode_changes .dir (sIfdir ||| (mode &&& 0o777))
        (h.parentOf_linked hp) hp.dir hp.good (Option.not_isSome_iff_eq_none.mp hnew)
      split <;> rename_i hnn <;> rw [hnn] at hch <;> exact hch

theorem Tree.entry (h : s.Tree kids) {path : CString} (hp : s.ParentOf path.bytes d name)
    (hc : s.childNamed d name = some n) :
    d ∈ s.linked ∧ n ∈ s.linked ∧ s.parent n = some d ∧ n ∈ kids d := by
  have hd := h.parentOf_linked hp
  have hk := ((h.childNamed_eq_some hd hp.good.noNul).mp hc).1
  exact ⟨hd, h.kid_linked hd hk, h.links.parent_eq hd hk, hk⟩

theorem removeNode_quiet (hn : n ∈ s.linked) (hd : s.parent n = some d)
    (hch : (s.node n).children = none) : Quiet s (s.removeNode n) := by
  unfold removeNode
  have hr := Change.remove hn hd hch
  dsimp only
  split
  · refine (Relation.ReflTransGen.single hr).trans (releaseNode_quiet ?_)
    rw [mem_linked, detach_linked hd, if_pos rfl]
    simp
  · exact .single hr

theorem Tree.vfsUnlink (h : s.Tree kids) (path : CString) (removeDirectory : Bool) :
    Quiet s (s.vfsUnlink path removeDirectory).2 := by
  unfold Vfs.vfsUnlink
  split
  · exact .refl
  · rename_i parent name hpar
    have hp := lookupParent_ok path.noNul hpar
    split
    · exact .refl
    · rename_i n hn
      obtain ⟨hd, hnl, hnp, -⟩ := h.entry hp hn
      split
      · exact .refl
      split
      · exact .refl
      split
      · exact .refl
      · rename_i hch
        exact removeNode_quiet hnl hnp (Option.not_isSome_iff_eq_none.mp hch)

theorem vfsUnlink_ok {path : CString} {removeDirectory : Bool}
    (hok : (s.vfsUnlink path removeDirectory).1 = .ok) :
    ∃ d name n, s.lookupParent path.bytes = .ok (d, name) ∧ s.childNamed d name = some n ∧
      (s.node n).children = none ∧ (s.vfsUnlink path removeDirectory).2 = s.removeNode n := by
  unfold vfsUnlink at hok ⊢
  split at hok
  · rename_i status hpar
    simp only at hok
    subst hok
    exact absurd hpar (lookupParent_ne_ok _)
  rename_i d name hpar
  split at hok
  · cases hok
  rename_i n hn
  refine ⟨d, name, n, hpar, hn, ?_⟩
  split at hok
  · cases hok
  rename_i hdir
  rw [if_neg hdir]
  split at hok
  · cases hok
  rename_i hreg
  rw [if_neg hreg]
  split at hok
  · cases hok
  rename_i hempty
  rw [if_neg hempty]
  exact ⟨Option.not_isSome_iff_eq_none.mp hempty, rfl⟩

-- ---------------------------------------------------------------------------
-- Renaming
-- ---------------------------------------------------------------------------

/-- The loop over `parent` sees every ancestor. -/
theorem Tree.ancestors (h : s.Tree kids) (hd : d ∈ s.linked) :
    Chain s.parent (some d) (s.ancestors d) ∧ ∀ a ∈ s.ancestors d, a ∈ s.linked := by
  obtain ⟨l, hl⟩ := (h.rooted d hd).chain h.rootParent
  have hlinked : ∀ a ∈ l, a ∈ s.linked := by
    have hgen : ∀ l x, x ∈ s.linked → Chain s.parent (some x) l → ∀ a ∈ l, a ∈ s.linked := by
      intro l
      induction l with
      | nil => simp
      | cons b l ih =>
        intro x hx hc a ha
        obtain ⟨t, ht, hc⟩ := Chain.some_iff.mp hc
        cases ht
        rcases List.mem_cons.mp ha with rfl | ha
        · exact hx
        · cases hb : s.parent b with
          | none =>
            rw [hb] at hc
            simp [Chain.nil_iff.mp hc] at ha
          | some o =>
            rw [hb] at hc
            exact ih o (h.links.up b hx o hb) hc a ha
    exact hgen l d hd hl
  have heq : s.ancestors d = l :=
    hl.visited_eq (hl.length_le_card fun a ha => h.live (hlinked a ha))
  exact heq ▸ ⟨hl, hlinked⟩

theorem Tree.not_mem_ancestors (h : s.Tree kids) (hd : d ∈ s.linked) (hk : kids d ≠ [])
    (hn : kids n = []) : n ∉ s.ancestors d := by
  obtain ⟨hc, hl⟩ := h.ancestors hd
  intro hm
  obtain ⟨l₁, l₂, he⟩ := List.append_of_mem hm
  rw [he] at hc hl
  rcases List.eq_nil_or_concat l₁ with rfl | ⟨l, b, rfl⟩
  · have := hc.head_eq
    simp only [List.nil_append, List.head?_cons, Option.some.injEq] at this
    exact hk (this ▸ hn)
  · rw [List.concat_eq_append, List.append_assoc, List.singleton_append] at hc
    have hbn : s.parent b = some n := hc.next_eq
    have hnl := hl n (by simp)
    have := (h.links.kid n hnl b).mpr ⟨hl b (by simp), hbn⟩
    simp [hn] at this

theorem removeNode_sameRoot : (s.removeNode n).root = s.root := by
  unfold removeNode
  have h := (detach_rest s n).root
  dsimp only
  split
  · exact ((releasePages_sameTree).root).trans h
  · exact h

/-- `remove_node` up to what the tree depends on. -/
theorem removeNode_node (q : Ptr) :
    ((s.removeNode n).node q).SameShape ((s.detach n).node q) := by
  unfold removeNode
  dsimp only
  split
  · exact releasePages_sameTree.node q
  · exact .refl _

theorem Tree.removeNode (h : s.Tree kids) (hn : n ∈ s.linked) (hd : s.parent n = some d)
    (hk : kids n = []) : (s.removeNode n).Tree (Function.update kids d ((kids d).erase n)) := by
  refine (h.remove hn hd hk).congr ?_ ?_ fun q => removeNode_node q
  · exact removeNode_sameRoot.trans (detach_rest s n).root.symm
  · intro p hp
    unfold Vfs.removeNode
    dsimp only
    split
    · refine Finset.mem_erase.mpr ⟨?_, ?_⟩
      · rintro rfl
        rw [mem_linked, detach_linked hd, if_pos rfl] at hp
        cases hp
      · rw [releasePages_sameTree.live]
        exact (h.remove hn hd hk).live hp
    · exact (h.remove hn hd hk).live hp

theorem replaceError_eq_none {target : Ptr} (h : s.replaceError n target = none) :
    (s.node target).children = none := by
  unfold replaceError at h
  split at h
  · cases h
  split at h
  · cases h
  split at h
  · cases h
  · rename_i hc
    exact Option.not_isSome_iff_eq_none.mp hc

structure Vacated (t s : Vfs) (n o d : Ptr) (name : List UInt8) : Prop where
  node : n ∈ t.linked
  parent : t.parent n = some o
  directory : d ∈ t.linked
  dir : (t.node d).type = .dir
  ancestors : Chain t.parent (some d) (s.ancestors d)
  free : t.childNamed d name = none

theorem Tree.vacated {target : Ptr} (h : s.Tree kids) (hn : n ∈ s.linked)
    (ho : s.parent n = some o) (hd : d ∈ s.linked) (hdir : (s.node d).type = .dir)
    (hgood : GoodName name) (htarget : s.childNamed d name = some target) (hnt : n ≠ target)
    (htk : kids target = []) : (s.removeNode target).Vacated s n o d name := by
  obtain ⟨hk, htn⟩ := (h.childNamed_eq_some hd hgood.noNul).mp htarget
  have htl := h.kid_linked hd hk
  have htp := h.links.parent_eq hd hk
  have htree := h.removeNode htl htp htk
  have hlinked : ∀ q, q ≠ target → q ∈ s.linked → q ∈ (s.removeNode target).linked := by
    intro q hq hql
    rw [mem_linked, (removeNode_node q).linked, detach_linked htp, if_neg hq]
    exact hql
  have hparent : ∀ q, q ≠ target → (s.removeNode target).parent q = s.parent q := by
    intro q hq
    rw [parent, (removeNode_node q).parent, detach_parent htp, if_neg hq]
    rfl
  have htanc : target ∉ s.ancestors d := h.not_mem_ancestors hd (List.ne_nil_of_mem hk) htk
  have hdt : d ≠ target := fun e => by
    rw [e, htk] at hk
    cases hk
  refine ⟨hlinked n hnt hn, (hparent n hnt).trans ho, hlinked d hdt hd, ?_,
    (h.ancestors hd).1.congr fun a ha => hparent a (ne_of_mem_of_not_mem ha htanc), ?_⟩
  · rw [(removeNode_node d).type, (detach_data s target d).type, hdir]
  · rw [htree.childNamed_eq_none (hlinked d hdt hd) hgood.noNul, Function.update_self]
    intro c hc hcn
    rw [(removeNode_node c).name, (detach_data s target c).name] at hcn
    have hck := List.mem_of_mem_erase hc
    have := h.distinct d hd c hck target hk (hcn.trans htn.symm)
    exact (h.links.nodup hd).not_mem_erase (this ▸ hc)

theorem Tree.moveNode (h : s.Tree kids) (hn : n ∈ s.linked) (ho : s.parent n = some o)
    (hd : d ∈ s.linked) (hdir : (s.node d).type = .dir) (hanc : n ∉ s.ancestors d)
    (hgood : GoodName name) (hne : s.childNamed d name ≠ some n)
    (hrep : (s.childNamed d name).bind (s.replaceError n) = none) :
    Quiet s (s.moveNode n (s.childNamed d name) d name) := by
  cases htarget : s.childNamed d name with
  | none => exact .single (.move hn ho hd hdir (h.ancestors hd).1 hanc hgood htarget)
  | some target =>
    rw [htarget] at hrep hne
    have hnt : n ≠ target := fun e => hne (e ▸ rfl)
    have hk := ((h.childNamed_eq_some hd hgood.noNul).mp htarget).1
    have htl := h.kid_linked hd hk
    have hch : (s.node target).children = none := replaceError_eq_none hrep
    have hv := h.vacated hn ho hd hdir hgood htarget hnt ((h.links.children_eq_none htl).mp hch)
    exact (removeNode_quiet htl (h.links.parent_eq hd hk) hch).tail
      (.move hv.node hv.parent hv.directory hv.dir hv.ancestors hanc hgood hv.free)

theorem vfsRename_ok {oldPath newPath : CString}
    (hok : (s.vfsRename oldPath newPath).1 = .ok) :
    ∃ n o oldName d name, s.lookupParent oldPath.bytes = .ok (o, oldName) ∧
      s.childNamed o oldName = some n ∧ s.lookupParent newPath.bytes = .ok (d, name) ∧ n ∉ s.ancestors d ∧
      ((s.childNamed d name = some n ∧ (s.vfsRename oldPath newPath).2 = s) ∨
        (s.childNamed d name ≠ some n ∧ (s.childNamed d name).bind (s.replaceError n) = none ∧
          ∃ heap, (s.vfsRename oldPath newPath).2 =
            moveNode { s with heap := heap } n (s.childNamed d name) d name)) := by
  unfold Vfs.vfsRename at hok ⊢
  split at hok
  · rename_i status hpar
    simp only at hok
    subst hok
    exact absurd hpar (lookupParent_ne_ok _)
  rename_i o oldName hold
  split at hok
  · cases hok
  rename_i n hn
  split at hok
  · rename_i status hpar
    simp only at hok
    subst hok
    exact absurd hpar (lookupParent_ne_ok _)
  rename_i d name hnew
  refine ⟨n, o, oldName, d, name, hold, hn, hnew, ?_⟩
  simp only
  split at hok
  · cases hok
  rename_i hanc
  rw [if_neg hanc]
  refine ⟨hanc, ?_⟩
  simp only at hok
  split at hok
  · rename_i hsame
    rw [if_pos hsame]
    exact .inl ⟨hsame, rfl⟩
  rename_i hne
  rw [if_neg hne]
  refine .inr ⟨hne, ?_⟩
  split at hok
  · rename_i status hrep
    simp only at hok
    subst hok
    obtain ⟨target, -, ht⟩ := Option.bind_eq_some_iff.mp hrep
    unfold replaceError at ht
    split_ifs at ht <;> cases ht
  rename_i hrep
  refine ⟨hrep, ?_⟩
  obtain ⟨heap, hk⟩ := kmalloc_rest s
  split at hok
  · cases hok
  · rename_i m t hkm
    rw [hkm] at hk
    simp only at hk
    subst hk
    exact ⟨heap, rfl⟩

theorem Tree.vfsRename (h : s.Tree kids) (oldPath newPath : CString) :
    Quiet s (s.vfsRename oldPath newPath).2 := by
  unfold Vfs.vfsRename
  split
  · exact .refl
  rename_i oldParent oldName hold
  have hop := lookupParent_ok oldPath.noNul hold
  split
  · exact .refl
  rename_i n hn
  obtain ⟨-, hnl, hnp, -⟩ := h.entry hop hn
  split
  · exact .refl
  rename_i d name hnew
  have hnp' := lookupParent_ok newPath.noNul hnew
  split
  · exact .refl
  rename_i hanc
  dsimp only
  split
  · exact .refl
  rename_i hne
  split
  · exact .refl
  rename_i hrep
  obtain ⟨heap, hk⟩ := kmalloc_rest s
  split <;> rename_i t hkm <;> rw [hkm] at hk <;> simp only at hk <;> subst hk
  · exact (setHeap_sameTree heap).quiet
  · have hs : SameTree { s with heap := heap } s := setHeap_sameTree heap
    exact hs.quiet.trans ((h.setHeap heap).moveNode hnl hnp (h.parentOf_linked hnp') hnp'.dir hanc
      hnp'.good hne hrep)

end Vfs

end NarcOs
