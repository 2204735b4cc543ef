import NarcOs.Fs.Session

/-!
# The initial tree

`vfs_init` starts from the root alone and adds the archive's members one by
one; each addition is a `Create`, so the result is a tree. With the step lemma
of `Session` this gives the tree invariant for every run.
-/

namespace NarcOs

namespace Vfs

inductive Grow : Vfs → Vfs → Prop
  | same {s t} : SameTree t s → Grow s t
  | create {s t} : Create s t → Grow s t

abbrev Grows := Relation.ReflTransGen Grow

variable {s t : Vfs} {kids : Ptr → List Ptr} {n p d root : Ptr} {name : List UInt8}

theorem tree_withRoot (hnode : s.node = fun _ => {}) : (s.withRoot root).Tree fun _ => [] := by
  have hself : (s.withRoot root).node root =
      { ino := 1, type := .dir, mode := sIfdir ||| 0o755, linked := true } :=
    Function.update_self _ _ _
  have hne : ∀ q, q ≠ root → (s.withRoot root).node q = {} := fun q hq => by
    simp [withRoot, Function.update_of_ne hq, hnode]
  have hlinked : (s.withRoot root).linked = {root} := by
    ext q
    rw [mem_linked, Set.mem_singleton_iff]
    by_cases hq : q = root
    · simp [hq, hself]
    · simp [hq, hne q hq]
  have hroot : (s.withRoot root).root = root := rfl
  constructor
  · rw [hlinked]
    constructor
    · rintro p rfl
      exact Finset.mem_singleton_self _
    · rintro p rfl
      rw [hself]
      exact .nil
    · rintro p rfl c
      simp only [List.not_mem_nil, Set.mem_singleton_iff, false_iff, not_and]
      rintro rfl
      rw [hself]
      simp
    · rintro c rfl p hcp
      rw [hself] at hcp
      cases hcp
  · rw [hlinked]
    rfl
  · rw [parent, hroot, hself]
  · rw [hlinked]
    rintro p rfl
    exact .root
  · rw [hroot, hself]
  · exact fun _ _ h => absurd rfl h
  · rw [hlinked]
    rintro p rfl h
    exact absurd rfl h
  · exact fun _ _ _ hc => by cases hc

theorem SameTree.grows (h : t.SameTree s) : Grows s t := .single (.same h)

theorem Grows.tree (hg : Grows s t) (h : s.Tree kids) : ∃ kids', t.Tree kids' := by
  induction hg with
  | refl => exact ⟨kids, h⟩
  | tail _ hg ih =>
    obtain ⟨kids', h'⟩ := ih
    cases hg with
    | same hs => exact (Change.same hs).tree h'
    | create hc => exact hc.tree h'

/-- The entry that a round of `tar_node` continues with. -/
theorem Tree.childOrNew (type : VType) (mode : Nat) (h : s.Tree kids) (hd : d ∈ s.linked)
    (hdir : (s.node d).type = .dir) (hgood : GoodName name) :
    Grows s (s.childOrNew d name type mode).2 ∧
      ∀ c, (s.childOrNew d name type mode).1 = some c →
        c ∈ (s.childOrNew d name type mode).2.linked := by
  unfold Vfs.childOrNew
  split
  · rename_i c hc
    refine ⟨.refl, ?_⟩
    rintro _ ⟨⟩
    exact h.kid_linked hd ((h.childNamed_eq_some hd hgood.noNul).mp hc).1
  · rename_i hnew
    obtain ⟨heap, hn | ⟨n, hfresh, hn⟩⟩ := newNode_cases s d name type mode
    · rw [hn]
      exact ⟨(setHeap_sameTree heap).grows, fun c hc => by cases hc⟩
    · rw [hn]
      refine ⟨.tail (setHeap_sameTree heap).grows (.create (.mk hfresh hd hdir hgood hnew)), ?_⟩
      rintro c ⟨⟩
      rw [mem_linked, attach_linked, if_pos rfl]

theorem Tree.tarNodeFrom (type : VType) (mode k : Nat) {cursor : List UInt8} (h : s.Tree kids)
    (hn : n ∈ s.linked) (hnul : (0 : UInt8) ∉ cursor) :
    Grows s (tarNodeFrom type mode k cursor n s).2 := by
  induction k generalizing s kids n cursor with
  | zero => exact .refl
  | succ k ih =>
    simp only [Vfs.tarNodeFrom]
    set start := cursor.dropWhile (· == slash)
    set component := start.takeWhile (· != slash)
    have hstart : ∀ b ∈ start, b ∈ cursor := fun b hb => (List.dropWhile_suffix _).subset hb
    have hcomp : ∀ b ∈ component, b ∈ cursor := fun b hb =>
      hstart b ((List.takeWhile_prefix _).subset hb)
    have hrest : (0 : UInt8) ∉ (start.dropWhile (· != slash)).dropWhile (· == slash) := fun h0 =>
      hnul (hstart _ ((List.dropWhile_suffix _).subset ((List.dropWhile_suffix _).subset h0)))
    split
    · exact .refl
    rename_i hne
    split
    · split
      · exact .refl
      · exact ih h hn hrest
    split
    · exact .refl
    rename_i hok
    simp only [not_or, Bool.not_eq_true, not_le, not_not] at hok
    obtain ⟨hdot, hshort, hdir⟩ := hok
    have hdots : component ≠ [dot] ∧ component ≠ [dot, dot] := by
      have := dotName_iff.not.mp (Bool.eq_false_iff.mp hdot)
      exact not_or.mp this
    have hgood : GoodName component :=
      ⟨hne, fun h0 => hnul (hcomp _ h0), fun hs => by simpa using List.mem_takeWhile_imp hs,
        hdots.1, hdots.2, hshort⟩
    set last := ((start.dropWhile (· != slash)).dropWhile (· == slash)).isEmpty
    obtain ⟨hch, hmem⟩ := h.childOrNew (if last then type else .dir)
      (if last then mode else sIfdir ||| 0o755) hn hdir hgood
    obtain ⟨kids', h'⟩ := hch.tree h
    split
    · rename_i t hc
      rw [hc] at hch
      exact hch
    · rename_i child t hc
      rw [hc] at hch h' hmem
      have hcl := hmem child rfl
      split
      · split
        · exact hch
        · have hs : (t.modify child fun v => { v with mode := mode }).SameTree t :=
            modify_sameTree fun v => by constructor <;> rfl
          exact hch.trans hs.grows
      · exact hch.trans (ih h' hcl hrest)

theorem zero_notMem_takeWhile (l : List UInt8) : (0 : UInt8) ∉ l.takeWhile (· != 0) := fun h => by
  simpa using List.mem_takeWhile_imp h

theorem tarPath_noNul (s : Vfs) (offset : Nat) : (0 : UInt8) ∉ s.tarPath offset := by
  have h₁ := zero_notMem_takeWhile (s.headerPrefix offset)
  have h₂ := zero_notMem_takeWhile (s.headerName offset)
  unfold tarPath
  dsimp only
  split
  · simpa using h₂
  · simp only [List.mem_append, List.mem_singleton, not_or]
    exact ⟨⟨h₁, by decide⟩, h₂⟩

theorem Tree.loadMember {offset : Nat} (h : s.Tree kids) (hl : s.loadMember offset = some t) :
    Grows s t := by
  unfold Vfs.loadMember at hl
  split at hl
  · cases hl
  simp only at hl
  have hg := h.tarNodeFrom (s.memberType offset) (s.memberMode offset)
    ((s.tarPath offset).length + 1) h.root (tarPath_noNul s offset)
  split at hl
  · cases hl
  rename_i node u hu
  rw [tarNode] at hu
  rw [hu] at hg
  split at hl
  · cases hl
  split at hl
  · cases hl
    exact hg
  split at hl
  · cases hl
  · cases hl
    exact hg.trans (SameTree.grows (modify_sameTree fun v => by constructor <;> rfl))

theorem Tree.loadMembers {k offset : Nat} (h : s.Tree kids)
    (hl : loadMembers k offset s = some t) : Grows s t := by
  induction k generalizing s kids offset with
  | zero => cases hl
  | succ k ih =>
    simp only [Vfs.loadMembers] at hl
    split at hl
    · split at hl
      · cases hl
      · rename_i u hu
        have hg := h.loadMember hu
        obtain ⟨kids', h'⟩ := hg.tree h
        exact hg.trans (ih h' hl)
    · cases hl
      exact .refl

theorem kmalloc_heap : (∀ a ∈ s.kmalloc.2.heap, a ∈ s.heap) ∧ ∀ p, s.kmalloc.1 = some p → some p ∈ s.heap := by
  unfold kmalloc
  split
  · exact ⟨fun _ ha => ha, fun p hp => by cases hp⟩
  · rename_i answer rest hheap
    rw [hheap]
    refine ⟨fun a ha => List.mem_cons_of_mem _ ha, fun p hp => ?_⟩
    obtain ⟨rfl, -⟩ := Option.filter_eq_some_iff.mp hp
    exact List.mem_cons_self

theorem vfsInit_from {tarData : Mem} {tarSize : Nat} {heap : List (Option Ptr)} {phys : Phys}
    (h : vfsInit tarData tarSize heap phys = some s) :
    ∃ root heap', some root ∈ heap ∧ (∀ a ∈ heap', a ∈ heap) ∧
      loadMembers (tarSize / tarBlock + 1) 0 ((blank tarData tarSize heap' phys).withRoot root) =
        some s := by
  unfold vfsInit at h
  split at h
  · cases h
  obtain ⟨heap₁, h₁⟩ := kmalloc_rest (blank tarData tarSize heap phys)
  obtain ⟨hheap₁, hroot⟩ := kmalloc_heap (s := blank tarData tarSize heap phys)
  split at h
  · cases h
  rename_i root t hk
  rw [hk] at h₁ hheap₁ hroot
  obtain ⟨heap₂, h₂⟩ := kmalloc_rest t
  have hheap₂ := (kmalloc_heap (s := t)).1
  split at h
  · cases h
  rename_i m u hk'
  rw [hk'] at h₂ hheap₂
  have hu : u = blank tarData tarSize heap₂ phys := by
    rw [show u = _ from h₂, show t = _ from h₁]
    rfl
  subst hu
  exact ⟨root, heap₂, hroot root rfl, fun a ha => hheap₁ a (hheap₂ a ha), h⟩

/-- `vfs_init` grows the tree from the root alone. -/
theorem vfsInit_grows {tarData : Mem} {tarSize : Nat} {heap : List (Option Ptr)} {phys : Phys}
    (h : vfsInit tarData tarSize heap phys = some s) :
    ∃ root heap', Grows ((blank tarData tarSize heap' phys).withRoot root) s := by
  obtain ⟨root, heap', -, -, hl⟩ := vfsInit_from h
  exact ⟨root, heap', (tree_withRoot rfl).loadMembers hl⟩

theorem tree_vfsInit {tarData : Mem} {tarSize : Nat} {heap : List (Option Ptr)} {phys : Phys}
    (h : vfsInit tarData tarSize heap phys = some s) : ∃ kids, s.Tree kids := by
  obtain ⟨root, heap', hg⟩ := vfsInit_grows h
  exact hg.tree (tree_withRoot rfl)

-- ---------------------------------------------------------------------------
-- What loading preserves
-- ---------------------------------------------------------------------------

structure TarStable (P : Vfs → Prop) : Prop where
  newNode : ∀ {s d name type mode}, P s → P (s.newNode d name type mode).2
  setMode : ∀ {s n mode}, P s → P (s.modify n fun v => { v with mode := mode })

structure LoadStable (P : Vfs → Prop) : Prop extends TarStable P where
  setArchive : ∀ {s n size archive}, P s → (s.node n).type = .reg → size ≤ vfsFileMax →
    P (s.modify n fun v => { v with size := size, archive := some archive })

section
variable {P : Vfs → Prop} (hP : TarStable P)
include hP

theorem TarStable.childOrNew (h : P s) (type : VType) (mode : Nat) : P (s.childOrNew d name type mode).2 := by
  unfold Vfs.childOrNew
  split
  · exact h
  · exact hP.newNode h

theorem TarStable.tarNodeFrom (type : VType) (mode k : Nat) (cursor : List UInt8) (n : Ptr) (h : P s) :
    P (tarNodeFrom type mode k cursor n s).2 := by
  induction k generalizing s n cursor with
  | zero => exact h
  | succ k ih =>
    simp only [Vfs.tarNodeFrom]
    split
    · exact h
    split
    · split
      · exact h
      · exact ih _ _ h
    split
    · exact h
    split <;> rename_i t he
    · have hc := congrArg (fun r => P r.2) he
      exact hc.mp (hP.childOrNew h _ _)
    · have ht := (congrArg (fun r => P r.2) he).mp (hP.childOrNew h _ _)
      split
      · split
        · exact ht
        · exact hP.setMode ht
      · exact ih _ _ ht

end

section
variable {P : Vfs → Prop} (hP : LoadStable P)
include hP

theorem LoadStable.loadMember {offset : Nat} (h : P s) (hl : s.loadMember offset = some t) : P t := by
  unfold Vfs.loadMember at hl
  split at hl
  · cases hl
  have hg : P (s.tarNode (s.tarPath offset) (s.memberType offset) (s.memberMode offset)).2 :=
    hP.tarNodeFrom _ _ _ _ _ h
  simp only at hl
  split at hl
  · cases hl
  rename_i n u hu
  rw [hu] at hg
  split at hl
  · cases hl
  rename_i htype
  split at hl
  · cases hl
    exact hg
  rename_i hreg
  split at hl
  · cases hl
  rename_i hsmall
  cases hl
  exact hP.setArchive hg ((not_not.mp htype).trans (not_not.mp hreg)) (not_lt.mp hsmall)

theorem LoadStable.loadMembers {k offset : Nat} (h : P s) (hl : loadMembers k offset s = some t) : P t := by
  induction k generalizing s offset with
  | zero => cases hl
  | succ k ih =>
    simp only [Vfs.loadMembers] at hl
    split at hl
    · split at hl
      · cases hl
      · rename_i u hu
        exact ih (hP.loadMember h hu) hl
    · cases hl
      exact h

end

-- ---------------------------------------------------------------------------
-- Inode numbers
-- ---------------------------------------------------------------------------

structure Inodes (s : Vfs) : Prop where
  lt : ∀ p ∈ s.live, (s.node p).ino < s.nextInode
  inj : ∀ p ∈ s.live, ∀ q ∈ s.live, (s.node p).ino = (s.node q).ino → p = q

theorem Inodes.mono (h : s.Inodes) (hlive : t.live ⊆ s.live) (hnext : t.nextInode = s.nextInode)
    (hino : ∀ p, (t.node p).ino = (s.node p).ino) : t.Inodes where
  lt p hp := by
    rw [hino, hnext]
    exact h.lt p (hlive hp)
  inj p hp q hq he := by
    rw [hino, hino] at he
    exact h.inj p (hlive hp) q (hlive hq) he

theorem Change.inodes (hc : Change s t) :
    t.live ⊆ s.live ∧ t.nextInode = s.nextInode ∧ ∀ p, (t.node p).ino = (s.node p).ino := by
  cases hc with
  | same hs => exact ⟨hs.live.subset, hs.nextInode, fun p => (hs.node p).ino⟩
  | forget _ => exact ⟨Finset.erase_subset _ _, rfl, fun _ => rfl⟩
  | remove _ _ _ =>
    have hr := detach_rest s
    exact ⟨(hr _).live.subset, (hr _).nextInode, fun p => (detach_data s _ p).ino⟩
  | move _ _ _ _ _ _ _ _ =>
    have hr := reattach_rest s
    refine ⟨(hr _ _ _).live.subset, (hr _ _ _).nextInode, fun p => ?_⟩
    rw [(reattach_node s _ _ p _).ino]
    split <;> rfl

theorem Quiet.inodes (hq : Quiet s t) :
    t.live ⊆ s.live ∧ t.nextInode = s.nextInode ∧ ∀ p, (t.node p).ino = (s.node p).ino := by
  induction hq with
  | refl => exact ⟨subset_rfl, rfl, fun _ => rfl⟩
  | tail _ hc ih =>
    obtain ⟨h₁, h₂, h₃⟩ := hc.inodes
    exact ⟨h₁.trans ih.1, h₂.trans ih.2.1, fun p => (h₃ p).trans (ih.2.2 p)⟩

theorem Create.inodes (hc : Create s t) (h : s.Inodes) (hwrap : s.nextInode + 1 < 2 ^ 64) :
    t.Inodes := by
  cases hc with | @mk n d name type mode hn _ _ _ _
  have hr := attach_rest (s.withNode n name type mode) d n
  have hino : ∀ p, (((s.withNode n name type mode).attach d n).node p).ino =
      if p = n then s.nextInode else (s.node p).ino := fun p => by
    rw [(attach_data _ d n p).ino]
    split
    · rename_i hp
      rw [hp, withNode_self]
    · rename_i hp
      rw [withNode_of_ne hp]
  have hlive : ∀ p, p ∈ ((s.withNode n name type mode).attach d n).live →
      p = n ∨ (p ≠ n ∧ p ∈ s.live) := fun p hp => by
    rw [hr.live] at hp
    rcases Finset.mem_insert.mp hp with hp | hp
    · exact .inl hp
    · exact .inr ⟨ne_of_mem_of_not_mem hp hn, hp⟩
  have hnext : ((s.withNode n name type mode).attach d n).nextInode = s.nextInode + 1 := by
    rw [hr.nextInode]
    exact Nat.mod_eq_of_lt hwrap
  constructor
  · intro p hp
    rw [hino, hnext]
    rcases hlive p hp with rfl | ⟨hpn, hp⟩
    · simp
    · rw [if_neg hpn]
      exact Nat.lt_succ_of_lt (h.lt p hp)
  · intro p hp q hq he
    rw [hino, hino] at he
    rcases hlive p hp with rfl | ⟨hpn, hps⟩ <;> rcases hlive q hq with rfl | ⟨hqn, hqs⟩
    · rfl
    · rw [if_pos rfl, if_neg hqn] at he
      exact absurd he.symm (Nat.ne_of_lt (h.lt q hqs))
    · rw [if_neg hpn, if_pos rfl] at he
      exact absurd he (Nat.ne_of_lt (h.lt p hps))
    · rw [if_neg hpn, if_neg hqn] at he
      exact h.inj p hps q hqs he

theorem Create.nextInode (hc : Create s t) :
    t.nextInode = wrap64 (s.nextInode + 1) ∧ t.live.card = s.live.card + 1 := by
  cases hc with | @mk n d name type mode hn _ _ _ _
  have hr := attach_rest (s.withNode n name type mode) d n
  exact ⟨hr.nextInode, by rw [hr.live]; exact Finset.card_insert_of_notMem hn⟩

/-- A call that does not wrap `next_inode` keeps the numbers distinct. -/
theorem Changes.inodes (hc : Changes s t) (h : s.Inodes) (hpos : 0 < s.nextInode)
    (hmono : s.nextInode ≤ t.nextInode) (hlt : s.nextInode < 2 ^ 64) :
    t.Inodes ∧ 0 < t.nextInode ∧ t.nextInode < 2 ^ 64 := by
  cases hc with
  | quiet hq =>
    obtain ⟨h₁, h₂, h₃⟩ := hq.inodes
    exact ⟨h.mono h₁ h₂ h₃, h₂ ▸ hpos, h₂ ▸ hlt⟩
  | create hq hc hq' =>
    obtain ⟨h₁, h₂, h₃⟩ := hq.inodes
    obtain ⟨k₁, k₂, k₃⟩ := hq'.inodes
    obtain ⟨hn, -⟩ := hc.nextInode
    rw [k₂, hn, h₂] at hmono ⊢
    have hwrap : s.nextInode + 1 < 2 ^ 64 := by
      unfold wrap64 at hmono
      by_contra hge
      have : s.nextInode + 1 = 2 ^ 64 := by omega
      rw [this, Nat.mod_self] at hmono
      omega
    refine ⟨(hc.inodes (h.mono h₁ h₂ h₃) (h₂ ▸ hwrap)).mono k₁ k₂ k₃, ?_, Nat.mod_lt _ (by decide)⟩
    omega

/-- While no vnode is released, `next_inode` counts the vnodes. -/
theorem Grows.inodes (hg : Grows s t) (h : s.Inodes) (hs : s.nextInode = s.live.card + 1)
    (ht : t.live.card + 1 < 2 ^ 64) : t.Inodes ∧ t.nextInode = t.live.card + 1 := by
  induction hg with
  | refl => exact ⟨h, hs⟩
  | tail _ hg ih =>
    cases hg with
    | same hst =>
      rw [hst.live] at ht ⊢
      obtain ⟨hi, hn⟩ := ih ht
      exact ⟨hi.mono hst.live.subset hst.nextInode fun p => (hst.node p).ino,
        hst.nextInode.trans hn⟩
    | create hc =>
      obtain ⟨hn, hcard⟩ := hc.nextInode
      rw [hcard] at ht ⊢
      obtain ⟨hi, hn'⟩ := ih (by omega)
      have hlt : _ + 1 < 2 ^ 64 := hn' ▸ ht
      exact ⟨hc.inodes hi hlt, by rw [hn, wrap64, Nat.mod_eq_of_lt hlt, hn']⟩

theorem inodes_withRoot {tarData : Mem} {tarSize : Nat} {heap : List (Option Ptr)} {phys : Phys}
    {root : Ptr} : ((blank tarData tarSize heap phys).withRoot root).Inodes := by
  constructor
  · intro p hp
    rw [Finset.mem_singleton.mp hp]
    simp [withRoot, blank]
  · intro p hp q hq _
    rw [Finset.mem_singleton.mp hp, Finset.mem_singleton.mp hq]

-- ---------------------------------------------------------------------------
-- Every run
-- ---------------------------------------------------------------------------

/-- The linked vnodes form one tree under the root. `entries` is what the
source's loop over a directory visits. -/
structure IsTree (s : Vfs) : Prop where
  root : s.root ∈ s.linked ∧ s.parent s.root = none ∧ (s.node s.root).type = .dir
  finite : ∀ p ∈ s.linked, p ∈ s.live
  list : ∀ p ∈ s.linked, Chain s.next (s.node p).children (s.entries p)
  entry : ∀ p ∈ s.linked, ∀ c ∈ s.entries p, c ∈ s.linked ∧ s.parent c = some p
  once : ∀ c ∈ s.linked, c ≠ s.root → ∃ p ∈ s.linked, s.parent c = some p ∧
    (s.entries p).count c = 1 ∧ ∀ q ∈ s.linked, c ∈ s.entries q → q = p
  rooted : ∀ p ∈ s.linked, Rooted s.parent s.root p
  dir : ∀ p ∈ s.linked, s.entries p ≠ [] → (s.node p).type = .dir
  distinct : ∀ p ∈ s.linked, ((s.entries p).map fun c => (s.node c).name).Nodup
  name : ∀ p ∈ s.linked, p ≠ s.root → GoodName (s.node p).name

theorem Tree.isTree (h : s.Tree kids) : s.IsTree where
  root := ⟨h.root, h.rootParent, h.rootDir⟩
  finite _ hp := h.live hp
  list p hp := by
    rw [h.links.entries_eq hp]
    exact h.links.chain p hp
  entry p hp c hc := by
    rw [h.links.entries_eq hp] at hc
    exact ⟨h.kid_linked hp hc, h.links.parent_eq hp hc⟩
  once c hc hne := by
    obtain ⟨o, ho, hol, hk⟩ := h.parent_of_ne_root hc hne
    refine ⟨o, hol, ho, ?_, fun q hq hcq => ?_⟩
    · rw [h.links.entries_eq hol]
      exact List.count_eq_one_of_mem (h.links.nodup hol) hk
    · rw [h.links.entries_eq hq] at hcq
      exact Option.some.inj ((h.links.parent_eq hq hcq).symm.trans ho)
  rooted := h.rooted
  dir p hp := by
    rw [h.links.entries_eq hp]
    exact h.dir p hp
  distinct p hp := by
    rw [h.links.entries_eq hp]
    exact (h.links.nodup hp).map_on fun c hc c' hc' he => h.distinct p hp c hc c' hc' he
  name := h.name

end Vfs

namespace Session

abbrev UnwrappedSteps :=
  Relation.ReflTransGen fun s t : Session => Step s t ∧ s.vfs.nextInode ≤ t.vfs.nextInode

theorem UnwrappedSteps.steps {s t : Session} (hs : UnwrappedSteps s t) : Steps s t := by
  induction hs with
  | refl => exact .refl
  | tail _ hstep ih => exact ih.tail hstep.1

theorem UnwrappedSteps.inodes {s t : Session} (hs : UnwrappedSteps s t)
    {kids : Ptr → List Ptr} (h : s.vfs.Tree kids) (hi : s.vfs.Inodes)
    (hpos : 0 < s.vfs.nextInode) (hlt : s.vfs.nextInode < 2 ^ 64) :
    t.vfs.Inodes ∧ 0 < t.vfs.nextInode ∧ t.vfs.nextInode < 2 ^ 64 := by
  induction hs with
  | refl => exact ⟨hi, hpos, hlt⟩
  | tail hrun hstep ih =>
    obtain ⟨hi', hpos', hlt'⟩ := ih
    obtain ⟨kids', h'⟩ := Steps.tree (UnwrappedSteps.steps hrun) h
    obtain ⟨⟨c, rfl⟩, hmono⟩ := hstep
    exact (call_changes h' c).inodes hi' hpos' hmono hlt'

theorem UnwrappedSteps.boot_inodes {tarData : Mem} {tarSize : Nat} {heap : List (Option Ptr)}
    {phys : Phys} {v : Vfs} {s : Session} (hrun : UnwrappedSteps (start v) s)
    (hv : Vfs.vfsInit tarData tarSize heap phys = some v) (hcard : v.live.card + 1 < 2 ^ 64) :
    s.vfs.Inodes := by
  obtain ⟨kids, h⟩ := Vfs.tree_vfsInit hv
  obtain ⟨root, heap', hg⟩ := Vfs.vfsInit_grows hv
  obtain ⟨hi, hnext⟩ := hg.inodes Vfs.inodes_withRoot rfl hcard
  have hnext' : (start v).vfs.nextInode = v.live.card + 1 := hnext
  exact (hrun.inodes h hi (by omega) (by omega)).1

/-- The tree invariant, in every state that calls with arbitrary paths reach
from a successful `vfs_init`. The inode numbers are distinct while neither
`vfs_init` nor a later call has wrapped `next_inode`. -/
theorem steps_isTree (tarData : Mem) (tarSize : Nat) (heap : List (Option Ptr)) (phys : Phys)
    (v : Vfs) (hv : Vfs.vfsInit tarData tarSize heap phys = some v) (s : Session)
    (hs : Steps (start v) s) :
    s.vfs.IsTree ∧
      (v.live.card + 1 < 2 ^ 64 → UnwrappedSteps (start v) s →
        ∀ p ∈ s.vfs.live, ∀ q ∈ s.vfs.live,
          (s.vfs.node p).ino = (s.vfs.node q).ino → p = q) := by
  obtain ⟨kids, h⟩ := Vfs.tree_vfsInit hv
  obtain ⟨kids', h'⟩ := hs.tree h
  refine ⟨h'.isTree, fun hcard hrun => ?_⟩
  exact (hrun.boot_inodes hv hcard).inj

def emptyBoot (heap : List (Option Ptr)) (phys : Phys) : Vfs :=
  (Vfs.blank (fun _ => 0) 1024 heap phys).withRoot 1

theorem vfsInit_emptyBoot (heap : List (Option Ptr)) (phys : Phys) :
    Vfs.vfsInit (fun _ => 0) 1024 (some 1 :: some 2 :: heap) phys = some (emptyBoot heap phys) := by
  have hz : (emptyBoot heap phys).zeroBlock 0 = true := by
    simp [Vfs.zeroBlock, Mem.read, emptyBoot, Vfs.withRoot, Vfs.blank]
  have hh : (emptyBoot heap phys).headerAt 0 = false := by
    simp [Vfs.headerAt, hz]
  have hl : Vfs.loadMembers 3 0 (emptyBoot heap phys) = some (emptyBoot heap phys) := by
    simp [Vfs.loadMembers, hh]
  rw [← hl]
  simp [Vfs.vfsInit, Vfs.kmalloc, Vfs.blank, tarBlock, emptyBoot, Vfs.withRoot, Option.filter]

theorem steps_isTree_mkdir :
    ((start (emptyBoot [some 3, some 4] (mmInit [] (fun _ => 0) []))).call
      (.mkdir ⟨[47, 97], by decide⟩ 0o755)).vfs.IsTree :=
  (steps_isTree _ _ _ _ _ (vfsInit_emptyBoot _ _) _ (.single ⟨_, rfl⟩)).1

end Session

end NarcOs
