import NarcOs.Fs.Links
import NarcOs.Fs.Path

/-!
# The vnode tree

`Tree s kids` is the file system's invariant: the linked vnodes, with the
entries `kids`, form one tree under the root with good and distinct names.
There are four ways in which a call changes the tree, each with the lemma that
the result is a tree again: it leaves the shape alone, adds an entry, removes
an entry that has none itself, or moves an entry with all that is below it.
-/

namespace NarcOs

structure Vnode.SameShape (v w : Vnode) : Prop where
  parent : v.parent = w.parent
  children : v.children = w.children
  next : v.next = w.next
  name : v.name = w.name
  linked : v.linked = w.linked
  ino : v.ino = w.ino
  type : v.type = w.type

theorem Vnode.SameShape.refl (v : Vnode) : v.SameShape v := ⟨rfl, rfl, rfl, rfl, rfl, rfl, rfl⟩

theorem Vnode.SameShape.trans {u v w : Vnode} (h : u.SameShape v) (h' : v.SameShape w) :
    u.SameShape w :=
  ⟨h.parent.trans h'.parent, h.children.trans h'.children, h.next.trans h'.next,
    h.name.trans h'.name, h.linked.trans h'.linked, h.ino.trans h'.ino, h.type.trans h'.type⟩

namespace Vfs

def linked (s : Vfs) : Set Ptr := {p | (s.node p).linked = true}

theorem mem_linked {s : Vfs} {p : Ptr} : p ∈ s.linked ↔ (s.node p).linked = true := Iff.rfl

def parent (s : Vfs) (p : Ptr) : Option Ptr := (s.node p).parent

structure Tree (s : Vfs) (kids : Ptr → List Ptr) : Prop where
  links : s.Links s.linked kids
  root : s.root ∈ s.linked
  rootParent : s.parent s.root = none
  rooted : ∀ p ∈ s.linked, Rooted s.parent s.root p
  rootDir : (s.node s.root).type = .dir
  dir : ∀ p ∈ s.linked, kids p ≠ [] → (s.node p).type = .dir
  name : ∀ p ∈ s.linked, p ≠ s.root → GoodName (s.node p).name
  distinct : ∀ p ∈ s.linked, ∀ c ∈ kids p, ∀ c' ∈ kids p,
    (s.node c).name = (s.node c').name → c = c'

variable {s t : Vfs} {kids : Ptr → List Ptr} {p q n d o : Ptr} {name : List UInt8}

theorem Tree.live (h : s.Tree kids) (hp : p ∈ s.linked) : p ∈ s.live := h.links.live p hp

theorem Tree.kid_linked (h : s.Tree kids) (hp : p ∈ s.linked) (hq : q ∈ kids p) : q ∈ s.linked :=
  ((h.links.kid p hp q).mp hq).1

theorem Tree.kid_ne_root (h : s.Tree kids) (hp : p ∈ s.linked) (hq : q ∈ kids p) : q ≠ s.root := by
  rintro rfl
  have := h.rootParent
  rw [parent, h.links.parent_eq hp hq] at this
  cases this

theorem Tree.kid_good (h : s.Tree kids) (hp : p ∈ s.linked) (hq : q ∈ kids p) :
    GoodName (s.node q).name :=
  h.name q (h.kid_linked hp hq) (h.kid_ne_root hp hq)

theorem Tree.parent_of_ne_root (h : s.Tree kids) (hp : p ∈ s.linked) (hne : p ≠ s.root) :
    ∃ o, s.parent p = some o ∧ o ∈ s.linked ∧ p ∈ kids o := by
  cases h.rooted p hp with
  | root => exact absurd rfl hne
  | @step a b hab _ =>
    have hb := h.links.up p hp b hab
    exact ⟨b, hab, hb, (h.links.kid b hb p).mpr ⟨hp, hab⟩⟩

/-- `child_named` finds the entry with the name, when there is one. -/
theorem Tree.childNamed_eq_some (h : s.Tree kids) (hp : p ∈ s.linked)
    (hn : (0 : UInt8) ∉ name) :
    s.childNamed p name = some q ↔ q ∈ kids p ∧ (s.node q).name = name := by
  have hname : ∀ c ∈ kids p, nameEq (s.node c).name name = true ↔ (s.node c).name = name :=
    fun c hc => nameEq_iff (h.kid_good hp hc).noNul hn
  rw [childNamed, h.links.entries_eq hp]
  constructor
  · intro hf
    have hm := List.mem_of_find?_eq_some hf
    exact ⟨hm, (hname q hm).mp (List.find?_some (p := fun c => nameEq (s.node c).name name) hf)⟩
  · rintro ⟨hq, hqn⟩
    have hex : ((kids p).find? fun c => nameEq (s.node c).name name).isSome := by
      rw [List.find?_isSome]
      exact ⟨q, hq, (hname q hq).mpr hqn⟩
    obtain ⟨c, hc⟩ := Option.isSome_iff_exists.mp hex
    have hm := List.mem_of_find?_eq_some hc
    have hcn := (hname c hm).mp (List.find?_some (p := fun c => nameEq (s.node c).name name) hc)
    rw [hc, h.distinct p hp c hm q hq (hcn.trans hqn.symm)]

theorem Tree.childNamed_eq_none (h : s.Tree kids) (hp : p ∈ s.linked)
    (hn : (0 : UInt8) ∉ name) :
    s.childNamed p name = none ↔ ∀ c ∈ kids p, (s.node c).name ≠ name := by
  constructor
  · intro hf c hc hcn
    have := (h.childNamed_eq_some hp hn).mpr ⟨hc, hcn⟩
    rw [hf] at this
    cases this
  · intro hall
    cases hf : s.childNamed p name with
    | none => rfl
    | some q =>
      obtain ⟨hq, hqn⟩ := (h.childNamed_eq_some hp hn).mp hf
      exact absurd hqn (hall q hq)

theorem Tree.walkComponents_linked (h : s.Tree kids) {cs : List (List UInt8)}
    (hcs : ∀ c ∈ cs, (0 : UInt8) ∉ c) (hp : p ∈ s.linked) (hw : s.walkComponents cs p = .ok q) :
    q ∈ s.linked := by
  induction cs generalizing p with
  | nil =>
    cases hw
    exact hp
  | cons c cs ih =>
    have hrest : ∀ d ∈ cs, (0 : UInt8) ∉ d := fun d hd => hcs d (List.mem_cons_of_mem _ hd)
    simp only [walkComponents] at hw
    split at hw
    · cases hw
    · split at hw
      · refine ih hrest ?_ hw
        split
        · cases hpar : (s.node p).parent with
          | none => exact hp
          | some o => exact h.links.up p hp o hpar
        · exact hp
      · split at hw
        · cases hw
        · rename_i child hchild
          exact ih hrest (h.kid_linked hp ((h.childNamed_eq_some hp (hcs c (by simp))).mp hchild).1) hw

-- ---------------------------------------------------------------------------
-- The shape stays
-- ---------------------------------------------------------------------------

theorem Tree.congr (h : s.Tree kids) (hroot : t.root = s.root)
    (hlive : ∀ p ∈ s.linked, p ∈ t.live) (hnode : ∀ p, (t.node p).SameShape (s.node p)) :
    t.Tree kids := by
  have hlinked : t.linked = s.linked := Set.ext fun p => by
    rw [mem_linked, mem_linked, (hnode p).linked]
  have hparent : t.parent = s.parent := funext fun p => (hnode p).parent
  have hname : ∀ p, (t.node p).name = (s.node p).name := fun p => (hnode p).name
  have htype : ∀ p, (t.node p).type = (s.node p).type := fun p => (hnode p).type
  constructor
  · rw [hlinked]
    exact h.links.congr hlive fun p _ => ⟨(hnode p).parent, (hnode p).children, (hnode p).next⟩
  · rw [hlinked, hroot]
    exact h.root
  · rw [hparent, hroot]
    exact h.rootParent
  · rw [hparent, hroot, hlinked]
    exact h.rooted
  · rw [htype, hroot]
    exact h.rootDir
  · simp only [hlinked, htype]
    exact h.dir
  · simp only [hlinked, hroot, hname]
    exact h.name
  · simp only [hlinked, hname]
    exact h.distinct

-- ---------------------------------------------------------------------------
-- An entry is added
-- ---------------------------------------------------------------------------

theorem Links.insert {M : Set Ptr} (h : s.Links M kids) (hn : n ∉ M) (hlive : n ∈ s.live)
    (hparent : (s.node n).parent = none) (hchildren : (s.node n).children = none) :
    s.Links (insert n M) (Function.update kids n []) := by
  have hkids : ∀ p ∈ M, Function.update kids n [] p = kids p := fun p hp =>
    Function.update_of_ne (ne_of_mem_of_not_mem hp hn) _ _
  constructor
  · rintro p (rfl | hp)
    · exact hlive
    · exact h.live p hp
  · rintro p (rfl | hp)
    · simpa [hchildren] using Chain.nil
    · rw [hkids p hp]
      exact h.chain p hp
  · rintro p (rfl | hp) c
    · simp only [Function.update_self, List.not_mem_nil, Set.mem_insert_iff, false_iff, not_and]
      rintro (rfl | hc) hcp
      · simp [hparent] at hcp
      · exact hn (h.up c hc p hcp)
    · rw [hkids p hp, h.kid p hp c, Set.mem_insert_iff]
      constructor
      · exact fun hc => ⟨.inr hc.1, hc.2⟩
      · rintro ⟨rfl | hc, hcp⟩
        · simp [hparent] at hcp
        · exact ⟨hc, hcp⟩
  · rintro c (rfl | hc) p hcp
    · simp [hparent] at hcp
    · exact .inr (h.up c hc p hcp)

/-- The state in which `new_node` calls `attach`. -/
def withNode (s : Vfs) (n : Ptr) (name : List UInt8) (type : VType) (mode : Nat) : Vfs :=
  { s with
    live := insert n s.live
    node := Function.update s.node n
      { name := name, ino := s.nextInode, type := type, mode := mode }
    nextInode := wrap64 (s.nextInode + 1) }

theorem withNode_self {type : VType} {mode : Nat} : (s.withNode n name type mode).node n =
    { name := name, ino := s.nextInode, type := type, mode := mode } := Function.update_self _ _ _

theorem withNode_of_ne {type : VType} {mode : Nat} (h : q ≠ n) :
    (s.withNode n name type mode).node q = s.node q := Function.update_of_ne h _ _

theorem Tree.create (type : VType) (mode : Nat) (h : s.Tree kids) (hn : n ∉ s.live)
    (hd : d ∈ s.linked) (hdir : (s.node d).type = .dir) (hgood : GoodName name)
    (hnew : ∀ c ∈ kids d, (s.node c).name ≠ name) :
    ((s.withNode n name type mode).attach d n).Tree
      (Function.update (Function.update kids n []) d (kids d ++ [n])) := by
  set t := s.withNode n name type mode with ht
  have hnl : n ∉ s.linked := fun hl => hn (h.live hl)
  have hself : t.node n = _ := withNode_self
  have hne : ∀ q, q ≠ n → t.node q = s.node q := fun q => withNode_of_ne
  have hne' : ∀ q ∈ s.linked, t.node q = s.node q := fun q hq =>
    hne q (ne_of_mem_of_not_mem hq hnl)
  have hdn : d ≠ n := ne_of_mem_of_not_mem hd hnl
  have hM : t.Links (insert n s.linked) (Function.update kids n []) := by
    refine Links.insert (h.links.congr (fun p hp => ?_) fun p hp => ?_) hnl ?_ (by rw [hself])
      (by rw [hself])
    · exact Finset.mem_insert_of_mem (h.live hp)
    · rw [hne' p hp]
      exact ⟨rfl, rfl, rfl⟩
    · exact Finset.mem_insert_self _ _
  have hlinked : (t.attach d n).linked = insert n s.linked := by
    ext q
    rw [mem_linked, attach_linked, Set.mem_insert_iff, mem_linked]
    by_cases hq : q = n
    · simp [hq]
    · simp [hq, hne q hq]
  have hroot : (t.attach d n).root = s.root := (attach_rest t d n).root
  have hrn : s.root ≠ n := ne_of_mem_of_not_mem h.root hnl
  have hdata := attach_data t d n
  have hlinks := hM.attach (.inr hd) (.inl rfl) (by rw [hself])
  rw [Function.update_of_ne hdn] at hlinks
  have hparent : ∀ q, q ≠ n → (t.attach d n).parent q = s.parent q := fun q hq => by
    simp only [parent, attach_parent, if_neg hq, hne q hq]
  have hrooted : ∀ p ∈ s.linked, Rooted (t.attach d n).parent s.root p := fun p hp =>
    (h.rooted p hp).congr hp (fun b c hb hbc => h.links.up b hb c hbc)
      fun b hb => hparent b (ne_of_mem_of_not_mem hb hnl)
  have hkids : ∀ p ∈ s.linked, p ≠ d →
      Function.update (Function.update kids n []) d (kids d ++ [n]) p = kids p := fun p hp hpd => by
    rw [Function.update_of_ne hpd, Function.update_of_ne (ne_of_mem_of_not_mem hp hnl)]
  constructor
  · rw [hlinked]
    exact hlinks
  · rw [hlinked, hroot]
    exact .inr h.root
  · rw [hroot, hparent _ hrn]
    exact h.rootParent
  · rw [hlinked, hroot]
    rintro p (rfl | hp)
    · exact .step (by simp [parent, attach_parent]) (hrooted d hd)
    · exact hrooted p hp
  · rw [hroot, (hdata _).type, hne _ hrn]
    exact h.rootDir
  · rw [hlinked]
    rintro p (rfl | hp) hk
    · simp [Function.update_of_ne (Ne.symm hdn)] at hk
    · rw [(hdata p).type, hne' p hp]
      by_cases hpd : p = d
      · rw [hpd, hdir]
      · rw [hkids p hp hpd] at hk
        exact h.dir p hp hk
  · rw [hlinked, hroot]
    rintro p (rfl | hp) hpr
    · rw [(hdata p).name, hself]
      exact hgood
    · rw [(hdata p).name, hne' p hp]
      exact h.name p hp hpr
  · rw [hlinked]
    have hcn : ∀ p ∈ s.linked, ∀ c ∈ kids p, t.node c = s.node c := fun p hp c hc =>
      hne' c (h.kid_linked hp hc)
    rintro p (rfl | hp) c hc c' hc' hcc
    · simp [Function.update_of_ne (Ne.symm hdn)] at hc
    · rw [(hdata c).name, (hdata c').name] at hcc
      by_cases hpd : p = d
      · subst hpd
        simp only [Function.update_self, List.mem_append, List.mem_singleton] at hc hc'
        rcases hc with hc | rfl <;> rcases hc' with hc' | rfl
        · rw [hcn p hp c hc, hcn p hp c' hc'] at hcc
          exact h.distinct p hp c hc c' hc' hcc
        · rw [hcn p hp c hc, hself] at hcc
          exact absurd hcc (hnew c hc)
        · rw [hcn p hp c' hc', hself] at hcc
          exact absurd hcc.symm (hnew c' hc')
        · rfl
      · rw [hkids p hp hpd] at hc hc'
        rw [hcn p hp c hc, hcn p hp c' hc'] at hcc
        exact h.distinct p hp c hc c' hc' hcc

-- ---------------------------------------------------------------------------
-- An entry without entries is removed
-- ---------------------------------------------------------------------------

theorem Links.erase {M : Set Ptr} (h : s.Links M kids) (hn : n ∈ M) (hkids : kids n = [])
    (hparent : (s.node n).parent = none) : s.Links (M \ {n}) kids where
  live p hp := h.live p hp.1
  chain p hp := h.chain p hp.1
  kid p hp c := by
    rw [h.kid p hp.1 c, Set.mem_sdiff, Set.mem_singleton_iff]
    constructor
    · rintro ⟨hc, hcp⟩
      exact ⟨⟨hc, fun e => by simp [e ▸ hparent] at hcp⟩, hcp⟩
    · exact fun hc => ⟨hc.1.1, hc.2⟩
  up c hc p hcp := by
    refine ⟨h.up c hc.1 p hcp, ?_⟩
    rintro rfl
    have := (h.kid p hn c).mpr ⟨hc.1, hcp⟩
    simp [hkids] at this

theorem Tree.remove (h : s.Tree kids) (hn : n ∈ s.linked) (hd : s.parent n = some d)
    (hkids : kids n = []) :
    (s.detach n).Tree (Function.update kids d ((kids d).erase n)) := by
  have hnd : n ≠ d := by
    rintro rfl
    have := (h.links.kid n hn n).mpr ⟨hn, hd⟩
    simp [hkids] at this
  have hnr : n ≠ s.root := by
    rintro rfl
    simp [h.rootParent] at hd
  have hlinked : (s.detach n).linked = s.linked \ {n} := by
    ext q
    rw [mem_linked, detach_linked hd, Set.mem_sdiff, Set.mem_singleton_iff, mem_linked]
    by_cases hq : q = n <;> simp [hq]
  have hroot : (s.detach n).root = s.root := (detach_rest s n).root
  have hdata := detach_data s n
  have hparent : ∀ q, q ≠ n → (s.detach n).parent q = s.parent q := fun q hq => by
    simp only [parent, detach_parent hd, if_neg hq]
  have hsub : ∀ p c, c ∈ Function.update kids d ((kids d).erase n) p → c ∈ kids p := by
    intro p c hc
    by_cases hpd : p = d
    · subst hpd
      rw [Function.update_self] at hc
      exact List.mem_of_mem_erase hc
    · rwa [Function.update_of_ne hpd] at hc
  constructor
  · rw [hlinked]
    refine (h.links.detach hn hd).erase hn ?_ (by rw [detach_parent hd, if_pos rfl])
    rw [Function.update_of_ne hnd, hkids]
  · rw [hlinked, hroot]
    exact ⟨h.root, Ne.symm hnr⟩
  · rw [hroot, hparent _ (Ne.symm hnr)]
    exact h.rootParent
  · rw [hlinked, hroot]
    intro p hp
    refine (h.rooted p hp.1).congr (S := fun q => q ∈ s.linked ∧ q ≠ n) hp ?_
      fun b hb => hparent b hb.2
    rintro b c ⟨hb, -⟩ hbc
    refine ⟨h.links.up b hb c hbc, ?_⟩
    rintro rfl
    have := (h.links.kid c hn b).mpr ⟨hb, hbc⟩
    simp [hkids] at this
  · rw [hroot, (hdata _).type]
    exact h.rootDir
  · rw [hlinked]
    intro p hp hk
    rw [(hdata p).type]
    obtain ⟨c, hc⟩ := List.exists_mem_of_ne_nil _ hk
    exact h.dir p hp.1 (List.ne_nil_of_mem (hsub p c hc))
  · rw [hlinked, hroot]
    intro p hp hpr
    rw [(hdata p).name]
    exact h.name p hp.1 hpr
  · rw [hlinked]
    intro p hp c hc c' hc' hcc
    rw [(hdata c).name, (hdata c').name] at hcc
    exact h.distinct p hp.1 c (hsub p c hc) c' (hsub p c' hc') hcc

-- ---------------------------------------------------------------------------
-- An entry is moved
-- ---------------------------------------------------------------------------

/-- The surgery of `vfs_rename` on the moved node. -/
def reattach (s : Vfs) (n d : Ptr) (name : List UInt8) : Vfs :=
  ((s.detach n).modify n fun v => { v with name := name }).attach d n

section
variable (ho : s.parent n = some o)
include ho

theorem reattach_parent (d : Ptr) (name : List UInt8) (q : Ptr) :
    (s.reattach n d name).parent q = if q = n then some d else s.parent q := by
  rw [parent, reattach, attach_parent]
  split
  · rfl
  · rename_i hq
    rw [modify_node, if_neg hq, detach_parent ho, if_neg hq]
    rfl

theorem reattach_linked (d : Ptr) (name : List UInt8) (hn : n ∈ s.linked) : (s.reattach n d name).linked = s.linked := by
  ext q
  rw [mem_linked, reattach, attach_linked]
  by_cases hq : q = n
  · subst hq
    simpa using hn
  · rw [if_neg hq, modify_node, if_neg hq, detach_linked ho, if_neg hq, mem_linked]

theorem Links.reattach (name : List UInt8) (h : s.Links s.linked kids) (hn : n ∈ s.linked) (hd : d ∈ s.linked) :
    (s.reattach n d name).Links s.linked
      (Function.update (Function.update kids o ((kids o).erase n)) d
        (Function.update kids o ((kids o).erase n) d ++ [n])) := by
  refine Links.attach (Links.congr (h.detach hn ho) ?_ fun p _ => ?_) hd hn ?_
  · intro p hp
    rw [modify_live, (detach_rest s n).live]
    exact h.live p hp
  · rw [modify_node]
    split <;> exact ⟨rfl, rfl, rfl⟩
  · rw [modify_node, if_pos rfl]
    simp only
    rw [detach_parent ho, if_pos rfl]

end

theorem reattach_node (s : Vfs) (n d q : Ptr) (name : List UInt8) :
    ((s.reattach n d name).node q).SameData
      (if q = n then { s.node q with name := name } else s.node q) := by
  refine (attach_data _ d n q).trans ?_
  have h := detach_data s n q
  rw [modify_node]
  split
  · exact ⟨rfl, h.refs, h.size, h.ino, h.mode, h.type, h.archive, h.pages⟩
  · exact h

theorem reattach_rest (s : Vfs) (n d : Ptr) (name : List UInt8) :
    (s.reattach n d name).SameRest s := by
  have h₁ := attach_rest ((s.detach n).modify n fun v => { v with name := name }) d n
  have h₂ := detach_rest s n
  exact ⟨h₁.tarData.trans h₂.tarData, h₁.tarSize.trans h₂.tarSize, h₁.nextInode.trans h₂.nextInode,
    h₁.root.trans h₂.root, h₁.live.trans h₂.live, h₁.heap.trans h₂.heap, h₁.phys.trans h₂.phys⟩

theorem mem_reattach_kids (hd : d ∈ s.linked) (h : s.Links s.linked kids) (hn : n ∈ s.linked)
    (ho : s.parent n = some o) {c : Ptr} (hp : p ∈ s.linked) :
    c ∈ Function.update (Function.update kids o ((kids o).erase n)) d
        (Function.update kids o ((kids o).erase n) d ++ [n]) p ↔
      (c = n ∧ p = d) ∨ (c ≠ n ∧ c ∈ kids p) := by
  have hl := (Links.reattach ho [] h hn hd).kid p hp c
  have hp' := reattach_parent ho d [] c
  rw [parent] at hp'
  rw [hl, hp', h.kid p hp c]
  by_cases hc : c = n
  · subst hc
    simp [hn, eq_comm]
  · simp [hc, parent]

theorem Tree.move {anc : List Ptr} (h : s.Tree kids) (hn : n ∈ s.linked)
    (ho : s.parent n = some o) (hd : d ∈ s.linked) (hdir : (s.node d).type = .dir)
    (hanc : Chain s.parent (some d) anc) (hnanc : n ∉ anc) (hgood : GoodName name)
    (hnew : ∀ c ∈ kids d, c ≠ n → (s.node c).name ≠ name) :
    (s.reattach n d name).Tree
      (Function.update (Function.update kids o ((kids o).erase n)) d
        (Function.update kids o ((kids o).erase n) d ++ [n])) := by
  have hnr : n ≠ s.root := by
    rintro rfl
    simp [h.rootParent] at ho
  have hlinked := reattach_linked ho d name hn
  have hroot := (reattach_rest s n d name).root
  have hdata := fun q => reattach_node s n d q name
  have hparent := reattach_parent ho d name
  have htype : ∀ q, ((s.reattach n d name).node q).type = (s.node q).type := fun q => by
    rw [(hdata q).type]
    split <;> rfl
  have hname : ∀ q, q ≠ n → ((s.reattach n d name).node q).name = (s.node q).name := fun q hq => by
    rw [(hdata q).name, if_neg hq]
  have hself : ((s.reattach n d name).node n).name = name := by
    rw [(hdata n).name, if_pos rfl]
  constructor
  · rw [hlinked]
    exact Links.reattach ho name h.links hn hd
  · rw [hlinked, hroot]
    exact h.root
  · rw [hroot, hparent, if_neg (Ne.symm hnr)]
    exact h.rootParent
  · rw [hlinked, hroot]
    intro p hp
    exact (h.rooted p hp).redirect (h.rooted d hd) hanc hnanc
      (by rw [hparent, if_pos rfl]) fun b hb => by rw [hparent, if_neg hb]
  · rw [hroot, htype]
    exact h.rootDir
  · rw [hlinked]
    intro p hp hk
    rw [htype]
    obtain ⟨c, hc⟩ := List.exists_mem_of_ne_nil _ hk
    rcases (mem_reattach_kids hd h.links hn ho hp).mp hc with ⟨-, rfl⟩ | ⟨-, hc⟩
    · exact hdir
    · exact h.dir p hp (List.ne_nil_of_mem hc)
  · rw [hlinked, hroot]
    intro p hp hpr
    by_cases hpn : p = n
    · subst hpn
      rw [hself]
      exact hgood
    · rw [hname p hpn]
      exact h.name p hp hpr
  · rw [hlinked]
    intro p hp c hc c' hc' hcc
    rcases (mem_reattach_kids hd h.links hn ho hp).mp hc with ⟨rfl, rfl⟩ | ⟨hcn, hk⟩ <;>
      rcases (mem_reattach_kids hd h.links hn ho hp).mp hc' with ⟨rfl, hpd⟩ | ⟨hcn', hk'⟩
    · rfl
    · rw [hself, hname c' hcn'] at hcc
      exact absurd hcc.symm (hnew c' hk' hcn')
    · subst hpd
      rw [hself, hname c hcn] at hcc
      exact absurd hcc (hnew c hk hcn)
    · rw [hname c hcn, hname c' hcn'] at hcc
      exact h.distinct p hp c hk c' hk' hcc

end Vfs

end NarcOs
