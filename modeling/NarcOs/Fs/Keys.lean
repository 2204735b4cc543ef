import NarcOs.Fs.Change
import NarcOs.Lib.Namespace

/-!
# Canonical keys

A key is a list of names; `reach s k` is the vnode that it names from the root.
`canonical` drops the dots of a path, and `walk` ends where the canonical key
of its path leads. The three changes that calls make to the tree are then
changes of this map: one key is added, one is removed, or all keys under one
prefix move under another.
-/

namespace NarcOs

abbrev Key := List (List UInt8)

def canonicalStep (k : Key) (c : List UInt8) : Key :=
  if c = [dot] then k else if c = [dot, dot] then k.dropLast else k ++ [c]

def canonical (path : List UInt8) : Key := (components path).foldl canonicalStep []

namespace Vfs

variable {s t : Vfs} {kids kids' : Ptr → List Ptr} {p q n d o c : Ptr} {name l : List UInt8}
  {key k r : Key}

def edge (s : Vfs) (p : Ptr) (l : List UInt8) : Option Ptr :=
  if (s.node p).linked then (s.entries p).find? fun c => (s.node c).name = l else none

def reach (s : Vfs) (k : Key) : Option Ptr := resolve s.edge s.root k

theorem Tree.edge_eq_some (h : s.Tree kids) :
    s.edge p l = some c ↔ p ∈ s.linked ∧ c ∈ kids p ∧ (s.node c).name = l := by
  unfold edge
  by_cases hp : p ∈ s.linked
  · rw [if_pos (mem_linked.mp hp), h.links.entries_eq hp]
    constructor
    · intro hc
      exact ⟨hp, List.mem_of_find?_eq_some hc, by simpa using List.find?_some hc⟩
    · rintro ⟨-, hc, hl⟩
      obtain ⟨b, hb⟩ : ∃ b, (kids p).find? (fun c => (s.node c).name = l) = some b :=
        Option.isSome_iff_exists.mp (List.find?_isSome.mpr ⟨c, hc, by simpa using hl⟩)
      have hbl : (s.node b).name = l := by simpa using List.find?_some hb
      rw [hb, h.distinct p hp b (List.mem_of_find?_eq_some hb) c hc (hbl.trans hl.symm)]
  · rw [if_neg (mem_linked.not.mp hp)]
    exact iff_of_false (by simp) fun e => hp e.1

theorem Tree.edge_eq_none (h : s.Tree kids) :
    s.edge p l = none ↔ ∀ c, p ∈ s.linked → c ∈ kids p → (s.node c).name ≠ l := by
  rw [Option.eq_none_iff_forall_ne_some]
  exact forall_congr' fun c => by
    rw [ne_eq, h.edge_eq_some]
    tauto

/-- What `child_named` finds is an edge. -/
theorem Tree.edge_eq_childNamed (h : s.Tree kids) (hp : p ∈ s.linked) (hl : (0 : UInt8) ∉ l) :
    s.edge p l = s.childNamed p l := by
  apply Option.ext
  intro c
  rw [h.edge_eq_some, h.childNamed_eq_some hp hl]
  exact ⟨fun e => e.2, fun e => ⟨hp, e⟩⟩

theorem Tree.treelike (h : s.Tree kids) : Treelike s.edge s.root where
  inj := by
    intro p q a b c hp hq
    rw [h.edge_eq_some] at hp hq
    have hpq := (h.links.parent_eq hp.1 hp.2.1).symm.trans (h.links.parent_eq hq.1 hq.2.1)
    exact ⟨Option.some.inj hpq, hp.2.2.symm.trans hq.2.2⟩
  root p a hp := by
    rw [h.edge_eq_some] at hp
    exact h.kid_ne_root hp.1 hp.2.1 rfl

theorem Tree.reach_linked (h : s.Tree kids) (hk : s.reach k = some p) : p ∈ s.linked := by
  rcases List.eq_nil_or_concat k with rfl | ⟨k, a, rfl⟩
  · cases hk
    exact h.root
  · rw [List.concat_eq_append] at hk
    obtain ⟨q, -, hq⟩ := resolve_snoc_eq_some.mp hk
    rw [h.edge_eq_some] at hq
    exact h.kid_linked hq.1 hq.2.1

theorem reach_snoc (s : Vfs) (k : Key) (l : List UInt8) :
    s.reach (k ++ [l]) = (s.reach k).bind fun p => s.edge p l := resolve_snoc _ _ _ _

theorem reach_append (s : Vfs) (k r : Key) :
    s.reach (k ++ r) = (s.reach k).bind fun p => resolve s.edge p r := resolve_append _ _ _ _

-- ---------------------------------------------------------------------------
-- Walking
-- ---------------------------------------------------------------------------

theorem Tree.reach_parent (h : s.Tree kids) (hk : s.reach k = some p) :
    s.reach k.dropLast = some ((s.node p).parent.getD p) := by
  rcases List.eq_nil_or_concat k with rfl | ⟨k, a, rfl⟩
  · cases hk
    have hp : (s.node s.root).parent = none := h.rootParent
    rw [hp]
    rfl
  · rw [List.concat_eq_append] at hk ⊢
    obtain ⟨q, hq, hqa⟩ := resolve_snoc_eq_some.mp hk
    rw [h.edge_eq_some] at hqa
    rw [List.dropLast_concat, h.links.parent_eq hqa.1 hqa.2.1]
    exact hq

theorem Tree.walkComponents_reach (h : s.Tree kids) {cs : List (List UInt8)}
    (hnul : ∀ c ∈ cs, (0 : UInt8) ∉ c) (hk : s.reach k = some p)
    (hw : s.walkComponents cs p = .ok q) : s.reach (cs.foldl canonicalStep k) = some q := by
  induction cs generalizing k p with
  | nil =>
    cases hw
    exact hk
  | cons c cs ih =>
    have hrest : ∀ c' ∈ cs, (0 : UInt8) ∉ c' := fun c' hc' => hnul c' (List.mem_cons_of_mem _ hc')
    simp only [walkComponents] at hw
    rw [List.foldl_cons]
    split at hw
    · cases hw
    split at hw
    · rename_i hdot
      refine ih hrest ?_ hw
      unfold canonicalStep
      rcases dotName_iff.mp hdot with rfl | rfl
      · exact hk
      · exact h.reach_parent hk
    · rename_i hdot
      rw [dotName_iff, not_or] at hdot
      split at hw
      · cases hw
      · rename_i child hchild
        refine ih hrest ?_ hw
        rw [canonicalStep, if_neg hdot.1, if_neg hdot.2, reach_snoc, hk]
        exact (h.edge_eq_childNamed (h.reach_linked hk) (hnul c (by simp))).trans hchild

theorem Tree.parentOf_key (h : s.Tree kids) {path : CString} (hp : s.ParentOf path.bytes d name) :
    ∃ key, canonical path.bytes = key ++ [name] ∧ s.reach key = some d := by
  obtain ⟨front, hc, hw⟩ := hp.walk
  refine ⟨front.foldl canonicalStep [], ?_, ?_⟩
  · rw [canonical, hc, List.foldl_append, List.foldl_cons, List.foldl_nil, canonicalStep,
      if_neg hp.good.notDot, if_neg hp.good.notDotDot]
  · refine h.walkComponents_reach (fun c hm h0 => path.noNul (mem_components ?_ h0)) rfl hw
    rw [hc]
    exact List.mem_append_left _ hm

theorem Tree.entry_reach (h : s.Tree kids) {path : CString} (hp : s.ParentOf path.bytes d name) :
    s.reach (canonical path.bytes) = s.childNamed d name := by
  obtain ⟨key, hkey, hd⟩ := h.parentOf_key hp
  rw [hkey, reach_snoc, hd]
  exact h.edge_eq_childNamed (h.reach_linked hd) hp.good.noNul

-- ---------------------------------------------------------------------------
-- Changes
-- ---------------------------------------------------------------------------

theorem Tree.reach_congr (h : s.Tree kids) (ht : t.Tree kids) (hroot : t.root = s.root)
    (hlinked : ∀ p, p ∈ t.linked ↔ p ∈ s.linked)
    (hname : ∀ p ∈ s.linked, (t.node p).name = (s.node p).name) : t.reach = s.reach := by
  have hedge : t.edge = s.edge := by
    funext p l
    apply Option.ext
    intro c
    rw [ht.edge_eq_some, h.edge_eq_some, hlinked]
    constructor
    · rintro ⟨hp, hc, hl⟩
      exact ⟨hp, hc, (hname c (h.kid_linked hp hc)).symm.trans hl⟩
    · rintro ⟨hp, hc, hl⟩
      exact ⟨hp, hc, (hname c (h.kid_linked hp hc)).trans hl⟩
  unfold reach
  rw [hedge, hroot]

theorem SameTree.reach (hs : t.SameTree s) (h : s.Tree kids) : t.reach = s.reach := by
  have ht : t.Tree kids := h.congr hs.root (fun p hp => hs.live.symm ▸ h.live hp) hs.node
  refine h.reach_congr ht hs.root (fun p => ?_) fun p _ => (hs.node p).name
  rw [mem_linked, mem_linked, (hs.node p).linked]

theorem Tree.resolve_leaf (h : s.Tree kids) (hn : n ∈ s.linked → kids n = []) (hr : r ≠ []) :
    resolve s.edge n r = none := by
  cases r with
  | nil => exact absurd rfl hr
  | cons a r =>
    have he : s.edge n a = none := h.edge_eq_none.mpr fun c hl hc => by
      rw [hn hl] at hc
      cases hc
    rw [resolve, he]
    rfl

theorem Tree.create_reach (type : VType) (mode : Nat) (h : s.Tree kids) (hn : n ∉ s.live)
    (hdir : (s.node d).type = .dir) (hgood : GoodName name) (hd : s.reach key = some d)
    (hnew : s.childNamed d name = none) :
    ((s.withNode n name type mode).attach d n).reach =
      Function.update s.reach (key ++ [name]) (some n) := by
  have hdl := h.reach_linked hd
  have hnl : n ∉ s.linked := fun hl => hn (h.live hl)
  have hfree := (h.childNamed_eq_none hdl hgood.noNul).mp hnew
  have ht := h.create type mode hn hdl hdir hgood hfree
  generalize htt : (s.withNode n name type mode).attach d n = t at ht
  have hroot : t.root = s.root := htt ▸ (attach_rest _ d n).root
  have hlinked : ∀ q, q ∈ t.linked ↔ q = n ∨ q ∈ s.linked := by
    intro q
    rw [mem_linked, ← htt, attach_linked]
    by_cases hq : q = n
    · simp [hq]
    · rw [if_neg hq, withNode_of_ne hq, mem_linked]
      simp [hq]
  have hname : ∀ q, (t.node q).name = if q = n then name else (s.node q).name := by
    intro q
    rw [← htt, (attach_data _ d n q).name]
    by_cases hq : q = n
    · rw [if_pos hq, hq, withNode_self]
    · rw [if_neg hq, withNode_of_ne hq]
  have hdn : d ≠ n := ne_of_mem_of_not_mem hdl hnl
  have hedge : t.edge d name = some n := by
    rw [ht.edge_eq_some, hlinked, hname, if_pos rfl]
    exact ⟨.inr hdl, by simp, rfl⟩
  have hsame : ∀ p a, ¬ (p = d ∧ a = name) → t.edge p a = s.edge p a := by
    intro p a hpa
    apply Option.ext
    intro c
    rw [ht.edge_eq_some, h.edge_eq_some, hlinked, hname]
    by_cases hpn : p = n
    · rw [hpn, Function.update_of_ne hdn.symm, Function.update_self]
      simp [hnl]
    have hkid : c ∈ kids p → p ∈ s.linked → c ≠ n := fun hc hp =>
      ne_of_mem_of_not_mem (h.kid_linked hp hc) hnl
    by_cases hpd : p = d
    · subst hpd
      rw [Function.update_self]
      by_cases hcn : c = n
      · subst hcn
        refine iff_of_false ?_ fun e => hkid e.2.1 e.1 rfl
        rintro ⟨-, -, e⟩
        rw [if_pos rfl] at e
        exact hpa ⟨rfl, e.symm⟩
      · simp [hcn, hdl]
    · rw [Function.update_of_ne hpd, Function.update_of_ne hpn]
      simp only [hpn, false_or]
      constructor
      · rintro ⟨hp, hc, e⟩
        rw [if_neg (hkid hc hp)] at e
        exact ⟨hp, hc, e⟩
      · rintro ⟨hp, hc, e⟩
        rw [if_neg (hkid hc hp)]
        exact ⟨hp, hc, e⟩
  have hbelow : ∀ k, resolve s.edge n k ≠ some d := by
    intro k
    by_cases hk : k = []
    · rw [hk, resolve]
      exact fun e => hdn (Option.some.inj e).symm
    · rw [h.resolve_leaf (fun e => absurd e hnl) hk]
      simp
  funext k
  unfold reach
  rw [hroot]
  have hgraft := fun r => (h.treelike.resolve_graft (t := r) (k := k) hd hedge hsame hbelow)
  by_cases hpre : key ++ [name] <+: k
  · obtain ⟨r, rfl⟩ := hpre
    rw [(hgraft r).1]
    by_cases hr : r = []
    · rw [hr, List.append_nil, Function.update_self]
      rfl
    · rw [Function.update_of_ne (by simpa using hr), h.resolve_leaf (fun e => absurd e hnl) hr,
        resolve_append, resolve_snoc]
      have hnone : s.edge d name = none := (h.edge_eq_childNamed hdl hgood.noNul).trans hnew
      rw [show resolve s.edge s.root key = some d from hd]
      simp [hnone]
  · rw [(hgraft []).2 hpre, Function.update_of_ne]
    rintro rfl
    exact hpre (List.prefix_refl _)

theorem Tree.remove_reach (h : s.Tree kids) (hn : n ∈ s.linked) (hd : s.reach key = some d)
    (hkid : n ∈ kids d) (hk : kids n = []) :
    (s.removeNode n).reach = Function.update s.reach (key ++ [(s.node n).name]) none := by
  have hdl := h.reach_linked hd
  have hpar : s.parent n = some d := h.links.parent_eq hdl hkid
  have ht := h.removeNode hn hpar hk
  generalize htt : s.removeNode n = t at ht
  have hroot : t.root = s.root := htt ▸ removeNode_sameRoot
  have hlinked : ∀ q, q ∈ t.linked ↔ q ≠ n ∧ q ∈ s.linked := by
    intro q
    rw [mem_linked, ← htt, (removeNode_node q).linked, detach_linked hpar, mem_linked]
    by_cases hq : q = n <;> simp [hq]
  have hname : ∀ q, (t.node q).name = (s.node q).name := by
    intro q
    rw [← htt, (removeNode_node q).name, (detach_data s n q).name]
  have hdn : d ≠ n := by
    rintro rfl
    rw [hk] at hkid
    cases hkid
  have hedge : t.edge d (s.node n).name = none := by
    rw [ht.edge_eq_none]
    intro c _ hc
    rw [Function.update_self] at hc
    rw [hname]
    intro e
    have := h.distinct d hdl c (List.mem_of_mem_erase hc) n hkid e
    exact (h.links.nodup hdl).not_mem_erase (this ▸ hc)
  have hsame : ∀ p a, ¬ (p = d ∧ a = (s.node n).name) → t.edge p a = s.edge p a := by
    intro p a hpa
    apply Option.ext
    intro c
    rw [ht.edge_eq_some, h.edge_eq_some, hlinked, hname]
    by_cases hpn : p = n
    · subst hpn
      simp [hk]
    by_cases hpd : p = d
    · subst hpd
      rw [Function.update_self]
      constructor
      · rintro ⟨hp, hc, e⟩
        exact ⟨hp.2, List.mem_of_mem_erase hc, e⟩
      · rintro ⟨hp, hc, e⟩
        refine ⟨⟨hpn, hp⟩, (List.mem_erase_of_ne ?_).mpr hc, e⟩
        rintro rfl
        exact hpa ⟨rfl, e.symm⟩
    · rw [Function.update_of_ne hpd]
      simp [hpn]
  funext k
  unfold reach
  rw [hroot]
  obtain ⟨hin, hout⟩ := h.treelike.resolve_cut (k := k) hd hedge hsame
  by_cases hpre : key ++ [(s.node n).name] <+: k
  · rw [hin hpre]
    obtain ⟨r, rfl⟩ := hpre
    by_cases hr : r = []
    · rw [hr, List.append_nil, Function.update_self]
    · rw [Function.update_of_ne (by simpa using hr), resolve_append, resolve_snoc,
        show resolve s.edge s.root key = some d from hd]
      have he : s.edge d (s.node n).name = some n := h.edge_eq_some.mpr ⟨hdl, hkid, rfl⟩
      simp only [Option.bind_some, he]
      exact (h.resolve_leaf (fun _ => hk) hr).symm
  · rw [hout hpre, Function.update_of_ne]
    rintro rfl
    exact hpre (List.prefix_refl _)

theorem Tree.resolve_ancestor {anc : List Ptr} (h : s.Tree kids)
    (hr : resolve s.edge n r = some d) (hanc : Chain s.parent (some d) anc) : n ∈ anc := by
  induction r using List.reverseRecOn generalizing d anc with
  | nil =>
    cases hr
    obtain ⟨rest, rfl, -⟩ := Chain.some_iff.mp hanc
    exact List.mem_cons_self
  | append_singleton r a ih =>
    obtain ⟨q, hq, hqa⟩ := resolve_snoc_eq_some.mp hr
    rw [h.edge_eq_some] at hqa
    have hp : s.parent d = some q := h.links.parent_eq hqa.1 hqa.2.1
    obtain ⟨rest, rfl, hrest⟩ := Chain.some_iff.mp hanc
    exact List.mem_cons_of_mem _ (ih hq (hp ▸ hrest))

theorem Tree.move_reach {anc : List Ptr} {old : Key} (h : s.Tree kids) (hn : n ∈ s.linked)
    (ho : s.reach old = some o) (hkid : n ∈ kids o) (hd : s.reach key = some d)
    (hdir : (s.node d).type = .dir) (hanc : Chain s.parent (some d) anc) (hnanc : n ∉ anc)
    (hgood : GoodName name) (hnew : ∀ c ∈ kids d, c ≠ n → (s.node c).name ≠ name) :
    (∀ r, (s.reattach n d name).reach (key ++ [name] ++ r) =
      s.reach (old ++ [(s.node n).name] ++ r)) ∧
    ∀ k, ¬ key ++ [name] <+: k → (s.reattach n d name).reach k =
      if old ++ [(s.node n).name] <+: k then none else s.reach k := by
  have hol := h.reach_linked ho
  have hdl := h.reach_linked hd
  have hpar : s.parent n = some o := h.links.parent_eq hol hkid
  have ht := h.move hn hpar hdl hdir hanc hnanc hgood hnew
  have hlinked := reattach_linked hpar d name hn
  have hroot : (s.reattach n d name).root = s.root := (reattach_rest s n d name).root
  have hname : ∀ q, ((s.reattach n d name).node q).name =
      if q = n then name else (s.node q).name := by
    intro q
    rw [(reattach_node s n d q name).name]
    split <;> rfl
  generalize s.reattach n d name = t at ht hlinked hroot hname ⊢
  -- between the two surgeries, the entry is gone from its old place
  let cut : Ptr → List UInt8 → Option Ptr := fun p a =>
    if p = o ∧ a = (s.node n).name then none else s.edge p a
  have hcutat : cut o (s.node n).name = none := if_pos ⟨rfl, rfl⟩
  have hcutne : ∀ p a, ¬ (p = o ∧ a = (s.node n).name) → cut p a = s.edge p a :=
    fun p a hpa => if_neg hpa
  have hmono : ∀ p a c, cut p a = some c → s.edge p a = some c := by
    intro p a c hc
    by_cases hpa : p = o ∧ a = (s.node n).name
    · rw [show cut p a = none from if_pos hpa] at hc
      cases hc
    · rwa [hcutne p a hpa] at hc
  have hcut := fun k => h.treelike.resolve_cut (k := k) ho hcutat hcutne
  have htl : Treelike cut s.root := h.treelike.mono hmono
  have hedge : s.edge o (s.node n).name = some n := h.edge_eq_some.mpr ⟨hol, hkid, rfl⟩
  have hbelow : ∀ k, resolve s.edge n k ≠ some d := fun k hk => hnanc (h.resolve_ancestor hk hanc)
  have hcutn : ∀ k, resolve cut n k = resolve s.edge n k := by
    intro k
    refine NarcOs.resolve_congr fun k q hq a => hcutne q a ?_
    rintro ⟨rfl, rfl⟩
    -- the old parent is not below the moved node
    have hanco := (h.ancestors hol).1
    have hin := h.resolve_ancestor hq hanco
    have hchain : Chain s.parent (some n) (n :: s.ancestors q) := .cons (hpar ▸ hanco)
    exact (List.nodup_cons.mp hchain.nodup).1 hin
  have hkey : resolve cut s.root key = some d := by
    rw [(hcut key).2, show resolve s.edge s.root key = some d from hd]
    rintro ⟨r, rfl⟩
    rw [reach_append, reach_snoc, ho] at hd
    simp only [Option.bind_some, hedge] at hd
    exact hbelow r hd
  have hnewedge : t.edge d name = some n := by
    rw [ht.edge_eq_some, hlinked, hname, if_pos rfl]
    exact ⟨hdl, (mem_reattach_kids hdl h.links hn hpar hdl).mpr (.inl ⟨rfl, rfl⟩), rfl⟩
  have hsame : ∀ p a, ¬ (p = d ∧ a = name) → t.edge p a = cut p a := by
    intro p a hpa
    apply Option.ext
    intro c
    rw [ht.edge_eq_some, hlinked, hname]
    by_cases hp : p ∈ s.linked
    · rw [mem_reattach_kids hdl h.links hn hpar hp]
      by_cases hcn : c = n
      · subst hcn
        refine iff_of_false ?_ fun e => ?_
        · rintro ⟨-, hc, e⟩
          rw [if_pos rfl] at e
          rcases hc with ⟨-, hpd⟩ | ⟨hne, -⟩
          · exact hpa ⟨hpd, e.symm⟩
          · exact hne rfl
        · obtain ⟨rfl, rfl⟩ := h.treelike.inj (hmono p a c e) hedge
          rw [hcutat] at e
          cases e
      · rw [if_neg hcn]
        have hiff : cut p a = some c ↔ s.edge p a = some c := by
          refine ⟨hmono p a c, fun e => ?_⟩
          rw [hcutne p a, e]
          rintro ⟨rfl, rfl⟩
          rw [hedge] at e
          exact hcn (Option.some.inj e).symm
        rw [hiff, h.edge_eq_some]
        simp [hcn]
    · refine iff_of_false (fun e => hp e.1) fun e => ?_
      exact hp (h.edge_eq_some.mp (hmono p a c e)).1
  have hgraft := fun r k => htl.resolve_graft (t := r) (k := k) hkey hnewedge hsame
    fun k => by rw [hcutn k]; exact hbelow k
  constructor
  · intro r
    have hl : t.reach (key ++ [name] ++ r) = resolve cut n r := by
      unfold reach
      rw [hroot]
      exact (hgraft r []).1
    rw [hl, hcutn, reach_append, reach_snoc, ho]
    simp [hedge]
  · intro k hk
    have hl : t.reach k = resolve cut s.root k := by
      unfold reach
      rw [hroot]
      exact (hgraft [] k).2 hk
    rw [hl]
    split
    · rename_i hpre
      exact (hcut k).1 hpre
    · rename_i hpre
      exact (hcut k).2 hpre

end Vfs

end NarcOs
