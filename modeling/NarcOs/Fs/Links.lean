import NarcOs.Fs.Vfs

/-!
# Sibling lists

`Links s M kids` reads the pointers of the vnodes in `M` as lists: each has the
entries `kids`, and an entry is exactly a vnode whose `parent` says so. The
pointer surgery of `attach` and `detach` then appends to one such list and
erases from one, and leaves every other field of every vnode alone.
-/

namespace NarcOs

structure Vnode.SameData (v w : Vnode) : Prop where
  name : v.name = w.name
  refs : v.refs = w.refs
  size : v.size = w.size
  ino : v.ino = w.ino
  mode : v.mode = w.mode
  type : v.type = w.type
  archive : v.archive = w.archive
  pages : v.pages = w.pages

theorem Vnode.SameData.refl (v : Vnode) : v.SameData v := ⟨rfl, rfl, rfl, rfl, rfl, rfl, rfl, rfl⟩

theorem Vnode.SameData.trans {u v w : Vnode} (h : u.SameData v) (h' : v.SameData w) :
    u.SameData w :=
  ⟨h.name.trans h'.name, h.refs.trans h'.refs, h.size.trans h'.size, h.ino.trans h'.ino,
    h.mode.trans h'.mode, h.type.trans h'.type, h.archive.trans h'.archive, h.pages.trans h'.pages⟩

namespace Vfs

variable {s : Vfs} {p q d n : Ptr}

theorem modify_node (s : Vfs) (p : Ptr) (f : Vnode → Vnode) (q : Ptr) :
    (s.modify p f).node q = if q = p then f (s.node q) else s.node q := by
  unfold modify
  simp only [Function.update_apply]
  split
  · rename_i h
    rw [h]
  · rfl

@[simp] theorem modify_root (f : Vnode → Vnode) : (s.modify p f).root = s.root := rfl
@[simp] theorem modify_live (f : Vnode → Vnode) : (s.modify p f).live = s.live := rfl
@[simp] theorem modify_nextInode (f : Vnode → Vnode) :
    (s.modify p f).nextInode = s.nextInode := rfl
@[simp] theorem modify_phys (f : Vnode → Vnode) : (s.modify p f).phys = s.phys := rfl
@[simp] theorem modify_heap (f : Vnode → Vnode) : (s.modify p f).heap = s.heap := rfl

structure SameRest (s t : Vfs) : Prop where
  tarData : s.tarData = t.tarData
  tarSize : s.tarSize = t.tarSize
  nextInode : s.nextInode = t.nextInode
  root : s.root = t.root
  live : s.live = t.live
  heap : s.heap = t.heap
  phys : s.phys = t.phys

theorem attach_rest (s : Vfs) (d n : Ptr) : (s.attach d n).SameRest s := by
  unfold attach setLink
  cases (s.entries d).getLast? <;> exact ⟨rfl, rfl, rfl, rfl, rfl, rfl, rfl⟩

theorem detach_rest (s : Vfs) (n : Ptr) : (s.detach n).SameRest s := by
  unfold detach
  cases (s.node n).parent with
  | none => exact ⟨rfl, rfl, rfl, rfl, rfl, rfl, rfl⟩
  | some d =>
    simp only [setLink]
    cases ((s.entries d).takeWhile (· != n)).getLast? <;> exact ⟨rfl, rfl, rfl, rfl, rfl, rfl, rfl⟩

-- ---------------------------------------------------------------------------
-- Single fields
-- ---------------------------------------------------------------------------

theorem attach_data (s : Vfs) (d n q : Ptr) : ((s.attach d n).node q).SameData (s.node q) := by
  unfold attach setLink
  cases (s.entries d).getLast? <;> simp only [modify_node] <;> split_ifs <;>
    exact ⟨rfl, rfl, rfl, rfl, rfl, rfl, rfl, rfl⟩

theorem attach_parent (s : Vfs) (d n q : Ptr) :
    ((s.attach d n).node q).parent = if q = n then some d else (s.node q).parent := by
  unfold attach setLink
  cases (s.entries d).getLast? <;> simp only [modify_node] <;> split_ifs <;> rfl

theorem attach_linked (s : Vfs) (d n q : Ptr) :
    ((s.attach d n).node q).linked = if q = n then true else (s.node q).linked := by
  unfold attach setLink
  cases (s.entries d).getLast? <;> simp only [modify_node] <;> split_ifs <;> rfl

theorem attach_next (s : Vfs) (d n q : Ptr) :
    (s.attach d n).next q = if (s.entries d).getLast? = some q then some n
      else if q = n then none else s.next q := by
  unfold attach setLink next
  cases (s.entries d).getLast? with
  | none => simp only [modify_node]; split_ifs <;> simp_all
  | some l => simp only [modify_node, Option.some.injEq]; split_ifs <;> simp_all

theorem attach_children (s : Vfs) (d n q : Ptr) :
    ((s.attach d n).node q).children = if (s.entries d).getLast? = none ∧ q = d then some n
      else (s.node q).children := by
  unfold attach setLink
  cases (s.entries d).getLast? <;> simp only [modify_node] <;> split_ifs <;> simp_all

theorem detach_data (s : Vfs) (n q : Ptr) : ((s.detach n).node q).SameData (s.node q) := by
  unfold detach
  cases (s.node n).parent with
  | none => exact .refl _
  | some d =>
    simp only [setLink]
    cases ((s.entries d).takeWhile (· != n)).getLast? <;> simp only [modify_node] <;> split_ifs <;>
      exact ⟨rfl, rfl, rfl, rfl, rfl, rfl, rfl, rfl⟩

section
variable (hd : (s.node n).parent = some d)
include hd

theorem detach_parent (q : Ptr) :
    ((s.detach n).node q).parent = if q = n then none else (s.node q).parent := by
  simp only [detach, hd, setLink]
  cases ((s.entries d).takeWhile (· != n)).getLast? <;> simp only [modify_node] <;>
    split_ifs <;> rfl

theorem detach_linked (q : Ptr) :
    ((s.detach n).node q).linked = if q = n then false else (s.node q).linked := by
  simp only [detach, hd, setLink]
  cases ((s.entries d).takeWhile (· != n)).getLast? <;> simp only [modify_node] <;>
    split_ifs <;> rfl

theorem detach_next (q : Ptr) :
    (s.detach n).next q = if q = n then none
      else if ((s.entries d).takeWhile (· != n)).getLast? = some q then s.next n
      else s.next q := by
  simp only [detach, hd, setLink, next]
  cases ((s.entries d).takeWhile (· != n)).getLast? <;> simp only [modify_node] <;>
    split_ifs <;> simp_all

theorem detach_children (q : Ptr) :
    ((s.detach n).node q).children =
      if ((s.entries d).takeWhile (· != n)).getLast? = none ∧ q = d then s.next n
      else (s.node q).children := by
  simp only [detach, hd, setLink, next]
  cases ((s.entries d).takeWhile (· != n)).getLast? <;> simp only [modify_node] <;>
    split_ifs <;> simp_all

end

-- ---------------------------------------------------------------------------
-- Lists
-- ---------------------------------------------------------------------------

structure Links (s : Vfs) (M : Set Ptr) (kids : Ptr → List Ptr) : Prop where
  live : ∀ p ∈ M, p ∈ s.live
  chain : ∀ p ∈ M, Chain s.next (s.node p).children (kids p)
  kid : ∀ p ∈ M, ∀ c, c ∈ kids p ↔ c ∈ M ∧ (s.node c).parent = some p
  up : ∀ c ∈ M, ∀ p, (s.node c).parent = some p → p ∈ M

variable {M : Set Ptr} {kids : Ptr → List Ptr}

theorem Links.entries_eq (h : s.Links M kids) (hp : p ∈ M) : s.entries p = kids p :=
  (h.chain p hp).visited_eq ((h.chain p hp).length_le_card fun c hc =>
    h.live c ((h.kid p hp c).mp hc).1)

theorem Links.nodup (h : s.Links M kids) (hp : p ∈ M) : (kids p).Nodup := (h.chain p hp).nodup

theorem Links.parent_eq (h : s.Links M kids) (hp : p ∈ M) (hc : q ∈ kids p) :
    (s.node q).parent = some p := ((h.kid p hp q).mp hc).2

theorem Links.children_eq_none (h : s.Links M kids) (hp : p ∈ M) :
    (s.node p).children = none ↔ kids p = [] := by
  rw [(h.chain p hp).head_eq, List.head?_eq_none_iff]

theorem Links.congr {t : Vfs} (h : s.Links M kids) (hlive : ∀ p ∈ M, p ∈ t.live)
    (hnode : ∀ p ∈ M, (t.node p).parent = (s.node p).parent ∧
      (t.node p).children = (s.node p).children ∧ (t.node p).next = (s.node p).next) :
    t.Links M kids where
  live := hlive
  chain p hp := by
    rw [(hnode p hp).2.1]
    exact (h.chain p hp).congr fun c hc => (hnode c ((h.kid p hp c).mp hc).1).2.2
  kid p hp c := by
    rw [h.kid p hp c]
    exact and_congr_right fun hc => by rw [(hnode c hc).1]
  up c hc p hcp := h.up c hc p ((hnode c hc).1 ▸ hcp)

theorem Links.attach (h : s.Links M kids) (hd : d ∈ M) (hn : n ∈ M)
    (hfree : (s.node n).parent = none) :
    (s.attach d n).Links M (Function.update kids d (kids d ++ [n])) := by
  have hnot : ∀ p ∈ M, n ∉ kids p := fun p hp hc => by
    have := h.parent_eq hp hc
    simp [hfree] at this
  have hent := h.entries_eq hd
  have hother : ∀ p ∈ M, p ≠ d → ∀ c ∈ kids p, (s.attach d n).next c = s.next c := by
    intro p hp hpd c hc
    have hcn : c ≠ n := fun e => hnot p hp (e ▸ hc)
    rw [attach_next, hent, if_neg, if_neg hcn]
    intro hlast
    have h₁ := h.parent_eq hd (List.mem_of_getLast? hlast)
    rw [h.parent_eq hp hc] at h₁
    exact hpd (Option.some.inj h₁)
  constructor
  · intro p hp
    rw [(attach_rest s d n).live]
    exact h.live p hp
  · intro p hp
    by_cases hpd : p = d
    · subst hpd
      simp only [Function.update_self]
      rcases List.eq_nil_or_concat (kids p) with hnil | ⟨l, b, hl⟩
      · rw [attach_children, hent, hnil, if_pos ⟨rfl, rfl⟩]
        exact .singleton (by simp [attach_next, hent, hnil])
      · rw [List.concat_eq_append] at hl
        have hnd : (l ++ [b]).Nodup := hl ▸ h.nodup hp
        have hlast : (kids p).getLast? = some b := by simp [hl]
        have hnb : n ≠ b := fun e => hnot p hp (by simp [hl, e])
        rw [attach_children, hent, hlast, if_neg (by simp), hl, List.append_assoc]
        refine Chain.append_last (hl ▸ h.chain p hp) ?_ ?_ fun c hc => ?_
        · rw [attach_next, hent, hlast, if_neg (by simpa using hnb.symm), if_pos rfl]
        · rw [attach_next, hent, hlast, if_pos rfl]
        · have hcb : b ≠ c := fun e => List.disjoint_of_nodup_append hnd hc (by simp [e])
          have hcn : c ≠ n := fun e => hnot p hp (by rw [hl]; simp [e ▸ hc])
          rw [attach_next, hent, hlast, if_neg (by simpa using hcb), if_neg hcn]
    · rw [Function.update_of_ne hpd, attach_children, if_neg (fun e => hpd e.2)]
      exact (h.chain p hp).congr (hother p hp hpd)
  · intro p hp c
    rw [attach_parent]
    by_cases hcn : c = n
    · subst hcn
      by_cases hpd : p = d
      · subst hpd
        simp [hn]
      · simp [hpd, hnot p hp, Ne.symm hpd]
    · rw [if_neg hcn, ← h.kid p hp c]
      by_cases hpd : p = d
      · subst hpd
        simp [hcn]
      · simp [hpd]
  · intro c hc p
    rw [attach_parent]
    split
    · rintro ⟨⟩
      exact hd
    · exact h.up c hc p

theorem takeWhile_ne_eq {l₁ l₂ : List Ptr} (h : n ∉ l₁) :
    (l₁ ++ n :: l₂).takeWhile (· != n) = l₁ := by
  have hne : ∀ a ∈ l₁, (a != n) = true := by
    intro a ha
    have : a ≠ n := fun e => h (e ▸ ha)
    simpa using this
  rw [List.takeWhile_append_of_pos hne]
  simp

theorem Links.detach (h : s.Links M kids) (hn : n ∈ M) (hd : (s.node n).parent = some d) :
    (s.detach n).Links M (Function.update kids d ((kids d).erase n)) := by
  have hdM : d ∈ M := h.up n hn d hd
  have hent := h.entries_eq hdM
  obtain ⟨l₁, l₂, hl⟩ := List.append_of_mem ((h.kid d hdM n).mpr ⟨hn, hd⟩)
  have hnd : (l₁ ++ n :: l₂).Nodup := hl ▸ h.nodup hdM
  have hn₁ : n ∉ l₁ := fun hm => List.disjoint_of_nodup_append hnd hm (by simp)
  have hn₂ : n ∉ l₂ := (List.nodup_cons.mp hnd.of_append_right).1
  have hlink : ((s.entries d).takeWhile (· != n)) = l₁ := by
    rw [hent, hl, takeWhile_ne_eq hn₁]
  have herase : (kids d).erase n = l₁ ++ l₂ := by
    rw [hl, List.erase_append_right _ hn₁, List.erase_cons_head]
  have hother : ∀ p ∈ M, p ≠ d → ∀ c ∈ kids p, (s.detach n).next c = s.next c := by
    intro p hp hpd c hc
    have hpc := h.parent_eq hp hc
    rw [detach_next hd, hlink, if_neg, if_neg]
    · intro hlast
      have h₁ := h.parent_eq hdM (show c ∈ kids d by rw [hl]; simp [List.mem_of_getLast? hlast])
      rw [hpc] at h₁
      exact hpd (Option.some.inj h₁)
    · rintro rfl
      rw [hpc] at hd
      exact hpd (Option.some.inj hd)
  constructor
  · intro p hp
    rw [(detach_rest s n).live]
    exact h.live p hp
  · intro p hp
    by_cases hpd : p = d
    · subst hpd
      have hc := h.chain p hp
      simp only [Function.update_self, herase]
      rw [detach_children hd, hlink]
      rcases List.eq_nil_or_concat l₁ with hnil | ⟨l, b, hb⟩
      · subst hnil
        rw [hl] at hc
        obtain ⟨t, ht, hc⟩ := Chain.some_iff.mp (hc.head_eq ▸ hc)
        cases ht
        simp only [List.getLast?_nil, and_self, if_true, List.nil_append]
        refine hc.congr fun c hc => ?_
        have hcn : c ≠ n := fun e => hn₂ (e ▸ hc)
        rw [detach_next hd, if_neg hcn, hlink]
        simp
      · rw [List.concat_eq_append] at hb
        subst hb
        have hbn : b ≠ n := fun e => hn₁ (by simp [e])
        simp only [List.getLast?_append, List.getLast?_singleton, Option.some_or,
          reduceCtorEq, false_and, if_false, List.append_assoc, List.singleton_append]
        rw [hl, List.append_assoc, List.singleton_append] at hc
        refine hc.bypass ?_ (fun c hc => ?_) fun c hc => ?_
        · rw [detach_next hd, if_neg hbn, hlink]
          simp
        · have hcb : b ≠ c := fun e => List.disjoint_of_nodup_append
            (hnd.of_append_left) hc (by simp [e])
          have hcn : c ≠ n := fun e => hn₁ (by simp [e ▸ hc])
          rw [detach_next hd, if_neg hcn, hlink, if_neg (by simpa using hcb)]
        · have hcb : b ≠ c := fun e => List.disjoint_of_nodup_append hnd
            (show b ∈ l ++ [b] by simp) (by simp [e ▸ hc])
          have hcn : c ≠ n := fun e => hn₂ (e ▸ hc)
          rw [detach_next hd, if_neg hcn, hlink, if_neg (by simpa using hcb)]
    · rw [Function.update_of_ne hpd, detach_children hd, if_neg (fun e => hpd e.2)]
      exact (h.chain p hp).congr (hother p hp hpd)
  · intro p hp c
    rw [detach_parent hd]
    by_cases hcn : c = n
    · subst hcn
      by_cases hpd : p = d
      · subst hpd
        simp [herase, hn₁, hn₂]
      · have : c ∉ kids p := fun hc => hpd (Option.some.inj ((h.parent_eq hp hc).symm.trans hd))
        simp [hpd, this]
    · rw [if_neg hcn, ← h.kid p hp c]
      by_cases hpd : p = d
      · subst hpd
        simp [List.mem_erase_of_ne hcn]
      · simp [hpd]
  · intro c hc p
    rw [detach_parent hd]
    split
    · simp
    · exact h.up c hc p

end Vfs

end NarcOs
