import NarcOs.Mm.RadixSpace

/-!
# Making, copying and freeing spaces

`clone_table` and `free_table` over any format. A copy that is cut short leaves
a tree too, which is how the free that follows finds everything the copy has
allocated.
-/

namespace NarcOs

namespace PteFormat

section
variable (F : PteFormat)

/-- The body of the loop of `clone_table`, at the entry `i` of the table `src`. -/
def copyEntry (ends : Nat → Bool) (descend : Phys → Nat → Nat → Bool × Phys) (dst src : Nat) (p : Phys)
    (i : Nat) : Bool × Phys :=
  let entry := p.entry src i
  if ¬ F.present entry then (true, p)
  else
    let (page, p) := p.allocPage
    if page = 0 then (false, p)
    else
      let p := p.setEntry dst i (F.copy page entry)
      if ends entry then
        (true, { p with mem := p.mem.write page (p.mem.read (F.addr entry) pageSize) })
      else descend p page (F.addr entry)

def copyEntries (ends : Nat → Bool) (descend : Phys → Nat → Nat → Bool × Phys) (n : Nat) (p : Phys)
    (dst src : Nat) : Bool × Phys :=
  Phys.forEntries (F.copyEntry ends descend dst src) (List.range n) p

/-- `clone_table`, level 0 for the last table. -/
def copyTable : Nat → Phys → Nat → Nat → Bool × Phys
  | 0 => F.copyEntries (F.copyEnds true) (fun p _ _ => (false, p)) 512
  | level + 1 => F.copyEntries (F.copyEnds false) (copyTable level) 512

/-- The body of the loop of `free_table`. -/
def freeEntry (ends : Nat → Bool) (descend : Phys → Nat → Phys) (table : Nat) (p : Phys) (i : Nat) : Phys :=
  let entry := p.entry table i
  if ¬ F.present entry then p
  else if ends entry then p.pmmFreePage (F.addr entry)
  else descend p (F.addr entry)

def freeEntries (ends : Nat → Bool) (descend : Phys → Nat → Phys) (n : Nat) (p : Phys)
    (table : Nat) : Phys :=
  (List.range n).foldl (F.freeEntry ends descend table) p

/-- `free_table`, levels as in `copyTable`. -/
def freeTable : Nat → Phys → Nat → Phys
  | 0, p, table => (F.freeEntries (F.freeEnds true) (fun p _ => p) 512 p table).pmmFreePage table
  | level + 1, p, table =>
    (F.freeEntries (F.freeEnds false) (freeTable level) 512 p table).pmmFreePage table

end

variable {F : PteFormat} {K : Set Nat} {m m' m'' : Mem} {level top bound root a n virt e : Nat}
  {t t' : PTree} {kids kids' : Fin 512 → PTree} {A B S : Multiset Nat} {p p' : Phys}

def treeFrames (F : PteFormat) (t : PTree) : Multiset Nat := F.tables t + F.pages t

theorem frames_eq (root : Nat) (kids : Fin 512 → PTree) :
    F.frames root kids = root ::ₘ sumFin fun j => F.treeFrames (kids j) := by
  rw [frames, Multiset.cons_add, ← sumFin_add]
  rfl

theorem treeFrames_table :
    F.treeFrames (.table e kids) = F.frames (F.addr e) kids := rfl

theorem Rep.isFrame (h : F.Rep m level e t) {f : Nat} (hf : f ∈ F.treeFrames t) : IsFrame f :=
  (Multiset.mem_add.mp hf).elim h.isFrame_tables h.isFrame_pages

-- ---------------------------------------------------------------------------
-- Freeing
-- ---------------------------------------------------------------------------

def cut (n : Nat) (kids : Fin 512 → PTree) : Fin 512 → PTree :=
  fun i => if i.val < n then kids i else .empty

theorem sum_cut_zero (kids : Fin 512 → PTree) : sumFin (fun i => F.treeFrames (cut 0 kids i)) = 0 := by
  have : (fun i => F.treeFrames (cut 0 kids i)) = fun _ : Fin 512 => (0 : Multiset Nat) := by
    funext i
    rw [cut, if_neg (Nat.not_lt_zero _)]
    rfl
  rw [this, sumFin_zero]

theorem sum_cut_succ (kids : Fin 512 → PTree) (i : Fin 512) :
    sumFin (fun j => F.treeFrames (cut (i + 1) kids j)) =
      sumFin (fun j => F.treeFrames (cut i kids j)) + F.treeFrames (kids i) := by
  have hcut : cut (i + 1) kids = Function.update (cut i kids) i (kids i) := by
    funext j
    by_cases hj : j = i
    · subst hj
      rw [Function.update_self, cut, if_pos (Nat.lt_succ_self _)]
    · have hne : j.val ≠ i.val := fun h => hj (Fin.ext h)
      rw [Function.update_of_ne hj, cut, cut]
      by_cases hlt : j.val < i.val
      · rw [if_pos (by omega), if_pos hlt]
      · rw [if_neg (by omega), if_neg hlt]
  have hup := sumFin_update_add F.treeFrames (cut i kids) i (kids i)
  have hold : F.treeFrames (cut i kids i) = 0 := by
    rw [cut, if_neg (Nat.lt_irrefl _)]
    rfl
  rw [hold, add_zero] at hup
  rw [hcut, hup]

theorem cut_of_upper (h : ∀ j : Fin 512, n ≤ j.val → kids j = .empty) : cut n kids = kids := by
  funext j
  rw [cut]
  split
  · rfl
  · exact (h j (Nat.not_lt.mp ‹_›)).symm

def Frees (F : PteFormat) (level : Nat) (free : Phys → Nat → Phys) : Prop :=
  ∀ p A a kids, p.Avail A → F.Entries p.mem level a 512 kids → IsFrame a →
    (A + F.frames a kids).Nodup →
      (free p a).Avail (A + F.frames a kids) ∧ Mem.Within (F.frames a kids) p.mem (free p a).mem

/-- A loop of `free_table` treats the entries of its level as what they are. -/
def FreesBelow (F : PteFormat) (level : Nat) (ends : Nat → Bool) (descend : Phys → Nat → Phys) : Prop :=
  match level with
  | 0 => ∀ e, ends e = true
  | level + 1 => (∀ e, F.present e = true → F.block e = false → ends e = false) ∧
      F.Frees level descend

theorem freeEntry_spec {ends : Nat → Bool} {descend : Phys → Nat → Phys} {i : Nat}
    (hb : F.FreesBelow level ends descend) (hA : p.Avail A) (hrep : F.Rep p.mem level (p.entry a i) t)
    (hnd : (A + F.treeFrames t).Nodup) :
    (F.freeEntry ends descend a p i).Avail (A + F.treeFrames t) ∧
      Mem.Within (F.treeFrames t) p.mem (F.freeEntry ends descend a p i).mem := by
  unfold freeEntry
  cases t with
  | empty =>
    have hp : F.present (p.entry a i) = false := by cases level <;> exact hrep
    have hz : F.treeFrames .empty = 0 := rfl
    simp only [hp, Bool.false_eq_true, not_false_eq_true, if_true, hz, add_zero]
    exact ⟨hA, Mem.Within.refl _ _⟩
  | page e =>
    cases level with
    | succ level => exact (rep_page_succ hrep).elim
    | zero =>
      obtain ⟨rfl, hp, -, hframe⟩ := hrep
      have hz : F.treeFrames (.page (p.entry a i)) = {F.addr (p.entry a i)} := zero_add _
      rw [hz] at hnd ⊢
      have hn : F.addr (p.entry a i) ∉ A := fun hm =>
        not_mem_of_add hnd hm (Multiset.mem_singleton_self _)
      simp only [hp, not_true_eq_false, if_false, hb (p.entry a i), if_true]
      refine ⟨?_, Phys.within_pmmFreePage hframe (Multiset.mem_singleton_self _)⟩
      rw [add_comm, Multiset.singleton_add]
      exact hA.pmmFreePage hframe hn
  | table e sub =>
    cases level with
    | zero => exact (rep_table_zero hrep).elim
    | succ level =>
      obtain ⟨rfl, hp, hblock, hframe, hsub⟩ := hrep
      simp only [hp, not_true_eq_false, if_false, hb.1 _ hp hblock, Bool.false_eq_true]
      rw [treeFrames_table] at hnd ⊢
      exact hb.2 p A _ sub hA (fun j _ => hsub j) hframe hnd

theorem freeEntries_spec {ends : Nat → Bool} {descend : Phys → Nat → Phys}
    (hb : F.FreesBelow level ends descend) (hA : p.Avail A) (ha : IsFrame a)
    (hn : n ≤ 512) (h : F.Entries p.mem level a n kids)
    (hnd : (A + (a ::ₘ sumFin fun i => F.treeFrames (cut n kids i))).Nodup) :
    (F.freeEntries ends descend n p a).Avail (A + sumFin fun i => F.treeFrames (cut n kids i)) ∧
      Mem.Within (sumFin fun i => F.treeFrames (cut n kids i)) p.mem
        (F.freeEntries ends descend n p a).mem := by
  induction n with
  | zero =>
    rw [sum_cut_zero, add_zero]
    exact ⟨hA, Mem.Within.refl _ _⟩
  | succ n ih =>
    have hsum := sum_cut_succ (F := F) kids ⟨n, hn⟩
    simp only at hsum
    rw [hsum] at hnd ⊢
    have hle : A + (a ::ₘ sumFin fun i => F.treeFrames (cut n kids i)) ≤
        A + (a ::ₘ (sumFin (fun i => F.treeFrames (cut n kids i)) + F.treeFrames (kids ⟨n, hn⟩))) :=
      add_le_add le_rfl (Multiset.cons_le_cons _ (Multiset.le_add_right _ _))
    obtain ⟨hav, hw⟩ := ih (by omega) (fun i hi => h i (by omega)) (Multiset.nodup_of_le hle hnd)
    have hnd' : (A + (sumFin (fun i => F.treeFrames (cut n kids i)) + F.treeFrames (kids ⟨n, hn⟩))).Nodup :=
      Multiset.nodup_of_le (add_le_add le_rfl (Multiset.le_cons_self _ _)) hnd
    have hsep := (Multiset.nodup_add.mp hnd').2.1
    have haS : a ∉ sumFin fun i => F.treeFrames (cut n kids i) := fun hm =>
      (Multiset.nodup_cons.mp (Multiset.nodup_add.mp hnd).2.1).1 (Multiset.mem_add.mpr (.inl hm))
    have hloop : F.freeEntries ends descend (n + 1) p a =
        F.freeEntry ends descend a (F.freeEntries ends descend n p a) n := by
      unfold freeEntries
      rw [List.range_succ, List.foldl_append]
      rfl
    generalize F.freeEntries ends descend n p a = q at hav hw hloop
    have hload : q.entry a n = p.entry a n := load64_within hw ha haS hn
    -- the tree at this index is none of those that were freed
    have hrep : F.Rep q.mem level (q.entry a n) (kids ⟨n, hn⟩) := by
      rw [hload]
      refine (h ⟨n, hn⟩ (Nat.lt_succ_self n)).within hw fun f hf hm => ?_
      exact not_mem_of_add hsep hm (Multiset.mem_add.mpr (.inl hf))
    obtain ⟨hav', hw'⟩ := freeEntry_spec hb hav hrep (by rwa [add_assoc])
    rw [hloop]
    refine ⟨by rwa [← add_assoc], ?_⟩
    exact (hw.mono (Multiset.subset_of_le (Multiset.le_add_right _ _))).trans
      (hw'.mono (Multiset.subset_of_le (Multiset.le_add_left _ _)))

theorem freeTable_of_loop {ends : Nat → Bool} {descend : Phys → Nat → Phys}
    (hb : F.FreesBelow level ends descend) :
    F.Frees level fun p a => (F.freeEntries ends descend 512 p a).pmmFreePage a := by
  intro p A a kids hA h ha hnd
  have hcut : cut 512 kids = kids := cut_of_upper fun j hj => absurd j.isLt (by omega)
  have hfr := frames_eq (F := F) a kids
  rw [hfr] at hnd ⊢
  obtain ⟨hav, hw⟩ := freeEntries_spec hb hA ha le_rfl h (by rwa [hcut])
  rw [hcut] at hav hw
  have hn : a ∉ A + sumFin fun i => F.treeFrames (kids i) := by
    rw [← Multiset.singleton_add, add_left_comm, Multiset.singleton_add] at hnd
    exact (Multiset.nodup_cons.mp hnd).1
  refine ⟨?_, ?_⟩
  · have := hav.pmmFreePage ha hn
    rw [← Multiset.singleton_add, add_left_comm, Multiset.singleton_add] at this
    exact this
  · exact (hw.mono (Multiset.subset_cons _ _)).trans
      (Phys.within_pmmFreePage ha (Multiset.mem_cons_self _ _))

theorem freeTable_frees (hF : F.Lawful) (level : Nat) : F.Frees level (F.freeTable level) := by
  induction level with
  | zero => exact freeTable_of_loop (show F.FreesBelow 0 _ _ from fun e => (hF.freeEnds e).1)
  | succ level ih => exact freeTable_of_loop (show F.FreesBelow (level + 1) _ _ from ⟨fun e => (hF.freeEnds e).2, ih⟩)

-- ---------------------------------------------------------------------------
-- Copying
-- ---------------------------------------------------------------------------

/-- A tree in memory `m'` with the shape of one in `m`, the same bits in its
entries and the same contents in its pages. -/
def Copy (F : PteFormat) (m m' : Mem) : PTree → PTree → Prop
  | .empty, .empty => True
  | .page e, .page e' => F.bits e' = F.bits e ∧ ∀ x < 4096, m' (F.addr e' + x) = m (F.addr e + x)
  | .table e kids, .table e' kids' => F.bits e' = F.bits e ∧ ∀ i, Copy F m m' (kids i) (kids' i)
  | _, _ => False

theorem Copy.congr {m₀ : Mem} (h : F.Copy m m' t t')
    (hsrc : ∀ f ∈ F.pages t, ∀ x < 4096, m (f + x) = m₀ (f + x))
    (hdst : ∀ f ∈ F.pages t', ∀ x < 4096, m'' (f + x) = m' (f + x)) : F.Copy m₀ m'' t t' := by
  induction t generalizing t' with
  | empty => cases t' <;> exact h
  | page e =>
    cases t' with
    | empty => exact h
    | table e' kids' => exact h
    | page e' =>
      obtain ⟨hbits, hcont⟩ := h
      refine ⟨hbits, fun x hx => ?_⟩
      rw [hdst _ (Multiset.mem_singleton_self _) x hx, hcont x hx,
        hsrc _ (Multiset.mem_singleton_self _) x hx]
  | table e kids ih =>
    cases t' with
    | empty => exact h
    | page e' => exact h
    | table e' kids' =>
      obtain ⟨hbits, hkids⟩ := h
      exact ⟨hbits, fun i => ih i (hkids i) (fun f hf => hsrc f (mem_pages.mpr ⟨i, hf⟩))
        fun f hf => hdst f (mem_pages.mpr ⟨i, hf⟩)⟩

structure Copied (F : PteFormat) (p p' : Phys) (level dst bound n : Nat) (A B : Multiset Nat)
    (kids kids' : Fin 512 → PTree) (done : Bool) : Prop where
  avail : p'.Avail B
  sub : B ⊆ A
  entries : F.Entries p'.mem level dst bound kids'
  rest : ∀ i : Fin 512, n ≤ i.val → kids' i = .empty
  frames : B + (sumFin fun i => F.treeFrames (kids' i)) = A
  entry : ∀ i : Fin 512, bound ≤ i.val → p'.entry dst i = p.entry dst i
  within : Mem.Within (dst ::ₘ A) p.mem p'.mem
  copy : done = true → ∀ i : Fin 512, i.val < n → F.Copy p.mem p'.mem (kids i) (kids' i)

variable {dst src : Nat} {done : Bool}

theorem copied_start (hA : p.Avail A) (h : F.Entries p.mem level dst bound fun _ => .empty) :
    F.Copied p p level dst bound 0 A A kids (fun _ => .empty) true where
  avail := hA
  sub := Multiset.Subset.refl A
  entries := h
  rest _ _ := rfl
  frames := by
    have hz : (sumFin fun _ : Fin 512 => F.treeFrames .empty) = 0 := sumFin_zero
    rw [hz, add_zero]
  entry _ _ := rfl
  within := Mem.Within.refl _ _
  copy _ i hi := absurd hi (Nat.not_lt_zero _)

theorem Copied.stop (h : F.Copied p p' level dst bound n A B kids kids' done) {q : Phys}
    (hav : q.Avail B) (hmem : q.mem = p'.mem) :
    F.Copied p q level dst bound (n + 1) A B kids kids' false where
  avail := hav
  sub := h.sub
  entries := hmem.symm ▸ h.entries
  rest i hi := h.rest i (by omega)
  frames := h.frames
  entry i hi := by rw [← h.entry i hi, Phys.entry, Phys.entry, hmem]
  within := hmem.symm ▸ h.within
  copy hd := by cases hd

/-- The tree `t'` is put at the next index. -/
theorem Copied.attach {i : Fin 512} {q : Phys} {C : Multiset Nat} {done' : Bool}
    (h : F.Copied p p' level dst bound i A B kids kids' true) (t' : PTree) (hd : IsFrame dst)
    (hn : dst ∉ A) (hA : A.Nodup) (hib : i.val < bound) (hav : q.Avail C) (hsub : C ⊆ B)
    (hrep : F.Rep q.mem level (q.entry dst i) t') (hentry : ∀ j, j ≠ i → q.entry dst j = p'.entry dst j)
    (hframes : C + F.treeFrames t' = B) (hw : Mem.Within (dst ::ₘ B) p'.mem q.mem)
    (hcopy : done' = true → F.Copy p.mem q.mem (kids i) t') :
    F.Copied p q level dst bound (i + 1) A C kids (Function.update kids' i t') done' := by
  have hfr := h.frames
  have hsep : ∀ j, ∀ f ∈ F.treeFrames (kids' j), f ∉ dst ::ₘ B := by
    intro j f hf hm
    have hfA : f ∈ sumFin fun i => F.treeFrames (kids' i) := mem_sumFin.mpr ⟨j, hf⟩
    rcases Multiset.mem_cons.mp hm with rfl | hm
    · exact hn (hfr ▸ Multiset.mem_add.mpr (.inr hfA))
    · rw [← hfr] at hA
      exact not_mem_of_add hA hm hfA
  have hempty : kids' i = .empty := h.rest i le_rfl
  refine ⟨hav, Multiset.Subset.trans hsub h.sub, ?_, ?_, ?_, ?_, ?_, ?_⟩
  · exact h.entries.replace hw hrep hentry fun j _ _ f hf => hsep j f (Multiset.mem_add.mpr (.inl hf))
  · intro j hj
    rw [Function.update_of_ne (fun e => by subst e; omega)]
    exact h.rest j (by omega)
  · have hup := sumFin_update_add F.treeFrames kids' i t'
    have hz : F.treeFrames (kids' i) = 0 := by rw [hempty]; rfl
    rw [hz, add_zero] at hup
    calc _ = (C + F.treeFrames t') + sumFin fun j => F.treeFrames (kids' j) := by
          rw [hup]
          abel
      _ = A := by rw [hframes, hfr]
  · intro j hj
    rw [hentry j (fun e => by subst e; omega), h.entry j hj]
  · refine h.within.trans (hw.mono fun f hf => ?_)
    rcases Multiset.mem_cons.mp hf with rfl | hf
    · exact Multiset.mem_cons_self _ _
    · exact Multiset.mem_cons_of_mem (h.sub hf)
  · intro hdone j hj
    by_cases hji : j = i
    · subst hji
      rw [Function.update_self]
      exact hcopy hdone
    · have hlt : j.val < i.val := by
        have : j.val ≠ i.val := fun e => hji (Fin.ext e)
        omega
      rw [Function.update_of_ne hji]
      refine (h.copy rfl j hlt).congr (fun _ _ _ _ => rfl) fun f hf x hx => ?_
      refine hw f ?_ (hsep j f (Multiset.mem_add.mpr (.inr hf))) x hx
      exact (h.entries j (by omega)).isFrame_pages hf

def Copies (F : PteFormat) (level : Nat) (copy : Phys → Nat → Nat → Bool × Phys) : Prop :=
  ∀ p A dst src kids, p.Avail A → F.Fits A → IsFrame dst → dst ∉ A →
    F.Entries p.mem level dst 512 (fun _ => .empty) → IsFrame src → F.Entries p.mem level src 512 kids →
    (∀ f ∈ F.frames src kids, f ∉ dst ::ₘ A) →
      ∃ B kids', F.Copied p (copy p dst src).2 level dst 512 512 A B kids kids' (copy p dst src).1

/-- A loop of `clone_table` treats the entries of its level as what they are. -/
def CopiesBelow (F : PteFormat) (level : Nat) (ends : Nat → Bool)
    (descend : Phys → Nat → Nat → Bool × Phys) : Prop :=
  match level with
  | 0 => ∀ e, F.page e = true → ends e = true
  | level + 1 => (∀ e, F.present e = true → F.block e = false → ends e = false) ∧
      F.Copies level descend

theorem Copied.alloc {i : Fin 512} {q : Phys} {f : Nat} {C : Multiset Nat} (hF : F.Lawful) (hfit : F.Fits A)
    (h : F.Copied p p' level dst bound i A B kids kids' true) (hd : IsFrame dst) (hn : dst ∉ A)
    (hB : B = f ::ₘ C) (hav : q.Avail C) (hmem : q.mem = p'.mem.memset f 0 4096)
    (he : e < 2 ^ 64) (hp : F.present e = true) :
    IsFrame f ∧ f ≠ dst ∧ F.copy f e < 2 ^ 64 ∧
      (q.setEntry dst i (F.copy f e)).Avail C ∧
      (q.setEntry dst i (F.copy f e)).entry dst i = F.copy f e ∧
      (∀ j : Fin 512, j ≠ i → (q.setEntry dst i (F.copy f e)).entry dst j = p'.entry dst j) ∧
      (∀ x < 4096, (q.setEntry dst i (F.copy f e)).mem (f + x) = 0) ∧
      Mem.Within (dst ::ₘ B) p'.mem (q.setEntry dst i (F.copy f e)).mem := by
  have hfB : f ∈ B := hB ▸ Multiset.mem_cons_self _ _
  have hf : IsFrame f := h.avail.isFrame hfB
  have hfd : f ≠ dst := fun e => hn (e ▸ h.sub hfB)
  have hlt := (hF.copy f e hf (hfit f (h.sub hfB)) he hp).2.2.2.1
  have hw₁ : Mem.Within B p'.mem q.mem := hmem ▸ Mem.within_memset hf hfB 0
  have hw₂ : Mem.Within {dst} q.mem (q.setEntry dst i (F.copy f e)).mem :=
    Phys.within_setEntry hd (Multiset.mem_singleton_self _) i.isLt
  refine ⟨hf, hfd, hlt, ?_, Phys.entry_setEntry_self hlt, ?_, ?_, ?_⟩
  · refine hav.within hw₂ (fun g hg => ?_) rfl
    rw [Multiset.mem_singleton]
    rintro rfl
    exact hn (h.sub (hB ▸ Multiset.mem_cons_of_mem hg))
  · intro j hj
    have hji : j.val ≠ i.val := fun e => hj (Fin.ext e)
    exact (Phys.entry_setEntry_of_ne hji).trans
      (load64_within hw₁ hd (fun hm => hn (h.sub hm)) j.isLt)
  · intro x hx
    rw [Phys.setEntry_outside hf hd hfd i.isLt hx, hmem]
    exact Mem.memset_apply_inside hx
  · refine (hw₁.mono (Multiset.subset_cons _ _)).trans (hw₂.mono fun g hg => ?_)
    rw [Multiset.mem_singleton.mp hg]
    exact Multiset.mem_cons_self _ _

/-- The copy of a page: its entry is in the table, and its contents are moved. -/
theorem Copied.page {i : Fin 512} {q : Phys} {f : Nat} {C : Multiset Nat} (hF : F.Lawful)
    (hfit : F.Fits A) (hA : A.Nodup) (h : F.Copied p p' 0 dst bound i A B kids kids' true)
    (hd : IsFrame dst) (hn : dst ∉ A) (hib : i.val < bound) (hB : B = f ::ₘ C) (hav : q.Avail C)
    (hmem : q.mem = p'.mem.memset f 0 4096) (he : e < 2 ^ 64) (hp : F.present e = true)
    (hpage : F.page e = true) (hframe : IsFrame (F.addr e)) (hk : kids i = .page e)
    (hsrc : F.addr e ∉ dst ::ₘ A) :
    ∃ kids'', F.Copied p { q.setEntry dst i (F.copy f e) with
      mem := (q.setEntry dst i (F.copy f e)).mem.write f
        ((q.setEntry dst i (F.copy f e)).mem.read (F.addr e) pageSize) }
      0 dst bound (i + 1) A C kids kids'' true := by
  obtain ⟨hf, hfd, hlt, hav', hself, hother, -, hw⟩ := h.alloc (q := q) hF hfit hd hn hB hav hmem he hp
  have hfA : f ∈ A := h.sub (hB ▸ Multiset.mem_cons_self _ _)
  obtain ⟨hp', -, haddr, -, hbits, hpage'⟩ := hF.copy f e hf (hfit f hfA) he hp
  generalize q.setEntry dst i (F.copy f e) = r at hav' hself hother hw ⊢
  have hlen : (r.mem.read (F.addr e) pageSize).length = 4096 := Mem.length_read
  have hwf : Mem.Within {f} r.mem (r.mem.write f (r.mem.read (F.addr e) pageSize)) :=
    Mem.within_write (x := 0) hf (Multiset.mem_singleton_self _) (by rw [hlen])
  have hfC : f ∉ C := by
    have := h.avail.nodup
    rw [hB] at this
    exact (Multiset.nodup_cons.mp this).1
  have hkeep : ∀ j : Fin 512, (r.mem.write f (r.mem.read (F.addr e) pageSize)).load64 (dst + 8 * j) =
      r.entry dst j :=
    fun j => load64_within hwf hd (by simpa using hfd.symm) j.isLt
  refine ⟨_, h.attach (.page (F.copy f e)) hd hn hA hib ?_ ?_ ?_ ?_ ?_ ?_ ?_⟩
  · exact hav'.within hwf (fun g hg => by
      rw [Multiset.mem_singleton]
      rintro rfl
      exact hfC hg) rfl
  · rw [hB]
    exact Multiset.subset_cons _ _
  · rw [Phys.entry, hkeep, hself]
    exact ⟨rfl, hp', hpage'.trans hpage, haddr.symm ▸ hf⟩
  · intro j hj
    rw [Phys.entry, hkeep, hother j hj]
  · rw [hB, treeFrames, tables, pages, zero_add, haddr, add_comm, Multiset.singleton_add]
  · refine hw.trans (hwf.mono fun g hg => ?_)
    rw [Multiset.mem_singleton.mp hg, hB]
    exact Multiset.mem_cons_of_mem (Multiset.mem_cons_self _ _)
  · intro _
    rw [hk]
    refine ⟨hbits, fun x hx => ?_⟩
    have hr : r.mem (F.addr e + x) = p.mem (F.addr e + x) := by
      refine (hw _ hframe (fun hm => hsrc ?_) x hx).trans (h.within _ hframe hsrc x hx)
      rcases Multiset.mem_cons.mp hm with he | hm
      · rw [he]
        exact Multiset.mem_cons_self _ _
      · exact Multiset.mem_cons_of_mem (h.sub hm)
    show r.mem.write f (r.mem.read (F.addr e) pageSize) (F.addr (F.copy f e) + x) = _
    rw [haddr, Mem.write_apply_inside (by rw [hlen]; exact hx), Mem.getD_read (n := pageSize) hx, hr]

theorem Copied.table {descend : Phys → Nat → Nat → Bool × Phys} {i : Fin 512} {q : Phys} {f : Nat}
    {C : Multiset Nat} {sub : Fin 512 → PTree} (hF : F.Lawful) (hb : F.Copies level descend)
    (hfit : F.Fits A) (hA : A.Nodup)
    (h : F.Copied p p' (level + 1) dst bound i A B kids kids' true) (hd : IsFrame dst) (hn : dst ∉ A)
    (hib : i.val < bound) (hB : B = f ::ₘ C) (hav : q.Avail C)
    (hmem : q.mem = p'.mem.memset f 0 4096) (he : e < 2 ^ 64) (hk : kids i = .table e sub)
    (hrep : F.Rep p.mem (level + 1) e (.table e sub))
    (hsrc : ∀ g ∈ F.treeFrames (kids i), g ∉ dst ::ₘ A) :
    ∃ C' kids'', F.Copied p (descend (q.setEntry dst i (F.copy f e)) f (F.addr e)).2
      (level + 1) dst bound (i + 1) A C' kids kids''
      (descend (q.setEntry dst i (F.copy f e)) f (F.addr e)).1 := by
  obtain ⟨-, hp, hblock, hframe, hsub⟩ := hrep
  obtain ⟨hf, hfd, hlt, hav', hself, hother, hzero, hw⟩ :=
    h.alloc (q := q) hF hfit hd hn hB hav hmem he hp
  have hfA : f ∈ A := h.sub (hB ▸ Multiset.mem_cons_self _ _)
  obtain ⟨hp', hblock', haddr, -, hbits, -⟩ := hF.copy f e hf (hfit f hfA) he hp
  rw [hk, treeFrames_table] at hsrc
  have hsubA : ∀ {g}, g ∈ dst ::ₘ B → g ∈ dst ::ₘ A := fun hm =>
    Multiset.cons_subset_cons h.sub hm
  -- the source is as it was when the whole copy began
  have hwp : Mem.Within (dst ::ₘ A) p.mem (q.setEntry dst i (F.copy f e)).mem :=
    h.within.trans (hw.mono fun g => hsubA)
  have hfs := frames_eq (F := F) (F.addr e) sub
  have hsrc' : F.Entries (q.setEntry dst i (F.copy f e)).mem level (F.addr e) 512 sub := by
    refine Entries.within (m := p.mem) (fun j _ => hsub j) hwp hframe
      (hsrc _ (hfs ▸ Multiset.mem_cons_self _ _)) fun j _ g hg => hsrc g ?_
    rw [hfs]
    exact Multiset.mem_cons_of_mem (mem_sumFin.mpr ⟨j, Multiset.mem_add.mpr (.inl hg)⟩)
  have hfC : f ∉ C ∧ C ⊆ A := by
    have := h.avail.nodup
    rw [hB] at this
    refine ⟨(Multiset.nodup_cons.mp this).1, fun g hg => h.sub ?_⟩
    rw [hB]
    exact Multiset.mem_cons_of_mem hg
  have hfCA : ∀ {g}, g ∈ f ::ₘ C → g ∈ B := fun hm => hB ▸ hm
  obtain ⟨C', sub', hc⟩ := hb _ C f (F.addr e) sub hav' (hfit.mono hfC.2) hf hfC.1
    (entries_empty hF hzero) hframe hsrc' fun g hg hm =>
      hsrc g hg (Multiset.mem_cons_of_mem (h.sub (hfCA hm)))
  generalize q.setEntry dst i (F.copy f e) = r at hav' hself hother hw hwp hc ⊢
  have hdC : dst ∉ f ::ₘ C := fun hm => hn (h.sub (hfCA hm))
  have hkeep : ∀ j : Fin 512, (descend r f (F.addr e)).2.entry dst j = r.entry dst j :=
    fun j => load64_within hc.within hd hdC j.isLt
  refine ⟨C', _, h.attach (.table (F.copy f e) sub') hd hn hA hib hc.avail ?_ ?_ ?_ ?_ ?_ ?_⟩
  · exact fun g hg => hfCA (Multiset.mem_cons_of_mem (hc.sub hg))
  · rw [hkeep, hself]
    refine ⟨rfl, hp', hblock'.trans hblock, haddr.symm ▸ hf, fun j => ?_⟩
    rw [haddr]
    exact hc.entries j j.isLt
  · intro j hj
    rw [hkeep, hother j hj]
  · have hfr := hc.frames
    rw [treeFrames_table, haddr, frames_eq, hB, ← hfr, Multiset.add_cons]
  · exact hw.trans (hc.within.mono fun g hg => Multiset.mem_cons_of_mem (hfCA hg))
  · intro hdone
    rw [hk]
    refine ⟨hbits, fun j => ?_⟩
    refine (hc.copy hdone j j.isLt).congr (fun g hg x hx => ?_) fun _ _ _ _ => rfl
    refine hwp g ((hsub j).isFrame_pages hg) (hsrc g ?_) x hx
    rw [hfs]
    exact Multiset.mem_cons_of_mem (mem_sumFin.mpr ⟨j, Multiset.mem_add.mpr (.inr hg)⟩)

theorem Copied.round {ends : Nat → Bool} {descend : Phys → Nat → Nat → Bool × Phys} {i : Fin 512}
    (hF : F.Lawful) (hb : F.CopiesBelow level ends descend) (hfit : F.Fits A) (hA : A.Nodup)
    (h : F.Copied p p' level dst bound i A B kids kids' true) (hd : IsFrame dst) (hn : dst ∉ A)
    (hib : i.val < bound) (hs : IsFrame src) (hrep : F.Rep p.mem level (p.entry src i) (kids i))
    (hsrc : ∀ f ∈ F.frames src kids, f ∉ dst ::ₘ A) :
    ∃ C kids'', F.Copied p (F.copyEntry ends descend dst src p' i).2 level dst bound (i + 1) A C kids
      kids'' (F.copyEntry ends descend dst src p' i).1 := by
  have hfs := frames_eq (F := F) src kids
  have hown : ∀ f ∈ F.treeFrames (kids i), f ∉ dst ::ₘ A := fun f hf =>
    hsrc f (hfs ▸ Multiset.mem_cons_of_mem (mem_sumFin.mpr ⟨i, hf⟩))
  have hentry : p'.entry src i = p.entry src i :=
    load64_within h.within hs (hsrc src (hfs ▸ Multiset.mem_cons_self _ _)) i.isLt
  have he : p.entry src i < 2 ^ 64 := Mem.load64_lt _ _
  unfold copyEntry
  simp only [hentry]
  generalize p.entry src i = e at hrep he
  cases hp : F.present e with
  | false =>
    have hk : kids i = .empty := by
      cases hk : kids i with
      | empty => rfl
      | page e' =>
        rw [hk] at hrep
        cases level with
        | zero => simp [hrep.2.1] at hp
        | succ level => exact (rep_page_succ hrep).elim
      | table e' sub =>
        rw [hk] at hrep
        cases level with
        | zero => exact (rep_table_zero hrep).elim
        | succ level => simp [hrep.2.1] at hp
    have hempty : kids' i = .empty := h.rest i le_rfl
    simp only [Bool.false_eq_true, not_false_eq_true, if_true]
    exact ⟨B, _, h.attach .empty hd hn hA hib h.avail (Multiset.Subset.refl B)
      (by rw [← hempty]; exact h.entries i hib) (fun _ _ => rfl) (add_zero B) (Mem.Within.refl _ _)
      (fun _ => by rw [hk]; trivial)⟩
  | true =>
    simp only [not_true_eq_false, if_false]
    rcases h.avail.allocPage with ⟨hz, hav, hmem⟩ | ⟨C, hne, hB, hav, hmem⟩
    · rw [if_pos hz]
      exact ⟨B, kids', h.stop hav hmem⟩
    · rw [if_neg hne]
      cases hk : kids i with
      | empty =>
        rw [hk] at hrep
        have : F.present e = false := by cases level <;> exact hrep
        simp [this] at hp
      | page e' =>
        rw [hk] at hrep
        cases level with
        | succ level => exact (rep_page_succ hrep).elim
        | zero =>
          obtain ⟨rfl, -, hpage, hframe⟩ := hrep
          have hin : F.addr e' ∈ F.treeFrames (kids i) := by
            rw [hk]
            exact Multiset.mem_add.mpr (.inr (Multiset.mem_singleton_self _))
          rw [if_pos (hb e' hpage)]
          exact ⟨C, h.page hF hfit hA hd hn hib hB hav hmem he hp hpage hframe hk (hown _ hin)⟩
      | table e' sub =>
        rw [hk] at hrep
        cases level with
        | zero => exact (rep_table_zero hrep).elim
        | succ level =>
          obtain rfl : e' = e := hrep.1
          rw [if_neg (by simp [hb.1 e' hp hrep.2.2.1])]
          exact h.table hF hb.2 hfit hA hd hn hib hB hav hmem he hk hrep hown

theorem forEntries_range_succ (body : Phys → Nat → Bool × Phys) (n : Nat) (p : Phys) :
    Phys.forEntries body (List.range (n + 1)) p =
      match Phys.forEntries body (List.range n) p with
      | (false, q) => (false, q)
      | (true, q) => body q n := by
  have happend : ∀ (l : List Nat) (p : Phys), Phys.forEntries body (l ++ [n]) p =
      match Phys.forEntries body l p with
      | (false, q) => (false, q)
      | (true, q) => body q n := by
    intro l
    induction l with
    | nil =>
      intro p
      simp only [List.nil_append, Phys.forEntries]
      rcases body p n with ⟨_ | _, q⟩ <;> rfl
    | cons i l ih =>
      intro p
      simp only [List.cons_append, Phys.forEntries]
      rcases body p i with ⟨_ | _, q⟩
      · rfl
      · exact ih q
  rw [List.range_succ]
  exact happend _ p

/-- The loop over the first `n` entries. -/
theorem copyEntries_spec {ends : Nat → Bool} {descend : Phys → Nat → Nat → Bool × Phys}
    (hF : F.Lawful) (hb : F.CopiesBelow level ends descend) (hA : p.Avail A) (hfit : F.Fits A)
    (hd : IsFrame dst) (hn : dst ∉ A) (hzero : F.Entries p.mem level dst bound fun _ => .empty)
    (hs : IsFrame src) (hent : F.Entries p.mem level src bound kids)
    (hsrc : ∀ f ∈ F.frames src kids, f ∉ dst ::ₘ A) (hnb : n ≤ bound) (hb512 : bound ≤ 512) :
    ∃ B kids', F.Copied p (F.copyEntries ends descend n p dst src).2 level dst bound n A B kids kids'
      (F.copyEntries ends descend n p dst src).1 := by
  induction n with
  | zero => exact ⟨A, _, copied_start hA hzero⟩
  | succ n ih =>
    obtain ⟨B, kids', hc⟩ := ih (by omega)
    unfold copyEntries at hc ⊢
    rw [forEntries_range_succ]
    generalize Phys.forEntries (F.copyEntry ends descend dst src) (List.range n) p = r at hc ⊢
    obtain ⟨_ | _, q⟩ := r
    · exact ⟨B, kids', hc.stop hc.avail rfl⟩
    · exact hc.round (i := ⟨n, by omega⟩) hF hb hfit hA.nodup hd hn hnb hs (hent ⟨n, by omega⟩ hnb) hsrc

theorem copyTable_copies (hF : F.Lawful) (level : Nat) : F.Copies level (F.copyTable level) := by
  induction level with
  | zero =>
    intro p A dst src kids hA hfit hd hn hzero hs hent hsrc
    exact copyEntries_spec hF (fun e => (hF.copyEnds e).1) hA hfit hd hn hzero hs hent hsrc le_rfl le_rfl
  | succ level ih =>
    intro p A dst src kids hA hfit hd hn hzero hs hent hsrc
    exact copyEntries_spec hF ⟨fun e => (hF.copyEnds e).2, ih⟩ hA hfit hd hn hzero hs hent hsrc le_rfl le_rfl

end PteFormat

end NarcOs
