import NarcOs.Mm.Radix

/-!
# Walks that create tables

A walk with creation gives every table on its way that is missing a frame of
the allocator. It maps nothing, and it ends early only when the allocator
refuses a frame.
-/

namespace NarcOs

namespace PteFormat

variable {F : PteFormat} {p p' : Phys} {level a b virt : Nat} {A B : Multiset Nat}
  {kids : Fin 512 → PTree}

def Fits (F : PteFormat) (A : Multiset Nat) : Prop := ∀ f ∈ A, f < F.limit

theorem Fits.mono (h : F.Fits A) (hs : B ⊆ A) : F.Fits B := fun f hf => h f (hs hf)

def refuses (F : PteFormat) : Nat → Phys → Nat → Nat → Bool
  | 0, _, _, _ => false
  | level + 1, p, table, virt =>
    if F.present (p.entry table (tableIndex virt (level + 1))) = false ∧ p.allocPage.1 = 0 then true
    else
      match F.nextTable p table (tableIndex virt (level + 1)) true with
      | (none, _) => false
      | (some next, p) => refuses F level p next virt

structure Opened (F : PteFormat) (p p' : Phys) (level a b : Nat) (A B : Multiset Nat)
    (kids : Fin 512 → PTree) (i : Fin 512) (e : Nat) : Prop where
  avail : p'.Avail B
  sub : B ⊆ A
  entries : F.Entries p'.mem (level + 1) a b (Function.update kids i (.table e (kids i).children))
  frames : B + (F.addr e ::ₘ sumFin fun j => F.tables ((kids i).children j)) = A + F.tables (kids i)
  entry : ∀ j, j ≠ i → p'.entry a j = p.entry a j
  within : Mem.Within (A + {a}) p.mem p'.mem

theorem nextTable_fresh (hF : F.Lawful) (hfit : F.Fits A) (hA : p.Avail A)
    (h : F.Entries p.mem (level + 1) a b kids) (ha : IsFrame a)
    (hnd : (A + (a ::ₘ sumFin fun j => F.tables (kids j))).Nodup) {i : Fin 512}
    (hi : i.val < b) (hk : kids i = .empty) :
    (p.allocPage.1 = 0 ∧ (F.nextTable p a i true).1 = none ∧ (F.nextTable p a i true).2.Avail A ∧
      (F.nextTable p a i true).2.mem = p.mem) ∨
    ∃ B e, p.allocPage.1 ≠ 0 ∧ (F.nextTable p a i true).1 = some (F.addr e) ∧
      F.Opened p (F.nextTable p a i true).2 level a b A B kids i e := by
  have habsent : F.present (p.entry a i) = false := by
    have := h i hi
    rwa [hk] at this
  unfold nextTable
  simp only [habsent, Bool.false_eq_true, not_false_eq_true, not_true_eq_false, if_true, if_false]
  rcases hA.allocPage with ⟨hz, hav, hmem⟩ | ⟨B, hne, hAB, hav, hmem⟩
  · left
    rw [if_pos hz]
    exact ⟨hz, rfl, hav, hmem⟩
  · right
    have hfresh : p.allocPage.1 ∈ A := hAB ▸ Multiset.mem_cons_self _ _
    generalize p.allocPage.1 = phys at *
    generalize p.allocPage.2 = q at *
    have hframe : IsFrame phys := hA.isFrame hfresh
    obtain ⟨hp, hblock, haddr, hlt⟩ := hF.link phys hframe (hfit phys hfresh)
    rw [if_neg hne]
    refine ⟨B, F.link phys, hne, by rw [haddr], ?_⟩
    have haA : a ∉ A := fun hm => not_mem_of_add hnd hm (Multiset.mem_cons_self _ _)
    have hpa : phys ≠ a := by
      rintro rfl
      exact haA hfresh
    have hw₁ : Mem.Within A p.mem q.mem := hmem ▸ Mem.within_memset hframe hfresh 0
    have hw₂ : Mem.Within {a} q.mem (q.setEntry a i (F.link phys)).mem :=
      Phys.within_setEntry ha (Multiset.mem_singleton_self _) i.isLt
    have hw : Mem.Within (A + {a}) p.mem (q.setEntry a i (F.link phys)).mem :=
      (hw₁.mono (Multiset.subset_of_le (Multiset.le_add_right _ _))).trans
        (hw₂.mono (Multiset.subset_of_le (Multiset.le_add_left _ _)))
    have hother : ∀ j, j ≠ i → (q.setEntry a i (F.link phys)).entry a j = p.entry a j := by
      intro j hj
      have hji : j.val ≠ i.val := fun e => hj (Fin.ext e)
      exact (Phys.entry_setEntry_of_ne hji).trans (load64_within hw₁ ha haA j.isLt)
    refine ⟨?_, ?_, ?_, ?_, hother, hw⟩
    · refine hav.within hw₂ (fun f hf => ?_) rfl
      rw [Multiset.mem_singleton]
      rintro rfl
      exact haA (hAB ▸ Multiset.mem_cons_of_mem hf)
    · rw [hAB]
      exact Multiset.subset_cons _ _
    · have hself : (q.setEntry a i (F.link phys)).mem.load64 (a + 8 * i) = F.link phys :=
        Phys.entry_setEntry_self hlt
      have hzero : F.Entries (q.setEntry a i (F.link phys)).mem level phys 512 fun _ => .empty := by
        refine entries_empty hF fun x hx => ?_
        rw [Phys.setEntry_outside hframe ha hpa i.isLt hx, hmem]
        exact Mem.memset_apply_inside hx
      refine h.replace hw ?_ hother ?_
      · rw [hself, hk, PTree.children]
        refine ⟨rfl, hp, hblock, haddr.symm ▸ hframe, fun j => ?_⟩
        rw [haddr]
        exact hzero j j.isLt
      · intro j _ _ f hf hmemf
        rcases Multiset.mem_add.mp hmemf with hfA | hfa
        · exact not_mem_of_add hnd hfA (Multiset.mem_cons_of_mem (mem_sumFin.mpr ⟨j, hf⟩))
        · rw [Multiset.mem_singleton] at hfa
          subst hfa
          exact (Multiset.nodup_cons.mp (Multiset.nodup_add.mp hnd).2.1).1 (mem_sumFin.mpr ⟨j, hf⟩)
    · rw [hk, haddr, hAB, PTree.children]
      have hz : (sumFin fun _ : Fin 512 => F.tables .empty) = 0 := sumFin_zero
      rw [hz, tables, add_zero, ← Multiset.singleton_add, ← Multiset.singleton_add, add_zero,
        add_comm]

theorem opened_rewrite (hA : p.Avail A) (h : F.Entries p.mem (level + 1) a b kids)
    (ha : IsFrame a) (hnd : (A + (a ::ₘ sumFin fun j => F.tables (kids j))).Nodup) {i : Fin 512}
    (hi : i.val < b) {e : Nat} {sub : Fin 512 → PTree} (hk : kids i = .table e sub) {e' : Nat}
    (haddr : F.addr e' = F.addr e) (hp : F.present e' = true) (hblock : F.block e' = false)
    (hlt : e' < 2 ^ 64) : F.Opened p (p.setEntry a i e') level a b A A kids i e' := by
  have hrep := h i hi
  rw [hk] at hrep
  obtain ⟨he, -, -, hframe, hsub⟩ := hrep
  rw [← he] at hframe hsub
  have haA : a ∉ A := fun hm => not_mem_of_add hnd hm (Multiset.mem_cons_self _ _)
  have hkids : ∀ j, ∀ f ∈ F.tables (kids j), f ∉ ({a} : Multiset Nat) := by
    intro j f hf hm
    rw [Multiset.mem_singleton] at hm
    subst hm
    exact (Multiset.nodup_cons.mp (Multiset.nodup_add.mp hnd).2.1).1 (mem_sumFin.mpr ⟨j, hf⟩)
  have hw : Mem.Within {a} p.mem (p.setEntry a i e').mem :=
    Phys.within_setEntry ha (Multiset.mem_singleton_self _) i.isLt
  have hother : ∀ j, j ≠ i → (p.setEntry a i e').entry a j = p.entry a j :=
    fun j hj => Phys.entry_setEntry_of_ne fun e => hj (Fin.ext e)
  refine ⟨?_, Multiset.Subset.refl A, ?_, ?_, hother, hw.mono (Multiset.subset_of_le (Multiset.le_add_left _ _))⟩
  · refine hA.within hw (fun f hf => ?_) rfl
    rw [Multiset.mem_singleton]
    rintro rfl
    exact haA hf
  · have hself : (p.setEntry a i e').mem.load64 (a + 8 * i) = e' := Phys.entry_setEntry_self hlt
    have hown : F.Entries (p.setEntry a i e').mem level (F.addr e) 512 sub := by
      refine Entries.within (m := p.mem) (fun j _ => hsub j) hw hframe ?_ ?_
      · exact hkids i _ (by rw [hk, mem_tables]; exact .inl rfl)
      · intro j _ f hf
        exact hkids i f (by rw [hk, mem_tables]; exact .inr ⟨j, hf⟩)
    refine h.replace hw ?_ hother fun j _ _ f hf => hkids j f hf
    rw [hself, hk, PTree.children]
    exact ⟨rfl, hp, hblock, haddr.symm ▸ hframe, fun j => haddr.symm ▸ hown j j.isLt⟩
  · rw [hk, haddr, PTree.children, tables_table]

theorem nextTable_existing (hF : F.Lawful) (hA : p.Avail A)
    (h : F.Entries p.mem (level + 1) a b kids) (ha : IsFrame a)
    (hnd : (A + (a ::ₘ sumFin fun j => F.tables (kids j))).Nodup) {i : Fin 512}
    (hi : i.val < b) {e : Nat} {sub : Fin 512 → PTree} (hk : kids i = .table e sub) :
    F.present (p.entry a i) = true ∧
    ∃ e', (F.nextTable p a i true).1 = some (F.addr e') ∧
      F.Opened p (F.nextTable p a i true).2 level a b A A kids i e' := by
  have hrep := h i hi
  rw [hk] at hrep
  obtain ⟨he, hp, hblock, -, -⟩ := hrep
  have hentry : p.entry a i = e := he.symm
  rw [← he] at hp hblock
  have he64 : e < 2 ^ 64 := he ▸ Mem.load64_lt _ _
  refine ⟨hentry.symm ▸ hp, ?_⟩
  unfold nextTable
  simp only [hentry, hp, hblock, not_true_eq_false, if_false, Bool.false_eq_true]
  cases ht : F.touch e with
  | none =>
    refine ⟨e, rfl, ?_⟩
    have hself : Function.update kids i (PTree.table e (kids i).children) = kids := by
      rw [hk, PTree.children, ← hk, Function.update_eq_self]
    refine ⟨hA, Multiset.Subset.refl A, hself.symm ▸ h, ?_, fun _ _ => rfl, Mem.Within.refl _ _⟩
    rw [hk, PTree.children, tables_table]
  | some e' =>
    obtain ⟨hp', hblock', haddr, hlt⟩ := hF.touch e e' ht he64 hp hblock
    exact ⟨e', by rw [haddr], opened_rewrite hA h ha hnd hi hk haddr hp' hblock' hlt⟩

theorem nextTable_create (hF : F.Lawful) (hfit : F.Fits A) (hA : p.Avail A)
    (h : F.Entries p.mem (level + 1) a b kids) (ha : IsFrame a)
    (hnd : (A + (a ::ₘ sumFin fun j => F.tables (kids j))).Nodup) {i : Fin 512} (hi : i.val < b) :
    ((F.present (p.entry a i) = false ∧ p.allocPage.1 = 0) ∧ (F.nextTable p a i true).1 = none ∧
      (F.nextTable p a i true).2.Avail A ∧ (F.nextTable p a i true).2.mem = p.mem) ∨
    ∃ B e, ¬ (F.present (p.entry a i) = false ∧ p.allocPage.1 = 0) ∧
      (F.nextTable p a i true).1 = some (F.addr e) ∧
      F.Opened p (F.nextTable p a i true).2 level a b A B kids i e := by
  cases hk : kids i with
  | empty =>
    have habsent : F.present (p.entry a i) = false := by
      have := h i hi
      rwa [hk] at this
    rcases nextTable_fresh hF hfit hA h ha hnd hi hk with ⟨hz, hr⟩ | ⟨B, e, hne, hr⟩
    · exact .inl ⟨⟨habsent, hz⟩, hr⟩
    · exact .inr ⟨B, e, fun hz => hne hz.2, hr⟩
  | page e =>
    have := h i hi
    rw [hk] at this
    exact (rep_page_succ this).elim
  | table e sub =>
    obtain ⟨hp, e', hr⟩ := nextTable_existing hF hA h ha hnd hi hk
    exact .inr ⟨A, e', fun hz => by simp [hp] at hz, hr⟩

structure Grown (F : PteFormat) (p p' : Phys) (level a b : Nat) (A B : Multiset Nat)
    (kids kids' : Fin 512 → PTree) : Prop where
  avail : p'.Avail B
  sub : B ⊆ A
  entries : F.Entries p'.mem level a b kids'
  tables : (B + sumFin fun j => F.tables (kids' j)) = A + sumFin fun j => F.tables (kids j)
  pages : (sumFin fun j => F.pages (kids' j)) = sumFin fun j => F.pages (kids j)
  lookup : ∀ v, PTree.lookup level kids' v = PTree.lookup level kids v
  upper : ∀ j : Fin 512, b ≤ j → kids' j = kids j
  entry : ∀ j : Fin 512, b ≤ j → p'.entry a j = p.entry a j
  within : Mem.Within (A + (a ::ₘ sumFin fun j => F.tables (kids j))) p.mem p'.mem

theorem grown_of_mem (h : F.Entries p.mem level a b kids) (hav : p'.Avail A)
    (hm : p'.mem = p.mem) : F.Grown p p' level a b A A kids kids :=
  ⟨hav, Multiset.Subset.refl A, hm.symm ▸ h, rfl, rfl, fun _ => rfl, fun _ _ => rfl,
    fun _ _ => by rw [Phys.entry, Phys.entry, hm], hm.symm ▸ Mem.Within.refl _ _⟩

theorem Opened.grown {p₁ p₂ : Phys} {C : Multiset Nat} {e : Nat} {sub : Fin 512 → PTree}
    {i : Fin 512} (ho : F.Opened p p₁ level a b A B kids i e)
    (h : F.Entries p.mem (level + 1) a b kids) (ha : IsFrame a)
    (hnd : (A + (a ::ₘ sumFin fun j => F.tables (kids j))).Nodup) (hi : i.val < b)
    (hg : F.Grown p₁ p₂ level (F.addr e) 512 B C (kids i).children sub) :
    F.Grown p p₂ (level + 1) a b A C kids (Function.update kids i (.table e sub)) ∧
      p₂.entry a i = e ∧ F.present e = true ∧ F.block e = false := by
  have hrep := ho.entries i hi
  rw [Function.update_self] at hrep
  obtain ⟨he, hp, hblock, hframe, -⟩ := hrep
  rw [← he] at hp hblock hframe
  -- what the second part may write is inside what the first part may write
  have hle : F.tables (kids i) ≤ sumFin fun j => F.tables (kids j) := by
    rw [sumFin_eq_add_erase _ i]
    exact Multiset.le_add_right _ _
  have hsub : ∀ f, f ∈ B + (F.addr e ::ₘ sumFin fun j => F.tables ((kids i).children j)) →
      f ∈ A ∨ f ∈ F.tables (kids i) := by
    intro f hf
    rw [ho.frames] at hf
    exact Multiset.mem_add.mp hf
  have haA : a ∉ A := fun hm => not_mem_of_add hnd hm (Multiset.mem_cons_self _ _)
  have hsum := (Multiset.nodup_add.mp hnd).2.1
  have hat : ∀ j, a ∉ F.tables (kids j) := fun j hm =>
    (Multiset.nodup_cons.mp hsum).1 (mem_sumFin.mpr ⟨j, hm⟩)
  have hn : a ∉ B + (F.addr e ::ₘ sumFin fun j => F.tables ((kids i).children j)) := fun hm =>
    (hsub a hm).elim haA (hat i)
  have hkids : ∀ j, j ≠ i → ∀ f ∈ F.tables (kids j),
      f ∉ B + (F.addr e ::ₘ sumFin fun j => F.tables ((kids i).children j)) := by
    intro j hj f hf hm
    rcases hsub f hm with hfA | hfi
    · exact not_mem_of_add hnd hfA (Multiset.mem_cons_of_mem (mem_sumFin.mpr ⟨j, hf⟩))
    · exact not_mem_of_sumFin (Multiset.nodup_cons.mp hsum).2 hj hf hfi
  have hload : ∀ j : Fin 512, p₂.mem.load64 (a + 8 * j) = p₁.mem.load64 (a + 8 * j) :=
    fun j => load64_within hg.within ha hn j.isLt
  have hentries : F.Entries p₂.mem (level + 1) a b (Function.update kids i (.table e sub)) := by
    have := ho.entries.replace (t := .table e sub) hg.within ?_ (fun j _ => hload j) fun j hj _ f hf => by
        rw [Function.update_of_ne hj] at hf
        exact hkids j hj f hf
    · rwa [Function.update_idem] at this
    · rw [hload, ← he]
      exact ⟨rfl, hp, hblock, hframe, fun l => hg.entries l l.isLt⟩
  refine ⟨⟨hg.avail, Multiset.Subset.trans hg.sub ho.sub, hentries, ?_, ?_, ?_, ?_, ?_, ?_⟩, (hload i).trans he.symm, hp, hblock⟩
  · have hup := sumFin_update_add F.tables kids i (.table e sub)
    have hframes := ho.frames
    have htab := hg.tables
    rw [tables_table] at hup
    generalize sumFin (fun j => F.tables (Function.update kids i (PTree.table e sub) j)) = x at hup ⊢
    generalize sumFin (fun j => F.tables (kids j)) = y at hup ⊢
    generalize sumFin (fun j => F.tables (sub j)) = z at hup htab
    generalize sumFin (fun j => F.tables ((kids i).children j)) = w at htab hframes
    rw [← Multiset.singleton_add] at hup hframes
    apply add_right_cancel (b := F.tables (kids i))
    calc C + x + F.tables (kids i) = C + z + (y + {F.addr e}) := by
          rw [add_assoc, hup]
          abel
      _ = y + (B + ({F.addr e} + w)) := by
          rw [htab]
          abel
      _ = A + y + F.tables (kids i) := by
          rw [hframes]
          abel
  · have hup := sumFin_update_add F.pages kids i (.table e sub)
    have hown : F.pages (kids i) = sumFin fun j => F.pages ((kids i).children j) := by
      cases hk : kids i with
      | empty => exact sumFin_zero.symm
      | page e =>
        have := h i hi
        rw [hk] at this
        exact (rep_page_succ this).elim
      | table e sub => rfl
    rw [pages_table, hg.pages, ← hown] at hup
    exact add_right_cancel hup
  · intro v
    rw [PTree.lookup_succ, PTree.lookup_succ]
    by_cases hv : PTree.index v (level + 1) = i
    · rw [hv, Function.update_self, PTree.children, hg.lookup]
    · rw [Function.update_of_ne hv]
  · intro j hj
    exact Function.update_of_ne (fun e => by subst e; omega) _ _
  · intro j hj
    exact (hload j).trans (ho.entry j fun e => by subst e; omega)
  · refine (ho.within.mono ?_).trans (hg.within.mono ?_)
    · intro f hf
      rcases Multiset.mem_add.mp hf with hf | hf
      · exact Multiset.mem_add.mpr (.inl hf)
      · rw [Multiset.mem_singleton.mp hf]
        exact Multiset.mem_add.mpr (.inr (Multiset.mem_cons_self _ _))
    · intro f hf
      rcases hsub f hf with hfA | hfi
      · exact Multiset.mem_add.mpr (.inl hfA)
      · exact Multiset.mem_add.mpr (.inr (Multiset.mem_cons_of_mem (Multiset.mem_of_le hle hfi)))

/-- The walk with creation grows the trees and ends early only when a frame is
refused; when it reaches an entry, a later walk reaches the same one. -/
theorem getPte_create (hF : F.Lawful) (hfit : F.Fits A) (hA : p.Avail A)
    (h : F.Entries p.mem level a b kids) (ha : IsFrame a)
    (hnd : (A + (a ::ₘ sumFin fun j => F.tables (kids j))).Nodup) (hi : tableIndex virt level < b) :
    ∃ B kids', F.Grown p (F.getPte true level p a virt).2 level a b A B kids kids' ∧
      ((F.getPte true level p a virt).1 = none ↔ F.refuses level p a virt = true) ∧
      ∀ r, (F.getPte true level p a virt).1 = some r →
        (F.getPte false level (F.getPte true level p a virt).2 a virt).1 = some r := by
  induction level generalizing p a b A kids with
  | zero => exact ⟨A, kids, grown_of_mem h hA rfl, by simp [getPte, refuses], fun r hr => hr⟩
  | succ level ih =>
    have hcase := nextTable_create hF hfit hA h ha hnd (i := PTree.index virt (level + 1)) hi
    have hidx : (PTree.index virt (level + 1)).val = tableIndex virt (level + 1) := rfl
    rw [hidx] at hcase
    rw [getPte, refuses]
    generalize F.nextTable p a (tableIndex virt (level + 1)) true = r at hcase ⊢
    obtain ⟨next, p₁⟩ := r
    rcases hcase with ⟨hz, hnone, hav, hmem⟩ | ⟨B, e, hz, hsome, ho⟩
    · cases hnone
      exact ⟨A, kids, grown_of_mem h hav hmem, by simp [hz], fun r hr => by cases hr⟩
    · cases hsome
      have hrep := ho.entries (PTree.index virt (level + 1)) hi
      rw [Function.update_self] at hrep
      obtain ⟨he, -, -, hframe, hsub⟩ := hrep
      rw [← he] at hframe hsub
      have hown : (B + (F.addr e ::ₘ sumFin fun j =>
          F.tables ((kids (PTree.index virt (level + 1))).children j))).Nodup := by
        rw [ho.frames]
        refine Multiset.nodup_of_le (add_le_add le_rfl ?_) hnd
        rw [sumFin_eq_add_erase _ (PTree.index virt (level + 1))]
        exact (Multiset.le_add_right _ _).trans (Multiset.le_cons_self _ _)
      obtain ⟨C, sub, hg, hiff, hwalk⟩ := ih (b := 512) (hfit.mono ho.sub) ho.avail (fun j _ => hsub j) hframe hown
        (Nat.mod_lt _ (by decide))
      obtain ⟨hgrown, hentry, hp, hblock⟩ := ho.grown h ha hnd hi hg
      refine ⟨C, _, hgrown, by rw [if_neg hz]; exact hiff, fun r hr => ?_⟩
      rw [hidx] at hentry
      rw [getPte, nextTable_present (hentry.symm ▸ hp) (hentry.symm ▸ hblock), hentry]
      exact hwalk r hr

end PteFormat

end NarcOs
