import NarcOs.Mm.Grow

/-!
# Spaces in any format

A space is a root whose user entries are trees and whose other entries lead to
kernel tables that no user can read through. Each lemma says what an operation
does to the frames that the allocator and the space have between them, which
lookups change, and that no frame outside these is written.
-/

namespace NarcOs

namespace PteFormat

/-- Nothing that `e` leads to is a user's, and the tables on the way are in `K`. -/
def Clean (F : PteFormat) (K : Set Nat) (m : Mem) : Nat → Nat → Prop
  | 0, e => F.present e = true → F.user e = false
  | level + 1, e => F.present e = true → F.block e = false →
      F.addr e ∈ K ∧ ∀ i : Fin 512, Clean F K m level (m.load64 (F.addr e + 8 * i))

def frames (F : PteFormat) (root : Nat) (kids : Fin 512 → PTree) : Multiset Nat :=
  (root ::ₘ sumFin fun j => F.tables (kids j)) + sumFin fun j => F.pages (kids j)

structure IsSpace (F : PteFormat) (K : Set Nat) (m : Mem) (top bound root : Nat)
    (kids : Fin 512 → PTree) : Prop where
  frame : IsFrame root
  entries : F.Entries m top root bound kids
  upper : ∀ j : Fin 512, bound ≤ j.val → kids j = .empty
  kernel : ∀ j : Fin 512, bound ≤ j.val → F.Clean K m top (m.load64 (root + 8 * j))

variable {F : PteFormat} {K : Set Nat} {m m' : Mem} {level top bound root a virt e : Nat}
  {kids kids' : Fin 512 → PTree} {A B S : Multiset Nat} {p p' : Phys}

theorem Clean.within (h : F.Clean K m level e) (hm : Mem.Within S m m')
    (hK : ∀ f ∈ K, IsFrame f ∧ f ∉ S) : F.Clean K m' level e := by
  induction level generalizing e with
  | zero => exact h
  | succ level ih =>
    intro hp hb
    obtain ⟨hmem, hsub⟩ := h hp hb
    refine ⟨hmem, fun i => ?_⟩
    rw [load64_within hm (hK _ hmem).1 (hK _ hmem).2 i.isLt]
    exact ih (hsub i)

theorem Clean.userPte
    (h : F.Clean K p.mem level (p.mem.load64 (a + 8 * tableIndex virt level))) :
    F.userPte level p a virt = none := by
  induction level generalizing a with
  | zero =>
    unfold PteFormat.userPte
    simp only [getPte]
    rw [if_neg]
    rintro ⟨hp, hu⟩
    rw [Phys.entry] at hp hu
    rw [h hp] at hu
    cases hu
  | succ level ih =>
    unfold PteFormat.userPte
    rw [getPte]
    cases hp : F.present (p.entry a (tableIndex virt (level + 1))) with
    | false => rw [nextTable_absent hp]
    | true =>
      cases hb : F.block (p.entry a (tableIndex virt (level + 1))) with
      | true => simp [nextTable, hp, hb]
      | false =>
        rw [nextTable_present hp hb]
        exact ih ((h hp hb).2 (PTree.index virt level))

theorem IsSpace.within (h : F.IsSpace K m top bound root kids) (hm : Mem.Within S m m')
    (hK : ∀ f ∈ K, IsFrame f ∧ f ∉ S)
    (hd : ∀ f ∈ root ::ₘ sumFin fun j => F.tables (kids j), f ∉ S) :
    F.IsSpace K m' top bound root kids where
  frame := h.frame
  entries := h.entries.within hm h.frame (hd root (Multiset.mem_cons_self _ _)) fun j _ f hf =>
    hd f (Multiset.mem_cons_of_mem (mem_sumFin.mpr ⟨j, hf⟩))
  upper := h.upper
  kernel j hj := by
    rw [load64_within hm h.frame (hd root (Multiset.mem_cons_self _ _)) j.isLt]
    exact (h.kernel j hj).within hm hK

theorem IsSpace.isFrame (h : F.IsSpace K m top bound root kids) {f : Nat}
    (hf : f ∈ F.frames root kids) : IsFrame f := by
  have hlow : ∀ j, (∃ f, f ∈ F.tables (kids j) ∨ f ∈ F.pages (kids j)) → j.val < bound := by
    rintro j ⟨f, hf⟩
    by_contra hj
    rw [h.upper j (Nat.not_lt.mp hj)] at hf
    simp [tables, pages] at hf
  rcases Multiset.mem_add.mp hf with hf | hf
  · rcases Multiset.mem_cons.mp hf with rfl | hf
    · exact h.frame
    · obtain ⟨j, hj⟩ := mem_sumFin.mp hf
      exact (h.entries j (hlow j ⟨f, .inl hj⟩)).isFrame_tables hj
  · obtain ⟨j, hj⟩ := mem_sumFin.mp hf
    exact (h.entries j (hlow j ⟨f, .inr hj⟩)).isFrame_pages hj

-- ---------------------------------------------------------------------------
-- Looking up
-- ---------------------------------------------------------------------------

theorem Entries.userPte (h : F.Entries p.mem level a bound kids) (hv : tableIndex virt level < bound) :
    match PTree.lookup level kids virt with
    | some e => ∃ pt i, (F.getPte false level p a virt).1 = some (pt, i) ∧
        F.userPte level p a virt = (if F.user e then some (pt, i, e) else none)
    | none => F.userPte level p a virt = none := by
  have hslot := getPte_slot h hv
  unfold PteFormat.userPte PTree.lookup
  cases hs : PTree.slot level kids virt with
  | none =>
    rw [hs] at hslot
    simp [hslot]
  | some t =>
    rw [hs] at hslot
    obtain ⟨pt, i, hw, hrep⟩ := hslot
    cases t with
    | empty =>
      have : F.present (p.entry pt i) = false := hrep
      simp [hw, this, PTree.leaf]
    | page e =>
      obtain ⟨rfl, hp, -⟩ := hrep
      simp [hw, hp, PTree.leaf]
    | table e sub => exact (rep_table_zero hrep).elim

theorem Entries.leaf (h : F.Entries m level a bound kids) (hi : tableIndex virt level < bound)
    (hl : PTree.lookup level kids virt = some e) :
    (e < 2 ^ 64 ∧ F.present e = true ∧ F.page e = true ∧ IsFrame (F.addr e)) ∧
      F.addr e ∈ sumFin fun j => F.pages (kids j) := by
  induction level generalizing a bound kids with
  | zero =>
    have hrep := h (PTree.index virt 0) hi
    rw [PTree.lookup, PTree.slot, Option.bind_some] at hl
    cases hk : kids (PTree.index virt 0) with
    | empty => simp [hk, PTree.leaf] at hl
    | table e sub => simp [hk, PTree.leaf] at hl
    | page e' =>
      rw [hk] at hl hrep
      obtain rfl : e' = e := by simpa [PTree.leaf] using hl
      obtain ⟨he, hp, hc, hf⟩ := hrep
      rw [← he] at hp hc hf
      exact ⟨⟨he ▸ Mem.load64_lt _ _, hp, hc, hf⟩,
        mem_sumFin.mpr ⟨PTree.index virt 0, by simp [hk, pages]⟩⟩
  | succ level ih =>
    have hrep := h (PTree.index virt (level + 1)) hi
    rw [PTree.lookup_succ] at hl
    cases hk : kids (PTree.index virt (level + 1)) with
    | empty => simp [hk, PTree.children, PTree.lookup_empty] at hl
    | page e => simp [hk, PTree.children, PTree.lookup_empty] at hl
    | table e' sub =>
      rw [hk] at hl hrep
      obtain ⟨he, -, -, -, hsub⟩ := hrep
      rw [← he] at hsub
      have hent : F.Entries m level (F.addr e') 512 sub := fun j _ => hsub j
      obtain ⟨hp, hm⟩ := ih hent (Nat.mod_lt _ (by decide)) hl
      refine ⟨hp, mem_sumFin.mpr ⟨PTree.index virt (level + 1), ?_⟩⟩
      rw [hk]
      exact hm

theorem pages_ne (F : PteFormat) {level v v' e e' : Nat} {kids : Fin 512 → PTree}
    (hnd : (sumFin fun j => F.pages (kids j)).Nodup) (hl : PTree.lookup level kids v = some e)
    (hl' : PTree.lookup level kids v' = some e') (hne : ¬ PTree.SamePath level v v') : F.addr e ≠ F.addr e' := by
  have hleaf : ∀ {level v e : Nat} {kids : Fin 512 → PTree}, PTree.lookup level kids v = some e →
      F.addr e ∈ F.pages (kids (PTree.index v level)) := by
    intro level
    induction level with
    | zero =>
      intro v e kids hl
      rw [PTree.lookup, PTree.slot, Option.bind_some] at hl
      cases hk : kids (PTree.index v 0) with
      | empty => simp [hk, PTree.leaf] at hl
      | table e sub => simp [hk, PTree.leaf] at hl
      | page e' =>
        rw [hk, PTree.leaf, Option.some.injEq] at hl
        rw [hl, pages]
        exact Multiset.mem_singleton_self _
    | succ level ih =>
      intro v e kids hl
      rw [PTree.lookup_succ] at hl
      cases hk : kids (PTree.index v (level + 1)) with
      | empty => simp [hk, PTree.children, PTree.lookup_empty] at hl
      | page e => simp [hk, PTree.children, PTree.lookup_empty] at hl
      | table e' sub =>
        rw [hk] at hl
        exact mem_sumFin.mpr ⟨_, ih hl⟩
  induction level generalizing kids with
  | zero =>
    have hi : PTree.index v 0 ≠ PTree.index v' 0 := fun he => hne fun l hle => by
      obtain rfl := Nat.le_zero.mp hle
      exact he
    intro he
    have hm := hleaf hl'
    rw [← he] at hm
    exact not_mem_of_sumFin (f := fun j => F.pages (kids j)) hnd hi (hleaf hl) hm
  | succ level ih =>
    by_cases hi : PTree.index v (level + 1) = PTree.index v' (level + 1)
    · have hne' : ¬ PTree.SamePath level v v' := fun hs => hne (PTree.samePath_succ.mpr ⟨hi, hs⟩)
      rw [PTree.lookup_succ] at hl hl'
      rw [← hi] at hl'
      have hsub := nodup_of_sumFin hnd (PTree.index v (level + 1))
      cases hk : kids (PTree.index v (level + 1)) with
      | empty => simp [hk, PTree.children, PTree.lookup_empty] at hl
      | page e => simp [hk, PTree.children, PTree.lookup_empty] at hl
      | table e₀ sub =>
        rw [hk] at hl hl' hsub
        exact ih hsub hl hl' hne'
    · intro he
      have hm := hleaf hl'
      rw [← he] at hm
      exact not_mem_of_sumFin (f := fun j => F.pages (kids j)) hnd hi (hleaf hl) hm

def leafFrames (F : PteFormat) (level : Nat) (kids : Fin 512 → PTree) (virt : Nat) : Multiset Nat :=
  match PTree.lookup level kids virt with
  | some e => {F.addr e}
  | none => 0

-- ---------------------------------------------------------------------------
-- Changing a space
-- ---------------------------------------------------------------------------

/-- What an operation on a space does to frames and memory: `gained` comes in
from outside, `lost` is dropped. -/
structure Remapped (F : PteFormat) (K : Set Nat) (p p' : Phys) (top bound root : Nat)
    (A B : Multiset Nat) (kids kids' : Fin 512 → PTree) (gained lost : Multiset Nat) : Prop where
  avail : p'.Avail B
  space : F.IsSpace K p'.mem top bound root kids'
  frames : B + F.frames root kids' + lost = A + F.frames root kids + gained
  within : Mem.Within (A + F.frames root kids) p.mem p'.mem

theorem Remapped.nodup {gained lost : Multiset Nat}
    (h : F.Remapped K p p' top bound root A B kids kids' gained lost)
    (hnd : (A + F.frames root kids + gained).Nodup) : (B + F.frames root kids').Nodup := by
  rw [← h.frames] at hnd
  exact (Multiset.nodup_add.mp hnd).1

/-- The leaf of an address is replaced by the entry `v`. -/
theorem IsSpace.setEntry (h : F.IsSpace K p.mem top bound root kids) (hA : p.Avail A)
    (hnd : (A + F.frames root kids).Nodup) (hK : ∀ f ∈ K, IsFrame f ∧ f ∉ F.frames root kids)
    (hv : tableIndex virt top < bound) {pt i v : Nat}
    (hw : (F.getPte false top p root virt).1 = some (pt, i)) {t : PTree} (ht : F.Rep p.mem 0 v t)
    (hlt : v < 2 ^ 64) :
    F.Remapped K p (p.setEntry pt i v) top bound root A A kids (PTree.set top kids virt t)
        (F.pages t) (F.leafFrames top kids virt) ∧
      (∀ v', PTree.lookup top (PTree.set top kids virt t) v' =
        if PTree.SamePath top virt v' then t.leaf else PTree.lookup top kids v') := by
  have hnd' := (Multiset.nodup_add.mp hnd).2.1
  obtain ⟨hi, hpt, hmem, hne, hent⟩ := getPte_store h.entries h.frame
    (Multiset.nodup_add.mp hnd').1 hv hw hlt ht
  have hin : pt ∈ root ::ₘ sumFin fun j => F.tables (kids j) := by
    rcases hmem with rfl | ⟨j, hj⟩
    · exact Multiset.mem_cons_self _ _
    · exact Multiset.mem_cons_of_mem (mem_sumFin.mpr ⟨j, hj⟩)
  have hown : pt ∈ F.frames root kids := Multiset.mem_add.mpr (.inl hin)
  have hwithin := Phys.within_setEntry (p := p) (v := v) hpt hown hi
  have hsingle := Phys.within_setEntry (p := p) (v := v) hpt (Multiset.mem_singleton_self pt) hi
  have htables : F.tables t = 0 := by
    cases t with
    | empty => rfl
    | page e => rfl
    | table e sub => exact (rep_table_zero ht).elim
  have hslot := getPte_slot h.entries hv
  cases hs : PTree.slot top kids virt with
  | none =>
    rw [hs] at hslot
    simp [hslot] at hw
  | some old =>
    rw [hs] at hslot
    obtain ⟨_, _, -, hrep⟩ := hslot
    have hold : F.tables old = 0 ∧ F.pages old = F.leafFrames top kids virt := by
      rw [leafFrames, PTree.lookup, hs]
      cases old with
      | empty => exact ⟨rfl, rfl⟩
      | page e => exact ⟨rfl, rfl⟩
      | table e sub => exact (rep_table_zero hrep).elim
    have htab := tables_set (F := F) t hs
    have hpag := pages_set (F := F) t hs
    rw [hold.1, htables, add_zero, add_zero] at htab
    rw [hold.2] at hpag
    refine ⟨⟨?_, ⟨h.frame, hent, ?_, ?_⟩, ?_, ?_⟩, ?_⟩
    · exact hA.within hwithin (fun f hf hm => not_mem_of_add hnd hf hm) rfl
    · intro j hj
      have hne : j ≠ PTree.index virt top := by
        rintro rfl
        exact absurd hv (Nat.not_lt.mpr hj)
      rw [PTree.set_apply_of_ne t hne, h.upper j hj]
    · intro j hj
      have hload : (p.setEntry pt i v).entry root j = p.entry root j := by
        by_cases hpr : pt = root
        · -- the root is the last table, and the index is a user's
          have htop : top = 0 := by
            by_contra hz
            exact hne (Nat.pos_of_ne_zero hz) hpr
          subst htop
          obtain ⟨rfl, rfl⟩ : root = pt ∧ tableIndex virt 0 = i := by simpa [getPte] using hw
          exact Phys.entry_setEntry_of_ne (by omega)
        · exact load64_within hsingle h.frame (by simpa using fun e => hpr e.symm) j.isLt
      rw [Phys.entry, Phys.entry] at hload
      rw [hload]
      exact (h.kernel j hj).within hwithin hK
    · rw [PteFormat.frames, PteFormat.frames, htab, add_assoc, add_assoc, hpag, add_assoc, add_assoc]
    · exact hwithin.mono (Multiset.subset_of_le (Multiset.le_add_left _ _))
    · intro v'
      unfold PTree.lookup
      split
      · rename_i hp
        rw [PTree.slot_set_self (by rw [hs]; rfl) t hp, Option.bind_some]
      · rename_i hp
        rw [PTree.slot_set_of_ne t hp]

theorem Grown.remapped (h : F.IsSpace K p.mem top bound root kids)
    (hK : ∀ f ∈ K, IsFrame f ∧ f ∉ A + F.frames root kids)
    (hg : F.Grown p p' top root bound A B kids kids') :
    F.Remapped K p p' top bound root A B kids kids' 0 0 := by
  have hsub : (A + (root ::ₘ sumFin fun j => F.tables (kids j))) ⊆ A + F.frames root kids := by
    refine Multiset.subset_of_le ?_
    rw [PteFormat.frames, ← add_assoc]
    exact Multiset.le_add_right _ _
  refine ⟨hg.avail, ⟨h.frame, hg.entries, fun j hj => by rw [hg.upper j hj, h.upper j hj], ?_⟩, ?_,
    hg.within.mono hsub⟩
  · intro j hj
    have hload := hg.entry j hj
    rw [Phys.entry, Phys.entry] at hload
    rw [hload]
    exact (h.kernel j hj).within hg.within fun f hf => ⟨(hK f hf).1, fun hm => (hK f hf).2 (hsub hm)⟩
  · have ht := hg.tables
    rw [PteFormat.frames, PteFormat.frames, hg.pages, ← Multiset.singleton_add, ← Multiset.singleton_add]
    generalize (sumFin fun j => F.tables (kids' j)) = x at ht ⊢
    generalize (sumFin fun j => F.tables (kids j)) = y at ht ⊢
    calc _ = B + x + ({root} + sumFin fun j => F.pages (kids j)) := by abel
      _ = _ := by
        rw [ht]
        abel

/-- A failed mapping may have made tables, and was refused a frame; a successful
one has the new leaf and drops what the address mapped before. -/
theorem IsSpace.mapPage (hF : F.Lawful) (h : F.IsSpace K p.mem top bound root kids) (hA : p.Avail A)
    (hfit : F.Fits A) (hnd : (A + F.frames root kids).Nodup)
    (hK : ∀ f ∈ K, IsFrame f ∧ f ∉ A + F.frames root kids) (hv : tableIndex virt top < bound)
    {phys : Nat} (hf : IsFrame phys) (hlim : phys < F.limit) (flags : Nat) :
    ∃ B kids',
      ((F.mapPage top p root virt phys flags).1 = false ∧ F.refuses top p root virt = true ∧
        F.Remapped K p (F.mapPage top p root virt phys flags).2 top bound root A B kids kids' 0 0 ∧
        ∀ v, PTree.lookup top kids' v = PTree.lookup top kids v) ∨
      ((F.mapPage top p root virt phys flags).1 = true ∧ F.refuses top p root virt = false ∧
        F.Remapped K p (F.mapPage top p root virt phys flags).2 top bound root A B kids kids' {phys}
          (F.leafFrames top kids virt) ∧
        ∀ v, PTree.lookup top kids' v = if PTree.SamePath top virt v
          then some (F.leaf phys flags) else PTree.lookup top kids v) := by
  have htab : (A + (root ::ₘ sumFin fun j => F.tables (kids j))).Nodup := by
    rw [PteFormat.frames, ← add_assoc] at hnd
    exact (Multiset.nodup_add.mp hnd).1
  obtain ⟨B, grown, hg, hiff, hwalk⟩ := getPte_create hF hfit hA h.entries h.frame htab hv
  have hre := hg.remapped h hK
  have hfr := hre.frames
  rw [add_zero, add_zero] at hfr
  unfold PteFormat.mapPage
  generalize F.getPte true top p root virt = r at hg hwalk hre hiff ⊢
  obtain ⟨_ | ⟨pt, i⟩, p₁⟩ := r
  · exact ⟨B, grown, .inl ⟨rfl, hiff.mp rfl, hre, hg.lookup⟩⟩
  · obtain ⟨hpres, hends, haddr, hlt⟩ := hF.leaf phys flags hf hlim
    have hrefuses : F.refuses top p root virt = false := by
      rw [← Bool.not_eq_true, ← hiff]
      exact Option.some_ne_none _
    have hnd₁ : (B + F.frames root grown).Nodup := hre.nodup (by rwa [add_zero])
    have ht : F.Rep p₁.mem 0 (F.leaf phys flags) (.page (F.leaf phys flags)) :=
      ⟨rfl, hpres, hends, haddr.symm ▸ hf⟩
    have hK₁ : ∀ f ∈ K, IsFrame f ∧ f ∉ F.frames root grown := fun f hf => by
      refine ⟨(hK f hf).1, fun hm => (hK f hf).2 ?_⟩
      rw [← hfr]
      exact Multiset.mem_add.mpr (.inr hm)
    obtain ⟨hset, hlook⟩ := hre.space.setEntry hre.avail hnd₁ hK₁ hv (hwalk _ rfl) ht hlt
    refine ⟨B, _, .inr ⟨rfl, hrefuses, ⟨hset.avail, hset.space, ?_, ?_⟩, ?_⟩⟩
    · have hold : F.leafFrames top grown virt = F.leafFrames top kids virt := by
        rw [leafFrames, leafFrames, hg.lookup]
      have hsf := hset.frames
      rw [hold, pages, haddr, hfr] at hsf
      exact hsf
    · refine hre.within.trans ?_
      rw [← hfr]
      exact hset.within
    · intro v
      rw [hlook, hg.lookup]
      rfl

def userLeaf (F : PteFormat) (level : Nat) (kids : Fin 512 → PTree) (virt : Nat) : Option Nat :=
  (PTree.lookup level kids virt).filter F.user

theorem IsSpace.userPte (h : F.IsSpace K p.mem top bound root kids) (hv : tableIndex virt top < bound) :
    match F.userLeaf top kids virt with
    | some e => ∃ pt i, (F.getPte false top p root virt).1 = some (pt, i) ∧
        F.userPte top p root virt = some (pt, i, e)
    | none => F.userPte top p root virt = none := by
  have hpte := h.entries.userPte hv
  unfold userLeaf
  cases hl : PTree.lookup top kids virt with
  | none =>
    rw [hl] at hpte
    exact hpte
  | some e =>
    rw [hl] at hpte
    obtain ⟨pt, i, hw, hpte⟩ := hpte
    cases hu : F.user e with
    | false =>
      rw [hu] at hpte
      simpa [Option.filter, hu] using hpte
    | true =>
      rw [hu] at hpte
      simp only [Option.filter, hu, if_true]
      exact ⟨pt, i, hw, hpte⟩

theorem userLeaf_eq_some :
    F.userLeaf top kids virt = some e ↔ PTree.lookup top kids virt = some e ∧ F.user e = true := by
  rw [userLeaf, Option.filter_eq_some_iff]

theorem IsSpace.protectUser (hF : F.Lawful) (h : F.IsSpace K p.mem top bound root kids)
    (hA : p.Avail A) (hnd : (A + F.frames root kids).Nodup)
    (hK : ∀ f ∈ K, IsFrame f ∧ f ∉ A + F.frames root kids) (hv : tableIndex virt top < bound)
    (flags : Nat) :
    match F.userLeaf top kids virt with
    | none => F.protectUser top p root virt flags = (false, p)
    | some e => (F.protectUser top p root virt flags).1 = true ∧ ∃ kids',
        F.Remapped K p (F.protectUser top p root virt flags).2 top bound root A A kids kids' 0 0 ∧
        ∀ v, PTree.lookup top kids' v = if PTree.SamePath top virt v
          then some (F.protect e flags) else PTree.lookup top kids v := by
  have hpte := h.userPte hv
  unfold PteFormat.protectUser
  cases hl : F.userLeaf top kids virt with
  | none =>
    rw [hl] at hpte
    simp only [hpte]
  | some e =>
    rw [hl] at hpte
    obtain ⟨pt, i, hw, hsome⟩ := hpte
    obtain ⟨hlook, -⟩ := userLeaf_eq_some.mp hl
    obtain ⟨⟨hlt, hp, hends, hframe⟩, -⟩ := h.entries.leaf hv hlook
    obtain ⟨hp', hends', haddr, hlt', -, -⟩ := hF.protect e flags hlt hp hends
    have ht : F.Rep p.mem 0 (F.protect e flags) (.page (F.protect e flags)) :=
      ⟨rfl, hp', hends', haddr.symm ▸ hframe⟩
    obtain ⟨hset, hset'⟩ := h.setEntry hA hnd
      (fun f hf => ⟨(hK f hf).1, fun hm => (hK f hf).2 (Multiset.mem_add.mpr (.inr hm))⟩) hv hw ht hlt'
    simp only [hsome]
    refine ⟨trivial, _, ⟨hset.avail, hset.space, ?_, hset.within⟩, hset'⟩
    have hfr := hset.frames
    rw [leafFrames, hlook, pages, haddr] at hfr
    rw [add_zero, add_zero]
    exact add_right_cancel hfr

theorem IsSpace.unmapUser (hF : F.Lawful) (h : F.IsSpace K p.mem top bound root kids)
    (hA : p.Avail A) (hnd : (A + F.frames root kids).Nodup)
    (hK : ∀ f ∈ K, IsFrame f ∧ f ∉ A + F.frames root kids) (hv : tableIndex virt top < bound) :
    match F.userLeaf top kids virt with
    | none => F.unmapUser top p root virt = (false, p)
    | some e => (F.unmapUser top p root virt).1 = true ∧ ∃ kids',
        F.Remapped K p (F.unmapUser top p root virt).2 top bound root A (F.addr e ::ₘ A) kids kids' 0 0 ∧
        ∀ v, PTree.lookup top kids' v = if PTree.SamePath top virt v then none
          else PTree.lookup top kids v := by
  have hpte := h.userPte hv
  unfold PteFormat.unmapUser
  cases hl : F.userLeaf top kids virt with
  | none =>
    rw [hl] at hpte
    simp only [hpte]
  | some e =>
    rw [hl] at hpte
    obtain ⟨pt, i, hw, hsome⟩ := hpte
    obtain ⟨hlook, -⟩ := userLeaf_eq_some.mp hl
    obtain ⟨⟨-, -, -, hframe⟩, hmem⟩ := h.entries.leaf hv hlook
    obtain ⟨hset, hset'⟩ := h.setEntry (v := 0) (t := .empty) hA hnd
      (fun f hf => ⟨(hK f hf).1, fun hm => (hK f hf).2 (Multiset.mem_add.mpr (.inr hm))⟩) hv hw
      (rep_empty hF.absent) (by decide)
    have hfr := hset.frames
    rw [leafFrames, hlook, pages, add_zero, add_assoc, add_right_inj] at hfr
    have hown : F.addr e ∈ F.frames root kids := Multiset.mem_add.mpr (.inr hmem)
    have hnA : F.addr e ∉ A := fun hm => not_mem_of_add hnd hm hown
    have hfree := Phys.within_pmmFreePage (p := p.setEntry pt i 0) (S := {F.addr e}) hframe
      (Multiset.mem_singleton_self _)
    simp only [hsome]
    refine ⟨trivial, _, ⟨hset.avail.pmmFreePage hframe hnA, hset.space.within hfree ?_ ?_, ?_, ?_⟩, ?_⟩
    · intro f hf
      refine ⟨(hK f hf).1, fun hm => (hK f hf).2 ?_⟩
      rw [Multiset.mem_singleton.mp hm]
      exact Multiset.mem_add.mpr (.inr hown)
    · intro f hf
      rw [Multiset.mem_singleton]
      rintro rfl
      have hsub := (Multiset.nodup_add.mp hnd).2.1
      rw [← hfr] at hsub
      exact not_mem_of_add hsub (Multiset.mem_add.mpr (.inl hf)) (Multiset.mem_singleton_self _)
    · rw [← hfr, ← Multiset.singleton_add]
      abel
    · refine hset.within.trans (hfree.mono fun f hf => ?_)
      rw [Multiset.mem_singleton.mp hf]
      exact Multiset.mem_add.mpr (.inr hown)
    · exact hset'

end PteFormat

end NarcOs
