import NarcOs.Mm.PageTree

/-!
# Address spaces

The walk that creates tables, and mapping and unmapping a user page, over the
trees of `NarcOs.Mm.PageTree`. Each lemma says what the operation does to the
frames that the allocator and the space have between them, which lookups
change, and that no frame outside these is written. The last is how another
space, or a file, is known to keep its own frames.
-/

namespace NarcOs

section
variable {S T A : Multiset Nat} {m m' : Mem} {a b level : Nat} {kids : Fin 512 → PTree}

theorem PTree.Entries.within (h : PTree.Entries m level a b kids) (hm : Mem.Within S m m')
    (ha : IsFrame a) (hn : a ∉ S) (hd : ∀ j, ∀ f ∈ (kids j).tables, f ∉ S) :
    PTree.Entries m' level a b kids := by
  have hd' : ∀ j : Fin 512, j.val < b → ∀ f ∈ (x86Pte true).tables (kids j), f ∉ S := fun j _ => by
    rw [PTree.tables_radix]
    exact hd j
  exact (PTree.entries_radix true).mp (PteFormat.Entries.within ((PTree.entries_radix true).mpr h) hm ha hn hd')

end

namespace Phys

variable {p : Phys} {level a b virt : Nat} {A : Multiset Nat} {kids : Fin 512 → PTree} {user : Bool}

-- ---------------------------------------------------------------------------
-- Creating tables
-- ---------------------------------------------------------------------------

def walkCreate (user : Bool) : Nat → Phys → Nat → Nat → Option (Nat × Nat) × Phys
  | 0, p, table, virt => (some (table, tableIndex virt 0), p)
  | level + 1, p, table, virt =>
    match p.nextTable table (tableIndex virt (level + 1)) true user with
    | (none, p) => (none, p)
    | (some next, p) => walkCreate user level p next virt

theorem walkCreate_radix (user : Bool) (table : Nat) :
    (x86Pte user).getPte true level p table virt = walkCreate user level p table virt := by
  induction level generalizing p table with
  | zero => rfl
  | succ level ih =>
    rw [PteFormat.getPte, walkCreate, nextTable_radix]
    rcases (x86Pte user).nextTable p table (tableIndex virt (level + 1)) true with ⟨_ | next, q⟩
    · rfl
    · exact ih next

theorem getPte_create (root : Nat) :
    p.getPte root virt true user = walkCreate user 3 p root virt :=
  (getPte_radix p root virt true user).trans (walkCreate_radix user root)

structure Grown (p p' : Phys) (level a b : Nat) (A B : Multiset Nat) (kids kids' : Fin 512 → PTree) :
    Prop where
  avail : p'.Avail B
  entries : PTree.Entries p'.mem level a b kids'
  tables : (B + sumFin fun j => (kids' j).tables) = A + sumFin fun j => (kids j).tables
  pages : (sumFin fun j => (kids' j).pages) = sumFin fun j => (kids j).pages
  lookup : ∀ v, PTree.lookup level kids' v = PTree.lookup level kids v
  upper : ∀ j : Fin 512, b ≤ j → kids' j = kids j
  within : Mem.Within (A + (a ::ₘ sumFin fun j => (kids j).tables)) p.mem p'.mem

theorem grown_radix {p' : Phys} {B : Multiset Nat} {kids' : Fin 512 → PTree}
    (h : (x86Pte user).Grown p p' level a b A B kids kids') : Grown p p' level a b A B kids kids' where
  avail := h.avail
  entries := (PTree.entries_radix user).mp h.entries
  tables := by simpa only [PTree.tables_radix] using h.tables
  pages := by simpa only [PTree.pages_radix] using h.pages
  lookup := h.lookup
  upper := h.upper
  within := by simpa only [PTree.tables_radix] using h.within

/-- The walk with creation grows the trees; when it reaches an entry, a later
walk reaches the same one. -/
theorem walkCreate_spec (user : Bool) (hA : p.Avail A) (h : PTree.Entries p.mem level a b kids) (ha : IsFrame a)
    (hnd : (A + (a ::ₘ sumFin fun j => (kids j).tables)).Nodup) (hi : tableIndex virt level < b) :
    ∃ B kids', Grown p (walkCreate user level p a virt).2 level a b A B kids kids' ∧
      ∀ r, (walkCreate user level p a virt).1 = some r →
        (walkCreate user level p a virt).2.walkPte level a virt = some r := by
  have hfit : (x86Pte user).Fits A := fun f hf => by
    have hbelow := (hA.isFrame hf).below
    show f < 2 ^ 52
    omega
  obtain ⟨B, kids', hg, -, hwalk⟩ := PteFormat.getPte_create (x86Pte_lawful user) hfit hA
    ((PTree.entries_radix user).mpr h) ha (by simpa only [PTree.tables_radix] using hnd) hi
  rw [walkCreate_radix] at hg hwalk
  simp only [walkPte_radix] at hwalk
  exact ⟨B, kids', grown_radix hg, hwalk⟩

end Phys

-- ---------------------------------------------------------------------------
-- Spaces
-- ---------------------------------------------------------------------------

def spaceFrames (root : Nat) (kids : Fin 512 → PTree) : Multiset Nat :=
  (root ::ₘ sumFin fun j => (kids j).tables) + sumFin fun j => (kids j).pages

structure IsSpace (m : Mem) (root : Nat) (kids : Fin 512 → PTree) : Prop where
  frame : IsFrame root
  entries : PTree.Entries m 3 root 256 kids
  upper : ∀ j : Fin 512, 256 ≤ j.val → kids j = .empty

section
variable {m m' : Mem} {root virt : Nat} {kids : Fin 512 → PTree} {A S : Multiset Nat} {p : Phys}

theorem IsSpace.within (h : IsSpace m root kids) (hm : Mem.Within S m m')
    (hd : ∀ f ∈ root ::ₘ sumFin fun j => (kids j).tables, f ∉ S) : IsSpace m' root kids where
  frame := h.frame
  entries := h.entries.within hm h.frame (hd root (Multiset.mem_cons_self _ _)) fun j f hf =>
    hd f (Multiset.mem_cons_of_mem (mem_sumFin.mpr ⟨j, hf⟩))
  upper := h.upper

theorem IsSpace.isFrame (h : IsSpace m root kids) {f : Nat} (hf : f ∈ spaceFrames root kids) :
    IsFrame f := by
  have hlow : ∀ j, (∃ f, f ∈ (kids j).tables ∨ f ∈ (kids j).pages) → j.val < 256 := by
    rintro j ⟨f, hf⟩
    by_contra hj
    rw [h.upper j (Nat.not_lt.mp hj)] at hf
    simp [PTree.tables, PTree.pages] at hf
  rcases Multiset.mem_add.mp hf with hf | hf
  · rcases Multiset.mem_cons.mp hf with rfl | hf
    · exact h.frame
    · obtain ⟨j, hj⟩ := mem_sumFin.mp hf
      exact (h.entries j (hlow j ⟨f, .inl hj⟩)).isFrame_tables hj
  · obtain ⟨j, hj⟩ := mem_sumFin.mp hf
    exact (h.entries j (hlow j ⟨f, .inr hj⟩)).isFrame_pages hj

def UserHalf (virt : Nat) : Prop := tableIndex virt 3 < 256

theorem userHalf_of_lt (h : virt < 2 ^ 47) : UserHalf virt := by
  unfold UserHalf tableIndex
  omega

theorem IsSpace.presentPte (h : IsSpace p.mem root kids) (hv : UserHalf virt) :
    match PTree.lookup 3 kids virt with
    | some e => ∃ pt i, p.presentPte root virt = some (pt, i, e) ∧
        p.walkPte 3 root virt = some (pt, i) ∧ PTree.slot 3 kids virt = some (.page e)
    | none => p.presentPte root virt = none := by
  have hslot := Phys.walkPte_slot h.entries hv
  unfold Phys.presentPte PTree.lookup
  rw [Phys.getPte_eq]
  cases hs : PTree.slot 3 kids virt with
  | none =>
    rw [hs] at hslot
    simp [hslot]
  | some t =>
    rw [hs] at hslot
    obtain ⟨pt, i, hw, hrep⟩ := hslot
    cases t with
    | empty =>
      have : isPresent (p.entry pt i) = false := hrep
      simp [hw, this, PTree.leaf]
    | page e =>
      obtain ⟨rfl, hp, -⟩ := hrep
      simp [hw, hp, PTree.leaf]
    | table e sub => exact absurd hrep (by simp [PTree.Rep])

theorem PTree.Entries.isFrame_leaf {e : Nat} {level a b : Nat}
    (h : PTree.Entries m level a b kids) (hi : tableIndex virt level < b)
    (hl : PTree.lookup level kids virt = some e) :
    isPresent e = true ∧ IsFrame (pteAddr e) ∧ pteAddr e ∈ sumFin fun j => (kids j).pages := by
  obtain ⟨⟨-, hp, -, hf⟩, hmem⟩ := ((PTree.entries_radix true).mpr h).leaf hi hl
  simp only [PTree.pages_radix] at hmem
  exact ⟨hp, hf, hmem⟩

def leafFrames (kids : Fin 512 → PTree) (virt : Nat) : Multiset Nat :=
  match PTree.lookup 3 kids virt with
  | some e => {pteAddr e}
  | none => 0

/-- The leaf of an address is replaced by the entry `v`. -/
theorem IsSpace.setEntry (h : IsSpace p.mem root kids) (hA : p.Avail A)
    (hnd : (A + spaceFrames root kids).Nodup) (hv : UserHalf virt) {pt i v : Nat}
    (hw : p.walkPte 3 root virt = some (pt, i)) {t : PTree} (ht : PTree.Rep p.mem 0 v t)
    (hlt : v < 2 ^ 64) :
    (p.setEntry pt i v).Avail A ∧
      IsSpace (p.setEntry pt i v).mem root (PTree.set 3 kids virt t) ∧
      spaceFrames root (PTree.set 3 kids virt t) + leafFrames kids virt =
        spaceFrames root kids + t.pages ∧
      (∀ v', PTree.lookup 3 (PTree.set 3 kids virt t) v' =
        if PTree.SamePath 3 virt v' then t.leaf else PTree.lookup 3 kids v') ∧
      Mem.Within (root ::ₘ sumFin fun j => (kids j).tables) p.mem (p.setEntry pt i v).mem := by
  have hnd' := (Multiset.nodup_add.mp hnd).2.1
  obtain ⟨hi, hpt, hmem, hent⟩ := Phys.walkPte_store h.entries h.frame
    (Multiset.nodup_add.mp hnd').1 hv hw hlt ht
  have hin : pt ∈ root ::ₘ sumFin fun j => (kids j).tables := by
    rcases hmem with rfl | ⟨j, hj⟩
    · exact Multiset.mem_cons_self _ _
    · exact Multiset.mem_cons_of_mem (mem_sumFin.mpr ⟨j, hj⟩)
  have hwithin := Phys.within_setEntry (p := p) (v := v) hpt hin hi
  have htables : t.tables = 0 := by
    cases t with
    | empty => rfl
    | page e => rfl
    | table e sub => exact absurd ht (by simp [PTree.Rep])
  have hslot := Phys.walkPte_slot h.entries hv
  cases hs : PTree.slot 3 kids virt with
  | none =>
    rw [hs] at hslot
    simp [hslot] at hw
  | some old =>
    rw [hs] at hslot
    obtain ⟨_, _, -, hrep⟩ := hslot
    have hold : old.tables = 0 ∧ old.pages = leafFrames kids virt := by
      rw [leafFrames, PTree.lookup, hs]
      cases old with
      | empty => exact ⟨rfl, rfl⟩
      | page e => exact ⟨rfl, rfl⟩
      | table e sub => exact absurd hrep (by simp [PTree.Rep])
    have htab := PTree.tables_set t hs
    have hpag := PTree.pages_set t hs
    rw [hold.1, htables, add_zero, add_zero] at htab
    rw [hold.2] at hpag
    refine ⟨?_, ⟨h.frame, hent, ?_⟩, ?_, ?_, hwithin⟩
    · refine hA.within hwithin (fun f hf hm => ?_) rfl
      exact not_mem_of_add hnd hf (Multiset.mem_add.mpr (.inl hm))
    · intro j hj
      have hne : j ≠ PTree.index virt 3 := by
        rintro rfl
        exact absurd hv (Nat.not_lt.mpr hj)
      rw [PTree.set_apply_of_ne t hne, h.upper j hj]
    · rw [spaceFrames, spaceFrames, htab, add_assoc, hpag, add_assoc]
    · intro v'
      unfold PTree.lookup
      split
      · rename_i hp
        rw [PTree.slot_set_self (by rw [hs]; rfl) t hp, Option.bind_some]
      · rename_i hp
        rw [PTree.slot_set_of_ne t hp]

-- ---------------------------------------------------------------------------
-- Mapping and unmapping
-- ---------------------------------------------------------------------------

structure Remapped (p p' : Phys) (root : Nat) (A B : Multiset Nat) (kids kids' : Fin 512 → PTree)
    (gained lost : Multiset Nat) : Prop where
  avail : p'.Avail B
  space : IsSpace p'.mem root kids'
  frames : B + spaceFrames root kids' + lost = A + spaceFrames root kids + gained
  within : Mem.Within (A + spaceFrames root kids) p.mem p'.mem

theorem Remapped.nodup {p' : Phys} {B gained lost : Multiset Nat} {kids' : Fin 512 → PTree}
    (h : Remapped p p' root A B kids kids' gained lost)
    (hnd : (A + spaceFrames root kids + gained).Nodup) : (B + spaceFrames root kids').Nodup := by
  rw [← h.frames] at hnd
  exact (Multiset.nodup_add.mp hnd).1

theorem Phys.Grown.remapped {p' : Phys} {B : Multiset Nat} {kids' : Fin 512 → PTree}
    (h : IsSpace p.mem root kids) (hg : Phys.Grown p p' 3 root 256 A B kids kids') :
    Remapped p p' root A B kids kids' 0 0 := by
  refine ⟨hg.avail, ⟨h.frame, hg.entries, fun j hj => by rw [hg.upper j hj, h.upper j hj]⟩, ?_, ?_⟩
  · have ht := hg.tables
    rw [spaceFrames, spaceFrames, hg.pages, ← Multiset.singleton_add, ← Multiset.singleton_add]
    generalize (sumFin fun j => (kids' j).tables) = x at ht ⊢
    generalize (sumFin fun j => (kids j).tables) = y at ht ⊢
    calc _ = B + x + ({root} + sumFin fun j => (kids j).pages) := by abel
      _ = _ := by
        rw [ht]
        abel
  · refine hg.within.mono (Multiset.subset_of_le ?_)
    rw [spaceFrames, ← add_assoc]
    exact Multiset.le_add_right _ _

/-- A failed mapping may have made tables; a successful one has the new leaf
and drops what the address mapped before. -/
theorem IsSpace.vmmMap (h : IsSpace p.mem root kids) (hA : p.Avail A)
    (hnd : (A + spaceFrames root kids).Nodup) (hv : UserHalf virt) {phys : Nat} (hf : IsFrame phys)
    (flags : Nat) (user : Bool) :
    ∃ B kids',
      ((p.vmmMap root virt phys flags user).1 = false ∧
        Remapped p (p.vmmMap root virt phys flags user).2 root A B kids kids' 0 0 ∧
        ∀ v, PTree.lookup 3 kids' v = PTree.lookup 3 kids v) ∨
      ((p.vmmMap root virt phys flags user).1 = true ∧
        Remapped p (p.vmmMap root virt phys flags user).2 root A B kids kids' {phys}
          (leafFrames kids virt) ∧
        ∀ v, PTree.lookup 3 kids' v = if PTree.SamePath 3 virt v
          then some (leafEntry phys flags user) else PTree.lookup 3 kids v) := by
  have htab : (A + (root ::ₘ sumFin fun j => (kids j).tables)).Nodup := by
    rw [spaceFrames, ← add_assoc] at hnd
    exact (Multiset.nodup_add.mp hnd).1
  obtain ⟨B, grown, hg, hwalk⟩ := Phys.walkCreate_spec user hA h.entries h.frame htab hv
  have hre := hg.remapped h
  unfold Phys.vmmMap
  rw [Phys.getPte_create]
  generalize Phys.walkCreate user 3 p root virt = r at hg hwalk hre ⊢
  obtain ⟨_ | ⟨pt, i⟩, p₁⟩ := r
  · exact ⟨B, grown, .inl ⟨rfl, hre, hg.lookup⟩⟩
  · obtain ⟨haddr, hpres, -, -, hlt⟩ := leafEntry_spec hf flags user
    have hnd₁ : (B + spaceFrames root grown).Nodup := hre.nodup (by rwa [add_zero])
    have ht : PTree.Rep p₁.mem 0 (leafEntry phys flags user) (.page (leafEntry phys flags user)) :=
      ⟨rfl, hpres, haddr.symm ▸ hf⟩
    obtain ⟨hav, hsp, hframes, hlook, hwithin⟩ :=
      hre.space.setEntry hre.avail hnd₁ hv (hwalk _ rfl) ht hlt
    refine ⟨B, _, .inr ⟨rfl, ⟨hav, hsp, ?_, hre.within.trans (hwithin.mono ?_)⟩, ?_⟩⟩
    · have hold : leafFrames grown virt = leafFrames kids virt := by
        rw [leafFrames, leafFrames, hg.lookup]
      have hfr := hre.frames
      rw [add_zero, add_zero] at hfr
      rw [hold, PTree.pages, haddr] at hframes
      rw [add_assoc, hframes, ← add_assoc, hfr]
    · have hfr := hre.frames
      rw [add_zero, add_zero] at hfr
      rw [← hfr, spaceFrames, ← add_assoc]
      exact Multiset.subset_of_le ((Multiset.le_add_left _ _).trans (Multiset.le_add_right _ _))
    · intro v
      rw [hlook, hg.lookup]
      rfl

/-- Unmapping fails and changes nothing, or returns the frame to the allocator. -/
theorem IsSpace.vmmUnmapUser (h : IsSpace p.mem root kids) (hA : p.Avail A)
    (hnd : (A + spaceFrames root kids).Nodup) (hv : UserHalf virt) :
    (p.vmmUnmapUser root virt = (false, p) ∧
      ∀ e, PTree.lookup 3 kids virt = some e → isUser e = false) ∨
    ∃ e kids', PTree.lookup 3 kids virt = some e ∧ isUser e = true ∧
      (p.vmmUnmapUser root virt).1 = true ∧
      Remapped p (p.vmmUnmapUser root virt).2 root A (pteAddr e ::ₘ A) kids kids' 0 0 ∧
      ∀ v, PTree.lookup 3 kids' v = if PTree.SamePath 3 virt v then none
        else PTree.lookup 3 kids v := by
  have hpres := h.presentPte hv
  unfold Phys.vmmUnmapUser
  cases hl : PTree.lookup 3 kids virt with
  | none =>
    rw [hl] at hpres
    simp [hpres]
  | some e =>
    rw [hl] at hpres
    obtain ⟨pt, i, hsome, hw, -⟩ := hpres
    simp only [hsome]
    cases hu : isUser e with
    | false => simp [hu]
    | true =>
      right
      obtain ⟨-, hframe, hmem⟩ := h.entries.isFrame_leaf hv hl
      obtain ⟨hav, hsp, hframes, hlook, hwithin⟩ := h.setEntry (v := 0) (t := .empty) hA hnd hv hw rfl
        (by decide)
      rw [leafFrames, hl, PTree.pages, add_zero] at hframes
      have hown : pteAddr e ∈ spaceFrames root kids := Multiset.mem_add.mpr (.inr hmem)
      have hnA : pteAddr e ∉ A := fun hm => not_mem_of_add hnd hm hown
      have hfree := Phys.within_pmmFreePage (p := p.setEntry pt i 0) (S := {pteAddr e}) hframe
        (Multiset.mem_singleton_self _)
      refine ⟨e, _, rfl, hu, rfl, ⟨hav.pmmFreePage hframe hnA, hsp.within hfree ?_, ?_, ?_⟩, ?_⟩
      · intro f hf
        rw [Multiset.mem_singleton]
        rintro rfl
        have hsub := (Multiset.nodup_add.mp hnd).2.1
        rw [← hframes] at hsub
        exact not_mem_of_add hsub (Multiset.mem_add.mpr (.inl hf)) (Multiset.mem_singleton_self _)
      · rw [← hframes, ← Multiset.singleton_add]
        abel
      · refine (hwithin.mono ?_).trans (hfree.mono ?_)
        · rw [spaceFrames, ← add_assoc]
          exact Multiset.subset_of_le ((Multiset.le_add_left _ _).trans (Multiset.le_add_right _ _))
        · intro f hf
          rw [Multiset.mem_singleton.mp hf]
          exact Multiset.mem_add.mpr (.inr hown)
      · intro v
        rw [hlook]
        rfl

theorem IsSpace.vmmUserPhys (h : IsSpace p.mem root kids) (hv : UserHalf virt) :
    p.vmmUserPhys root virt ≠ 0 ↔ ∃ e, PTree.lookup 3 kids virt = some e ∧ isUser e = true := by
  have hpres := h.presentPte hv
  unfold Phys.vmmUserPhys
  cases hl : PTree.lookup 3 kids virt with
  | none =>
    rw [hl] at hpres
    simp [hpres]
  | some e =>
    rw [hl] at hpres
    obtain ⟨pt, i, hsome, -, -⟩ := hpres
    obtain ⟨-, hframe, -⟩ := h.entries.isFrame_leaf hv hl
    have hor : pteAddr e ||| virt % pageSize = pteAddr e + virt % pageSize :=
      or_eq_add hframe.aligned (Nat.mod_lt _ (by decide))
    have := hframe.pos
    simp only [hsome]
    cases hu : isUser e with
    | false => simp [hu]
    | true =>
      simp only [not_true_eq_false, if_false, hor]
      exact ⟨fun _ => ⟨e, rfl, hu⟩, fun _ => by omega⟩

theorem Phys.Avail.vmmSpaceCreate (hA : p.Avail A) (cr3 : Nat) :
    ((p.vmmSpaceCreate cr3).1 = none ∧ (p.vmmSpaceCreate cr3).2.Avail A ∧
      (p.vmmSpaceCreate cr3).2.mem = p.mem) ∨
    ∃ root B, (p.vmmSpaceCreate cr3).1 = some root ∧ A = root ::ₘ B ∧
      (p.vmmSpaceCreate cr3).2.Avail B ∧
      IsSpace (p.vmmSpaceCreate cr3).2.mem root (fun _ => .empty) ∧
      Mem.Within {root} p.mem (p.vmmSpaceCreate cr3).2.mem := by
  unfold Phys.vmmSpaceCreate
  rcases hA.allocPage with ⟨hz, hav, hmem⟩ | ⟨B, hne, hAB, hav, hmem⟩
  · left
    simp only [if_pos hz]
    exact ⟨trivial, hav, hmem⟩
  · right
    simp only [if_neg hne]
    generalize p.allocPage.1 = root at *
    generalize p.allocPage.2 = q at *
    have hframe : IsFrame root := hA.isFrame (hAB ▸ Multiset.mem_cons_self _ _)
    have hnB : root ∉ B := by
      have := hA.nodup
      rw [hAB] at this
      exact (Multiset.nodup_cons.mp this).1
    -- the copied entries lie behind the lower half
    have copy : ∀ l : List Nat, (∀ i ∈ l, i < 256) → ∀ r : Phys, r.Avail B →
        (∀ x < 2048, r.mem (root + x) = 0) →
        let r' := l.foldl (fun r i => r.setEntry root (256 + i) (r.entry cr3 (256 + i))) r
        r'.Avail B ∧ (∀ x < 2048, r'.mem (root + x) = 0) ∧ Mem.Within {root} r.mem r'.mem := by
      intro l
      induction l with
      | nil => exact fun _ r hr hz => ⟨hr, hz, Mem.Within.refl _ _⟩
      | cons i l ih =>
        intro hl r hr hz
        have hi := hl i List.mem_cons_self
        have hw := Phys.within_setEntry (p := r) (S := {root}) (v := r.entry cr3 (256 + i)) hframe
          (Multiset.mem_singleton_self _) (show 256 + i < 512 by omega)
        obtain ⟨h₁, h₂, h₃⟩ := ih (fun j hj => hl j (List.mem_cons_of_mem _ hj))
          (r.setEntry root (256 + i) (r.entry cr3 (256 + i)))
          (hr.within hw (fun f hf => by
            rw [Multiset.mem_singleton]
            rintro rfl
            exact hnB hf) rfl)
          (fun x hx => (Mem.store64_apply_outside (by omega)).trans (hz x hx))
        exact ⟨h₁, h₂, hw.trans h₃⟩
    obtain ⟨h₁, h₂, h₃⟩ := copy (List.range 256) (fun i hi => List.mem_range.mp hi) q hav
      fun x hx => by rw [hmem, Mem.memset_apply_inside (by omega)]
    refine ⟨root, B, rfl, hAB, h₁, ⟨hframe, ?_, fun _ _ => rfl⟩, ?_⟩
    · intro j hj
      rw [Mem.load64_zero fun x hx => ?_]
      · exact PTree.rep_empty rfl
      · rw [Nat.add_assoc]
        exact h₂ _ (by omega)
    · have hw : Mem.Within {root} p.mem q.mem :=
        hmem ▸ Mem.within_memset hframe (Multiset.mem_singleton_self _) 0
      exact hw.trans h₃

theorem Phys.vmmSpaceCreate_denied (p : Phys) (cr3 : Nat) :
    (p.vmmSpaceCreate cr3).2.denied = p.denied.tail := by
  have hcopy : ∀ (l : List Nat) (root : Nat) (q : Phys),
      (l.foldl (fun p i => p.setEntry root (256 + i) (p.entry cr3 (256 + i))) q).denied = q.denied := by
    intro l root
    induction l with
    | nil => exact fun _ => rfl
    | cons i l ih => exact fun q => ih _
  have halloc := Phys.allocPage_denied p
  unfold Phys.vmmSpaceCreate
  simp only
  split
  · exact halloc
  · exact (hcopy _ _ _).trans halloc

theorem spaceFrames_empty (root : Nat) : spaceFrames root (fun _ => .empty) = {root} := by
  have ht : (sumFin fun _ : Fin 512 => PTree.empty.tables) = 0 := sumFin_zero
  have hp : (sumFin fun _ : Fin 512 => PTree.empty.pages) = 0 := sumFin_zero
  rw [spaceFrames, ht, hp, add_zero]
  rfl

theorem Phys.forEntries_skip {body : Phys → Nat → Bool × Phys} {l : List Nat}
    (h : ∀ i ∈ l, body p i = (true, p)) : Phys.forEntries body l p = (true, p) := by
  induction l with
  | nil => rfl
  | cons i l ih =>
    rw [Phys.forEntries, h i List.mem_cons_self]
    exact ih fun j hj => h j (List.mem_cons_of_mem _ hj)

theorem IsSpace.within_empty (h : IsSpace m root fun _ => .empty) (hm : Mem.Within S m m')
    (hn : root ∉ S) : IsSpace m' root fun _ => .empty := by
  refine h.within hm fun f hf => ?_
  have ht : (sumFin fun _ : Fin 512 => PTree.empty.tables) = 0 := sumFin_zero
  rw [ht, Multiset.mem_cons] at hf
  rwa [hf.resolve_right (Multiset.notMem_zero _)]

theorem IsSpace.vmmSpaceClone_empty (h : IsSpace p.mem root fun _ => .empty) (hA : p.Avail A)
    (hn : root ∉ A) (cr3 : Nat) : p.vmmSpaceClone cr3 root = p.vmmSpaceCreate cr3 := by
  unfold Phys.vmmSpaceClone
  rcases hA.vmmSpaceCreate cr3 with ⟨hnone, -, -⟩ | ⟨dst, B, hsome, hAB, -, -, hw⟩
  · generalize p.vmmSpaceCreate cr3 = r at hnone ⊢
    obtain ⟨_, q⟩ := r
    cases hnone
    rfl
  · generalize p.vmmSpaceCreate cr3 = r at hsome hw ⊢
    obtain ⟨_, q⟩ := r
    cases hsome
    have hq : IsSpace q.mem root fun _ => .empty := by
      refine h.within_empty hw fun hm => hn ?_
      rw [hAB, Multiset.mem_singleton.mp hm]
      exact Multiset.mem_cons_self _ _
    have habsent : ∀ i < 256, isPresent (q.entry root i) = false := fun i hi =>
      hq.entries ⟨i, by omega⟩ hi
    simp only
    rw [Phys.forEntries_skip fun i hi => by simp [habsent i (List.mem_range.mp hi)]]
    rfl

theorem Phys.foldl_skip {body : Phys → Nat → Phys} {l : List Nat} (h : ∀ i ∈ l, body p i = p) :
    l.foldl body p = p := by
  induction l with
  | nil => rfl
  | cons i l ih =>
    rw [List.foldl_cons, h i List.mem_cons_self]
    exact ih fun j hj => h j (List.mem_cons_of_mem _ hj)

theorem IsSpace.vmmSpaceDestroy_empty (h : IsSpace p.mem root fun _ => .empty) {cr3 : Nat}
    (hc : cr3 ≠ root) : p.vmmSpaceDestroy cr3 root = (0, p.pmmFreePage root) := by
  have hpos := h.frame.pos
  have habsent : ∀ i < 256, isPresent (p.entry root i) = false := fun i hi =>
    h.entries ⟨i, by omega⟩ hi
  unfold Phys.vmmSpaceDestroy
  rw [if_neg (by rintro (h | h) <;> omega),
    Phys.foldl_skip fun i hi => by simp [habsent i (List.mem_range.mp hi)]]

theorem IsSpace.vmmSpaceDestroy (h : IsSpace p.mem root kids) (hA : p.Avail A) (hnd : (A + spaceFrames root kids).Nodup)
    {cr3 : Nat} (hc : cr3 ≠ root) : Mem.Within (spaceFrames root kids) p.mem (p.vmmSpaceDestroy cr3 root).2.mem := by
  have hfr : x86Layout.pte.frames root kids = spaceFrames root kids := by
    simp only [PteFormat.frames, spaceFrames, x86Layout, PTree.tables_radix, PTree.pages_radix]
  rw [Phys.vmmSpaceDestroy_radix, ← hfr]
  rw [← hfr] at hnd
  exact (x86Layout_lawful.destroyTrees h.frame ((PTree.entries_radix true).mpr h.entries) h.upper hA hnd hc).2.2

end

end NarcOs
