import NarcOs.Mm.Frames
import NarcOs.Mm.Tree

/-!
# Radix page tables

The part of the page-table code that the architectures share. A `PteFormat`
says what the words in the tables of an architecture mean and which words its
code writes; the functions here walk, create and update tables in any format,
and the lemmas say what that does to the trees.
-/

namespace NarcOs

structure PteFormat where
  present : Nat → Bool
  /-- Entries that `next_table` does not go through. -/
  block : Nat → Bool
  addr : Nat → Nat
  user : Nat → Bool
  write : Nat → Bool
  /-- The bits of an entry that a copy of it has too. -/
  bits : Nat → Nat
  /-- Entries of a last table that map a page. -/
  page : Nat → Bool
  /-- The entry for a new table. -/
  link : Nat → Nat
  /-- What a walk with creation makes of an entry that it goes through. -/
  touch : Nat → Option Nat
  /-- The entry for a page, from its frame and flags. -/
  leaf : Nat → Nat → Nat
  /-- The entry with the access of the flags. -/
  protect : Nat → Nat → Nat
  /-- The entry for the copy of a page or table, from its frame. -/
  copy : Nat → Nat → Nat
  /-- Entries that `clone_table` copies as pages; the flag is set in the last table. -/
  copyEnds : Bool → Nat → Bool
  /-- Entries that `free_table` frees as pages. -/
  freeEnds : Bool → Nat → Bool
  /-- Addresses fit into an entry below this. -/
  limit : Nat

namespace PteFormat

-- ---------------------------------------------------------------------------
-- Walking and mapping
-- ---------------------------------------------------------------------------

section
variable (F : PteFormat)

/-- `next_table`; `none` is its NULL. -/
def nextTable (p : Phys) (table index : Nat) (create : Bool) : Option Nat × Phys :=
  let entry := p.entry table index
  if ¬ F.present entry then
    if ¬ create then (none, p)
    else
      let (phys, p) := p.allocPage
      if phys = 0 then (none, p) else (some phys, p.setEntry table index (F.link phys))
  else if F.block entry then (none, p)
  else
    match create, F.touch entry with
    | true, some entry' => (some (F.addr entry), p.setEntry table index entry')
    | _, _ => (some (F.addr entry), p)

/-- `get_pte`: the last table and the index in it. The level of the root is one
less than the number of levels. -/
def getPte (create : Bool) : Nat → Phys → Nat → Nat → Option (Nat × Nat) × Phys
  | 0, p, table, virt => (some (table, tableIndex virt 0), p)
  | level + 1, p, table, virt =>
    match F.nextTable p table (tableIndex virt (level + 1)) create with
    | (none, p) => (none, p)
    | (some next, p) => getPte create level p next virt

def mapPage (level : Nat) (p : Phys) (root virt phys flags : Nat) : Bool × Phys :=
  match F.getPte true level p root virt with
  | (none, p) => (false, p)
  | (some (pt, i), p) => (true, p.setEntry pt i (F.leaf phys flags))

/-- The entry that the walk without creation ends at, when it is present and a
user's. -/
def userPte (level : Nat) (p : Phys) (root virt : Nat) : Option (Nat × Nat × Nat) :=
  match (F.getPte false level p root virt).1 with
  | none => none
  | some (pt, i) =>
    let pte := p.entry pt i
    if F.present pte ∧ F.user pte then some (pt, i, pte) else none

def protectUser (level : Nat) (p : Phys) (root virt flags : Nat) : Bool × Phys :=
  match F.userPte level p root virt with
  | none => (false, p)
  | some (pt, i, pte) => (true, p.setEntry pt i (F.protect pte flags))

def unmapUser (level : Nat) (p : Phys) (root virt : Nat) : Bool × Phys :=
  match F.userPte level p root virt with
  | none => (false, p)
  | some (pt, i, pte) => (true, (p.setEntry pt i 0).pmmFreePage (F.addr pte))

def userPhys (level : Nat) (p : Phys) (root virt : Nat) : Nat :=
  match F.userPte level p root virt with
  | none => 0
  | some (_, _, pte) => F.addr pte ||| virt % pageSize

/-- `vmm_user_range_ok`, with the last user address. -/
def userRangeOk (level last : Nat) (p : Phys) (root virt len : Nat) (write : Bool) : Bool :=
  if len = 0 then true
  else if virt > last then false
  else if len - 1 > last - virt then false
  else
    (List.range ((alignDown (virt + len - 1) - alignDown virt) / pageSize + 1)).all fun k =>
      match F.userPte level p root (alignDown virt + pageSize * k) with
      | none => false
      | some (_, _, pte) => !write || F.write pte

end

-- ---------------------------------------------------------------------------
-- Laws
-- ---------------------------------------------------------------------------

structure Lawful (F : PteFormat) : Prop where
  absent : F.present 0 = false
  addr_lt : ∀ e, e < 2 ^ 64 → F.addr e < F.limit
  link : ∀ f, IsFrame f → f < F.limit → F.present (F.link f) = true ∧ F.block (F.link f) = false ∧
    F.addr (F.link f) = f ∧ F.link f < 2 ^ 64
  touch : ∀ e e', F.touch e = some e' → e < 2 ^ 64 → F.present e = true → F.block e = false →
    F.present e' = true ∧ F.block e' = false ∧ F.addr e' = F.addr e ∧ e' < 2 ^ 64
  leaf : ∀ f flags, IsFrame f → f < F.limit →
    F.present (F.leaf f flags) = true ∧ F.page (F.leaf f flags) = true ∧
      F.addr (F.leaf f flags) = f ∧ F.leaf f flags < 2 ^ 64
  protect : ∀ e flags, e < 2 ^ 64 → F.present e = true → F.page e = true →
    F.present (F.protect e flags) = true ∧ F.page (F.protect e flags) = true ∧
      F.addr (F.protect e flags) = F.addr e ∧ F.protect e flags < 2 ^ 64 ∧
      F.user (F.protect e flags) = F.user e ∧ F.write (F.protect e flags) = flags.testBit 1
  copy : ∀ f e, IsFrame f → f < F.limit → e < 2 ^ 64 → F.present e = true →
    F.present (F.copy f e) = true ∧ F.block (F.copy f e) = F.block e ∧ F.addr (F.copy f e) = f ∧
      F.copy f e < 2 ^ 64 ∧ F.bits (F.copy f e) = F.bits e ∧ F.page (F.copy f e) = F.page e
  bits : ∀ e e', F.bits e = F.bits e' → F.user e = F.user e' ∧ F.write e = F.write e'
  copyEnds : ∀ e, (F.page e = true → F.copyEnds true e = true) ∧
    (F.present e = true → F.block e = false → F.copyEnds false e = false)
  freeEnds : ∀ e, F.freeEnds true e = true ∧
    (F.present e = true → F.block e = false → F.freeEnds false e = false)

def Grants (F : PteFormat) : Prop :=
  ∀ f flags, IsFrame f → f < F.limit →
    F.user (F.leaf f flags) = true ∧ F.write (F.leaf f flags) = flags.testBit 1

-- ---------------------------------------------------------------------------
-- Trees in memory
-- ---------------------------------------------------------------------------

section
variable (F : PteFormat)

def tables : PTree → Multiset Nat
  | .empty => 0
  | .page _ => 0
  | .table e kids => F.addr e ::ₘ sumFin fun i => tables (kids i)

def pages : PTree → Multiset Nat
  | .empty => 0
  | .page e => {F.addr e}
  | .table _ kids => sumFin fun i => pages (kids i)

def Rep (m : Mem) : Nat → Nat → PTree → Prop
  | _, e, .empty => F.present e = false
  | 0, e, .page e' => e' = e ∧ F.present e = true ∧ F.page e = true ∧ IsFrame (F.addr e)
  | level + 1, e, .table e' kids => e' = e ∧ F.present e = true ∧ F.block e = false ∧
      IsFrame (F.addr e) ∧ ∀ i : Fin 512, Rep m level (m.load64 (F.addr e + 8 * i)) (kids i)
  | _, _, _ => False

def Entries (m : Mem) (level a bound : Nat) (kids : Fin 512 → PTree) : Prop :=
  ∀ i : Fin 512, i.val < bound → F.Rep m level (m.load64 (a + 8 * i)) (kids i)

end

variable {F : PteFormat} {m m' : Mem} {level a b virt e v : Nat} {t : PTree} {kids sub : Fin 512 → PTree}
  {S A : Multiset Nat} {p : Phys}

theorem tables_table : F.tables (.table e kids) = F.addr e ::ₘ sumFin fun i => F.tables (kids i) := rfl

theorem pages_table : F.pages (.table e kids) = sumFin fun i => F.pages (kids i) := rfl

theorem mem_tables {f : Nat} :
    f ∈ F.tables (.table e kids) ↔ f = F.addr e ∨ ∃ i, f ∈ F.tables (kids i) := by
  rw [tables_table, Multiset.mem_cons, mem_sumFin]

theorem mem_pages {f : Nat} : f ∈ F.pages (.table e kids) ↔ ∃ i, f ∈ F.pages (kids i) := by
  rw [pages_table, mem_sumFin]

theorem rep_page_succ (h : F.Rep m (level + 1) e (.page v)) : False := h

theorem rep_table_zero (h : F.Rep m 0 e (.table v kids)) : False := h

theorem rep_empty (h : F.present e = false) : F.Rep m level e .empty := by
  cases level <;> exact h

theorem Rep.zero (h : F.Rep m 0 e t) (m' : Mem) : F.Rep m' 0 e t := by
  cases t with
  | empty => exact h
  | page e' => exact h
  | table e' kids => exact h

theorem Rep.isFrame_tables (h : F.Rep m level e t) {f : Nat} (hf : f ∈ F.tables t) : IsFrame f := by
  induction t generalizing level e with
  | empty => simp [tables] at hf
  | page e' => simp [tables] at hf
  | table e' kids ih =>
    cases level with
    | zero => exact (rep_table_zero h).elim
    | succ level =>
      obtain ⟨rfl, -, -, hframe, hk⟩ := h
      rcases mem_tables.mp hf with rfl | ⟨i, hi⟩
      · exact hframe
      · exact ih i (hk i) hi

theorem Rep.isFrame_pages (h : F.Rep m level e t) {f : Nat} (hf : f ∈ F.pages t) : IsFrame f := by
  induction t generalizing level e with
  | empty => simp [pages] at hf
  | page e' =>
    cases level with
    | zero =>
      obtain ⟨rfl, -, -, hframe⟩ := h
      rw [pages, Multiset.mem_singleton] at hf
      exact hf ▸ hframe
    | succ level => exact (rep_page_succ h).elim
  | table e' kids ih =>
    cases level with
    | zero => exact (rep_table_zero h).elim
    | succ level =>
      obtain ⟨-, -, -, -, hk⟩ := h
      obtain ⟨i, hi⟩ := mem_pages.mp hf
      exact ih i (hk i) hi

theorem Rep.within (h : F.Rep m level e t) (hm : Mem.Within S m m')
    (hd : ∀ f ∈ F.tables t, f ∉ S) : F.Rep m' level e t := by
  induction t generalizing level e with
  | empty => cases level <;> exact h
  | page e' => cases level <;> exact h
  | table e' kids ih =>
    cases level with
    | zero => exact h
    | succ level =>
      obtain ⟨rfl, hp, hh, hf, hk⟩ := h
      refine ⟨rfl, hp, hh, hf, fun i => ?_⟩
      rw [load64_within hm hf (hd _ (mem_tables.mpr (.inl rfl))) i.isLt]
      exact ih i (hk i) fun f hfi => hd f (mem_tables.mpr (.inr ⟨i, hfi⟩))

theorem Entries.within (h : F.Entries m level a b kids) (hm : Mem.Within S m m')
    (ha : IsFrame a) (hn : a ∉ S) (hd : ∀ j : Fin 512, j.val < b → ∀ f ∈ F.tables (kids j), f ∉ S) :
    F.Entries m' level a b kids := by
  intro j hj
  rw [load64_within hm ha hn j.isLt]
  exact (h j hj).within hm (hd j hj)

theorem Entries.replace (h : F.Entries m level a b kids) (hm : Mem.Within S m m') {i : Fin 512}
    (hrep : F.Rep m' level (m'.load64 (a + 8 * i)) t)
    (hload : ∀ j, j ≠ i → m'.load64 (a + 8 * j) = m.load64 (a + 8 * j))
    (hd : ∀ j, j ≠ i → j.val < b → ∀ f ∈ F.tables (kids j), f ∉ S) :
    F.Entries m' level a b (Function.update kids i t) := by
  intro j hj
  by_cases hji : j = i
  · subst hji
    rw [Function.update_self]
    exact hrep
  · rw [Function.update_of_ne hji, hload j hji]
    exact (h j hj).within hm (hd j hji hj)

theorem entries_empty (hF : F.Lawful) (h : ∀ x < 4096, m (a + x) = 0) :
    F.Entries m level a b fun _ => .empty := by
  intro j _
  have hz : m.load64 (a + 8 * j) = 0 := Mem.load64_zero fun x hx => by
    rw [Nat.add_assoc]
    exact h _ (by omega)
  rw [hz]
  exact rep_empty hF.absent

theorem tables_set (t : PTree) {old : PTree} (h : PTree.slot level kids virt = some old) :
    sumFin (fun i => F.tables (PTree.set level kids virt t i)) + F.tables old =
      sumFin (fun i => F.tables (kids i)) + F.tables t :=
  PTree.sum_set (c := fun e => {F.addr e})
    (fun _ _ => by rw [tables_table, Multiset.singleton_add]) t h

theorem pages_set (t : PTree) {old : PTree} (h : PTree.slot level kids virt = some old) :
    sumFin (fun i => F.pages (PTree.set level kids virt t i)) + F.pages old =
      sumFin (fun i => F.pages (kids i)) + F.pages t :=
  PTree.sum_set (c := fun _ => 0) (fun _ _ => by rw [pages_table, zero_add]) t h

-- ---------------------------------------------------------------------------
-- Walks without creation
-- ---------------------------------------------------------------------------

theorem nextTable_state (p : Phys) (table index : Nat) : (F.nextTable p table index false).2 = p := by
  unfold nextTable
  simp only
  split
  · rfl
  · split <;> rfl

theorem nextTable_present {table index : Nat} (h : F.present (p.entry table index) = true)
    (hh : F.block (p.entry table index) = false) :
    F.nextTable p table index false = (some (F.addr (p.entry table index)), p) := by
  simp [nextTable, h, hh]

theorem nextTable_absent {table index : Nat} (h : F.present (p.entry table index) = false) :
    F.nextTable p table index false = (none, p) := by
  simp [nextTable, h]

theorem getPte_slot (h : F.Entries p.mem level a b kids) (hi : tableIndex virt level < b) :
    match PTree.slot level kids virt with
    | some t => ∃ pt i, (F.getPte false level p a virt).1 = some (pt, i) ∧
        F.Rep p.mem 0 (p.entry pt i) t
    | none => (F.getPte false level p a virt).1 = none := by
  induction level generalizing a b kids with
  | zero => exact ⟨a, tableIndex virt 0, rfl, h (PTree.index virt 0) hi⟩
  | succ level ih =>
    have hrep := h (PTree.index virt (level + 1)) hi
    simp only [PTree.slot, getPte]
    cases hk : kids (PTree.index virt (level + 1)) with
    | empty =>
      rw [hk] at hrep
      have habsent : F.present (p.entry a (tableIndex virt (level + 1))) = false := hrep
      simp only [nextTable_absent habsent]
    | page e =>
      rw [hk] at hrep
      exact (rep_page_succ hrep).elim
    | table e sub =>
      rw [hk] at hrep
      obtain ⟨-, hp, hh, -, hsub⟩ := hrep
      have hnext : F.nextTable p a (tableIndex virt (level + 1)) false = _ := nextTable_present hp hh
      simp only [hnext]
      exact ih (b := 512) (fun i _ => hsub i) (Nat.mod_lt _ (by decide))

theorem getPte_store {pt i v : Nat} {t : PTree} (h : F.Entries p.mem level a b kids)
    (ha : IsFrame a) (hnd : (a ::ₘ sumFin fun j => F.tables (kids j)).Nodup)
    (hi : tableIndex virt level < b) (hw : (F.getPte false level p a virt).1 = some (pt, i))
    (hv : v < 2 ^ 64) (ht : F.Rep p.mem 0 v t) :
    i < 512 ∧ IsFrame pt ∧ (pt = a ∨ ∃ j, pt ∈ F.tables (kids j)) ∧ (0 < level → pt ≠ a) ∧
      F.Entries (p.setEntry pt i v).mem level a b (PTree.set level kids virt t) := by
  induction level generalizing a b kids with
  | zero =>
    obtain ⟨rfl, rfl⟩ : a = pt ∧ tableIndex virt 0 = i := by simpa [getPte] using hw
    have hi512 : tableIndex virt 0 < 512 := Nat.mod_lt _ (by decide)
    refine ⟨hi512, ha, .inl rfl, fun h => absurd h (Nat.lt_irrefl _), ?_⟩
    refine h.replace (Phys.within_setEntry ha (Multiset.mem_singleton_self a) hi512) ?_
      (fun j hj => Phys.entry_setEntry_of_ne fun e => hj (Fin.ext e)) fun j _ hj f hf => ?_
    · have hload : (p.setEntry a (tableIndex virt 0) v).entry a (tableIndex virt 0) = v :=
        Phys.entry_setEntry_self hv
      rw [Phys.entry] at hload
      rw [show (PTree.index virt 0).val = tableIndex virt 0 from rfl, hload]
      exact ht.zero _
    · rw [Multiset.mem_singleton]
      rintro rfl
      exact (Multiset.nodup_cons.mp hnd).1 (mem_sumFin.mpr ⟨j, hf⟩)
  | succ level ih =>
    have hrep := h (PTree.index virt (level + 1)) hi
    have hslot := getPte_slot h hi
    simp only [PTree.slot, PTree.set] at hslot ⊢
    cases hk : kids (PTree.index virt (level + 1)) with
    | empty =>
      rw [hk] at hslot
      simp [hslot] at hw
    | page e =>
      rw [hk] at hslot
      simp [hslot] at hw
    | table e sub =>
      rw [hk] at hrep
      obtain ⟨he, hp, hh, hframe, hsub⟩ := hrep
      have hnext : F.nextTable p a (tableIndex virt (level + 1)) false = _ := nextTable_present hp hh
      rw [getPte, hnext] at hw
      have hentry : p.entry a (tableIndex virt (level + 1)) = e := he.symm
      simp only [hentry] at hw
      rw [← he] at hp hh hframe hsub
      have hsum := (Multiset.nodup_cons.mp hnd).2
      have hown := nodup_of_sumFin hsum (PTree.index virt (level + 1))
      rw [hk, tables_table] at hown
      obtain ⟨hi512, hptf, hpt, -, hent⟩ := ih (b := 512) (fun j _ => hsub j) hframe hown
        (Nat.mod_lt _ (by decide)) hw
      have hptmem : pt ∈ F.tables (kids (PTree.index virt (level + 1))) := by
        rw [hk, mem_tables]
        exact hpt
      have hpta : a ≠ pt := by
        rintro rfl
        exact (Multiset.nodup_cons.mp hnd).1 (mem_sumFin.mpr ⟨_, hptmem⟩)
      have hwithin := Phys.within_setEntry (p := p) (v := v) hptf (Multiset.mem_singleton_self pt) hi512
      have hload : ∀ j : Fin 512,
          (p.setEntry pt i v).mem.load64 (a + 8 * j) = p.mem.load64 (a + 8 * j) :=
        fun j => load64_within hwithin ha (by simpa using hpta) j.isLt
      refine ⟨hi512, hptf, .inr ⟨_, hptmem⟩, fun _ => hpta.symm, ?_⟩
      refine h.replace hwithin ?_ (fun j _ => hload j) fun j hj hjb f hf => ?_
      · rw [hload, ← he]
        exact ⟨rfl, hp, hh, hframe, fun l => hent l l.isLt⟩
      · rw [Multiset.mem_singleton]
        rintro rfl
        exact not_mem_of_sumFin hsum hj hf hptmem

end PteFormat

end NarcOs
