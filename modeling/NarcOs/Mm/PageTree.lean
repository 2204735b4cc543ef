import NarcOs.Mm.X86

/-!
# The trees of x86_64

`Rep m level e t` says that the word `e` at a level is the tree `t` in memory
`m`. What the walks of `mm.c` read and write is then a lookup and an update in
a tree. The frames of a tree are its tables and its pages. A tree here is one
of the format `x86Pte`, from which its laws come.
-/

namespace NarcOs

-- ---------------------------------------------------------------------------
-- Trees in memory
-- ---------------------------------------------------------------------------

namespace PTree

def tables : PTree → Multiset Nat
  | empty => 0
  | page _ => 0
  | table e kids => pteAddr e ::ₘ sumFin fun i => (kids i).tables

def pages : PTree → Multiset Nat
  | empty => 0
  | page e => {pteAddr e}
  | table _ kids => sumFin fun i => (kids i).pages

def Rep (m : Mem) : Nat → Nat → PTree → Prop
  | _, e, empty => isPresent e = false
  | 0, e, page e' => e' = e ∧ isPresent e = true ∧ IsFrame (pteAddr e)
  | level + 1, e, table e' kids => e' = e ∧ isPresent e = true ∧ isHuge e = false ∧
      IsFrame (pteAddr e) ∧ ∀ i : Fin 512, Rep m level (m.load64 (pteAddr e + 8 * i)) (kids i)
  | _, _, _ => False

def Entries (m : Mem) (level a bound : Nat) (kids : Fin 512 → PTree) : Prop :=
  ∀ i : Fin 512, i.val < bound → Rep m level (m.load64 (a + 8 * i)) (kids i)

variable {m m' : Mem} {level a b virt e v i pt : Nat} {t : PTree} {kids sub : Fin 512 → PTree}

theorem tables_table :
    (table e kids).tables = pteAddr e ::ₘ sumFin fun i => (kids i).tables := rfl

theorem pages_table : (table e kids).pages = sumFin fun i => (kids i).pages := rfl

theorem rep_empty (h : isPresent e = false) : Rep m level e empty := by
  cases level <;> exact h

-- ---------------------------------------------------------------------------
-- Trees of the format
-- ---------------------------------------------------------------------------

section
variable (user : Bool)

theorem tables_radix (t : PTree) : (x86Pte user).tables t = t.tables := by
  induction t with
  | empty => rfl
  | page e => rfl
  | table e kids ih =>
    rw [PteFormat.tables_table, tables_table, funext ih]
    rfl

theorem pages_radix (t : PTree) : (x86Pte user).pages t = t.pages := by
  induction t with
  | empty => rfl
  | page e => rfl
  | table e kids ih => rw [PteFormat.pages_table, pages_table, funext ih]

theorem rep_radix : (x86Pte user).Rep m level e t ↔ Rep m level e t := by
  induction t generalizing level e with
  | empty => cases level <;> rfl
  | page e' =>
    cases level with
    | zero => exact and_congr_right fun _ => and_congr_right fun _ => ⟨fun h => h.2, fun h => ⟨rfl, h⟩⟩
    | succ level => rfl
  | table e' kids ih =>
    cases level with
    | zero => rfl
    | succ level =>
      exact and_congr_right fun _ => and_congr_right fun _ => and_congr_right fun _ => and_congr_right fun _ =>
        forall_congr' fun i => ih i

theorem entries_radix : (x86Pte user).Entries m level a b kids ↔ Entries m level a b kids :=
  forall_congr' fun _ => imp_congr_right fun _ => rep_radix user

end

theorem Rep.isFrame_tables (h : Rep m level e t) {f : Nat} (hf : f ∈ t.tables) : IsFrame f :=
  ((rep_radix true).mpr h).isFrame_tables (by rwa [tables_radix])

theorem Rep.isFrame_pages (h : Rep m level e t) {f : Nat} (hf : f ∈ t.pages) : IsFrame f :=
  ((rep_radix true).mpr h).isFrame_pages (by rwa [pages_radix])

theorem tables_set (t : PTree) {old : PTree} (h : slot level kids virt = some old) :
    sumFin (fun i => (set level kids virt t i).tables) + old.tables =
      sumFin (fun i => (kids i).tables) + t.tables := by
  simpa only [tables_radix] using PteFormat.tables_set (F := x86Pte true) t h

theorem pages_set (t : PTree) {old : PTree} (h : slot level kids virt = some old) :
    sumFin (fun i => (set level kids virt t i).pages) + old.pages =
      sumFin (fun i => (kids i).pages) + t.pages := by
  simpa only [pages_radix] using PteFormat.pages_set (F := x86Pte true) t h

end PTree

namespace Phys

variable {p : Phys} {level a b virt : Nat} {kids : Fin 512 → PTree}

-- ---------------------------------------------------------------------------
-- Walking
-- ---------------------------------------------------------------------------

def walkPte (p : Phys) : Nat → Nat → Nat → Option (Nat × Nat)
  | 0, table, virt => some (table, tableIndex virt 0)
  | level + 1, table, virt =>
    match (p.nextTable table (tableIndex virt (level + 1)) false false).1 with
    | none => none
    | some next => walkPte p level next virt

theorem walkPte_radix (user : Bool) (table : Nat) :
    (x86Pte user).getPte false level p table virt = (p.walkPte level table virt, p) := by
  induction level generalizing table with
  | zero => rfl
  | succ level ih =>
    have hstate := PteFormat.nextTable_state (F := x86Pte user) p table (tableIndex virt (level + 1))
    have hnext : p.nextTable table (tableIndex virt (level + 1)) false false =
        (x86Pte user).nextTable p table (tableIndex virt (level + 1)) false := by
      rw [nextTable_radix, nextTable_user p table _ false, nextTable_user p table _ user]
    rw [PteFormat.getPte, walkPte, hnext]
    generalize (x86Pte user).nextTable p table (tableIndex virt (level + 1)) false = r at hstate ⊢
    obtain ⟨_ | next, q⟩ := r
    · obtain rfl : q = p := hstate
      rfl
    · obtain rfl : q = p := hstate
      exact ih next

theorem getPte_eq (root : Nat) :
    p.getPte root virt false false = (p.walkPte 3 root virt, p) :=
  (getPte_radix p root virt false false).trans (walkPte_radix false root)

theorem walkPte_slot (h : PTree.Entries p.mem level a b kids) (hi : tableIndex virt level < b) :
    match PTree.slot level kids virt with
    | some t => ∃ pt i, p.walkPte level a virt = some (pt, i) ∧ PTree.Rep p.mem 0 (p.entry pt i) t
    | none => p.walkPte level a virt = none := by
  have hslot := PteFormat.getPte_slot ((PTree.entries_radix true).mpr h) hi
  simp only [walkPte_radix, PTree.rep_radix] at hslot
  exact hslot

theorem walkPte_store {pt i v : Nat} {t : PTree} (h : PTree.Entries p.mem level a b kids)
    (ha : IsFrame a) (hnd : (a ::ₘ sumFin fun j => (kids j).tables).Nodup) (hi : tableIndex virt level < b)
    (hw : p.walkPte level a virt = some (pt, i)) (hv : v < 2 ^ 64)
    (ht : PTree.Rep p.mem 0 v t) :
    i < 512 ∧ IsFrame pt ∧ (pt = a ∨ ∃ j, pt ∈ (kids j).tables) ∧
      PTree.Entries (p.setEntry pt i v).mem level a b (PTree.set level kids virt t) := by
  obtain ⟨hi512, hpt, hmem, -, hent⟩ := PteFormat.getPte_store ((PTree.entries_radix true).mpr h) ha
    (by simpa only [PTree.tables_radix] using hnd) hi (by rw [walkPte_radix]; exact hw) hv ((PTree.rep_radix true).mpr ht)
  simp only [PTree.tables_radix] at hmem
  exact ⟨hi512, hpt, hmem, (PTree.entries_radix true).mp hent⟩

end Phys

end NarcOs
