import NarcOs.Lib.MultisetSum
import NarcOs.Mm.Vmm

/-!
# Page-table trees

`PTree` is a page-table entry with everything below it. A walk over an address
is a lookup in a tree, and writing an entry is an update. Which words stand for
which entries is left open: that is the architecture's business.
-/

namespace NarcOs

inductive PTree
  | empty
  | page (entry : Nat)
  | table (entry : Nat) (kids : Fin 512 → PTree)

namespace PTree

def index (virt level : Nat) : Fin 512 := ⟨tableIndex virt level, Nat.mod_lt _ (by decide)⟩

def slot : Nat → (Fin 512 → PTree) → Nat → Option PTree
  | 0, kids, virt => some (kids (index virt 0))
  | level + 1, kids, virt =>
    match kids (index virt (level + 1)) with
    | table _ sub => slot level sub virt
    | _ => none

def leaf : PTree → Option Nat
  | page e => some e
  | _ => none

def lookup (level : Nat) (kids : Fin 512 → PTree) (virt : Nat) : Option Nat :=
  (slot level kids virt).bind leaf

def set : Nat → (Fin 512 → PTree) → Nat → PTree → Fin 512 → PTree
  | 0, kids, virt, t => Function.update kids (index virt 0) t
  | level + 1, kids, virt, t =>
    match kids (index virt (level + 1)) with
    | table e sub => Function.update kids (index virt (level + 1)) (table e (set level sub virt t))
    | _ => kids

variable {level virt e : Nat} {t : PTree} {kids sub : Fin 512 → PTree}

def SamePath (level virt virt' : Nat) : Prop := ∀ l ≤ level, index virt l = index virt' l

theorem SamePath.refl (level virt : Nat) : SamePath level virt virt := fun _ _ => rfl

theorem samePath_succ {virt' : Nat} : SamePath (level + 1) virt virt' ↔
    index virt (level + 1) = index virt' (level + 1) ∧ SamePath level virt virt' := by
  constructor
  · exact fun h => ⟨h _ (Nat.le_refl _), fun l hl => h l (Nat.le_succ_of_le hl)⟩
  · rintro ⟨h, hs⟩ l hl
    rcases Nat.lt_or_eq_of_le hl with hlt | rfl
    · exact hs l (Nat.lt_succ_iff.mp hlt)
    · exact h

theorem slot_set_self (h : (slot level kids virt).isSome) (t : PTree) {virt' : Nat}
    (hp : SamePath level virt virt') : slot level (set level kids virt t) virt' = some t := by
  induction level generalizing kids with
  | zero =>
    simp only [slot, set]
    rw [← hp 0 (Nat.le_refl _), Function.update_self]
  | succ level ih =>
    obtain ⟨hi, hs⟩ := samePath_succ.mp hp
    simp only [slot, set] at h ⊢
    cases hk : kids (index virt (level + 1)) with
    | empty => simp [hk] at h
    | page e => simp [hk] at h
    | table e sub =>
      rw [hk] at h
      simp only [← hi, Function.update_self]
      exact ih h hs

theorem slot_set_of_ne (t : PTree) {virt' : Nat} (hp : ¬ SamePath level virt virt') :
    slot level (set level kids virt t) virt' = slot level kids virt' := by
  induction level generalizing kids with
  | zero =>
    have hi : index virt' 0 ≠ index virt 0 := fun e => hp fun l hl => by
      rw [Nat.le_zero.mp hl, e]
    simp only [slot, set]
    rw [Function.update_of_ne hi]
  | succ level ih =>
    simp only [slot, set]
    cases hk : kids (index virt (level + 1)) with
    | empty => rfl
    | page e => rfl
    | table e sub =>
      simp only
      by_cases hi : index virt' (level + 1) = index virt (level + 1)
      · rw [hi, Function.update_self, hk]
        exact ih fun hs => hp (samePath_succ.mpr ⟨hi.symm, hs⟩)
      · rw [Function.update_of_ne hi]

theorem slot_congr {virt' : Nat} (hp : SamePath level virt virt') :
    slot level kids virt = slot level kids virt' := by
  induction level generalizing kids with
  | zero => rw [slot, slot, hp 0 le_rfl]
  | succ level ih =>
    obtain ⟨hi, hs⟩ := samePath_succ.mp hp
    rw [slot, slot, ← hi]
    cases kids (index virt (level + 1)) with
    | empty => rfl
    | page e => rfl
    | table e sub => exact ih hs

theorem sum_set {g : PTree → Multiset Nat} {c : Nat → Multiset Nat}
    (hg : ∀ e kids, g (table e kids) = c e + sumFin fun i => g (kids i)) (t : PTree) {old : PTree}
    (h : slot level kids virt = some old) :
    sumFin (fun i => g (set level kids virt t i)) + g old =
      sumFin (fun i => g (kids i)) + g t := by
  induction level generalizing kids with
  | zero =>
    cases h
    exact sumFin_update_add g kids _ t
  | succ level ih =>
    simp only [slot, set] at h ⊢
    cases hk : kids (index virt (level + 1)) with
    | empty => simp [hk] at h
    | page e => simp [hk] at h
    | table e sub =>
      rw [hk] at h
      have hsub := ih h
      have hup := sumFin_update_add g kids (index virt (level + 1))
        (table e (set level sub virt t))
      rw [hk, hg, hg] at hup
      simp only
      generalize sumFin (fun j => g (Function.update kids (index virt (level + 1))
        (table e (set level sub virt t)) j)) = new at hup ⊢
      generalize sumFin (fun i => g (set level sub virt t i)) = x at hsub hup
      generalize sumFin (fun i => g (sub i)) = y at hsub hup
      generalize sumFin (fun i => g (kids i)) = z at hup ⊢
      apply add_right_cancel (b := c e + y)
      calc _ = new + (c e + y) + g old := by abel
        _ = z + (c e + (x + g old)) := by
            rw [hup]
            abel
        _ = _ := by
            rw [hsub]
            abel

def children : PTree → Fin 512 → PTree
  | empty => fun _ => empty
  | page _ => fun _ => empty
  | table _ sub => sub

theorem slot_empty (level virt : Nat) {t : PTree} (h : slot level (fun _ => empty) virt = some t) :
    t = empty := by
  cases level with
  | zero => exact (Option.some.inj h).symm
  | succ level => cases h

theorem lookup_empty (level virt : Nat) : lookup level (fun _ => empty) virt = none := by
  unfold lookup
  cases h : slot level (fun _ => empty) virt with
  | none => rfl
  | some t =>
    rw [slot_empty level virt h]
    rfl

theorem lookup_succ (level virt : Nat) (kids : Fin 512 → PTree) :
    lookup (level + 1) kids virt = lookup level (kids (index virt (level + 1))).children virt := by
  cases h : kids (index virt (level + 1)) with
  | empty => rw [children, lookup_empty, lookup, slot, h]; rfl
  | page e => rw [children, lookup_empty, lookup, slot, h]; rfl
  | table e sub => rw [children, lookup, lookup, slot, h]

theorem set_apply_of_ne (t : PTree) {j : Fin 512} (hj : j ≠ index virt level) :
    set level kids virt t j = kids j := by
  cases level with
  | zero => exact Function.update_of_ne hj _ _
  | succ level =>
    rw [set]
    cases kids (index virt (level + 1)) with
    | empty => rfl
    | page e => rfl
    | table e sub => exact Function.update_of_ne hj _ _

instance (level virt virt' : Nat) : Decidable (SamePath level virt virt') :=
  inferInstanceAs (Decidable (∀ l ≤ level, index virt l = index virt' l))

/-- Addresses that take the same way are on the same page, as far as the levels tell. -/
theorem samePath_iff_mod {virt' : Nat} : SamePath level virt virt' ↔
    virt / 4096 % 512 ^ (level + 1) = virt' / 4096 % 512 ^ (level + 1) := by
  induction level with
  | zero =>
    rw [zero_add, pow_one]
    constructor
    · intro h
      simpa [index, tableIndex] using h 0 le_rfl
    · intro h l hl
      obtain rfl := Nat.le_zero.mp hl
      simpa [index, tableIndex] using h
  | succ level ih =>
    rw [samePath_succ, ih, Nat.mod_pow_succ (k := level + 1), Nat.mod_pow_succ (k := level + 1)]
    simp only [index, tableIndex, Fin.mk.injEq]
    have hpos : 0 < 512 ^ (level + 1) := by positivity
    have hlt := Nat.mod_lt (virt / 4096) hpos
    have hlt' := Nat.mod_lt (virt' / 4096) hpos
    constructor
    · rintro ⟨hi, hm⟩
      rw [hi, hm]
    · intro h
      have hm := congrArg (· % 512 ^ (level + 1)) h
      have hi := congrArg (· / 512 ^ (level + 1)) h
      simp only [Nat.add_mul_mod_self_left, Nat.mod_mod, Nat.add_mul_div_left _ _ hpos,
        Nat.div_eq_of_lt hlt, Nat.div_eq_of_lt hlt', zero_add] at hm hi
      exact ⟨hi, hm⟩

theorem samePath_iff {virt virt' : Nat} :
    SamePath 3 virt virt' ↔ virt / 4096 % 2 ^ 36 = virt' / 4096 % 2 ^ 36 :=
  samePath_iff_mod

theorem samePath_iff_page {virt' : Nat} (h : virt < 512 ^ (level + 1) * 4096)
    (h' : virt' < 512 ^ (level + 1) * 4096) :
    SamePath level virt virt' ↔ virt / 4096 = virt' / 4096 := by
  rw [samePath_iff_mod, Nat.mod_eq_of_lt (Nat.div_lt_of_lt_mul (by rwa [Nat.mul_comm])),
    Nat.mod_eq_of_lt (Nat.div_lt_of_lt_mul (by rwa [Nat.mul_comm]))]

end PTree

end NarcOs
