import NarcOs.Lib.Bits
import NarcOs.Mm.Layout

/-!
# The x86_64 format

The page tables of `NarcOs.Mm.Vmm` are radix tables: its functions are those of
`NarcOs.Mm.Radix` for a format that has one variant for user mappings and one
for the kernel's.
-/

namespace NarcOs

-- ---------------------------------------------------------------------------
-- Entries
-- ---------------------------------------------------------------------------

section
variable {a e b : Nat}

theorem isPresent_iff : isPresent e = true ↔ e % 2 = 1 := by
  rw [isPresent, Nat.testBit_eq_decide_div_mod_eq, decide_eq_true_iff, Nat.pow_zero, Nat.div_one]

theorem isWrite_iff : isWrite e = true ↔ e / 2 % 2 = 1 := by
  rw [isWrite, Nat.testBit_eq_decide_div_mod_eq, decide_eq_true_iff, Nat.pow_one]

theorem isUser_iff : isUser e = true ↔ e / 4 % 2 = 1 := by
  rw [isUser, Nat.testBit_eq_decide_div_mod_eq, decide_eq_true_iff]

theorem isHuge_iff : isHuge e = true ↔ e / 128 % 2 = 1 := by
  rw [isHuge, Nat.testBit_eq_decide_div_mod_eq, decide_eq_true_iff]

theorem pteAddr_or (ha : IsFrame a) (hb : b < 4096) : pteAddr (a ||| b) = a := by
  have := ha.aligned
  have := ha.below
  rw [or_eq_add ha.aligned hb, pteAddr]
  omega

theorem pteAddr_frame (ha : IsFrame a) : pteAddr a = a := by
  have := ha.aligned
  have := ha.below
  rw [pteAddr]
  omega

theorem or_pteUser (e : Nat) : e ||| pteUser = if isUser e then e else e + 4 := or_two_pow e 2

theorem or_pteWrite (e : Nat) : e ||| pteWrite = if isWrite e then e else e + 2 := or_two_pow e 1

theorem pteFlags_eq (e : Nat) : pteFlags e = 2 ^ 52 * (e / 2 ^ 52) + e % 4096 := by
  rw [pteFlags, pteAddr]
  omega

/-- The entry `vmm_map` writes. -/
def leafEntry (phys flags : Nat) (user : Bool) : Nat :=
  pteAddr phys ||| if flags.testBit 1 then (if user then ptePresent ||| pteUser else ptePresent) ||| pteWrite
    else if user then ptePresent ||| pteUser else ptePresent

theorem leafEntry_spec {phys : Nat} (hf : IsFrame phys) (flags : Nat) (user : Bool) :
    pteAddr (leafEntry phys flags user) = phys ∧ isPresent (leafEntry phys flags user) = true ∧
      isUser (leafEntry phys flags user) = user ∧
      isWrite (leafEntry phys flags user) = flags.testBit 1 ∧ leafEntry phys flags user < 2 ^ 64 := by
  have hal := hf.aligned
  have hbelow := hf.below
  rw [leafEntry, pteAddr_frame hf]
  generalize flags.testBit 1 = w
  have key : ∀ b, b < 8 → b % 2 = 1 → (b / 4 % 2 = 1 ↔ user = true) → (b / 2 % 2 = 1 ↔ w = true) →
      pteAddr (phys ||| b) = phys ∧ isPresent (phys ||| b) = true ∧ isUser (phys ||| b) = user ∧
        isWrite (phys ||| b) = w ∧ (phys ||| b) < 2 ^ 64 := by
    intro b hb hodd hu hw
    have hor : phys ||| b = phys + b := or_eq_add hal (by omega)
    refine ⟨pteAddr_or hf (by omega), ?_, ?_, ?_, by omega⟩
    · rw [isPresent_iff]
      omega
    · rw [Bool.eq_iff_iff, isUser_iff, ← hu]
      omega
    · rw [Bool.eq_iff_iff, isWrite_iff, ← hw]
      omega
  cases user <;> cases w <;> exact key _ (by decide) (by decide) (by decide) (by decide)

end

-- ---------------------------------------------------------------------------
-- The format
-- ---------------------------------------------------------------------------

def x86Pte (user : Bool) : PteFormat where
  present := isPresent
  block := isHuge
  addr := pteAddr
  user := isUser
  write := isWrite
  bits := pteFlags
  page _ := true
  link phys := phys ||| if user then ptePresent ||| pteWrite ||| pteUser else ptePresent ||| pteWrite
  touch entry := if user then some (entry ||| pteUser) else none
  leaf phys flags := leafEntry phys flags user
  protect entry flags :=
    if flags.testBit 1 then entry ||| pteWrite
    else if isWrite entry then entry - pteWrite else entry
  copy page entry := page ||| pteFlags entry
  copyEnds last entry := last || isHuge entry
  freeEnds last entry := last || isHuge entry
  limit := 2 ^ 52

theorem x86Pte_protect (user : Bool) {e : Nat} (flags : Nat) (he : e < 2 ^ 64) :
    pteAddr ((x86Pte user).protect e flags) = pteAddr e ∧
      isPresent ((x86Pte user).protect e flags) = isPresent e ∧
      isUser ((x86Pte user).protect e flags) = isUser e ∧
      isWrite ((x86Pte user).protect e flags) = flags.testBit 1 ∧
      (x86Pte user).protect e flags < 2 ^ 64 := by
  -- setting or clearing a bit is adding or subtracting its weight
  have key : ∀ (e' : Nat) (w : Bool), (e' = if w then (if e / 2 % 2 = 1 then e else e + 2)
      else if e / 2 % 2 = 1 then e - 2 else e) → pteAddr e' = pteAddr e ∧ isPresent e' = isPresent e ∧
      isUser e' = isUser e ∧ isWrite e' = w ∧ e' < 2 ^ 64 := by
    intro e' w h
    rw [pteAddr, pteAddr]
    refine ⟨?_, Bool.eq_iff_iff.mpr ?_, Bool.eq_iff_iff.mpr ?_, Bool.eq_iff_iff.mpr ?_, ?_⟩
    all_goals
      try rw [isPresent_iff, isPresent_iff]
      try rw [isUser_iff, isUser_iff]
      try rw [isWrite_iff]
      cases w <;> simp only [Bool.false_eq_true, if_true, if_false, iff_true, iff_false] at h ⊢ <;>
        split at h <;> omega
  refine key _ _ ?_
  simp only [x86Pte, or_pteWrite, isWrite_iff]
  rfl

theorem x86Pte_copy (user : Bool) {f e : Nat} (hf : IsFrame f) (he : e < 2 ^ 64) :
    pteAddr ((x86Pte user).copy f e) = f ∧ isPresent ((x86Pte user).copy f e) = isPresent e ∧
      isHuge ((x86Pte user).copy f e) = isHuge e ∧ pteFlags ((x86Pte user).copy f e) = pteFlags e ∧
      (x86Pte user).copy f e < 2 ^ 64 := by
  have hal := hf.aligned
  have hbelow := hf.below
  have hor : (x86Pte user).copy f e = 2 ^ 52 * (e / 2 ^ 52) + (f + e % 4096) := by
    show f ||| pteFlags e = _
    rw [pteFlags_eq]
    exact or_mask (by decide) hal (by omega) (Nat.mod_lt _ (by decide))
  rw [hor, pteFlags_eq, pteFlags_eq, pteAddr]
  refine ⟨by omega, Bool.eq_iff_iff.mpr ?_, Bool.eq_iff_iff.mpr ?_, by omega, by omega⟩
  · rw [isPresent_iff, isPresent_iff]
    omega
  · rw [isHuge_iff, isHuge_iff]
    omega

theorem x86Pte_lawful (user : Bool) : (x86Pte user).Lawful where
  absent := rfl
  addr_lt e _ := by
    show pteAddr e < 2 ^ 52
    rw [pteAddr]
    omega
  link f hf _ := by
    have hal := hf.aligned
    have hbelow := hf.below
    have key : ∀ b, b < 128 → b % 2 = 1 → isPresent (f ||| b) = true ∧ isHuge (f ||| b) = false ∧
        pteAddr (f ||| b) = f ∧ (f ||| b) < 2 ^ 64 := by
      intro b hb hodd
      have hor : f ||| b = f + b := or_eq_add hal (by omega)
      refine ⟨?_, ?_, pteAddr_or hf (by omega), by omega⟩
      · rw [isPresent_iff]
        omega
      · rw [← Bool.not_eq_true, isHuge_iff]
        omega
    cases user <;> exact key _ (by decide) (by decide)
  touch e e' ht he hp hb := by
    cases user with
    | false => cases ht
    | true =>
      obtain rfl : e ||| pteUser = e' := Option.some.inj ht
      show isPresent _ = true ∧ isHuge _ = false ∧ pteAddr _ = pteAddr _ ∧ _
      replace hp : isPresent e = true := hp
      replace hb : isHuge e = false := hb
      rw [isPresent_iff] at hp
      rw [← Bool.not_eq_true, isHuge_iff] at hb
      rw [or_pteUser, isPresent_iff, ← Bool.not_eq_true, isHuge_iff, pteAddr, pteAddr]
      simp only [isUser_iff]
      split <;> omega
  leaf f flags hf _ := by
    obtain ⟨haddr, hp, -, -, hlt⟩ := leafEntry_spec hf flags user
    exact ⟨hp, rfl, haddr, hlt⟩
  protect e flags he hp _ := by
    obtain ⟨haddr, hp', hu, hw, hlt⟩ := x86Pte_protect user flags he
    exact ⟨hp'.trans hp, rfl, haddr, hlt, hu, hw⟩
  copy f e hf _ he hp := by
    obtain ⟨haddr, hp', hb, hbits, hlt⟩ := x86Pte_copy user hf he
    exact ⟨hp'.trans hp, hb, haddr, hlt, hbits, rfl⟩
  bits e e' h := by
    replace h : pteFlags e = pteFlags e' := h
    rw [pteFlags_eq, pteFlags_eq] at h
    refine ⟨Bool.eq_iff_iff.mpr ?_, Bool.eq_iff_iff.mpr ?_⟩
    · exact isUser_iff.trans ((by omega : _ ↔ _).trans isUser_iff.symm)
    · exact isWrite_iff.trans ((by omega : _ ↔ _).trans isWrite_iff.symm)
  copyEnds e := ⟨fun _ => rfl, fun _ hb => hb⟩
  freeEnds e := ⟨rfl, fun _ hb => hb⟩

theorem x86Pte_grants : (x86Pte true).Grants := fun _ flags hf _ =>
  ⟨(leafEntry_spec hf flags true).2.2.1, (leafEntry_spec hf flags true).2.2.2.1⟩

def x86Layout : Layout where
  pte := x86Pte true
  below := 2
  bound := 256
  last := 0x00007fffffffffff
  rootEnds _ := false

theorem x86Layout_lawful : x86Layout.Lawful where
  pte := x86Pte_lawful true
  bound := by decide
  rootEnds _ _ _ := rfl

-- ---------------------------------------------------------------------------
-- The functions
-- ---------------------------------------------------------------------------

namespace Phys

variable (p : Phys) (root virt phys flags : Nat)

theorem nextTable_radix (table index : Nat) (create user : Bool) :
    p.nextTable table index create user = (x86Pte user).nextTable p table index create := by
  unfold nextTable PteFormat.nextTable
  cases create <;> cases user <;> simp only [x86Pte] <;> rfl

theorem nextTable_user (table index : Nat) (user : Bool) :
    (x86Pte user).nextTable p table index false = (x86Pte true).nextTable p table index false := by
  cases user with
  | true => rfl
  | false => rfl

theorem getPte_radix (create user : Bool) :
    p.getPte root virt create user = (x86Pte user).getPte create 3 p root virt := by
  unfold getPte
  rw [nextTable_radix, PteFormat.getPte]
  rcases (x86Pte user).nextTable p root (tableIndex virt 3) create with ⟨_ | pdpt, p₁⟩
  · rfl
  dsimp only
  rw [nextTable_radix, PteFormat.getPte]
  rcases (x86Pte user).nextTable p₁ pdpt (tableIndex virt 2) create with ⟨_ | pd, p₂⟩
  · rfl
  dsimp only
  rw [nextTable_radix, PteFormat.getPte]
  rcases (x86Pte user).nextTable p₂ pd (tableIndex virt 1) create with ⟨_ | pt, p₃⟩ <;> rfl

theorem getPte_user (user : Bool) (level table : Nat) :
    (x86Pte user).getPte false level p table virt = (x86Pte true).getPte false level p table virt := by
  induction level generalizing p table with
  | zero => rfl
  | succ level ih =>
    rw [PteFormat.getPte, PteFormat.getPte, nextTable_user]
    rcases (x86Pte true).nextTable p table (tableIndex virt (level + 1)) false with ⟨_ | next, q⟩
    · rfl
    · exact ih q next

theorem vmmMap_radix (user : Bool) :
    p.vmmMap root virt phys flags user = (x86Pte user).mapPage 3 p root virt phys flags := by
  unfold vmmMap PteFormat.mapPage
  rw [getPte_radix]
  rfl

theorem presentPte_radix : (match p.presentPte root virt with
    | none => none
    | some (pt, i, pte) => if isUser pte then some (pt, i, pte) else none) =
      (x86Pte true).userPte 3 p root virt := by
  unfold presentPte PteFormat.userPte
  rw [getPte_radix, getPte_user]
  rcases ((x86Pte true).getPte false 3 p root virt).1 with _ | ⟨pt, i⟩
  · rfl
  · show (match (if isPresent (p.entry pt i) then some (pt, i, p.entry pt i) else none) with
      | none => none
      | some (pt, i, pte) => if isUser pte then some (pt, i, pte) else none) =
      if isPresent (p.entry pt i) = true ∧ isUser (p.entry pt i) = true then some (pt, i, p.entry pt i)
      else none
    cases isPresent (p.entry pt i) <;> simp

theorem vmmProtectUser_radix :
    p.vmmProtectUser root virt flags = (x86Pte true).protectUser 3 p root virt flags := by
  unfold vmmProtectUser PteFormat.protectUser
  rw [← presentPte_radix]
  rcases p.presentPte root virt with _ | ⟨pt, i, pte⟩
  · rfl
  · simp only
    cases hu : isUser pte with
    | false => rfl
    | true => cases h : flags.testBit 1 <;> simp [x86Pte, h]

theorem vmmUnmapUser_radix : p.vmmUnmapUser root virt = (x86Pte true).unmapUser 3 p root virt := by
  unfold vmmUnmapUser PteFormat.unmapUser
  rw [← presentPte_radix]
  rcases p.presentPte root virt with _ | ⟨pt, i, pte⟩
  · rfl
  · simp only
    cases isUser pte <;> rfl

theorem vmmUserPhys_radix : p.vmmUserPhys root virt = (x86Pte true).userPhys 3 p root virt := by
  unfold vmmUserPhys PteFormat.userPhys
  rw [← presentPte_radix]
  rcases p.presentPte root virt with _ | ⟨pt, i, pte⟩
  · rfl
  · simp only
    cases isUser pte <;> rfl

theorem vmmUserRangeOk_radix (len : Nat) (write : Bool) : p.vmmUserRangeOk root virt len write =
    (x86Pte true).userRangeOk 3 x86Layout.last p root virt len write := by
  have hpage : (fun k => match p.presentPte root (alignDown virt + pageSize * k) with
      | none => false
      | some (_, _, pte) => isUser pte && (!write || isWrite pte)) =
      fun k => match (x86Pte true).userPte 3 p root (alignDown virt + pageSize * k) with
      | none => false
      | some (_, _, pte) => !write || isWrite pte := by
    funext k
    rw [← presentPte_radix]
    rcases p.presentPte root (alignDown virt + pageSize * k) with _ | ⟨pt, i, pte⟩
    · rfl
    · simp only
      cases isUser pte <;> rfl
  have hlast : x86Layout.last = 0x00007fffffffffff := rfl
  unfold vmmUserRangeOk PteFormat.userRangeOk
  rw [hlast]
  by_cases hlen : len = 0
  · rw [if_pos hlen, if_pos hlen]
  rw [if_neg hlen, if_neg hlen]
  by_cases hstart : virt > 0x00007fffffffffff
  · rw [if_pos hstart, if_pos hstart]
  rw [if_neg hstart, if_neg hstart]
  by_cases hend : len - 1 > 0x00007fffffffffff - virt
  · rw [if_pos hend, if_pos hend]
  rw [if_neg hend, if_neg hend]
  exact congrArg _ hpage

theorem vmmSpaceCreate_radix (cr3 : Nat) : p.vmmSpaceCreate cr3 = x86Layout.spaceCreate p cr3 := rfl

theorem freeTable_radix (level table : Nat) :
    freeTable (level + 1) p table = (x86Pte true).freeTable level p table := by
  induction level generalizing p table with
  | zero =>
    rw [freeTable, PteFormat.freeTable, PteFormat.freeEntries]
    congr 2
  | succ level ih =>
    rw [freeTable, PteFormat.freeTable, PteFormat.freeEntries]
    congr 2
    funext q i
    simp [PteFormat.freeEntry, x86Pte, ih]

theorem cloneTable_radix (level dst src : Nat) :
    cloneTable (level + 1) p dst src = (x86Pte true).copyTable level p dst src := by
  induction level generalizing p dst src with
  | zero =>
    rw [cloneTable, PteFormat.copyTable, PteFormat.copyEntries]
    congr 1
  | succ level ih =>
    rw [cloneTable, PteFormat.copyTable, PteFormat.copyEntries]
    congr 1
    funext q i
    simp [PteFormat.copyEntry, x86Pte, ih]

theorem vmmSpaceDestroy_radix (cr3 : Nat) :
    p.vmmSpaceDestroy cr3 root = x86Layout.spaceDestroy p cr3 root := by
  have hbody : (fun (p : Phys) (i : Nat) =>
      let entry := p.entry root i
      if isPresent entry then freeTable 3 p (pteAddr entry) else p) =
      x86Layout.pte.freeEntry (fun _ => false) (x86Layout.pte.freeTable x86Layout.below) root := by
    funext q i
    show (if isPresent (q.entry root i) = true then _ else q) =
      if ¬ isPresent (q.entry root i) = true then q else _
    rw [ite_not, freeTable_radix]
    rfl
  unfold vmmSpaceDestroy Layout.spaceDestroy PteFormat.freeEntries
  rw [← hbody]
  rfl

theorem cloneEntry_radix (dst src : Nat) :
    (fun (p : Phys) (i : Nat) =>
      let entry := p.entry src i
      if ¬ isPresent entry then (true, p)
      else
        let (page, p) := p.allocPage
        if page = 0 then (false, p)
        else cloneTable 3 (p.setEntry dst i (page ||| pteFlags entry)) page (pteAddr entry)) =
      x86Layout.pte.copyEntry x86Layout.rootEnds (x86Layout.pte.copyTable x86Layout.below) dst src := by
  funext q i
  simp [PteFormat.copyEntry, x86Layout, cloneTable_radix, x86Pte]

theorem vmmSpaceClone_radix (cr3 src : Nat) :
    p.vmmSpaceClone cr3 src = x86Layout.spaceClone p cr3 src := by
  unfold vmmSpaceClone Layout.spaceClone PteFormat.copyEntries
  rw [vmmSpaceCreate_radix]
  rcases x86Layout.spaceCreate p cr3 with ⟨_ | dst, q⟩
  · rfl
  · simp only [vmmSpaceDestroy_radix]
    rw [← cloneEntry_radix]
    rfl

end Phys

end NarcOs
