import NarcOs.Mm.X86

/-!
# The other architectures

The page tables of `kernel/arch/aarch64/vmm.c` and `kernel/arch/riscv64/vmm.c`,
and the interface of `kernel/mm.h` that all three architectures give. The
registers that hold the active root are arguments, and the invalidations of the
TLB are left out.
-/

namespace NarcOs

-- ---------------------------------------------------------------------------
-- aarch64
-- ---------------------------------------------------------------------------

namespace Aarch64

def descValid : Nat := 1 <<< 0
def descTable : Nat := 1 <<< 1
def descUser : Nat := 1 <<< 6
def descRo : Nat := 1 <<< 7
def descSh : Nat := 3 <<< 8
def descAf : Nat := 1 <<< 10
def descPxn : Nat := 1 <<< 53

/-- `entry & ADDR_MASK`: the bits 12 to 47. -/
def descAddr (entry : Nat) : Nat := entry % 2 ^ 48 / 4096 * 4096

/-- `entry & ~ADDR_MASK` -/
def descFlags (entry : Nat) : Nat := entry - descAddr entry

/-- The bits that `map_page` gives a user page. -/
def pageBits (flags : Nat) : Nat :=
  let bits := descValid ||| descTable ||| descAf ||| descSh
  let bits := bits ||| (descUser ||| descPxn)
  if flags.testBit 1 then bits else bits ||| descRo

def pte : PteFormat where
  present entry := entry.testBit 0
  block entry := !entry.testBit 1
  addr := descAddr
  user entry := entry.testBit 6
  write entry := !entry.testBit 7
  bits := descFlags
  page _ := true
  link phys := phys ||| (descValid ||| descTable)
  touch _ := none
  leaf phys flags := descAddr phys ||| pageBits flags
  protect entry flags :=
    if flags.testBit 1 then (if entry.testBit 7 then entry - descRo else entry) else entry ||| descRo
  copy page entry := page ||| descFlags entry
  copyEnds last entry := last || !entry.testBit 1
  freeEnds last _ := last
  limit := 2 ^ 48

/-- The shifts of the loop in `get_pte` are those of the levels 3, 2 and 1. -/
def getPte (p : Phys) (root virt : Nat) (create : Bool) : Option (Nat × Nat) × Phys :=
  pte.getPte create 3 p root virt

def mapPage (p : Phys) (root virt phys flags : Nat) : Bool × Phys :=
  pte.mapPage 3 p root virt phys flags

/-- `vmm_space_create`; the kernel has its own root. -/
def vmmSpaceCreate (p : Phys) : Option Nat × Phys :=
  let (root, p) := p.allocPage
  if root = 0 then (none, p) else (some root, p)

/-- `clone_table`, level 1 for the last table. -/
def cloneTable (level : Nat) (p : Phys) (dst src : Nat) : Bool × Phys :=
  pte.copyTable (level - 1) p dst src

/-- `free_table`, with levels as in `cloneTable`. -/
def freeTable (level : Nat) (p : Phys) (table : Nat) : Phys := pte.freeTable (level - 1) p table

def vmmSpaceDestroy (p : Phys) (ttbr0 root : Nat) : Nat × Phys :=
  if root = 0 ∨ ttbr0 = root then (root, p) else (0, freeTable 4 p root)

def vmmSpaceClone (p : Phys) (ttbr0 src : Nat) : Option Nat × Phys :=
  match vmmSpaceCreate p with
  | (none, p) => (none, p)
  | (some dst, p) =>
    let (done, p) := cloneTable 4 p dst src
    if done then (some dst, p) else (none, (vmmSpaceDestroy p ttbr0 dst).2)

def vmmMapUser (p : Phys) (root virt phys flags : Nat) : Bool × Phys := mapPage p root virt phys flags

def vmmProtectUser (p : Phys) (root virt flags : Nat) : Bool × Phys :=
  pte.protectUser 3 p root virt flags

def vmmUnmapUser (p : Phys) (root virt : Nat) : Bool × Phys := pte.unmapUser 3 p root virt

def vmmUserPhys (p : Phys) (root virt : Nat) : Nat := pte.userPhys 3 p root virt

def vmmUserRangeOk (p : Phys) (root virt len : Nat) (write : Bool) : Bool :=
  pte.userRangeOk 3 0x0000ffffffffffff p root virt len write

def layout : Layout where
  pte := pte
  below := 2
  bound := 512
  last := 0x0000ffffffffffff
  rootEnds entry := !entry.testBit 1

theorem vmmSpaceCreate_layout (p : Phys) (active : Nat) :
    vmmSpaceCreate p = layout.spaceCreate p active := rfl

theorem vmmSpaceDestroy_layout (p : Phys) (ttbr0 root : Nat) :
    vmmSpaceDestroy p ttbr0 root = layout.spaceDestroy p ttbr0 root := by
  unfold vmmSpaceDestroy Layout.spaceDestroy freeTable
  rw [PteFormat.freeTable]
  rfl

theorem vmmSpaceClone_layout (p : Phys) (ttbr0 src : Nat) :
    vmmSpaceClone p ttbr0 src = layout.spaceClone p ttbr0 src := by
  unfold vmmSpaceClone Layout.spaceClone cloneTable
  simp only [vmmSpaceDestroy_layout, ← vmmSpaceCreate_layout p ttbr0]
  rw [PteFormat.copyTable]
  rfl

theorem descFlags_eq (e : Nat) : descFlags e = 2 ^ 48 * (e / 2 ^ 48) + e % 4096 := by
  rw [descFlags, descAddr]
  omega

/-- A page-aligned address with bits of an entry that are none of the address. -/
theorem or_eq {f b : Nat} (hf : IsFrame f) (hlim : f < 2 ^ 48) (hb : b % 2 ^ 48 < 4096) :
    f ||| b = 2 ^ 48 * (b / 2 ^ 48) + (f + b % 4096) := by
  have hsplit : b = 2 ^ 48 * (b / 2 ^ 48) + b % 4096 := by omega
  conv_lhs => rw [hsplit]
  exact or_mask (by decide) hf.aligned hlim (Nat.mod_lt _ (by decide))

theorem leaf_spec {f : Nat} (hf : IsFrame f) (hlim : f < 2 ^ 48) (flags : Nat) :
    (pte.leaf f flags).testBit 0 = true ∧ descAddr (pte.leaf f flags) = f ∧
      (pte.leaf f flags).testBit 6 = true ∧ (!(pte.leaf f flags).testBit 7) = flags.testBit 1 ∧
      pte.leaf f flags < 2 ^ 64 := by
  have hal := hf.aligned
  have haddr : descAddr f = f := by
    rw [descAddr]
    omega
  have key : ∀ (b : Nat) (w : Bool), b % 2 ^ 48 < 4096 → b < 2 ^ 64 → b % 2 = 1 → b / 64 % 2 = 1 →
      (b / 128 % 2 = if w then 0 else 1) → (f ||| b).testBit 0 = true ∧ descAddr (f ||| b) = f ∧
      (f ||| b).testBit 6 = true ∧ (!(f ||| b).testBit 7) = w ∧ (f ||| b) < 2 ^ 64 := by
    intro b w hlow hlt hv hu hw
    rw [or_eq hf hlim hlow, testBit_iff, testBit_iff, descAddr]
    refine ⟨by omega, by omega, by omega, ?_, by omega⟩
    cases w with
    | true =>
      rw [Bool.not_eq_true', ← Bool.not_eq_true, testBit_iff]
      simp only [if_true] at hw
      omega
    | false =>
      rw [Bool.not_eq_false', testBit_iff]
      simp only [Bool.false_eq_true, if_false] at hw
      omega
  have hleaf : pte.leaf f flags = f ||| pageBits flags := by
    show descAddr f ||| pageBits flags = _
    rw [haddr]
  rw [hleaf]
  refine key _ _ ?_ ?_ ?_ ?_ ?_ <;> unfold pageBits <;> cases flags.testBit 1 <;> decide

theorem protect_spec {e : Nat} (flags : Nat) (he : e < 2 ^ 64) :
    (pte.protect e flags).testBit 0 = e.testBit 0 ∧ descAddr (pte.protect e flags) = descAddr e ∧
      (pte.protect e flags).testBit 6 = e.testBit 6 ∧
      (!(pte.protect e flags).testBit 7) = flags.testBit 1 ∧ pte.protect e flags < 2 ^ 64 := by
  -- setting or clearing the read-only bit
  have key : ∀ (e' : Nat) (w : Bool), (e' = if w then (if e / 128 % 2 = 1 then e - 128 else e)
      else if e / 128 % 2 = 1 then e else e + 128) → e'.testBit 0 = e.testBit 0 ∧
      descAddr e' = descAddr e ∧ e'.testBit 6 = e.testBit 6 ∧ (!e'.testBit 7) = w ∧ e' < 2 ^ 64 := by
    intro e' w h
    have hbits : e' % 2 = e % 2 ∧ e' % 2 ^ 48 / 4096 = e % 2 ^ 48 / 4096 ∧ e' / 64 % 2 = e / 64 % 2 ∧
        (e' / 128 % 2 = if w then 0 else 1) ∧ e' < 2 ^ 64 := by
      cases w <;> simp only [Bool.false_eq_true, if_true, if_false] at h ⊢ <;> split at h
      all_goals exact ⟨by omega, by omega, by omega, by omega, by omega⟩
    obtain ⟨h₀, haddr, h₆, h₇, hlt⟩ := hbits
    refine ⟨Bool.eq_iff_iff.mpr ?_, by rw [descAddr, descAddr, haddr], Bool.eq_iff_iff.mpr ?_, ?_, hlt⟩
    · rw [testBit_iff, testBit_iff, Nat.pow_zero, Nat.div_one, Nat.div_one, h₀]
    · rw [testBit_iff, testBit_iff, show 2 ^ 6 = 64 from rfl, h₆]
    · cases w with
      | true =>
        rw [Bool.not_eq_true', ← Bool.not_eq_true, testBit_iff]
        simp only [if_true] at h₇
        omega
      | false =>
        rw [Bool.not_eq_false', testBit_iff]
        simp only [Bool.false_eq_true, if_false] at h₇
        omega
  refine key _ _ ?_
  have hro : e ||| descRo = if e.testBit 7 then e else e + 128 := or_two_pow e 7
  simp only [pte, hro, testBit_iff]
  rfl

theorem copy_spec {f e : Nat} (hf : IsFrame f) (hlim : f < 2 ^ 48) (he : e < 2 ^ 64) :
    (pte.copy f e).testBit 0 = e.testBit 0 ∧ (pte.copy f e).testBit 1 = e.testBit 1 ∧
      descAddr (pte.copy f e) = f ∧ descFlags (pte.copy f e) = descFlags e ∧ pte.copy f e < 2 ^ 64 := by
  have hal := hf.aligned
  have hor : pte.copy f e = 2 ^ 48 * (e / 2 ^ 48) + (f + e % 4096) := by
    show f ||| descFlags e = _
    rw [descFlags_eq]
    exact or_mask (by decide) hal hlim (Nat.mod_lt _ (by decide))
  rw [hor, descFlags_eq, descFlags_eq, descAddr]
  refine ⟨Bool.eq_iff_iff.mpr ?_, Bool.eq_iff_iff.mpr ?_, by omega, by omega, by omega⟩
  · rw [testBit_iff, testBit_iff]
    omega
  · rw [testBit_iff, testBit_iff]
    omega

theorem pte_lawful : pte.Lawful where
  absent := rfl
  addr_lt e _ := by
    show descAddr e < 2 ^ 48
    rw [descAddr]
    omega
  link f hf hlim := by
    have hal := hf.aligned
    replace hlim : f < 2 ^ 48 := hlim
    have hor : pte.link f = f + 3 := or_eq_add hal (by decide)
    rw [hor]
    show (f + 3).testBit 0 = true ∧ (!(f + 3).testBit 1) = false ∧ descAddr (f + 3) = f ∧ _
    rw [Bool.not_eq_false', testBit_iff, testBit_iff, descAddr]
    omega
  touch e e' h := by cases h
  leaf f flags hf hlim := by
    obtain ⟨hp, haddr, -, -, hlt⟩ := leaf_spec hf hlim flags
    exact ⟨hp, rfl, haddr, hlt⟩
  protect e flags he hp _ := by
    obtain ⟨hp', haddr, hu, hw, hlt⟩ := protect_spec flags he
    exact ⟨hp'.trans hp, rfl, haddr, hlt, hu, hw⟩
  copy f e hf hlim he hp := by
    obtain ⟨hp', hb, haddr, hbits, hlt⟩ := copy_spec hf hlim he
    exact ⟨hp'.trans hp, congrArg (!·) hb, haddr, hlt, hbits, rfl⟩
  bits e e' h := by
    replace h : descFlags e = descFlags e' := h
    rw [descFlags_eq, descFlags_eq] at h
    refine ⟨Bool.eq_iff_iff.mpr ?_, congrArg (!·) (Bool.eq_iff_iff.mpr ?_)⟩
    · exact (testBit_iff e 6).trans ((by omega : _ ↔ _).trans (testBit_iff e' 6).symm)
    · exact (testBit_iff e 7).trans ((by omega : _ ↔ _).trans (testBit_iff e' 7).symm)
  copyEnds e := ⟨fun _ => rfl, fun _ hb => hb⟩
  freeEnds e := ⟨rfl, fun _ _ => rfl⟩

theorem pte_grants : pte.Grants := fun _ flags hf hlim =>
  ⟨(leaf_spec hf hlim flags).2.2.1, (leaf_spec hf hlim flags).2.2.2.1⟩

theorem layout_lawful : layout.Lawful where
  pte := pte_lawful
  bound := by decide
  rootEnds _ _ hb := hb

end Aarch64

-- ---------------------------------------------------------------------------
-- riscv64
-- ---------------------------------------------------------------------------

namespace Riscv64

def pteV : Nat := 1 <<< 0
def pteR : Nat := 1 <<< 1
def pteW : Nat := 1 <<< 2
def pteX : Nat := 1 <<< 3
def pteU : Nat := 1 <<< 4
def pteA : Nat := 1 <<< 6
def pteD : Nat := 1 <<< 7

def ptePhys (entry : Nat) : Nat := wrap64 (entry >>> 10 <<< 12)

def makePte (phys flags : Nat) : Nat := phys >>> 12 <<< 10 ||| flags

/-- `pte & (PTE_R | PTE_W | PTE_X)` is not 0. -/
def isLeaf (entry : Nat) : Bool := entry.testBit 1 || entry.testBit 2 || entry.testBit 3

/-- The bits that `map_page` gives a user page. -/
def pageBits (flags : Nat) : Nat :=
  let bits := pteV ||| pteR ||| pteA ||| pteD
  let bits := if flags.testBit 1 then bits ||| pteW else bits
  bits ||| (pteU ||| pteX)

def pte : PteFormat where
  present entry := entry.testBit 0
  block := isLeaf
  addr := ptePhys
  user entry := entry.testBit 4
  write entry := entry.testBit 2
  bits entry := entry % 1024
  page entry := entry.testBit 1
  link phys := makePte phys pteV
  touch _ := none
  leaf phys flags := makePte phys (pageBits flags)
  protect entry flags :=
    if flags.testBit 1 then entry ||| pteW else if entry.testBit 2 then entry - pteW else entry
  copy page entry := makePte page (entry % 1024)
  copyEnds _ := isLeaf
  freeEnds last entry := last || isLeaf entry
  limit := 2 ^ 64

section
variable (levels : Nat)

def getPte (p : Phys) (root virt : Nat) (create : Bool) : Option (Nat × Nat) × Phys :=
  pte.getPte create (levels - 1) p root virt

def mapPage (p : Phys) (root virt phys flags : Nat) : Bool × Phys :=
  pte.mapPage (levels - 1) p root virt phys flags

def lastUser : Nat := if levels = 4 then 0x0000ffffffffffff else 0x0000003fffffffff

/-- The first half of a root is the user's. `clone_table` and `free_table` of the
source count their levels differently; here both tables below a root have level
`levels - 2`. -/
def layout : Layout where
  pte := pte
  below := levels - 2
  bound := 256
  last := lastUser levels
  rootEnds _ := false

def vmmSpaceCreate (p : Phys) (active : Nat) : Option Nat × Phys := (layout levels).spaceCreate p active

/-- `clone_table`, level 0 for the last table. -/
def cloneTable (level : Nat) (p : Phys) (dst src : Nat) : Bool × Phys := pte.copyTable level p dst src

/-- `free_table`, level 1 for the last table. -/
def freeTable (level : Nat) (p : Phys) (table : Nat) : Phys := pte.freeTable (level - 1) p table

def vmmSpaceDestroy (p : Phys) (active root : Nat) : Nat × Phys :=
  if root = 0 ∨ active = root then (root, p)
  else (0, (pte.freeEntries (fun _ => false) (freeTable (levels - 1)) 256 p root).pmmFreePage root)

def vmmSpaceClone (p : Phys) (active src : Nat) : Option Nat × Phys :=
  match vmmSpaceCreate levels p active with
  | (none, p) => (none, p)
  | (some dst, p) =>
    let (done, p) := pte.copyEntries (fun _ => false) (cloneTable (levels - 2)) 256 p dst src
    if done then (some dst, p) else (none, (vmmSpaceDestroy levels p active dst).2)

def vmmMapUser (p : Phys) (root virt phys flags : Nat) : Bool × Phys :=
  mapPage levels p root virt phys flags

def vmmProtectUser (p : Phys) (root virt flags : Nat) : Bool × Phys :=
  pte.protectUser (levels - 1) p root virt flags

def vmmUnmapUser (p : Phys) (root virt : Nat) : Bool × Phys := pte.unmapUser (levels - 1) p root virt

def vmmUserPhys (p : Phys) (root virt : Nat) : Nat := pte.userPhys (levels - 1) p root virt

def vmmUserRangeOk (p : Phys) (root virt len : Nat) (write : Bool) : Bool :=
  pte.userRangeOk (levels - 1) (lastUser levels) p root virt len write

theorem vmmSpaceDestroy_layout (p : Phys) (active root : Nat) :
    vmmSpaceDestroy levels p active root = (layout levels).spaceDestroy p active root := by
  unfold vmmSpaceDestroy Layout.spaceDestroy
  rfl

theorem vmmSpaceClone_layout (p : Phys) (active src : Nat) :
    vmmSpaceClone levels p active src = (layout levels).spaceClone p active src := by
  unfold vmmSpaceClone Layout.spaceClone vmmSpaceCreate
  simp only [vmmSpaceDestroy_layout]
  rfl

end

theorem ptePhys_eq (e : Nat) : ptePhys e = e / 1024 * 4096 % 2 ^ 64 := by
  rw [ptePhys, wrap64, Nat.shiftRight_eq_div_pow, Nat.shiftLeft_eq]

theorem makePte_eq {f b : Nat} (hf : IsFrame f) (hb : b < 1024) : makePte f b = f / 4 + b := by
  have hal := hf.aligned
  have hshift : f >>> 12 <<< 10 = 2 ^ 10 * (f / 4096) := by
    rw [Nat.shiftRight_eq_div_pow, Nat.shiftLeft_eq, Nat.mul_comm]
  rw [makePte, hshift, ← Nat.two_pow_add_eq_or_of_lt hb]
  omega

theorem ptePhys_makePte {f b : Nat} (hf : IsFrame f) (hb : b < 1024) :
    ptePhys (makePte f b) = f ∧ makePte f b < 2 ^ 64 := by
  have hal := hf.aligned
  have hbelow := hf.below
  rw [ptePhys_eq, makePte_eq hf hb]
  omega

theorem testBit_makePte {f b : Nat} (hf : IsFrame f) (hb : b < 1024) {k : Nat} (hk : k < 10) :
    (makePte f b).testBit k = b.testBit k := by
  have hal := hf.aligned
  rw [makePte_eq hf hb]
  have hmod : (f / 4 + b) % 2 ^ 10 = b := by omega
  rw [← hmod, Nat.testBit_mod_two_pow, hmod]
  simp [hk]

theorem testBit_low (e : Nat) {k : Nat} (hk : k < 10) : (e % 1024).testBit k = e.testBit k := by
  rw [show 1024 = 2 ^ 10 from rfl, Nat.testBit_mod_two_pow]
  simp [hk]

theorem protect_spec {e : Nat} (flags : Nat) (he : e < 2 ^ 64) :
    (∀ k < 10, k ≠ 2 → (pte.protect e flags).testBit k = e.testBit k) ∧
      ptePhys (pte.protect e flags) = ptePhys e ∧ (pte.protect e flags).testBit 2 = flags.testBit 1 ∧
      pte.protect e flags < 2 ^ 64 := by
  -- setting or clearing the write bit
  have hor : e ||| pteW = if e.testBit 2 then e else e + 4 := or_two_pow e 2
  cases hw : flags.testBit 1 with
  | true =>
    have hp : pte.protect e flags = e ||| pteW := by simp [pte, hw]
    refine ⟨fun k _ hk => ?_, ?_, ?_, ?_⟩
    · rw [hp, Nat.testBit_or, pteW, Nat.one_shiftLeft, Nat.testBit_two_pow_of_ne (Ne.symm hk),
        Bool.or_false]
    · rw [hp, hor, ptePhys_eq, ptePhys_eq]
      split
      · rfl
      · rename_i h
        rw [testBit_iff] at h
        omega
    · rw [hp, Nat.testBit_or, pteW, Nat.one_shiftLeft, Nat.testBit_two_pow_self, Bool.or_true]
    · rw [hp, hor]
      split
      · exact he
      · rename_i h
        rw [testBit_iff] at h
        omega
  | false =>
    have hp : pte.protect e flags = if e.testBit 2 then e - 2 ^ 2 else e := by
      simp [pte, hw]
      rfl
    refine ⟨fun k _ hk => ?_, ?_, ?_, ?_⟩
    · rw [hp, testBit_clear]
      simp [hk]
    · rw [hp, ptePhys_eq, ptePhys_eq]
      split
      · rename_i h
        rw [testBit_iff] at h
        omega
      · rfl
    · rw [hp, testBit_clear]
      simp
    · rw [hp]
      split
      · omega
      · exact he

theorem pageBits_spec (flags : Nat) : pageBits flags < 1024 ∧ (pageBits flags).testBit 0 = true ∧
    (pageBits flags).testBit 1 = true ∧ (pageBits flags).testBit 4 = true ∧
    (pageBits flags).testBit 2 = flags.testBit 1 := by
  unfold pageBits
  cases flags.testBit 1 <;> decide

theorem isLeaf_congr {e e' : Nat} (h : ∀ k < 10, e.testBit k = e'.testBit k) : isLeaf e = isLeaf e' := by
  rw [isLeaf, isLeaf, h 1 (by decide), h 2 (by decide), h 3 (by decide)]

theorem pte_lawful : pte.Lawful where
  absent := rfl
  addr_lt e _ := by
    show ptePhys e < 2 ^ 64
    rw [ptePhys_eq]
    exact Nat.mod_lt _ (by decide)
  link f hf _ := by
    have hb : pteV < 1024 := by decide
    have hbit := fun k (hk : k < 10) => testBit_makePte hf hb hk
    exact ⟨hbit 0 (by decide), (isLeaf_congr fun k hk => hbit k hk : isLeaf _ = isLeaf pteV),
      (ptePhys_makePte hf hb).1, (ptePhys_makePte hf hb).2⟩
  touch e e' h := by cases h
  leaf f flags hf _ := by
    obtain ⟨hb, h₀, h₁, -, -⟩ := pageBits_spec flags
    exact ⟨(testBit_makePte hf hb (by decide)).trans h₀, (testBit_makePte hf hb (by decide)).trans h₁,
      (ptePhys_makePte hf hb).1, (ptePhys_makePte hf hb).2⟩
  protect e flags he hp hr := by
    obtain ⟨hbits, haddr, hw, hlt⟩ := protect_spec flags he
    exact ⟨(hbits 0 (by decide) (by decide)).trans hp, (hbits 1 (by decide) (by decide)).trans hr, haddr,
      hlt, hbits 4 (by decide) (by decide), hw⟩
  copy f e hf _ he hp := by
    have hb : e % 1024 < 1024 := Nat.mod_lt _ (by decide)
    have hbit : ∀ k < 10, (pte.copy f e).testBit k = e.testBit k := fun k hk =>
      (testBit_makePte hf hb hk).trans (testBit_low e hk)
    refine ⟨(hbit 0 (by decide)).trans hp, isLeaf_congr hbit, (ptePhys_makePte hf hb).1,
      (ptePhys_makePte hf hb).2, ?_, hbit 1 (by decide)⟩
    have hal := hf.aligned
    show makePte f (e % 1024) % 1024 = e % 1024
    rw [makePte_eq hf hb]
    omega
  bits e e' h := by
    replace h : e % 1024 = e' % 1024 := h
    have hbit : ∀ k < 10, e.testBit k = e'.testBit k := fun k hk => by
      rw [← testBit_low e hk, h, testBit_low e' hk]
    exact ⟨hbit 4 (by decide), hbit 2 (by decide)⟩
  copyEnds e := by
    refine ⟨fun hr => ?_, fun _ hb => hb⟩
    replace hr : e.testBit 1 = true := hr
    show isLeaf e = true
    rw [isLeaf, hr]
    rfl
  freeEnds e := ⟨rfl, fun _ hb => hb⟩

theorem pte_grants : pte.Grants := fun f flags hf _ => by
  obtain ⟨hb, -, -, h₄, h₂⟩ := pageBits_spec flags
  exact ⟨(testBit_makePte hf hb (by decide)).trans h₄, (testBit_makePte hf hb (by decide)).trans h₂⟩

theorem layout_lawful (levels : Nat) : (layout levels).Lawful where
  pte := pte_lawful
  bound := show 256 ≤ 512 by decide
  rootEnds _ _ _ := rfl

end Riscv64

-- ---------------------------------------------------------------------------
-- One interface
-- ---------------------------------------------------------------------------

/-- The functions of `kernel/mm.h` on spaces; the active root comes first where
a function reads it. -/
structure Vmm where
  spaceCreate : Nat → Phys → Option Nat × Phys
  spaceClone : Nat → Phys → Nat → Option Nat × Phys
  spaceDestroy : Nat → Phys → Nat → Nat × Phys
  mapUser : Phys → Nat → Nat → Nat → Nat → Bool × Phys
  protectUser : Phys → Nat → Nat → Nat → Bool × Phys
  unmapUser : Phys → Nat → Nat → Bool × Phys
  userPhys : Phys → Nat → Nat → Nat
  userRangeOk : Phys → Nat → Nat → Nat → Bool → Bool

inductive Machine
  | x86_64
  | aarch64
  | riscv64Sv39
  | riscv64Sv48
  deriving DecidableEq

namespace Machine

def riscvVmm (levels : Nat) : Vmm where
  spaceCreate active p := Riscv64.vmmSpaceCreate levels p active
  spaceClone active p := Riscv64.vmmSpaceClone levels p active
  spaceDestroy active p := Riscv64.vmmSpaceDestroy levels p active
  mapUser := Riscv64.vmmMapUser levels
  protectUser := Riscv64.vmmProtectUser levels
  unmapUser := Riscv64.vmmUnmapUser levels
  userPhys := Riscv64.vmmUserPhys levels
  userRangeOk := Riscv64.vmmUserRangeOk levels

def vmm : Machine → Vmm
  | x86_64 =>
    { spaceCreate := fun active p => p.vmmSpaceCreate active
      spaceClone := fun active p => p.vmmSpaceClone active
      spaceDestroy := fun active p => p.vmmSpaceDestroy active
      mapUser := Phys.vmmMapUser
      protectUser := Phys.vmmProtectUser
      unmapUser := Phys.vmmUnmapUser
      userPhys := Phys.vmmUserPhys
      userRangeOk := Phys.vmmUserRangeOk }
  | aarch64 =>
    { spaceCreate := fun _ p => Aarch64.vmmSpaceCreate p
      spaceClone := fun active p => Aarch64.vmmSpaceClone p active
      spaceDestroy := fun active p => Aarch64.vmmSpaceDestroy p active
      mapUser := Aarch64.vmmMapUser
      protectUser := Aarch64.vmmProtectUser
      unmapUser := Aarch64.vmmUnmapUser
      userPhys := Aarch64.vmmUserPhys
      userRangeOk := Aarch64.vmmUserRangeOk }
  | riscv64Sv39 => riscvVmm 3
  | riscv64Sv48 => riscvVmm 4

def layout : Machine → Layout
  | x86_64 => x86Layout
  | aarch64 => Aarch64.layout
  | riscv64Sv39 => Riscv64.layout 3
  | riscv64Sv48 => Riscv64.layout 4

theorem lawful (m : Machine) : m.layout.Lawful := by
  cases m with
  | x86_64 => exact x86Layout_lawful
  | aarch64 => exact Aarch64.layout_lawful
  | riscv64Sv39 => exact Riscv64.layout_lawful 3
  | riscv64Sv48 => exact Riscv64.layout_lawful 4

theorem grants (m : Machine) : m.layout.pte.Grants := by
  cases m with
  | x86_64 => exact x86Pte_grants
  | aarch64 => exact Aarch64.pte_grants
  | riscv64Sv39 => exact Riscv64.pte_grants
  | riscv64Sv48 => exact Riscv64.pte_grants

end Machine

def Layout.vmm (L : Layout) : Vmm where
  spaceCreate active p := L.spaceCreate p active
  spaceClone active p := L.spaceClone p active
  spaceDestroy active p := L.spaceDestroy p active
  mapUser := L.pte.mapPage L.top
  protectUser := L.pte.protectUser L.top
  unmapUser := L.pte.unmapUser L.top
  userPhys := L.pte.userPhys L.top
  userRangeOk := L.pte.userRangeOk L.top L.last

theorem Machine.vmm_eq (m : Machine) : m.vmm = m.layout.vmm := by
  have hriscv : ∀ levels, riscvVmm (levels + 2) = (Riscv64.layout (levels + 2)).vmm := by
    intro levels
    rw [riscvVmm, Layout.vmm, Vmm.mk.injEq]
    refine ⟨rfl, ?_, ?_, rfl, rfl, rfl, rfl, rfl⟩
    · funext active p src
      exact Riscv64.vmmSpaceClone_layout _ p active src
    · funext active p root
      exact Riscv64.vmmSpaceDestroy_layout _ p active root
  cases m with
  | x86_64 =>
    rw [vmm, Layout.vmm, Vmm.mk.injEq]
    refine ⟨?_, ?_, ?_, ?_, ?_, ?_, ?_, ?_⟩
    · funext active p
      exact p.vmmSpaceCreate_radix active
    · funext active p src
      exact p.vmmSpaceClone_radix active src
    · funext active p root
      exact p.vmmSpaceDestroy_radix root active
    · funext p root virt phys flags
      exact p.vmmMap_radix root virt phys flags true
    · funext p root virt flags
      exact p.vmmProtectUser_radix root virt flags
    · funext p root virt
      exact p.vmmUnmapUser_radix root virt
    · funext p root virt
      exact p.vmmUserPhys_radix root virt
    · funext p root virt len write
      exact p.vmmUserRangeOk_radix root virt len write
  | aarch64 =>
    rw [vmm, Layout.vmm, Vmm.mk.injEq]
    refine ⟨?_, ?_, ?_, rfl, rfl, rfl, rfl, rfl⟩
    · funext active p
      exact Aarch64.vmmSpaceCreate_layout p active
    · funext active p src
      exact Aarch64.vmmSpaceClone_layout p active src
    · funext active p root
      exact Aarch64.vmmSpaceDestroy_layout p active root
  | riscv64Sv39 => exact hriscv 1
  | riscv64Sv48 => exact hriscv 2

end NarcOs
