import NarcOs.Mm.Pmm

/-!
# Page tables

The x86_64 part of `kernel/mm/mm.c`. A table is a page of 512 words in physical
memory, and an entry is a word; tables are named by their physical address. The
`cr3` that some functions read is an argument, and the invalidations of the TLB
are left out.
-/

namespace NarcOs

def ptePresent : Nat := 1 <<< 0
def pteWrite : Nat := 1 <<< 1
def pteUser : Nat := 1 <<< 2
def vmmWrite : Nat := 1 <<< 1

def isPresent (entry : Nat) : Bool := entry.testBit 0
def isWrite (entry : Nat) : Bool := entry.testBit 1
def isUser (entry : Nat) : Bool := entry.testBit 2
def isHuge (entry : Nat) : Bool := entry.testBit 7

/-- `entry & ADDR_MASK`: the bits 12 to 51. -/
def pteAddr (entry : Nat) : Nat := entry % 2 ^ 52 / 4096 * 4096

/-- `entry & ~ADDR_MASK` -/
def pteFlags (entry : Nat) : Nat := entry - pteAddr entry

def tableIndex (virt level : Nat) : Nat := virt / 4096 / 512 ^ level % 512

namespace Phys

def entry (p : Phys) (table index : Nat) : Nat := p.mem.load64 (table + 8 * index)

def setEntry (p : Phys) (table index value : Nat) : Phys :=
  { p with mem := p.mem.store64 (table + 8 * index) value }

/-- `next_table`; `none` is its NULL. -/
def nextTable (p : Phys) (table index : Nat) (create user : Bool) : Option Nat × Phys :=
  let entry := p.entry table index
  if ¬ isPresent entry then
    if ¬ create then (none, p)
    else
      let (phys, p) := p.allocPage
      if phys = 0 then (none, p)
      else
        let bits := ptePresent ||| pteWrite
        let bits := if user then bits ||| pteUser else bits
        (some phys, p.setEntry table index (phys ||| bits))
  else if isHuge entry then (none, p)
  else
    let p := if user ∧ create then p.setEntry table index (entry ||| pteUser) else p
    (some (pteAddr entry), p)

/-- `get_pte`: the last table and the index in it. -/
def getPte (p : Phys) (root virt : Nat) (create user : Bool) : Option (Nat × Nat) × Phys :=
  match p.nextTable root (tableIndex virt 3) create user with
  | (none, p) => (none, p)
  | (some pdpt, p) =>
    match p.nextTable pdpt (tableIndex virt 2) create user with
    | (none, p) => (none, p)
    | (some pd, p) =>
      match p.nextTable pd (tableIndex virt 1) create user with
      | (none, p) => (none, p)
      | (some pt, p) => (some (pt, tableIndex virt 0), p)

/-- `vmm_map`; `true` for its 0. -/
def vmmMap (p : Phys) (root virt phys flags : Nat) (user : Bool) : Bool × Phys :=
  match p.getPte root virt true user with
  | (none, p) => (false, p)
  | (some (pt, i), p) =>
    let bits := ptePresent
    let bits := if user then bits ||| pteUser else bits
    let bits := if flags.testBit 1 then bits ||| pteWrite else bits
    (true, p.setEntry pt i (pteAddr phys ||| bits))

def vmmMapUser (p : Phys) (root virt phys flags : Nat) : Bool × Phys :=
  p.vmmMap root virt phys flags true

def presentPte (p : Phys) (root virt : Nat) : Option (Nat × Nat × Nat) :=
  match (p.getPte root virt false false).1 with
  | none => none
  | some (pt, i) => if isPresent (p.entry pt i) then some (pt, i, p.entry pt i) else none

def vmmProtectUser (p : Phys) (root virt flags : Nat) : Bool × Phys :=
  match p.presentPte root virt with
  | none => (false, p)
  | some (pt, i, pte) =>
    if ¬ isUser pte then (false, p)
    else if flags.testBit 1 then (true, p.setEntry pt i (pte ||| pteWrite))
    else (true, p.setEntry pt i (if isWrite pte then pte - pteWrite else pte))

def vmmUnmapUser (p : Phys) (root virt : Nat) : Bool × Phys :=
  match p.presentPte root virt with
  | none => (false, p)
  | some (pt, i, pte) =>
    if ¬ isUser pte then (false, p)
    else (true, (p.setEntry pt i 0).pmmFreePage (pteAddr pte))

def vmmUserPhys (p : Phys) (root virt : Nat) : Nat :=
  match p.presentPte root virt with
  | none => 0
  | some (_, _, pte) => if ¬ isUser pte then 0 else pteAddr pte ||| virt % pageSize

/-- `vmm_user_range_ok` -/
def vmmUserRangeOk (p : Phys) (root virt len : Nat) (write : Bool) : Bool :=
  if len = 0 then true
  else if virt > 0x00007fffffffffff then false
  else if len - 1 > 0x00007fffffffffff - virt then false
  else
    (List.range ((alignDown (virt + len - 1) - alignDown virt) / pageSize + 1)).all fun k =>
      match p.presentPte root (alignDown virt + pageSize * k) with
      | none => false
      | some (_, _, pte) => isUser pte && (!write || isWrite pte)

-- ---------------------------------------------------------------------------
-- Address spaces
-- ---------------------------------------------------------------------------

def forEntries (body : Phys → Nat → Bool × Phys) : List Nat → Phys → Bool × Phys
  | [], p => (true, p)
  | i :: rest, p =>
    match body p i with
    | (false, p) => (false, p)
    | (true, p) => forEntries body rest p

/-- `vmm_space_create`: the new root. -/
def vmmSpaceCreate (p : Phys) (cr3 : Nat) : Option Nat × Phys :=
  let (root, p) := p.allocPage
  if root = 0 then (none, p)
  else
    let p := (List.range 256).foldl
      (fun p i => p.setEntry root (256 + i) (p.entry cr3 (256 + i))) p
    (some root, p)

/-- `clone_table`. The level counts down to 1; 0 is not reached. -/
def cloneTable : Nat → Phys → Nat → Nat → Bool × Phys
  | 0, p, _, _ => (true, p)
  | level + 1, p, dst, src =>
    forEntries (fun p i =>
      let entry := p.entry src i
      if ¬ isPresent entry then (true, p)
      else
        let (page, p) := p.allocPage
        if page = 0 then (false, p)
        else
          let p := p.setEntry dst i (page ||| pteFlags entry)
          if level = 0 ∨ isHuge entry then
            (true, { p with mem := p.mem.write page (p.mem.read (pteAddr entry) pageSize) })
          else cloneTable level p page (pteAddr entry)) (List.range 512) p

/-- `free_table`, with levels as in `cloneTable`. -/
def freeTable : Nat → Phys → Nat → Phys
  | 0, p, _ => p
  | level + 1, p, table =>
    let p := (List.range 512).foldl (fun p i =>
      let entry := p.entry table i
      if ¬ isPresent entry then p
      else if level = 0 ∨ isHuge entry then p.pmmFreePage (pteAddr entry)
      else freeTable level p (pteAddr entry)) p
    p.pmmFreePage table

/-- `vmm_space_destroy`; the space's root becomes 0 unless it is the active one. -/
def vmmSpaceDestroy (p : Phys) (cr3 root : Nat) : Nat × Phys :=
  if root = 0 ∨ cr3 = root then (root, p)
  else
    let p := (List.range 256).foldl (fun p i =>
      let entry := p.entry root i
      if isPresent entry then freeTable 3 p (pteAddr entry) else p) p
    (0, p.pmmFreePage root)

/-- `vmm_space_clone`: the new root. -/
def vmmSpaceClone (p : Phys) (cr3 src : Nat) : Option Nat × Phys :=
  match p.vmmSpaceCreate cr3 with
  | (none, p) => (none, p)
  | (some dst, p) =>
    let (done, p) := forEntries (fun p i =>
      let entry := p.entry src i
      if ¬ isPresent entry then (true, p)
      else
        let (page, p) := p.allocPage
        if page = 0 then (false, p)
        else cloneTable 3 (p.setEntry dst i (page ||| pteFlags entry)) page (pteAddr entry))
      (List.range 256) p
    if done then (some dst, p) else (none, (p.vmmSpaceDestroy cr3 dst).2)

end Phys

end NarcOs
