import NarcOs.Lib.Memory

/-!
# The physical page allocator

`kernel/mm/mm.c`: pages come from a free list threaded through the first word
of each free page, and otherwise from the usable entries of the boot memory
map, taken in order. The kernel reaches a page through the direct map, so an
access to `phys_to_virt(p)` is an access to `p` here.
-/

namespace NarcOs

def pageSize : Nat := 4096

def wrap64 (n : Nat) : Nat := n % 2 ^ 64

/-- `(x + a - 1) & ~(a - 1)` for a power of two `a`. -/
def alignUp (x a : Nat) : Nat := wrap64 (x + a - 1) / a * a

/-- `x & ~(PAGE_SIZE - 1)` -/
def alignDown (x : Nat) : Nat := x / pageSize * pageSize

structure MemmapEntry where
  base : Nat
  length : Nat
  type : Nat
  deriving DecidableEq

def limineMemmapUsable : Nat := 0

/-- Physical memory and the allocator's variables. `denied` is not part of the
source: it is the environment's script of refusals, consulted by `allocPage`
for results about every pattern of allocation failures. -/
structure Phys where
  mem : Mem
  memmap : List MemmapEntry
  regionIndex : Nat
  nextPhys : Nat
  regionEnd : Nat
  freeHead : Nat
  denied : List Bool

def mmInit (map : List MemmapEntry) (mem : Mem) (denied : List Bool) : Phys where
  mem := mem
  memmap := map
  regionIndex := 0
  nextPhys := 0
  regionEnd := 0
  freeHead := 0
  denied := denied

namespace Phys

/-- `next_phys && next_phys + PAGE_SIZE <= region_end` -/
def pageReady (p : Phys) : Bool :=
  p.nextPhys ≠ 0 && wrap64 (p.nextPhys + pageSize) ≤ p.regionEnd

def takePage (p : Phys) : Nat × Phys :=
  (p.nextPhys, { p with
    nextPhys := wrap64 (p.nextPhys + pageSize)
    mem := p.mem.memset p.nextPhys 0 pageSize })

/-- The `while (region_index < entry_count)` loop, over the entries that
`region_index` has not passed. -/
def nextRegion : List MemmapEntry → Phys → Phys
  | [], p => p
  | e :: es, p =>
    let p := { p with regionIndex := p.regionIndex + 1 }
    if e.type ≠ limineMemmapUsable ∨ e.length < pageSize then nextRegion es p
    else { p with
      nextPhys := alignUp e.base pageSize
      regionEnd := wrap64 (e.base + e.length) }

/-- The `for (;;)` of the source goes round at most twice: a region that was
just selected either has a page, which the second round takes, or ends the
search with 0. -/
def pmmAllocPage (p : Phys) : Nat × Phys :=
  if p.freeHead ≠ 0 then
    (p.freeHead, { p with
      freeHead := p.mem.load64 p.freeHead
      mem := p.mem.memset p.freeHead 0 pageSize })
  else if p.pageReady then p.takePage
  else
    let p := nextRegion (p.memmap.drop p.regionIndex) p
    if p.pageReady then p.takePage else (0, p)

def pmmFreePage (p : Phys) (phys : Nat) : Phys :=
  if phys = 0 ∨ phys % pageSize ≠ 0 then p
  else { p with
    mem := p.mem.store64 phys p.freeHead
    freeHead := phys }

/-- `pmm_alloc_page` as the rest of the kernel sees it: the environment may
refuse the call, otherwise the allocator answers. -/
def allocPage (p : Phys) : Nat × Phys :=
  match p.denied with
  | [] => p.pmmAllocPage
  | true :: ds => (0, { p with denied := ds })
  | false :: ds => pmmAllocPage { p with denied := ds }

end Phys

end NarcOs
