import NarcOs.Lib.Chain
import NarcOs.Lib.Spans
import NarcOs.Lib.Word64
import NarcOs.Mm.Machines

/-!
# The kernel heap's window

The large blocks of `kernel/mm/heap.c`: ranges of pages in the kernel window, and the
list of those that have been freed. The descriptors on this list are objects of the
32-byte class of the same heap, so their class is here too, and an object is the three
words that a `struct range` has. A computation stops at `none` when a number of pages
or an address does not fit in 64 bits, or when the loop over the list does not end.
-/

namespace NarcOs

def heapHeader : Nat := 16

def classSize : List Nat := [16, 32, 64, 128, 256, 512, 1024]

def classFor (size : Nat) : Option Nat := classSize.findIdx? fun limit => size ≤ limit

/-- `class_size[class_for(sizeof(struct range))]` -/
def objectSize : Nat := 32

structure Range where
  base : Nat
  pages : Nat
  deriving DecidableEq

def Range.span (r : Range) : Span := ⟨r.base, r.pages * pageSize⟩

/-- The words of an object: `base`, `pages` and `next` of a `struct range`, or `next` of a
`struct free_object` first. -/
structure Cell where
  first : Nat
  second : Nat
  third : Nat

/-- The variables of the heap. `blocks` are the large blocks with what their headers say.
Not part of the source are `frames`, the pages that `pmm_alloc_page` will give to
`refill`; `maps`, whether the pages of a block will be got and mapped; `objects`, the
addresses of all objects of the class; `held`, the objects that others have; and `lost`,
the ranges for which there was no descriptor. -/
structure KHeap where
  cell : Nat → Cell
  freeObjects : Nat
  freeRanges : Nat
  windowBase : Nat
  windowEnd : Nat
  windowNext : Nat
  blocks : List Range
  frames : List Nat
  maps : List Bool
  objects : Finset Nat
  held : Finset Nat
  lost : List Range

def pointer (p : Nat) : Option Nat := if p = 0 then none else some p

namespace KHeap

def setCell (s : KHeap) (p : Nat) (c : Cell) : KHeap := { s with cell := Function.update s.cell p c }

def setBase (s : KHeap) (p base : Nat) : KHeap := s.setCell p { s.cell p with first := base }

def setPages (s : KHeap) (p pages : Nat) : KHeap := s.setCell p { s.cell p with second := pages }

def setNext (s : KHeap) (p next : Nat) : KHeap := s.setCell p { s.cell p with third := next }

def range (s : KHeap) (p : Nat) : Range := ⟨(s.cell p).first, (s.cell p).second⟩

def nextRange (s : KHeap) (p : Nat) : Option Nat := pointer (s.cell p).third

def nextObject (s : KHeap) (p : Nat) : Option Nat := pointer (s.cell p).first

/-- `*link = p`, for the link of `prev` or of the list. -/
def setLink (s : KHeap) (prev p : Nat) : KHeap := if prev = 0 then { s with freeRanges := p } else s.setNext prev p

-- ---------------------------------------------------------------------------
-- Objects
-- ---------------------------------------------------------------------------

/-- An object goes to the front of the free ones: `kfree` on an object, and the body of the
loop of `refill`. -/
def freeObject (s : KHeap) (p : Nat) : KHeap :=
  { s.setCell p { s.cell p with first := s.freeObjects } with freeObjects := p }

def carve (page : Nat) (s : KHeap) (i : Nat) : KHeap :=
  { s with objects := insert (page + heapHeader + objectSize * i) s.objects }.freeObject (page + heapHeader + objectSize * i)

def allocFrame (s : KHeap) : Nat × KHeap :=
  match s.frames with
  | [] => (0, s)
  | page :: rest =>
    (if ∀ p ∈ s.objects, p + objectSize ≤ page ∨ page + pageSize ≤ p then page else 0, { s with frames := rest })

/-- `true` for the 0 of `refill`. -/
def refill (s : KHeap) : Bool × KHeap :=
  let (page, s) := s.allocFrame
  if page = 0 then (false, s)
  else (true, (List.range ((pageSize - heapHeader) / objectSize)).foldl (carve page) s)

def smallAlloc (s : KHeap) : Nat × KHeap :=
  let (ok, s) := if s.freeObjects = 0 then s.refill else (true, s)
  if ok then (s.freeObjects, { s with freeObjects := (s.cell s.freeObjects).first }) else (0, s)

-- ---------------------------------------------------------------------------
-- Ranges
-- ---------------------------------------------------------------------------

/-- The last part of `window_alloc`: the range is behind all others. -/
def windowExtend (s : KHeap) (pages : Nat) : Option (Nat × KHeap) := do
  let left ← sub64 s.windowEnd s.windowNext
  if pages > left / pageSize then some (0, s)
  else
    let bytes ← mul64 pages pageSize
    let next ← add64 s.windowNext bytes
    some (s.windowNext, { s with windowNext := next })

def windowTake (s : KHeap) (pages prev range : Nat) : Option (Nat × KHeap) := do
  let base := (s.cell range).first
  let bytes ← mul64 pages pageSize
  let front ← add64 base bytes
  let left ← sub64 (s.cell range).second pages
  let s := (s.setBase range front).setPages range left
  if left = 0 then some (base, (s.setLink prev (s.cell range).third).freeObject range) else some (base, s)

/-- The loop of `window_alloc`, from a link of the list on. -/
def windowAllocFrom (s : KHeap) (pages : Nat) : Nat → Nat → Nat → Option (Nat × KHeap)
  | 0, _, _ => none
  | n + 1, prev, range =>
    if range = 0 then s.windowExtend pages
    else if (s.cell range).second < pages then windowAllocFrom s pages n range (s.cell range).third
    else s.windowTake pages prev range

def windowAlloc (s : KHeap) (pages : Nat) : Option (Nat × KHeap) :=
  s.windowAllocFrom pages (s.objects.card + 1) 0 s.freeRanges

/-- The loop of `window_free`: the neighbours of a range that begins at `base`. -/
def place (s : KHeap) (base : Nat) : Nat → Nat → Nat → Option (Nat × Nat)
  | 0, _, _ => none
  | n + 1, prev, next =>
    if next ≠ 0 ∧ (s.cell next).first < base then place s base n next (s.cell next).third else some (prev, next)

/-- `prev && prev->base + prev->pages * PAGE_SIZE == base` -/
def endsAt (s : KHeap) (prev base : Nat) : Option Bool :=
  if prev = 0 then some false
  else do
    let bytes ← mul64 (s.cell prev).second pageSize
    let stop ← add64 (s.cell prev).first bytes
    some (stop = base)

def joinPrev (s : KHeap) (pages prev next : Nat) : Option KHeap := do
  let total ← add64 (s.cell prev).second pages
  let s := s.setPages prev total
  let meets ← if next = 0 then some false else s.endsAt prev (s.cell next).first
  if meets then
    let total ← add64 (s.cell prev).second (s.cell next).second
    some (((s.setPages prev total).setNext prev (s.cell next).third).freeObject next)
  else some s

def joinNext (s : KHeap) (base pages next : Nat) : Option KHeap := do
  let total ← add64 (s.cell next).second pages
  some ((s.setBase next base).setPages next total)

def insertRange (s : KHeap) (base pages prev next : Nat) : KHeap :=
  let (range, s) := s.smallAlloc
  if range = 0 then { s with lost := ⟨base, pages⟩ :: s.lost }
  else (s.setCell range ⟨base, pages, next⟩).setLink prev range

def windowFree (s : KHeap) (base pages : Nat) : Option KHeap := do
  let (prev, next) ← s.place base (s.objects.card + 1) 0 s.freeRanges
  let behind ← s.endsAt prev base
  if behind then s.joinPrev pages prev next
  else
    let before ← if next = 0 then some false else do
      let bytes ← mul64 pages pageSize
      let stop ← add64 base bytes
      some (stop = (s.cell next).first)
    if before then s.joinNext base pages next else some (s.insertRange base pages prev next)

-- ---------------------------------------------------------------------------
-- Large blocks
-- ---------------------------------------------------------------------------

/-- The loop of `large_alloc` over the pages of a block: how many were mapped. -/
def mapPages (base : Nat) : Nat → Nat → List Bool → Option (Nat × List Bool)
  | 0, i, maps => some (i, maps)
  | n + 1, i, maps => do
    let offset ← mul64 i pageSize
    let _ ← add64 base offset
    match maps with
    | true :: rest => mapPages base n (i + 1) rest
    | false :: rest => some (i, rest)
    | [] => some (i, [])

/-- The addresses of `unmap_pages`. -/
def unmapPages (base : Nat) : Nat → Nat → Option Unit
  | 0, _ => some ()
  | n + 1, i => do
    let offset ← mul64 i pageSize
    let _ ← add64 base offset
    unmapPages base n (i + 1)

/-- `large_alloc`; 0 is NULL. -/
def largeAlloc (s : KHeap) (size : Nat) : Option (Nat × KHeap) :=
  if size > 2 ^ 64 - 1 - heapHeader - pageSize then some (0, s)
  else do
    let sum ← add64 size heapHeader
    let sum ← add64 sum pageSize
    let sum ← sub64 sum 1
    let pages := sum / pageSize
    let (base, s) ← s.windowAlloc pages
    if base = 0 then some (0, s)
    else
      let (mapped, maps) ← mapPages base pages 0 s.maps
      let s := { s with maps := maps }
      if mapped < pages then
        unmapPages base mapped 0
        let s ← s.windowFree base pages
        some (0, s)
      else
        let pointer ← add64 base heapHeader
        some (pointer, { s with blocks := ⟨base, pages⟩ :: s.blocks })

/-- `kfree` on a large block. -/
def freeBlock (s : KHeap) (block : Range) : Option KHeap := do
  unmapPages block.base block.pages 0
  { s with blocks := s.blocks.erase block }.windowFree block.base block.pages

def vmmKernelWindow : Machine → Nat × Nat
  | .x86_64 | .aarch64 | .riscv64Sv48 => (0xffffe00000000000, 2 ^ 39)
  | .riscv64Sv39 => (0xfffffff800000000, 2 ^ 30)

def heapInit (m : Machine) (frames : List Nat) (maps : List Bool) : KHeap where
  cell := fun _ => ⟨0, 0, 0⟩
  freeObjects := 0
  freeRanges := 0
  windowBase := (vmmKernelWindow m).1
  windowEnd := (vmmKernelWindow m).1 + (vmmKernelWindow m).2
  windowNext := (vmmKernelWindow m).1
  blocks := []
  frames := frames
  maps := maps
  objects := ∅
  held := ∅
  lost := []

/-- One call of the heap that concerns the window, or one in which another part of the
kernel gets an object of the class, writes to it, or gives it back. -/
inductive Step : KHeap → KHeap → Prop
  | kmalloc (s t : KHeap) (size p : Nat) : classFor size = none → s.largeAlloc size = some (p, t) → Step s t
  | kfree (s t : KHeap) (block : Range) : block ∈ s.blocks → s.freeBlock block = some t → Step s t
  | kmallocObject (s t : KHeap) (p : Nat) : s.smallAlloc = (p, t) → p ≠ 0 → Step s { t with held := insert p t.held }
  | kmallocFails (s t : KHeap) : s.smallAlloc = (0, t) → Step s t
  | write (s : KHeap) (p : Nat) (c : Cell) : p ∈ s.held → Step s (s.setCell p c)
  | kfreeObject (s : KHeap) (p : Nat) : p ∈ s.held → Step s ({ s with held := s.held.erase p }.freeObject p)

abbrev Steps := Relation.ReflTransGen Step

end KHeap

end NarcOs
