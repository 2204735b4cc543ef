import NarcOs.Lib.Memory

/-!
# The heap of a program

`malloc`, `calloc`, `realloc` and `free` of the C library, with
`lib/libc/src/stdlib/allocator.c` below them. The blocks and arenas are in the
program's memory, with the payloads between their headers. `mmap` answers from a
script; an answer that is no fresh region is a failure.
-/

namespace NarcOs

/-- `SIZE_MAX` -/
def sizeMax : Nat := 2 ^ 64 - 1

/-- A result of the arithmetic of `size_t`. -/
def wrapSize (n : Nat) : Nat := n % 2 ^ 64

def subSize (a b : Nat) : Nat := wrapSize (a + 2 ^ 64 - b)

def sizeofBlock : Nat := 48
def sizeofArena : Nat := 32

/-- `_Alignof(max_align_t)` -/
def maxAlign : Nat := 16
def arenaSize : Nat := 64 * 1024
def mapPageSize : Nat := 4096
def enomem : Int := 12

/-- `align_up`; the mask is for a power of two. -/
def alignSize (value alignment : Nat) : Nat := wrapSize (value + alignment - 1) / alignment * alignment

/-- `arena_header_size()` -/
def arenaHeaderSize : Nat := alignSize sizeofArena maxAlign

/-- `first_block` -/
def firstBlock (arena : Nat) : Nat := arena + arenaHeaderSize

-- ---------------------------------------------------------------------------
-- Headers
-- ---------------------------------------------------------------------------

namespace Mem

def load32 (m : Mem) (a : Nat) : Nat := ofLE (m.read a 4)
def store32 (m : Mem) (a v : Nat) : Mem := m.write a (toLE 4 v)

/-! `allocation_block_t` -/

def blockSize (m : Mem) (block : Nat) : Nat := m.load64 block
def blockPrevious (m : Mem) (block : Nat) : Nat := m.load64 (block + 8)
def blockNext (m : Mem) (block : Nat) : Nat := m.load64 (block + 16)
def blockArena (m : Mem) (block : Nat) : Nat := m.load64 (block + 24)
def blockFree (m : Mem) (block : Nat) : Bool := m.load32 (block + 32) ≠ 0

def setBlockSize (m : Mem) (block v : Nat) : Mem := m.store64 block v
def setBlockPrevious (m : Mem) (block v : Nat) : Mem := m.store64 (block + 8) v
def setBlockNext (m : Mem) (block v : Nat) : Mem := m.store64 (block + 16) v
def setBlockArena (m : Mem) (block v : Nat) : Mem := m.store64 (block + 24) v
def setBlockFree (m : Mem) (block v : Nat) : Mem := m.store32 (block + 32) v

/-! `allocation_arena_t` -/

def arenaMapped (m : Mem) (arena : Nat) : Nat := m.load64 arena
def arenaActive (m : Mem) (arena : Nat) : Nat := m.load64 (arena + 8)
def arenaPrevious (m : Mem) (arena : Nat) : Nat := m.load64 (arena + 16)
def arenaNext (m : Mem) (arena : Nat) : Nat := m.load64 (arena + 24)

def setArenaMapped (m : Mem) (arena v : Nat) : Mem := m.store64 arena v
def setArenaActive (m : Mem) (arena v : Nat) : Mem := m.store64 (arena + 8) v
def setArenaPrevious (m : Mem) (arena v : Nat) : Mem := m.store64 (arena + 16) v
def setArenaNext (m : Mem) (arena v : Nat) : Mem := m.store64 (arena + 24) v

def arenaBack (m : Mem) (next arena : Nat) : Mem := if next ≠ 0 then m.setArenaPrevious next arena else m

-- ---------------------------------------------------------------------------
-- Blocks
-- ---------------------------------------------------------------------------

def linkBack (m : Mem) (next block : Nat) : Mem := if next ≠ 0 then m.setBlockPrevious next block else m

/-- In `split_block`, the header of the new block, which is free. -/
def newHeader (m : Mem) (block split size : Nat) : Mem :=
  let m := m.setBlockSize split size
  let m := m.setBlockPrevious split block
  let m := m.setBlockNext split (m.blockNext block)
  let m := m.setBlockArena split (m.blockArena block)
  m.setBlockFree split 1

/-- In `split_block`, the new block takes in a free one behind it. -/
def absorbNext (m : Mem) (split : Nat) : Mem :=
  if m.blockNext split ≠ 0 ∧ m.blockFree (m.blockNext split) = true then
    let m := m.setBlockSize split (wrapSize (m.blockSize split + (sizeofBlock + m.blockSize (m.blockNext split))))
    let m := m.setBlockNext split (m.blockNext (m.blockNext split))
    m.linkBack (m.blockNext split) split
  else m

/-- `split_block` -/
def splitBlock (m : Mem) (block size : Nat) : Mem :=
  let remaining := subSize (m.blockSize block) size
  if remaining < sizeofBlock + maxAlign then m
  else
    let split := block + sizeofBlock + size
    let m := m.newHeader block split (subSize remaining sizeofBlock)
    let m := m.linkBack (m.blockNext split) split
    let m := m.absorbNext split
    let m := m.setBlockNext block split
    m.setBlockSize block size

/-- In `create_arena`, the one block of the arena. -/
def firstHeader (m : Mem) (arena size : Nat) : Mem :=
  let block := firstBlock arena
  let m := m.setBlockSize block size
  let m := m.setBlockPrevious block 0
  let m := m.setBlockNext block 0
  let m := m.setBlockArena block arena
  m.setBlockFree block 1

/-- `merge_next` -/
def mergeNext (m : Mem) (block : Nat) : Mem :=
  let next := m.blockNext block
  if next = 0 ∨ m.blockFree next = false then m
  else
    let m := m.setBlockSize block (wrapSize (m.blockSize block + (sizeofBlock + m.blockSize next)))
    let m := m.setBlockNext block (m.blockNext next)
    m.linkBack (m.blockNext block) block

/-- In `__allocator_release`, the merges with the blocks beside the one that was freed. -/
def coalesce (m : Mem) (block : Nat) : Mem :=
  let m := m.mergeNext block
  let previous := m.blockPrevious block
  if previous ≠ 0 ∧ m.blockFree previous = true then m.mergeNext previous else m

/-- In `__allocator_release`, the work on the blocks and the count of the arena. -/
def released (m : Mem) (block arena : Nat) : Mem :=
  let m := m.setBlockFree block 1
  let m := if m.arenaActive arena ≠ 0 then m.setArenaActive arena (subSize (m.arenaActive arena) 1) else m
  m.coalesce block

/-- A loop of `find_block` takes no more rounds than there are addresses. -/
def findRounds : Nat := 2 ^ 64

/-- The inner loop of `find_block`: a free block of the arena, or 0. -/
def findInArena (m : Mem) (size : Nat) : Nat → Nat → Option Nat
  | 0, _ => none
  | rounds + 1, block =>
    if block = 0 then some 0
    else if m.blockFree block = true ∧ size ≤ m.blockSize block then some block
    else findInArena m size rounds (m.blockNext block)

/-- The outer loop of `find_block`, from `arena` on. -/
def findFrom (m : Mem) (size : Nat) : Nat → Nat → Option Nat
  | 0, _ => none
  | rounds + 1, arena =>
    if arena = 0 then some 0
    else do
      let block ← findInArena m size findRounds (firstBlock arena)
      if block ≠ 0 then return block
      findFrom m size rounds (m.arenaNext arena)

end Mem

-- ---------------------------------------------------------------------------
-- The heap
-- ---------------------------------------------------------------------------

/-- A program's memory and the variable `arenas`. `regions` and `answers` are not
part of the source: the stretches of addresses that `mmap` gave and `munmap` did not
take back, each with its length, and the script of `mmap`'s answers. -/
structure UserHeap where
  mem : Mem
  arenas : Nat
  errno : Int
  regions : List (Nat × Nat)
  answers : List (Option Nat)

def Separate (r s : Nat × Nat) : Prop := r.1 + r.2 ≤ s.1 ∨ s.1 + s.2 ≤ r.1

instance (r s : Nat × Nat) : Decidable (Separate r s) := inferInstanceAs (Decidable (_ ∨ _))

namespace UserHeap

def Fresh (h : UserHeap) (length base : Nat) : Prop :=
  base % mapPageSize = 0 ∧ 0 < base ∧ base + length ≤ 2 ^ 64 ∧ ∀ r ∈ h.regions, Separate (base, length) r

instance (h : UserHeap) (length base : Nat) : Decidable (h.Fresh length base) :=
  inferInstanceAs (Decidable (_ ∧ _ ∧ _ ∧ _))

/-- `mmap` for zeroed pages anywhere; `none` is `MAP_FAILED`. -/
def mmap (h : UserHeap) (length : Nat) : Option Nat × UserHeap :=
  match h.answers with
  | some base :: rest =>
    if h.Fresh length base then
      (some base, { h with
        mem := h.mem.memset base 0 length
        regions := (base, length) :: h.regions
        answers := rest })
    else (none, { h with answers := rest })
  | none :: rest => (none, { h with answers := rest })
  | [] => (none, h)

def munmap (h : UserHeap) (base length : Nat) : UserHeap := { h with regions := h.regions.erase (base, length) }

def setMem (h : UserHeap) (mem : Mem) : UserHeap := { h with mem := mem }

/-- In `create_arena`, the header of the arena and the links to it. -/
def newArena (h : UserHeap) (arena mapped : Nat) : UserHeap :=
  let m := h.mem.setArenaMapped arena mapped
  let m := m.setArenaActive arena 0
  let m := m.setArenaPrevious arena 0
  let m := m.setArenaNext arena h.arenas
  { h with
    mem := m.arenaBack h.arenas arena
    arenas := arena }

/-- `create_arena`, 0 for NULL. -/
def createArena (h : UserHeap) (size : Nat) : Nat × UserHeap :=
  let overhead := wrapSize (arenaHeaderSize + sizeofBlock)
  if size > subSize (subSize sizeMax overhead) (mapPageSize - 1) then (0, h)
  else
    let required := alignSize (wrapSize (size + overhead)) mapPageSize
    let mapped := if required > arenaSize then required else arenaSize
    match h.mmap mapped with
    | (none, h) => (0, h)
    | (some arena, h) =>
      let h := h.newArena arena mapped
      (arena, h.setMem (h.mem.firstHeader arena (subSize mapped overhead)))

/-- The end of `__allocator_allocate`, on the block that is taken. -/
def take (h : UserHeap) (block size : Nat) : Nat × UserHeap :=
  let m := h.mem.splitBlock block size
  let m := m.setBlockFree block 0
  let arena := m.blockArena block
  let m := m.setArenaActive arena (wrapSize (m.arenaActive arena + 1))
  (block + sizeofBlock, h.setMem m)

/-- `__allocator_allocate`, 0 for NULL. -/
def allocate (h : UserHeap) (size : Nat) : Option (Nat × UserHeap) := do
  let size := if size = 0 then 1 else size
  if size > subSize sizeMax (maxAlign - 1) then return (0, { h with errno := enomem })
  let size := alignSize size maxAlign
  let block ← h.mem.findFrom size Mem.findRounds h.arenas
  if block ≠ 0 then return h.take block size
  else
    let (arena, h) := h.createArena size
    if arena = 0 then return (0, { h with errno := enomem })
    return h.take (firstBlock arena) size

/-- The end of `__allocator_release`: the arena is taken out of the list and unmapped. -/
def dropArena (h : UserHeap) (arena : Nat) : UserHeap :=
  let m := h.mem
  let previous := m.arenaPrevious arena
  let h := if previous ≠ 0 then h.setMem (m.setArenaNext previous (m.arenaNext arena))
    else { h with arenas := m.arenaNext arena }
  let h := h.setMem (h.mem.arenaBack (h.mem.arenaNext arena) (h.mem.arenaPrevious arena))
  h.munmap arena (h.mem.arenaMapped arena)

/-- `__allocator_release` -/
def release (h : UserHeap) (pointer : Nat) : UserHeap :=
  if pointer = 0 then h
  else
    let block := pointer - sizeofBlock
    let arena := h.mem.blockArena block
    let m := h.mem.released block arena
    if m.arenaActive arena ≠ 0 ∨ (m.arenaPrevious arena = 0 ∧ m.arenaNext arena = 0) then h.setMem m
    else (h.setMem m).dropArena arena

/-- `__allocator_size` -/
def size (h : UserHeap) (pointer : Nat) : Nat := h.mem.blockSize (pointer - sizeofBlock)

/-- `__allocator_resize`; `false` is -1. -/
def resize (h : UserHeap) (pointer size : Nat) : Bool × UserHeap :=
  if size > subSize sizeMax (maxAlign - 1) then (false, h)
  else
    let size := alignSize size maxAlign
    let block := pointer - sizeofBlock
    let m := h.mem
    if size ≤ m.blockSize block then (true, h.setMem (m.splitBlock block size))
    else
      let next := m.blockNext block
      if next = 0 ∨ m.blockFree next = false ∨
          wrapSize (m.blockSize block + sizeofBlock + m.blockSize next) < size then (false, h)
      else (true, h.setMem ((m.mergeNext block).splitBlock block size))

-- ---------------------------------------------------------------------------
-- The functions of the library
-- ---------------------------------------------------------------------------

def malloc (h : UserHeap) (size : Nat) : Option (Nat × UserHeap) := h.allocate size

def free (h : UserHeap) (pointer : Nat) : UserHeap := h.release pointer

def calloc (h : UserHeap) (count size : Nat) : Option (Nat × UserHeap) := do
  if size ≠ 0 ∧ count > sizeMax / size then return (0, { h with errno := enomem })
  let total := wrapSize (count * size)
  let (pointer, h) ← h.malloc total
  if pointer ≠ 0 then return (pointer, h.setMem (h.mem.memset pointer 0 total))
  return (pointer, h)

def realloc (h : UserHeap) (pointer size : Nat) : Option (Nat × UserHeap) :=
  if pointer = 0 then h.malloc size
  else if size = 0 then some (0, h.free pointer)
  else do
    let oldSize := h.size pointer
    let (resized, h) := h.resize pointer size
    if resized then return (pointer, h)
    let (replacement, h) ← h.malloc size
    if replacement = 0 then return (0, h)
    let h := h.setMem (h.mem.write replacement (h.mem.read pointer oldSize))
    return (replacement, h.free pointer)

end UserHeap

end NarcOs
