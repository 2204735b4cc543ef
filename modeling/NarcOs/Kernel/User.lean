import NarcOs.Fs.Vfs
import NarcOs.Kernel.Arch
import NarcOs.Kernel.MapCalls

/-!
# The program loader

`kernel/user.c`: an ELF image is checked, its segments are mapped and filled,
and a stack with the arguments is built. The header structures are packed, so a
field is the bytes at its offset in the file.
-/

namespace NarcOs

def userMin : Nat := 0x0000000000400000
def userImageEnd : Nat := 0x0000000010000000
def userStackSize : Nat := 64 * 1024
def etExec : Nat := 2
def ptLoad : Nat := 1
def ptPhdr : Nat := 6
def archElfMachine : Nat := 62

def atNull : Nat := 0
def atPhdr : Nat := 3
def atPhent : Nat := 4
def atPhnum : Nat := 5
def atPagesz : Nat := 6
def atEntry : Nat := 9
def atRandom : Nat := 25
def atExecfn : Nat := 31

def elfField (image : List UInt8) (offset size : Nat) : Nat := ofLE ((image.drop offset).take size)

/-- The fields of `struct elf64_ehdr` that the loader reads. -/
structure Elf64Ehdr where
  ident : List UInt8
  type : Nat
  machine : Nat
  entry : Nat
  phoff : Nat
  phentsize : Nat
  phnum : Nat
  deriving DecidableEq

def sizeofEhdr : Nat := 64

def elfHeader (image : List UInt8) : Elf64Ehdr where
  ident := image.take 16
  type := elfField image 16 2
  machine := elfField image 18 2
  entry := elfField image 24 8
  phoff := elfField image 32 8
  phentsize := elfField image 54 2
  phnum := elfField image 56 2

/-- The fields of `struct elf64_phdr` that the loader reads. -/
structure Elf64Phdr where
  type : Nat
  flags : Nat
  offset : Nat
  vaddr : Nat
  filesz : Nat
  memsz : Nat
  deriving DecidableEq

def sizeofPhdr : Nat := 56

/-- `ph[i]` -/
def programHeader (image : List UInt8) (i : Nat) : Elf64Phdr :=
  let start := (elfHeader image).phoff + sizeofPhdr * i
  { type := elfField image start 4
    flags := elfField image (start + 4) 4
    offset := elfField image (start + 8) 8
    vaddr := elfField image (start + 16) 8
    filesz := elfField image (start + 32) 8
    memsz := elfField image (start + 40) 8 }

/-- `find_phdr`: where the program headers are in memory, 0 for nowhere. -/
def findPhdr (image : List UInt8) : Nat :=
  let eh := elfHeader image
  let headers := (List.range eh.phnum).map (programHeader image)
  match headers.find? fun ph => ph.type = ptPhdr with
  | some ph => ph.vaddr
  | none =>
    let bytes := eh.phnum * eh.phentsize
    match headers.find? fun ph => ph.type = ptLoad ∧ eh.phoff ≥ ph.offset ∧
        wrap64 (eh.phoff + bytes) ≤ wrap64 (ph.offset + ph.filesz) with
    | some ph => wrap64 (2 ^ 64 + ph.vaddr + eh.phoff - ph.offset)
    | none => 0

def headerOk (image : List UInt8) : Bool :=
  let eh := elfHeader image
  eh.ident.take 6 = [0x7f, 69, 76, 70, 2, 1] ∧ eh.type = etExec ∧ eh.machine = archElfMachine ∧
    eh.phentsize = sizeofPhdr ∧ eh.phnum ≠ 0 ∧ eh.phoff ≤ image.length ∧
    eh.phnum * eh.phentsize ≤ image.length - eh.phoff

/-- The checks on a `PT_LOAD` segment. -/
def segmentOk (size : Nat) (ph : Elf64Phdr) : Bool :=
  ph.filesz ≤ ph.memsz ∧ ph.offset ≤ size ∧ ph.filesz ≤ size - ph.offset ∧ userMin ≤ ph.vaddr ∧
    ph.vaddr < userImageEnd ∧ ph.memsz ≤ userImageEnd - ph.vaddr

namespace Phys

def chunkTo (dst len : Nat) : Nat :=
  if pageSize - dst % pageSize > len then len else pageSize - dst % pageSize

/-- `copy_out`. Every round copies a byte, which bounds the rounds. -/
def copyOut (root : Nat) : Nat → Nat → List UInt8 → Phys → Bool × Phys
  | 0, _, _, p => (true, p)
  | n + 1, dst, bytes, p =>
    if bytes = [] then (true, p)
    else
      let phys := p.vmmUserPhys root dst
      if phys = 0 then (false, p)
      else
        let chunk := chunkTo dst bytes.length
        copyOut root n (wrap64 (dst + chunk)) (bytes.drop chunk)
          { p with mem := p.mem.write phys (bytes.take chunk) }

/-- `zero_out` -/
def zeroOut (root : Nat) : Nat → Nat → Nat → Phys → Bool × Phys
  | 0, _, _, p => (true, p)
  | n + 1, dst, len, p =>
    if len = 0 then (true, p)
    else
      let phys := p.vmmUserPhys root dst
      if phys = 0 then (false, p)
      else
        let chunk := chunkTo dst len
        zeroOut root n (wrap64 (dst + chunk)) (len - chunk)
          { p with mem := p.mem.memset phys 0 chunk }

/-- A loop over the pages of `[start, stop)` that stops at the first failure. -/
def forPages (body : Phys → Nat → Bool × Phys) (start stop : Nat) (p : Phys) : Bool × Phys :=
  forEntries (fun p k => body p (alignDown start + pageSize * k))
    (List.range ((alignUp stop pageSize - alignDown start) / pageSize)) p

def mapRange (p : Phys) (root start stop : Nat) : Bool × Phys :=
  forPages (fun p va => if p.vmmUserPhys root va ≠ 0 then (true, p) else p.mapNew root va vmmWrite)
    start stop p

def loadSegment (root : Nat) (image : List UInt8) (p : Phys) (ph : Elf64Phdr) : Bool × Phys :=
  if ph.type ≠ ptLoad then (true, p)
  else if ¬ segmentOk image.length ph then (false, p)
  else if ph.memsz = 0 then (true, p)
  else
    match p.mapRange root ph.vaddr (wrap64 (ph.vaddr + ph.memsz)) with
    | (false, p) => (false, p)
    | (true, p) =>
      let bytes := (image.drop ph.offset).take ph.filesz
      match copyOut root bytes.length ph.vaddr bytes p with
      | (false, p) => (false, p)
      | (true, p) =>
        let len := ph.memsz - ph.filesz
        zeroOut root len (wrap64 (ph.vaddr + ph.filesz)) len p

def protectSegment (root : Nat) (p : Phys) (ph : Elf64Phdr) : Bool × Phys :=
  if ph.type ≠ ptLoad ∨ ph.memsz = 0 then (true, p)
  else
    forPages (fun p va => p.vmmProtectUser root va (if ph.flags.testBit 1 then vmmWrite else 0))
      ph.vaddr (wrap64 (ph.vaddr + ph.memsz)) p

/-- `put_stack`: the new stack pointer, which is also the address. -/
def putStack (p : Phys) (root sp : Nat) (bytes : List UInt8) : Option Nat × Phys :=
  if sp < userStackTop - userStackSize + bytes.length then (none, p)
  else
    let sp := sp - bytes.length
    match copyOut root bytes.length sp bytes p with
    | (false, p) => (none, p)
    | (true, p) => (some sp, p)

def putStrings (root : Nat) : List (List UInt8) → Nat → List Nat → Phys →
    Option (Nat × List Nat) × Phys
  | [], sp, addresses, p => (some (sp, addresses), p)
  | s :: rest, sp, addresses, p =>
    match p.putStack root sp (s ++ [0]) with
    | (none, p) => (none, p)
    | (some sp, p) => putStrings root rest sp (sp :: addresses) p

def randomBytes : List UInt8 :=
  [0x6e, 0x61, 0x72, 0x63, 0x4f, 0x73, 0x2d, 0x6c, 0x69, 0x74, 0x74, 0x6c, 0x65, 0x2d, 0x6f, 0x73]

def stackWords (eh : Elf64Ehdr) (phdr : Nat) (argp envAddresses : List Nat) (randomp : Nat) :
    List Nat :=
  [argp.length] ++ argp ++ [0] ++ envAddresses ++ [0] ++
    [atPhdr, phdr, atPhent, eh.phentsize, atPhnum, eh.phnum, atPagesz, pageSize,
      atEntry, eh.entry, atRandom, randomp, atExecfn, argp.getD 0 0, atNull, 0]

def buildStack (p : Phys) (root : Nat) (eh : Elf64Ehdr) (phdr : Nat) (argv envp : List CString) :
    Option Nat × Phys :=
  match p.mapRange root (userStackTop - userStackSize) userStackTop with
  | (false, p) => (none, p)
  | (true, p) =>
    if argv.length > 16 ∨ envp.length > 16 then (none, p)
    else
      match putStrings root (envp.map CString.bytes).reverse userStackTop [] p with
      | (none, p) => (none, p)
      | (some (sp, envAddresses), p) =>
        match putStrings root (argv.map CString.bytes).reverse sp [] p with
        | (none, p) => (none, p)
        | (some (sp, argp), p) =>
          match p.putStack root sp randomBytes with
          | (none, p) => (none, p)
          | (some randomp, p) =>
            let words := stackWords eh phdr argp envAddresses randomp
            let sp := (randomp / 16 * 16 - words.length * 8) / 16 * 16
            let bytes := words.flatMap (toLE 8)
            match copyOut root bytes.length sp bytes p with
            | (false, p) => (none, p)
            | (true, p) => (some sp, p)

/-- `load` from the point where the file's bytes are in `image`: the entry
address and the stack pointer. -/
def loadImage (p : Phys) (root : Nat) (image : List UInt8) (argv envp : List CString) :
    Option (Nat × Nat) × Phys :=
  if image.length < sizeofEhdr ∨ ¬ headerOk image then (none, p)
  else
    let eh := elfHeader image
    let phdr := findPhdr image
    if phdr = 0 then (none, p)
    else
      match forEntries (fun p i => p.loadSegment root image (programHeader image i))
          (List.range eh.phnum) p with
      | (false, p) => (none, p)
      | (true, p) =>
        match forEntries (fun p i => p.protectSegment root (programHeader image i))
            (List.range eh.phnum) p with
        | (false, p) => (none, p)
        | (true, p) =>
          match p.buildStack root eh phdr argv envp with
          | (none, p) => (none, p)
          | (some sp, p) => (some (eh.entry, sp), p)

end Phys

/-- The frame that `task_exec` leaves for the return to user mode. -/
def taskExecFrame (entry stack : Nat) : TaskFrame := archTaskSetEntry archTaskFrameInit entry stack

/-- `load`: the file is read as a whole, then closed. -/
def load (s : Vfs) (root : Nat) (path : CString) (argv envp : List CString) :
    Option (Nat × Nat) × Vfs :=
  if argv = [] then (none, s)
  else
    match s.vfsOpen path 1 with
    | (.ok, some executable, s) =>
      match executable.node with
      | none => (none, s)
      | some node =>
        let size := (s.node node).size
        if (s.node node).type ≠ .reg ∨ size > vfsFileMax then
          (none, (s.vfsClose executable).2)
        else
          match s.vfsRead executable size with
          | (some image, executable) =>
            if image.length ≠ size then (none, (s.vfsClose executable).2)
            else
              let s := (s.vfsClose executable).2
              let (result, phys) := s.phys.loadImage root image argv envp
              (result, { s with phys := phys })
          | (none, executable) => (none, (s.vfsClose executable).2)
    | (_, _, s) => (none, s)

end NarcOs
