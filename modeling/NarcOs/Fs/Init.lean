import NarcOs.Fs.Vfs

/-!
# Loading the initial archive

`vfs_init` of `kernel/fs/vfs.c` and what it needs to read a ustar archive. A
header is named by its offset in the archive; `headerField` reads one of the
character arrays of `struct tar_header`.
-/

namespace NarcOs

def tarBlock : Nat := 512

def octalFrom : List UInt8 → Nat → Nat
  | [], value => value
  | c :: rest, value =>
    if c = 0 then value
    else if c < 48 ∨ c > 55 then octalFrom rest value
    else octalFrom rest (wrap64 (value * 8 + (c.toNat - 48)))

def octal (string : List UInt8) : Nat := octalFrom string 0

namespace Vfs

def headerField (s : Vfs) (offset start length : Nat) : List UInt8 :=
  s.tarData.read (offset + start) length

def headerName (s : Vfs) (offset : Nat) : List UInt8 := s.headerField offset 0 100
def headerMode (s : Vfs) (offset : Nat) : List UInt8 := s.headerField offset 100 8
def headerSize (s : Vfs) (offset : Nat) : List UInt8 := s.headerField offset 124 12
def headerType (s : Vfs) (offset : Nat) : List UInt8 := s.headerField offset 156 1
def headerMagic (s : Vfs) (offset : Nat) : List UInt8 := s.headerField offset 257 6
def headerPrefix (s : Vfs) (offset : Nat) : List UInt8 := s.headerField offset 345 155

def zeroBlock (s : Vfs) (offset : Nat) : Bool :=
  (s.tarData.read offset tarBlock).all (· == 0)

def nextOffset (s : Vfs) (offset : Nat) : Nat :=
  wrap64 (offset + tarBlock + (octal (s.headerSize offset) + tarBlock - 1) / tarBlock * tarBlock)

def headerAt (s : Vfs) (offset : Nat) : Bool :=
  if offset > s.tarSize ∨ s.tarSize - offset < tarBlock then false
  else if s.zeroBlock offset then false
  else ¬ (s.nextOffset offset < offset ∨ s.nextOffset offset > s.tarSize)

def tarPath (s : Vfs) (offset : Nat) : List UInt8 :=
  let front := (s.headerPrefix offset).takeWhile (· != 0)
  (if front = [] then [] else front ++ [slash]) ++ (s.headerName offset).takeWhile (· != 0)

def childOrNew (s : Vfs) (directory : Ptr) (name : List UInt8) (type : VType) (mode : Nat) :
    Option Ptr × Vfs :=
  match s.childNamed directory name with
  | some child => (some child, s)
  | none => s.newNode directory name type mode

/-- The loop of `tar_node` on the rest of the path; as in `walkFrom`, every
round consumes a byte. -/
def tarNodeFrom (type : VType) (mode : Nat) :
    Nat → List UInt8 → Ptr → Vfs → Option Ptr × Vfs
  | 0, _, _, s => (none, s)
  | n + 1, cursor, node, s =>
    let start := cursor.dropWhile (· == slash)
    let component := start.takeWhile (· != slash)
    if component = [] then (some node, s)
    else
      let cursor := (start.dropWhile (· != slash)).dropWhile (· == slash)
      let last : Bool := cursor.isEmpty
      if component.length = 1 ∧ charAt component 0 = dot then
        if last then (some node, s) else tarNodeFrom type mode n cursor node s
      else if dotName component ∨ component.length ≥ vfsNameMax ∨ (s.node node).type ≠ .dir then
        (none, s)
      else
        match s.childOrNew node component (if last then type else .dir)
            (if last then mode else sIfdir ||| 0o755) with
        | (none, s) => (none, s)
        | (some child, s) =>
          if last then
            if (s.node child).type ≠ type then (none, s)
            else (some child, s.modify child fun v => { v with mode := mode })
          else tarNodeFrom type mode n cursor child s

def tarNode (s : Vfs) (path : List UInt8) (type : VType) (mode : Nat) : Option Ptr × Vfs :=
  tarNodeFrom type mode (path.length + 1) path s.root s

def memberType (s : Vfs) (offset : Nat) : VType :=
  if s.headerType offset = [53] then .dir else .reg

def memberMode (s : Vfs) (offset : Nat) : Nat :=
  (if s.memberType offset = .dir then sIfdir else sIfreg) |||
    (octal (s.headerMode offset) &&& 0o777)

/-- One member of the archive: the body of the loop of `vfs_init`. -/
def loadMember (s : Vfs) (offset : Nat) : Option Vfs :=
  if (s.headerMagic offset).take 5 ≠ [117, 115, 116, 97, 114] then none
  else
    let type := s.memberType offset
    match s.tarNode (s.tarPath offset) type (s.memberMode offset) with
    | (none, _) => none
    | (some node, s) =>
      if (s.node node).type ≠ type then none
      else if type ≠ .reg then some s
      else
        let size := octal (s.headerSize offset)
        if size > vfsFileMax then none
        else some (s.modify node fun v =>
          { v with size := size, archive := some (offset + tarBlock) })

def loadMembers : Nat → Nat → Vfs → Option Vfs
  | 0, _, _ => none
  | n + 1, offset, s =>
    if s.headerAt offset then
      match s.loadMember offset with
      | none => none
      | some s' => loadMembers n (s.nextOffset offset) s'
    else some s

/-- The state before `vfs_init`: no vnode, the allocators' scripts given. -/
def blank (tarData : Mem) (tarSize : Nat) (heap : List (Option Ptr)) (phys : Phys) : Vfs where
  tarData := tarData
  tarSize := tarSize
  nextInode := 2
  root := 0
  node := fun _ => {}
  live := ∅
  heap := heap
  phys := phys

/-- The directory that `vfs_init` starts with. -/
def withRoot (s : Vfs) (root : Ptr) : Vfs :=
  { s with
    root := root
    live := {root}
    node := Function.update s.node root
      { ino := 1, type := .dir, mode := sIfdir ||| 0o755, linked := true } }

/-- `vfs_init`; `none` is its -1. -/
def vfsInit (tarData : Mem) (tarSize : Nat) (heap : List (Option Ptr)) (phys : Phys) :
    Option Vfs :=
  if tarSize < tarBlock * 2 then none
  else
    match (blank tarData tarSize heap phys).kmalloc with
    | (none, _) => none
    | (some root, s) =>
      match s.kmalloc with
      | (none, _) => none
      | (some _, s) => loadMembers (tarSize / tarBlock + 1) 0 (s.withRoot root)

end Vfs

end NarcOs
