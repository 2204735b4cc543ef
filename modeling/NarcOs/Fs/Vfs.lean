import NarcOs.Fs.Vnode
import NarcOs.Lib.CString

/-!
# The file system calls

`vfs_open` to `vfs_rename` of `kernel/fs/vfs.c`. A `struct file` is passed by
reference and returned; a failed call returns it unchanged unless the source
has already written to it. `vfs_read` gives the bytes it copies to the buffer,
`vfs_write` takes the bytes it copies from it.
-/

namespace NarcOs

abbrev OpenFlags := Nat

namespace OpenFlags

def read (flags : OpenFlags) : Bool := flags.testBit 0
def write (flags : OpenFlags) : Bool := flags.testBit 1
def create (flags : OpenFlags) : Bool := flags.testBit 2
def directory (flags : OpenFlags) : Bool := flags.testBit 3
def truncate (flags : OpenFlags) : Bool := flags.testBit 4
def exclusive (flags : OpenFlags) : Bool := flags.testBit 5
def append (flags : OpenFlags) : Bool := flags.testBit 6

end OpenFlags

/-- `struct file` -/
structure File where
  node : Option Ptr
  offset : Nat
  flags : OpenFlags
  deriving DecidableEq

/-- `struct vfs_dirent`; `name` is the whole array. -/
structure VfsDirent where
  ino : Nat
  type : VType
  name : List UInt8
  deriving DecidableEq

def toSigned (n : Nat) : Int := if n < 2 ^ 63 then n else (n : Int) - 2 ^ 64

def ofSigned (z : Int) : Nat := (z % 2 ^ 64).toNat

namespace Vfs

-- ---------------------------------------------------------------------------
-- Opening and closing
-- ---------------------------------------------------------------------------

def truncateNode (s : Vfs) (node : Ptr) (flags : OpenFlags) : Vfs :=
  if flags.truncate ∧ flags.write then
    (s.releasePages node).modify node fun v => { v with archive := none, size := 0 }
  else s

/-- What `vfs_open` does once it has its node. -/
def openNode (s : Vfs) (node : Ptr) (flags : OpenFlags) : VfsStatus × Option File × Vfs :=
  if flags.directory ∧ (s.node node).type ≠ .dir then (.notDirectory, none, s)
  else if flags.write ∧ (s.node node).type = .dir then (.isDirectory, none, s)
  else
    let s := s.truncateNode node flags
    let file : File :=
      { node := some node
        offset := if flags.append then (s.node node).size else 0
        flags := flags }
    (.ok, some file, s.modify node fun v => { v with refs := (v.refs + 1) % 2 ^ 32 })

def vfsOpen (s : Vfs) (path : CString) (flags : OpenFlags) : VfsStatus × Option File × Vfs :=
  match s.lookup path.bytes with
  | .ok node =>
    if flags.create ∧ flags.exclusive then (.entryExists, none, s) else s.openNode node flags
  | .error status =>
    if status = .notFound ∧ flags.create then
      match s.lookupParent path.bytes with
      | .error status => (status, none, s)
      | .ok (parent, name) =>
        match s.newNode parent name .reg (sIfreg ||| 0o666) with
        | (none, s) => (.noSpace, none, s)
        | (some node, s) => s.openNode node flags
    else (status, none, s)

/-- `if (node->refs) node->refs--` -/
def dropRef (s : Vfs) (node : Ptr) : Vfs :=
  if (s.node node).refs ≠ 0 then s.modify node fun v => { v with refs := v.refs - 1 } else s

def vfsClose (s : Vfs) (file : File) : File × Vfs :=
  match file.node with
  | none => (file, s)
  | some node =>
    let s := s.dropRef node
    let s := if ¬ (s.node node).linked ∧ (s.node node).refs = 0 then s.releaseNode node else s
    ({ file with node := none }, s)

-- ---------------------------------------------------------------------------
-- Contents
-- ---------------------------------------------------------------------------

/-- The allocation loop of `ensure_pages`, over the slots still to visit. -/
def allocPages (node : Ptr) : List Nat → Vfs → Bool × Vfs
  | [], s => (true, s)
  | i :: rest, s =>
    if (s.node node).pages i ≠ 0 then allocPages node rest s
    else
      let (page, phys) := s.phys.allocPage
      let s := { s with phys := phys }.modify node fun v =>
        { v with pages := Function.update v.pages i page }
      if page = 0 then (false, s) else allocPages node rest s

/-- One round of the copy loop of `ensure_pages`. -/
def copyArchivePage (node : Ptr) (archive : Nat) (s : Vfs) (i : Nat) : Vfs :=
  let v := s.node node
  let amount := if v.size - i * pageSize > pageSize then pageSize else v.size - i * pageSize
  { s with phys := { s.phys with
      mem := s.phys.mem.write (v.pages i) (s.tarData.read (archive + i * pageSize) amount) } }

/-- `ensure_pages`; `true` for its 0. -/
def ensurePages (s : Vfs) (node : Ptr) (stop : Nat) : Bool × Vfs :=
  if stop > vfsFileMax then (false, s)
  else
    match allocPages node (List.range ((stop + pageSize - 1) / pageSize)) s with
    | (false, s) => (false, s)
    | (true, s) =>
      match (s.node node).archive with
      | none => (true, s)
      | some archive =>
        let pages := ((s.node node).size + pageSize - 1) / pageSize
        let s := (List.range pages).foldl (copyArchivePage node archive) s
        (true, s.modify node fun v => { v with archive := none })

/-- The end of the chunk that the copy loops take at `position`. -/
def chunkAt (position left : Nat) : Nat :=
  if pageSize - position % pageSize > left then left else pageSize - position % pageSize

/-- The copy loop of `vfs_read` for the `left` bytes from `position` on. Every
round copies a byte, so `left` also bounds the rounds. -/
def readLoop (s : Vfs) (node : Ptr) : Nat → Nat → Nat → List UInt8
  | 0, _, _ => []
  | n + 1, position, left =>
    if left = 0 then []
    else
      let chunk := chunkAt position left
      let v := s.node node
      let source := match v.archive with
        | some archive => s.tarData.read (archive + position) chunk
        | none => s.phys.mem.read (v.pages (position / pageSize)) chunk
      source ++ readLoop s node n (position + chunk) (left - chunk)

/-- `none` is the source's -1. -/
def vfsRead (s : Vfs) (file : File) (length : Nat) : Option (List UInt8) × File :=
  match file.node with
  | none => (none, file)
  | some node =>
    if (s.node node).type ≠ .reg ∨ ¬ file.flags.read then (none, file)
    else if file.offset ≥ (s.node node).size then (some [], file)
    else
      let available := (s.node node).size - file.offset
      let length := if length > available then available else length
      (some (s.readLoop node length file.offset length),
        { file with offset := wrap64 (file.offset + length) })

/-- The copy loop of `vfs_write` for the bytes still to copy. -/
def writeLoop (node : Ptr) : Nat → Nat → List UInt8 → Vfs → Vfs
  | 0, _, _, s => s
  | n + 1, position, bytes, s =>
    if bytes = [] then s
    else
      let chunk := chunkAt position bytes.length
      let destination := (s.node node).pages (position / pageSize) + position % pageSize
      let s := { s with phys := { s.phys with
        mem := s.phys.mem.write destination (bytes.take chunk) } }
      writeLoop node n (position + chunk) (bytes.drop chunk) s

def writeOffset (s : Vfs) (node : Ptr) (file : File) : Nat :=
  if file.flags.append then (s.node node).size else file.offset

def vfsWrite (s : Vfs) (file : File) (bytes : List UInt8) : Option Nat × File × Vfs :=
  match file.node with
  | none => (none, file, s)
  | some node =>
    if (s.node node).type ≠ .reg ∨ ¬ file.flags.write then (none, file, s)
    else
      let file := { file with offset := s.writeOffset node file }
      if bytes.length > wrap64 (2 ^ 64 + vfsFileMax - file.offset) then (none, file, s)
      else
        let stop := wrap64 (file.offset + bytes.length)
        let size := (s.node node).size
        match s.ensurePages node (if stop > size then stop else size) with
        | (false, s) => (none, file, s)
        | (true, s) =>
          let s := writeLoop node bytes.length file.offset bytes s
          let s := s.modify node fun v => { v with size := if stop > v.size then stop else v.size }
          (some bytes.length, { file with offset := stop }, s)

def vfsSeek (s : Vfs) (file : File) (offset : Int) (origin : Nat) : Option Nat × File :=
  match file.node with
  | none => (none, file)
  | some node =>
    if (s.node node).type ≠ .reg then (none, file)
    else
      let base : Int := if origin = 0 then 0 else if origin = 1 then toSigned file.offset
        else if origin = 2 then toSigned (s.node node).size else -1
      if base < 0 ∨ offset < -base then (none, file)
      else
        let next := ofSigned (base + offset)
        if next > vfsFileMax then (none, file)
        else (some next, { file with offset := next })

/-- The entry after the `offset` first, when there is one. The name is copied
with its NUL over the start of the caller's array. -/
def vfsReaddir (s : Vfs) (file : File) (entry : VfsDirent) : Int × File × VfsDirent :=
  match file.node with
  | none => (-1, file, entry)
  | some node =>
    if (s.node node).type ≠ .dir then (-1, file, entry)
    else
      match (s.entries node)[file.offset]? with
      | none => (0, file, entry)
      | some child =>
        let v := s.node child
        (1, { file with offset := wrap64 (file.offset + 1) },
          { ino := v.ino
            type := v.type
            name := v.name ++ 0 :: entry.name.drop (v.name.length + 1) })

-- ---------------------------------------------------------------------------
-- The namespace
-- ---------------------------------------------------------------------------

def vfsMkdir (s : Vfs) (path : CString) (mode : Nat) : VfsStatus × Vfs :=
  match s.lookupParent path.bytes with
  | .error status => (status, s)
  | .ok (parent, name) =>
    if (s.childNamed parent name).isSome then (.entryExists, s)
    else
      match s.newNode parent name .dir (sIfdir ||| (mode &&& 0o777)) with
      | (none, s) => (.noSpace, s)
      | (some _, s) => (.ok, s)

def vfsUnlink (s : Vfs) (path : CString) (removeDirectory : Bool) : VfsStatus × Vfs :=
  match s.lookupParent path.bytes with
  | .error status => (status, s)
  | .ok (parent, name) =>
    match s.childNamed parent name with
    | none => (.notFound, s)
    | some node =>
      if removeDirectory ∧ (s.node node).type ≠ .dir then (.notDirectory, s)
      else if ¬ removeDirectory ∧ (s.node node).type = .dir then (.isDirectory, s)
      else if (s.node node).children.isSome then (.notEmpty, s)
      else (.ok, s.removeNode node)

/-- The ancestors of a node, itself first: the loop over `parent`. -/
def ancestors (s : Vfs) (node : Ptr) : List Ptr :=
  visited (fun p => (s.node p).parent) s.live.card (some node)

def replaceError (s : Vfs) (node target : Ptr) : Option VfsStatus :=
  if (s.node node).type = .dir ∧ (s.node target).type ≠ .dir then some .notDirectory
  else if (s.node node).type ≠ .dir ∧ (s.node target).type = .dir then some .isDirectory
  else if (s.node target).children.isSome then some .notEmpty
  else none

/-- The last part of `vfs_rename`, with every check made. -/
def moveNode (s : Vfs) (node : Ptr) (target : Option Ptr) (newParent : Ptr)
    (name : List UInt8) : Vfs :=
  let s := match target with
    | none => s
    | some target => s.removeNode target
  let s := s.detach node
  let s := s.modify node fun v => { v with name := name }
  s.attach newParent node

def vfsRename (s : Vfs) (oldPath newPath : CString) : VfsStatus × Vfs :=
  match s.lookupParent oldPath.bytes with
  | .error status => (status, s)
  | .ok (oldParent, oldName) =>
    match s.childNamed oldParent oldName with
    | none => (.notFound, s)
    | some node =>
      match s.lookupParent newPath.bytes with
      | .error status => (status, s)
      | .ok (newParent, newName) =>
        if node ∈ s.ancestors newParent then (.invalid, s)
        else
          let target := s.childNamed newParent newName
          if target = some node then (.ok, s)
          else
            match target.bind (s.replaceError node) with
            | some status => (status, s)
            | none =>
              match s.kmalloc with
              | (none, s) => (.noSpace, s)
              | (some _, s) => (.ok, s.moveNode node target newParent newName)

end Vfs

end NarcOs
