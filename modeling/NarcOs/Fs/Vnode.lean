import NarcOs.Lib.Chain
import NarcOs.Mm.Pmm

/-!
# Vnodes and path lookup

The data of `kernel/fs/vfs.c` and its internal operations on the tree of
vnodes. A vnode lives at a kernel address; `parent`, `children` and `next` are
the source's pointers, with `none` for NULL, and a directory's entries are the
vnodes reached from `children` through `next`. Strings are lists of bytes
without the final NUL.
-/

namespace NarcOs

abbrev Ptr := Nat

def vfsNameMax : Nat := 64
def vfsFileMax : Nat := 64 * 1024
def vfsPageMax : Nat := vfsFileMax / pageSize
def sIfreg : Nat := 0o100000
def sIfdir : Nat := 0o040000

inductive VType
  | reg
  | dir
  deriving DecidableEq

inductive VfsStatus
  | ok
  | notFound
  | entryExists
  | notDirectory
  | isDirectory
  | noSpace
  | notEmpty
  | invalid
  deriving DecidableEq

/-- `struct vnode`. `archive` is an offset from `tar_data`; `pages` holds frame
addresses, 0 for a slot without a page. -/
structure Vnode where
  parent : Option Ptr := none
  children : Option Ptr := none
  next : Option Ptr := none
  name : List UInt8 := []
  linked : Bool := false
  refs : Nat := 0
  size : Nat := 0
  ino : Nat := 0
  mode : Nat := 0
  type : VType := .reg
  archive : Option Nat := none
  pages : Nat → Nat := fun _ => 0

/-- The file system's variables, with the vnodes at their addresses. `live` are
the addresses that hold an allocated vnode. `heap` is not part of the source:
it is the script of the kernel heap's answers to the calls made here. -/
structure Vfs where
  tarData : Mem
  tarSize : Nat
  nextInode : Nat
  root : Ptr
  node : Ptr → Vnode
  live : Finset Ptr
  heap : List (Option Ptr)
  phys : Phys

def slash : UInt8 := 47
def dot : UInt8 := 46

def charAt (s : List UInt8) (i : Nat) : UInt8 := s.getD i 0

def nameEq (name component : List UInt8) : Bool :=
  ((List.range component.length).all fun i => charAt name i == charAt component i) &&
    charAt name component.length == 0

def dotName (component : List UInt8) : Bool :=
  (component.length == 1 && charAt component 0 == dot) ||
    (component.length == 2 && charAt component 0 == dot && charAt component 1 == dot)

namespace Vfs

def modify (s : Vfs) (p : Ptr) (f : Vnode → Vnode) : Vfs :=
  { s with node := Function.update s.node p (f (s.node p)) }

def next (s : Vfs) (p : Ptr) : Option Ptr := (s.node p).next

def entries (s : Vfs) (directory : Ptr) : List Ptr :=
  visited s.next s.live.card (s.node directory).children

def childNamed (s : Vfs) (directory : Ptr) (name : List UInt8) : Option Ptr :=
  (s.entries directory).find? fun child => nameEq (s.node child).name name

/-- Stores `node` through `link`: the directory's `children`, or the `next` of
the last entry visited. -/
def setLink (s : Vfs) (directory : Ptr) (last : Option Ptr) (node : Option Ptr) : Vfs :=
  match last with
  | none => s.modify directory fun v => { v with children := node }
  | some p => s.modify p fun v => { v with next := node }

def attach (s : Vfs) (directory node : Ptr) : Vfs :=
  let link := (s.entries directory).getLast?
  let s := s.modify node fun v => { v with next := none, parent := some directory, linked := true }
  s.setLink directory link (some node)

/-- The parent is read first: `node->parent->children` is dereferenced, so a
node without a parent never gets here. -/
def detach (s : Vfs) (node : Ptr) : Vfs :=
  match (s.node node).parent with
  | none => s
  | some directory =>
    let link := ((s.entries directory).takeWhile (· != node)).getLast?
    let s := s.setLink directory link (s.node node).next
    s.modify node fun v => { v with next := none, parent := none, linked := false }

/-- One call of `kmalloc` or `kzalloc`: NULL, or an address not in use. -/
def kmalloc (s : Vfs) : Option Ptr × Vfs :=
  match s.heap with
  | [] => (none, s)
  | answer :: rest => (answer.filter (· ∉ s.live), { s with heap := rest })

def newNode (s : Vfs) (directory : Ptr) (name : List UInt8) (type : VType) (mode : Nat) :
    Option Ptr × Vfs :=
  match s.kmalloc with
  | (none, s) => (none, s)
  | (some node, s) =>
    match s.kmalloc with
    | (none, s) => (none, s)
    | (some _, s) =>
      let s := { s with
        live := insert node s.live
        node := Function.update s.node node
          { name := name, ino := s.nextInode, type := type, mode := mode }
        nextInode := wrap64 (s.nextInode + 1) }
      (some node, s.attach directory node)

def releasePage (node : Ptr) (s : Vfs) (i : Nat) : Vfs :=
  let page := (s.node node).pages i
  let s := if page ≠ 0 then { s with phys := s.phys.pmmFreePage page } else s
  s.modify node fun v => { v with pages := Function.update v.pages i 0 }

def releasePages (s : Vfs) (node : Ptr) : Vfs :=
  (List.range vfsPageMax).foldl (releasePage node) s

def releaseNode (s : Vfs) (node : Ptr) : Vfs :=
  let s := s.releasePages node
  { s with live := s.live.erase node }

def removeNode (s : Vfs) (node : Ptr) : Vfs :=
  let s := s.detach node
  if (s.node node).refs = 0 then s.releaseNode node else s

-- ---------------------------------------------------------------------------
-- Paths
-- ---------------------------------------------------------------------------

/-- The loop of `walk` on the rest of the path. Every round but the last
consumes a byte, so the path's length bounds the rounds. -/
def walkFrom (s : Vfs) : Nat → List UInt8 → Ptr → Except VfsStatus Ptr
  | 0, _, node => .ok node
  | n + 1, path, node =>
    let path := path.dropWhile (· == slash)
    let component := path.takeWhile (· != slash)
    let rest := path.dropWhile (· != slash)
    if component = [] then .ok node
    else if (s.node node).type ≠ .dir then .error .notDirectory
    else if dotName component then
      match component.length == 2, (s.node node).parent with
      | true, some parent => walkFrom s n rest parent
      | _, _ => walkFrom s n rest node
    else
      match s.childNamed node component with
      | none => .error .notFound
      | some child => walkFrom s n rest child

def walk (s : Vfs) (path : List UInt8) : Except VfsStatus Ptr :=
  if path = [] ∨ charAt path 0 ≠ slash then .error .invalid
  else s.walkFrom (path.length + 1) path s.root

def lookup (s : Vfs) (path : List UInt8) : Except VfsStatus Ptr := s.walk path

def lookupParent (s : Vfs) (path : List UInt8) : Except VfsStatus (Ptr × List UInt8) :=
  if charAt path 0 ≠ slash then .error .invalid
  else
    let body := path.rdropWhile (· == slash)
    let name := body.rtakeWhile (· != slash)
    if name = [] ∨ dotName name then .error .invalid
    else if name.length ≥ vfsNameMax then .error .invalid
    else
      match s.walk (body.rdropWhile (· != slash)) with
      | .error status => .error status
      | .ok parent =>
        if (s.node parent).type ≠ .dir then .error .notDirectory else .ok (parent, name)

end Vfs

end NarcOs
