import NarcOs.Fs.Init
import NarcOs.Lib.Word64

/-!
# The archive reader with its reads checked

`vfs_init` once more, as a computation that stops at `none` when it reads a byte
behind the archive, writes behind the path buffer, computes an offset or a size
that does not fit in 64 bits, or is not through a loop after the rounds given to
it. `vfs_read` and `ensure_pages` are here with the reads they make of the archive.
-/

namespace NarcOs

/-- `next` followed to the end of a list, which must be reached in the given rounds. -/
def follow {α : Type*} (next : α → Option α) : Nat → Option α → Option (List α)
  | _, none => some []
  | 0, some _ => none
  | n + 1, some a => (follow next n (next a)).map (a :: ·)

/-- `sizeof(header->prefix) + sizeof(header->name) + 2` -/
def tarPathMax : Nat := 257

/-- `output[length++] = c` -/
def pushPath (output : List UInt8) (c : UInt8) : Option (List UInt8) :=
  if output.length < tarPathMax then some (output ++ [c]) else none

namespace Vfs

def archiveByte (s : Vfs) (i : Nat) : Option UInt8 := if i < s.tarSize then some (s.tarData i) else none

def archiveBytes (s : Vfs) (start length : Nat) : Option (List UInt8) :=
  if start + length ≤ s.tarSize then some (s.tarData.read start length) else none

-- ---------------------------------------------------------------------------
-- Headers
-- ---------------------------------------------------------------------------

/-- The loop of `octal` on the bytes left of a field. -/
def octalChecked (s : Vfs) : Nat → Nat → Nat → Option Nat
  | 0, _, value => some value
  | n + 1, position, value => do
    let c ← s.archiveByte position
    if c = 0 then some value
    else if c < 48 ∨ c > 55 then octalChecked s n (position + 1) value
    else
      let value ← mul64 value 8
      let value ← add64 value (c.toNat - 48)
      octalChecked s n (position + 1) value

def zeroFrom (s : Vfs) : Nat → Nat → Option Bool
  | 0, _ => some true
  | n + 1, position => do
    let c ← s.archiveByte position
    if c ≠ 0 then some false else zeroFrom s n (position + 1)

def nextOffsetChecked (s : Vfs) (offset : Nat) : Option Nat := do
  let size ← s.octalChecked 12 (offset + 124) 0
  let start ← add64 offset tarBlock
  let rounded ← add64 size (tarBlock - 1)
  add64 start (rounded / tarBlock * tarBlock)

/-- The offset that `header_at` tests: the last sum may wrap, and then lies below `offset`. -/
def nextOffsetProbe (s : Vfs) (offset : Nat) : Option Nat := do
  let size ← s.octalChecked 12 (offset + 124) 0
  let start ← add64 offset tarBlock
  let rounded ← add64 size (tarBlock - 1)
  some (wrap64 (start + rounded / tarBlock * tarBlock))

def headerAtChecked (s : Vfs) (offset : Nat) : Option Bool :=
  if offset > s.tarSize ∨ s.tarSize - offset < tarBlock then some false
  else do
    let zero ← s.zeroFrom tarBlock offset
    if zero then some false
    else
      let next ← s.nextOffsetProbe offset
      some (¬ (next < offset ∨ next > s.tarSize))

/-- One of the two copy loops of `tar_path`. -/
def copyField (s : Vfs) : Nat → Nat → List UInt8 → Option (List UInt8)
  | 0, _, output => some output
  | n + 1, position, output => do
    let c ← s.archiveByte position
    if c = 0 then some output
    else
      let output ← pushPath output c
      copyField s n (position + 1) output

def tarPathChecked (s : Vfs) (offset : Nat) : Option (List UInt8) := do
  let output ← s.copyField 155 (offset + 345) []
  let output ← if output = [] then some output else pushPath output slash
  let output ← s.copyField 100 offset output
  let _ ← pushPath output 0
  some output

def magicFrom (s : Vfs) : List UInt8 → Nat → Option Bool
  | [], _ => some true
  | expected :: rest, position => do
    let c ← s.archiveByte position
    if c ≠ expected then some false else magicFrom s rest (position + 1)

-- ---------------------------------------------------------------------------
-- Members
-- ---------------------------------------------------------------------------

def entriesChecked (s : Vfs) (directory : Ptr) : Option (List Ptr) :=
  follow s.next s.live.card (s.node directory).children

/-- `new_node`, with the walk of `attach` to the end of the directory. -/
def newNodeChecked (s : Vfs) (directory : Ptr) (name : List UInt8) (type : VType) (mode : Nat) :
    Option (Option Ptr × Vfs) :=
  match s.kmalloc with
  | (none, s) => some (none, s)
  | (some node, s) =>
    match s.kmalloc with
    | (none, s) => some (none, s)
    | (some _, s) => do
      let s := { s with
        live := insert node s.live
        node := Function.update s.node node
          { name := name, ino := s.nextInode, type := type, mode := mode }
        nextInode := wrap64 (s.nextInode + 1) }
      let _ ← s.entriesChecked directory
      some (some node, s.attach directory node)

def childOrNewChecked (s : Vfs) (directory : Ptr) (name : List UInt8) (type : VType) (mode : Nat) :
    Option (Option Ptr × Vfs) := do
  let entries ← s.entriesChecked directory
  match entries.find? fun child => nameEq (s.node child).name name with
  | some child => some (some child, s)
  | none => s.newNodeChecked directory name type mode

def tarNodeChecked (type : VType) (mode : Nat) :
    Nat → List UInt8 → Ptr → Vfs → Option (Option Ptr × Vfs)
  | 0, _, _, _ => none
  | n + 1, cursor, node, s =>
    let start := cursor.dropWhile (· == slash)
    let component := start.takeWhile (· != slash)
    if component = [] then some (some node, s)
    else
      let cursor := (start.dropWhile (· != slash)).dropWhile (· == slash)
      let last : Bool := cursor.isEmpty
      if component.length = 1 ∧ charAt component 0 = dot then
        if last then some (some node, s) else tarNodeChecked type mode n cursor node s
      else if dotName component ∨ component.length ≥ vfsNameMax ∨ (s.node node).type ≠ .dir then
        some (none, s)
      else do
        let child ← s.childOrNewChecked node component (if last then type else .dir)
          (if last then mode else sIfdir ||| 0o755)
        match child with
        | (none, s) => some (none, s)
        | (some child, s) =>
          if last then
            if (s.node child).type ≠ type then some (none, s)
            else some (some child, s.modify child fun v => { v with mode := mode })
          else tarNodeChecked type mode n cursor child s

/-- One member; `some none` is the -1 of `vfs_init`. -/
def loadMemberChecked (s : Vfs) (offset : Nat) : Option (Option Vfs) := do
  let magic ← s.magicFrom [117, 115, 116, 97, 114] (offset + 257)
  if ¬ magic then some none
  else
    let path ← s.tarPathChecked offset
    let flag ← s.archiveByte (offset + 156)
    let type : VType := if flag = 53 then .dir else .reg
    let mode ← s.octalChecked 8 (offset + 100) 0
    let mode := (if type = .dir then sIfdir else sIfreg) ||| (mode &&& 0o777)
    let node ← tarNodeChecked type mode (path.length + 1) path s.root s
    match node with
    | (none, _) => some none
    | (some node, s) =>
      if (s.node node).type ≠ type then some none
      else if type ≠ .reg then some (some s)
      else
        let size ← s.octalChecked 12 (offset + 124) 0
        if size > vfsFileMax then some none
        else
          let archive ← add64 offset tarBlock
          some (some (s.modify node fun v => { v with size := size, archive := some archive }))

def loadMembersChecked : Nat → Nat → Vfs → Option (Option Vfs)
  | 0, _, _ => none
  | n + 1, offset, s => do
    let more ← s.headerAtChecked offset
    if more then
      let loaded ← s.loadMemberChecked offset
      match loaded with
      | none => some none
      | some s' =>
        let next ← s.nextOffsetChecked offset
        loadMembersChecked n next s'
    else some (some s)

/-- `vfs_init(archive, size)`, for the bytes at `archive`. -/
def vfsInitChecked (archive : Option Mem) (tarSize : Nat) (heap : List (Option Ptr)) (phys : Phys) :
    Option (Option Vfs) :=
  match archive with
  | none => some none
  | some tarData =>
    if tarSize < tarBlock * 2 then some none
    else
      match (blank tarData tarSize heap phys).kmalloc with
      | (none, _) => some none
      | (some root, s) =>
        match s.kmalloc with
        | (none, _) => some none
        | (some _, s) => loadMembersChecked (tarSize / tarBlock + 1) 0 (s.withRoot root)

-- ---------------------------------------------------------------------------
-- Contents
-- ---------------------------------------------------------------------------

def readLoopChecked (s : Vfs) (node : Ptr) : Nat → Nat → Nat → Option (List UInt8)
  | 0, _, left => if left = 0 then some [] else none
  | n + 1, position, left =>
    if left = 0 then some []
    else do
      let chunk := chunkAt position left
      let v := s.node node
      let source ← match v.archive with
        | some archive => s.archiveBytes (archive + position) chunk
        | none => some (s.phys.mem.read (v.pages (position / pageSize)) chunk)
      let rest ← readLoopChecked s node n (position + chunk) (left - chunk)
      some (source ++ rest)

def vfsReadChecked (s : Vfs) (file : File) (length : Nat) : Option (Option (List UInt8) × File) :=
  match file.node with
  | none => some (none, file)
  | some node =>
    if (s.node node).type ≠ .reg ∨ ¬ file.flags.read then some (none, file)
    else if file.offset ≥ (s.node node).size then some (some [], file)
    else do
      let available := (s.node node).size - file.offset
      let length := if length > available then available else length
      let bytes ← s.readLoopChecked node length file.offset length
      some (some bytes, { file with offset := wrap64 (file.offset + length) })

def copyArchivePageChecked (node : Ptr) (archive : Nat) (s : Vfs) (i : Nat) : Option Vfs := do
  let v := s.node node
  let amount := if v.size - i * pageSize > pageSize then pageSize else v.size - i * pageSize
  let bytes ← s.archiveBytes (archive + i * pageSize) amount
  some { s with phys := { s.phys with mem := s.phys.mem.write (v.pages i) bytes } }

def ensurePagesChecked (s : Vfs) (node : Ptr) (stop : Nat) : Option (Bool × Vfs) :=
  if stop > vfsFileMax then some (false, s)
  else
    match allocPages node (List.range ((stop + pageSize - 1) / pageSize)) s with
    | (false, s) => some (false, s)
    | (true, s) =>
      match (s.node node).archive with
      | none => some (true, s)
      | some archive => do
        let pages := ((s.node node).size + pageSize - 1) / pageSize
        let s ← (List.range pages).foldlM (copyArchivePageChecked node archive) s
        some (true, s.modify node fun v => { v with archive := none })

end Vfs

end NarcOs
