import NarcOs.Fs.Change
import NarcOs.Fs.Init

/-!
# Runs of the file system

A session is the file system with the `struct file` objects that its callers
hold. Every sequence of calls from a successful `vfs_init` is a run; the
results about runs are by induction over `Steps`.
-/

namespace NarcOs

structure Session where
  vfs : Vfs
  file : Nat → Option File

inductive FsCall
  | openPath (handle : Nat) (path : CString) (flags : OpenFlags)
  | close (handle : Nat)
  | read (handle length : Nat)
  | write (handle : Nat) (bytes : List UInt8)
  | seek (handle : Nat) (offset : Int) (origin : Nat)
  | readdir (handle : Nat) (entry : VfsDirent)
  | mkdir (path : CString) (mode : Nat)
  | unlink (path : CString) (removeDirectory : Bool)
  | rename (oldPath newPath : CString)

def FsCall.handle : FsCall → Option Nat
  | .openPath handle _ _ => some handle
  | .close handle => some handle
  | .read handle _ => some handle
  | .write handle _ => some handle
  | .seek handle _ _ => some handle
  | .readdir handle _ => some handle
  | .mkdir _ _ => none
  | .unlink _ _ => none
  | .rename _ _ => none

namespace Session

def setFile (s : Session) (handle : Nat) (file : Option File) : Session :=
  { s with file := Function.update s.file handle file }

/-- The state after a call. A handle is one `struct file`: it is opened only
while it is not in use, and the other calls need an open one. -/
def call (s : Session) : FsCall → Session
  | .openPath handle path flags =>
    match s.file handle with
    | some _ => s
    | none =>
      let (_, file, vfs) := s.vfs.vfsOpen path flags
      { s with vfs := vfs }.setFile handle file
  | .close handle =>
    match s.file handle with
    | none => s
    | some file => { s with vfs := (s.vfs.vfsClose file).2 }.setFile handle none
  | .read handle length =>
    match s.file handle with
    | none => s
    | some file => s.setFile handle (some (s.vfs.vfsRead file length).2)
  | .write handle bytes =>
    match s.file handle with
    | none => s
    | some file =>
      let (_, file, vfs) := s.vfs.vfsWrite file bytes
      { s with vfs := vfs }.setFile handle (some file)
  | .seek handle offset origin =>
    match s.file handle with
    | none => s
    | some file => s.setFile handle (some (s.vfs.vfsSeek file offset origin).2)
  | .readdir handle entry =>
    match s.file handle with
    | none => s
    | some file => s.setFile handle (some (s.vfs.vfsReaddir file entry).2.1)
  | .mkdir path mode => { s with vfs := (s.vfs.vfsMkdir path mode).2 }
  | .unlink path removeDirectory => { s with vfs := (s.vfs.vfsUnlink path removeDirectory).2 }
  | .rename oldPath newPath => { s with vfs := (s.vfs.vfsRename oldPath newPath).2 }

def Step (s t : Session) : Prop := ∃ c, t = s.call c

abbrev Steps := Relation.ReflTransGen Step

def start (vfs : Vfs) : Session := { vfs := vfs, file := fun _ => none }

theorem call_changes {s : Session} {kids : Ptr → List Ptr} (h : s.vfs.Tree kids) (c : FsCall) :
    s.vfs.Changes (s.call c).vfs := by
  cases c with
  | openPath handle path flags =>
    simp only [call]
    split
    · exact .quiet .refl
    · exact h.vfsOpen path flags
  | close handle =>
    simp only [call]
    split
    · exact .quiet .refl
    · exact .quiet (Vfs.vfsClose_quiet _)
  | read | seek | readdir =>
    simp only [call]
    split <;> exact .quiet .refl
  | write handle bytes =>
    simp only [call]
    split
    · exact .quiet .refl
    · exact .quiet (Vfs.vfsWrite_sameTree _ bytes).quiet
  | mkdir path mode => exact h.vfsMkdir path mode
  | unlink path removeDirectory => exact .quiet (h.vfsUnlink path removeDirectory)
  | rename oldPath newPath => exact .quiet (h.vfsRename oldPath newPath)

theorem Steps.tree {s t : Session} (hs : Steps s t) {kids : Ptr → List Ptr}
    (h : s.vfs.Tree kids) : ∃ kids', t.vfs.Tree kids' := by
  induction hs with
  | refl => exact ⟨kids, h⟩
  | tail _ hstep ih =>
    obtain ⟨kids', h'⟩ := ih
    obtain ⟨c, rfl⟩ := hstep
    exact (call_changes h' c).tree h'

end Session

end NarcOs
