import NarcOs.Kernel.Preemption
import NarcOs.Kernel.ReadWrite

/-!
# The calls on files and memory

The handlers of `kernel/syscall.c` from `handle_open` to `handle_unmap`, and
`syscall_dispatch` with all of them. A call may be on a descriptor that waits for input, so
it has the outcomes of `Progress`. Of the tasks they change no more than `Serves` says, so
`syscall_dispatch` with its own handlers is one of the calls of `Enters`.
-/

namespace NarcOs

def narcSysOpen : Nat := 0x0100
def narcSysClose : Nat := 0x0101
def narcSysRead : Nat := 0x0102
def narcSysWrite : Nat := 0x0103
def narcSysSeek : Nat := 0x0104
def narcSysFileInfo : Nat := 0x0105
def narcSysReadDir : Nat := 0x0106
def narcSysMkdir : Nat := 0x0107
def narcSysUnlink : Nat := 0x0108
def narcSysRmdir : Nat := 0x0109
def narcSysRename : Nat := 0x010a
def narcSysMap : Nat := 0x0200

def narcInvalidArgument : Nat := 1
def narcBadHandle : Nat := 2
def narcIoError : Nat := 4
def narcNoMemory : Nat := 6
def narcIsDirectory : Nat := 9
def narcNotDirectory : Nat := 10
def narcExists : Nat := 15
def narcNoSpace : Nat := 16
def narcNotEmpty : Nat := 17

def narcOpenRead : Nat := 1 <<< 0
def narcOpenWrite : Nat := 1 <<< 1
def narcOpenTruncate : Nat := 1 <<< 4
def narcSeekEnd : Nat := 2
def narcFileCharacter : Nat := 3

/-- The `NARC_OPEN_` flags, each with the `VFS_OPEN_` flag of its name. -/
def openFlags : List (Nat × OpenFlags) :=
  [(narcOpenRead, 1 <<< 0), (narcOpenWrite, 1 <<< 1), (1 <<< 2, 1 <<< 2), (1 <<< 3, 1 <<< 3), (narcOpenTruncate, 1 <<< 4),
    (1 <<< 5, 1 <<< 5), (1 <<< 6, 1 <<< 6)]

def knownFlags : Nat := openFlags.foldl (fun known flag => known ||| flag.1) 0

def nativeFlags (flags : Nat) : OpenFlags :=
  openFlags.foldl (fun native flag => if flags &&& flag.1 ≠ 0 then native ||| flag.2 else native) 0

/-- `vfs_error` -/
def vfsError : VfsStatus → Nat
  | .notFound => narcNotFound
  | .entryExists => narcExists
  | .notDirectory => narcNotDirectory
  | .isDirectory => narcIsDirectory
  | .noSpace => narcNoSpace
  | .notEmpty => narcNotEmpty
  | _ => narcInvalidArgument

def vfsResult (status : VfsStatus) : KernelResult := if status = .ok then resultOk 0 else resultError (vfsError status)

def IoError.code : IoError → Nat
  | .badHandle => narcBadHandle
  | .isDirectory => narcIsDirectory
  | .badAddress => narcBadAddress
  | .ioError => narcIoError

def ReadDirError.code : ReadDirError → Nat
  | .badHandle => narcBadHandle
  | .notDirectory => narcNotDirectory
  | .ioError => narcIoError
  | .badAddress => narcBadAddress

def NarcStatus.code : NarcStatus → Nat
  | .invalidArgument => narcInvalidArgument
  | .noMemory => narcNoMemory

def resultOf {ε : Type} (code : ε → Nat) : Except ε Nat → KernelResult
  | .ok value => resultOk value
  | .error e => resultError (code e)

/-- `copy_path`: the path, or the status. -/
def Phys.copyPath (p : Phys) (root address length : Nat) : Except Nat CString :=
  if length = 0 ∨ length ≥ vfsPathMax then .error narcInvalidArgument
  else
    match p.copyFromUser root address length with
    | none => .error narcBadAddress
    | some path => if h : 0 ∈ path then .error narcInvalidArgument else .ok ⟨path, h⟩

namespace Kernel

def copyPath (k : Kernel) (address length : Nat) : Except Nat CString := k.phys.copyPath k.cr3 address length

def handleOpen (k : Kernel) (address length flags : Nat) : KernelResult × Kernel :=
  if length = 0 ∨ length ≥ vfsPathMax ∨ flags ≠ flags &&& knownFlags ∨ flags &&& (narcOpenRead ||| narcOpenWrite) = 0 ∨
      (flags &&& narcOpenTruncate ≠ 0 ∧ flags &&& narcOpenWrite = 0) then (resultError narcInvalidArgument, k)
  else
    match k.copyPath address length with
    | .error status => (resultError status, k)
    | .ok path =>
      if path.first ≠ slash then (resultError narcNotFound, k)
      else
        -- the status is set whenever the answer is -1
        let (fd, status, k) := k.taskFdOpen path (nativeFlags flags)
        if fd = -2 then (resultError narcNoMemory, k)
        else if fd < 0 then (resultError (vfsError (status.getD .invalid)), k)
        else (resultOk fd.toNat, k)

def handleMkdir (k : Kernel) (address length mode : Nat) : KernelResult × Kernel :=
  match k.copyPath address length with
  | .error status => (resultError status, k)
  | .ok path =>
    let (status, vfs) := k.vfs.vfsMkdir path (mode % 2 ^ 32)
    (vfsResult status, { k with vfs := vfs })

def handleUnlink (k : Kernel) (address length : Nat) (removeDirectory : Bool) : KernelResult × Kernel :=
  match k.copyPath address length with
  | .error status => (resultError status, k)
  | .ok path =>
    let (status, vfs) := k.vfs.vfsUnlink path removeDirectory
    (vfsResult status, { k with vfs := vfs })

def handleRename (k : Kernel) (oldAddress oldLength newAddress newLength : Nat) : KernelResult × Kernel :=
  match k.copyPath oldAddress oldLength with
  | .error status => (resultError status, k)
  | .ok oldPath =>
    match k.copyPath newAddress newLength with
    | .error status => (resultError status, k)
    | .ok newPath =>
      let (status, vfs) := k.vfs.vfsRename oldPath newPath
      (vfsResult status, { k with vfs := vfs })

def handleClose (k : Kernel) (fd : Nat) : KernelResult × Kernel :=
  let (done, k) := k.taskFdClose (Int32.ofNat fd)
  (if done ≠ 0 then resultError narcBadHandle else resultOk 0, k)

def handleSeek (k : Kernel) (fd offset origin : Nat) : KernelResult × Kernel :=
  if origin > narcSeekEnd then (resultError narcInvalidArgument, k)
  else
    match k.taskFdFile (Int32.ofNat fd) with
    | none => (resultError narcBadHandle, k)
    | some f =>
      let (value, file) := k.vfs.vfsSeek (k.openFile f).file (toSigned offset) origin
      (match value with
        | none => resultError narcInvalidArgument
        | some value => resultOk value, k.setFile f file)

def fileInfoBytes (inode size mode type : Nat) : List UInt8 :=
  toLE 8 inode ++ toLE 8 size ++ toLE 4 mode ++ [UInt8.ofNat type] ++ List.replicate 3 0

/-- `vfs_file_info` for a file, and what is said of the console and of pipes. The node of an
open file is never NULL. -/
def fileInfo (k : Kernel) (fd : Int32) : List UInt8 :=
  match (k.taskFdFile fd).bind fun f => (k.openFile f).file.node with
  | some n =>
    let v := k.vfs.node n
    fileInfoBytes v.ino v.size v.mode (if v.type = .dir then narcFileDirectory else narcFileRegular)
  | none => fileInfoBytes 0 0 (0o020000 ||| 0o666) narcFileCharacter

def handleFileInfo (k : Kernel) (fd address : Nat) : KernelResult × Kernel :=
  if ¬ k.taskFdValid (Int32.ofNat fd) then (resultError narcBadHandle, k)
  else
    let (done, phys) := k.phys.copyToUser k.cr3 address (k.fileInfo (Int32.ofNat fd))
    (if done then resultOk 0 else resultError narcBadAddress, k.setPhys phys)

def handleMap (k : Kernel) (length flags : Nat) : KernelResult × Kernel :=
  let (result, mmapNext, phys) := k.phys.handleMap k.cr3 (k.task k.current).mmapNext length flags
  (resultOf NarcStatus.code result, (k.setPhys phys).modifyTask k.current fun v => { v with mmapNext := mmapNext })

def handleUnmap (k : Kernel) (address length : Nat) : KernelResult × Kernel :=
  let (result, phys) := k.phys.handleUnmap k.cr3 address length
  (resultOf NarcStatus.code result, k.setPhys phys)

/-- The calls that do not wait. `stack` is what `handle_read_dir` finds on its stack. -/
def answer (k : Kernel) (stack : DirentStack) (frame : TaskFrame) (id : Nat) : KernelResult × Kernel :=
  let a1 := frame.rdi
  let a2 := frame.rsi
  let a3 := frame.rdx
  if id = narcSysOpen then k.handleOpen a1 a2 a3
  else if id = narcSysClose then k.handleClose a1
  else if id = narcSysSeek then k.handleSeek a1 a2 a3
  else if id = narcSysFileInfo then k.handleFileInfo a1 a2
  else if id = narcSysReadDir then
    let (result, k) := k.handleReadDir stack a1 a2
    (resultOf ReadDirError.code result, k)
  else if id = narcSysMkdir then k.handleMkdir a1 a2 a3
  else if id = narcSysUnlink then k.handleUnlink a1 a2 false
  else if id = narcSysRmdir then k.handleUnlink a1 a2 true
  else if id = narcSysRename then k.handleRename a1 a2 a3 frame.r10
  else if id = narcSysMap then k.handleMap a1 a2
  else k.handleUnmap a1 a2

end Kernel

namespace Io

def setKernel (io : Io) (k : Kernel) : Io := { io with kernel := k }

def serve (stack : DirentStack) (rounds : Nat) (io : Io) (frame : TaskFrame) (id : Nat) : Progress (KernelResult × Io) :=
  let account : Progress (Except IoError Nat × Io) → Progress (KernelResult × Io)
    | .running => .running
    | .waits => .waits
    | .ended (result, io) => .ended (resultOf IoError.code result, io)
  if id = narcSysRead then account (handleRead .x86_64 rounds io frame.rdi frame.rsi frame.rdx)
  else if id = narcSysWrite then account (handleWrite .x86_64 rounds io frame.rdi frame.rsi frame.rdx)
  else
    let (result, k) := io.kernel.answer stack frame id
    .ended (result, io.setKernel k)

/-- `syscall_dispatch`; no frame is the halt of an exit when no task can run. -/
def syscallDispatch (stack : DirentStack) (rounds : Nat) (io : Io) (frame : TaskFrame) : Progress (Option TaskFrame × Io) :=
  let id := frame.rax &&& narcSyscallIdMask
  if frame.rax &&& narcSyscallTagMask = narcSyscallTag ∧ id ∈ narcSysFiles then
    match io.serve stack rounds frame id with
    | .running => .running
    | .waits => .waits
    | .ended (result, io) => .ended (some (returnResult frame result), io)
  else
    -- none of the handlers is called
    match io.kernel.syscallDispatch (fun _ k _ => (resultError narcNotSupported, k)) frame with
    | none => .ended (none, io)
    | some (frame, k) => .ended (some frame, io.setKernel k)

end Io

-- ---------------------------------------------------------------------------
-- What the handlers do to the tasks
-- ---------------------------------------------------------------------------

namespace Kernel

variable {k : Kernel}

theorem Serves.refl (k : Kernel) : Serves k k := (SameTable.refl k).serves

theorem vfs_serves (k : Kernel) (vfs : Vfs) : Serves k { k with vfs := vfs } :=
  SameTable.serves ⟨rfl, rfl, rfl, rfl, rfl⟩

theorem handleOpen_serves (k : Kernel) (address length flags : Nat) : Serves k (k.handleOpen address length flags).2 := by
  unfold handleOpen
  split
  · exact .refl k
  split
  · exact .refl k
  rename_i path _
  split
  · exact .refl k
  have hopen := taskFdOpen_serves k path (nativeFlags flags)
  generalize k.taskFdOpen path (nativeFlags flags) = r at hopen ⊢
  simp only
  split
  · exact hopen
  split
  · exact hopen
  · exact hopen

theorem handleMkdir_serves (k : Kernel) (address length mode : Nat) : Serves k (k.handleMkdir address length mode).2 := by
  unfold handleMkdir
  split
  · exact .refl k
  · exact vfs_serves k _

theorem handleUnlink_serves (k : Kernel) (address length : Nat) (removeDirectory : Bool) :
    Serves k (k.handleUnlink address length removeDirectory).2 := by
  unfold handleUnlink
  split
  · exact .refl k
  · exact vfs_serves k _

theorem handleRename_serves (k : Kernel) (oldAddress oldLength newAddress newLength : Nat) :
    Serves k (k.handleRename oldAddress oldLength newAddress newLength).2 := by
  unfold handleRename
  split
  · exact .refl k
  split
  · exact .refl k
  · exact vfs_serves k _

theorem handleClose_serves (k : Kernel) (fd : Nat) : Serves k (k.handleClose fd).2 :=
  taskFdClose_serves k (Int32.ofNat fd)

theorem setFile_serves (k : Kernel) (f : Ptr) (file : File) : Serves k (k.setFile f file) :=
  SameTable.serves ⟨rfl, rfl, rfl, rfl, rfl⟩

theorem handleSeek_serves (k : Kernel) (fd offset origin : Nat) : Serves k (k.handleSeek fd offset origin).2 := by
  unfold handleSeek
  split
  · exact .refl k
  split
  · exact .refl k
  · exact setFile_serves k _ _

theorem handleFileInfo_serves (k : Kernel) (fd address : Nat) : Serves k (k.handleFileInfo fd address).2 := by
  unfold handleFileInfo
  split
  · exact .refl k
  · exact (setPhys_table k _).serves

theorem modifyMmapNext_serves (k : Kernel) (mmapNext : Nat) :
    Serves k (k.modifyTask k.current fun v => { v with mmapNext := mmapNext }) where
  list := rfl
  current := rfl
  other _ hu := Function.update_of_ne hu _ _
  own := ⟨_, _, Function.update_self _ _ _⟩

theorem handleMap_serves (k : Kernel) (length flags : Nat) : Serves k (k.handleMap length flags).2 := by
  unfold handleMap
  exact (setPhys_table k _).serves.trans (modifyMmapNext_serves (k.setPhys _) _)

theorem handleUnmap_serves (k : Kernel) (address length : Nat) : Serves k (k.handleUnmap address length).2 :=
  (setPhys_table k _).serves

theorem answer_serves (k : Kernel) (stack : DirentStack) (frame : TaskFrame) (id : Nat) :
    Serves k (k.answer stack frame id).2 := by
  unfold answer
  simp only
  split
  · exact handleOpen_serves k _ _ _
  split
  · exact handleClose_serves k _
  split
  · exact handleSeek_serves k _ _ _
  split
  · exact handleFileInfo_serves k _ _
  split
  · exact handleReadDir_serves k stack _ _
  split
  · exact handleMkdir_serves k _ _ _
  split
  · exact handleUnlink_serves k _ _ _
  split
  · exact handleUnlink_serves k _ _ _
  split
  · exact handleRename_serves k _ _ _ _
  split
  · exact handleMap_serves k _ _
  · exact handleUnmap_serves k _ _

theorem dispatch_files {handle : Handlers} {frame : TaskFrame} {id : Nat} (hid : id ∈ narcSysFiles) :
    k.dispatch handle frame id = some (returnResult frame (handle id k frame).1, (handle id k frame).2) := by
  have hother : ∀ id ∈ narcSysFiles, ∀ other ∈ [narcSysAbiQuery, narcSysExit, narcSysGetpid, narcSysYield, narcSysFork,
      narcSysWait, narcSysExec], id ≠ other := by decide
  have hne := hother id hid
  simp only [List.forall_mem_cons] at hne
  unfold Kernel.dispatch
  simp only [hne, if_false, if_pos hid]

theorem dispatch_congr {handle handle' : Handlers} {frame : TaskFrame} {id : Nat} (hid : id ∉ narcSysFiles) :
    k.dispatch handle frame id = k.dispatch handle' frame id := by
  unfold Kernel.dispatch
  simp only [if_neg hid]

end Kernel

namespace Io

open Kernel

variable {m : Machine} {io io' : Io} {fd : Int32} {buffer length done rounds : Nat} {stack : DirentStack}
  {result : Except IoError Nat}

theorem setPhys_serves (io : Io) (phys : Phys) : Serves io.kernel (io.setPhys phys).kernel :=
  (setPhys_table io.kernel phys).serves

theorem readChunks_serves (h : readChunks m fd buffer length rounds done io = .ended (result, io')) :
    Serves io.kernel io'.kernel := by
  induction rounds generalizing done io with
  | zero => cases h
  | succ rounds ih =>
    unfold readChunks at h
    simp only at h
    generalize (if length - done > chunkSize then chunkSize else length - done) = want at h
    split at h
    · cases h
      exact .refl _
    split at h
    · cases h
    · rename_i io₁ hread
      cases h
      exact taskFdRead_serves hread
    rename_i bytes io₁ hread
    have hserved := taskFdRead_serves hread
    split at h
    · cases h
      exact hserved
    split at h
    · cases h
      exact hserved.trans (setPhys_serves _ _)
    rename_i phys _
    have hcopied := hserved.trans (setPhys_serves io₁ phys)
    split at h
    · cases h
      exact hcopied
    · exact hcopied.trans (ih h)

theorem handleRead_serves {fd : Nat} (h : handleRead m rounds io fd buffer length = .ended (result, io')) :
    Serves io.kernel io'.kernel := by
  unfold handleRead at h
  split at h
  · cases h
    exact .refl _
  split at h
  · cases h
    exact .refl _
  split at h
  · cases h
    exact .refl _
  · exact readChunks_serves h

theorem writeChunks_serves (h : writeChunks m fd buffer length rounds done io = .ended (result, io')) :
    Serves io.kernel io'.kernel := by
  induction rounds generalizing done io with
  | zero => cases h
  | succ rounds ih =>
    unfold writeChunks at h
    simp only at h
    split at h
    · cases h
      exact .refl _
    split at h
    · cases h
      exact .refl _
    have hserved := taskFdWrite_serves io fd (io.phys.mem.read (m.vmm.userPhys io.phys io.kernel.cr3 (wrap64 (buffer + done)))
      (Phys.chunkTo (wrap64 (buffer + done)) (length - done)))
    split at h
    · rename_i io₁ hwrite
      rw [hwrite] at hserved
      cases h
      exact hserved
    rename_i wrote io₁ hwrite
    rw [hwrite] at hserved
    split at h
    · cases h
      exact hserved
    · exact hserved.trans (ih h)

theorem handleWrite_serves {fd : Nat} (h : handleWrite m rounds io fd buffer length = .ended (result, io')) :
    Serves io.kernel io'.kernel := by
  unfold handleWrite at h
  split at h
  · cases h
    exact .refl _
  split at h
  · cases h
    exact .refl _
  · exact writeChunks_serves h

theorem serve_serves {frame : TaskFrame} {id : Nat} {answer : KernelResult}
    (h : io.serve stack rounds frame id = .ended (answer, io')) : Serves io.kernel io'.kernel := by
  unfold serve at h
  simp only at h
  split at h
  · split at h
    · cases h
    · cases h
    · rename_i hread
      cases h
      exact handleRead_serves hread
  split at h
  · split at h
    · cases h
    · cases h
    · rename_i hwrite
      cases h
      exact handleWrite_serves hwrite
  · cases h
    exact answer_serves io.kernel stack frame id

/-- The handlers as `dispatch` takes them, with the console and the pipes of `io`. A call that does
not end does nothing here. -/
def handlers (stack : DirentStack) (rounds : Nat) (io : Io) : Handlers := fun id k frame =>
  match (io.setKernel k).serve stack rounds frame id with
  | .ended (result, io) => (result, io.kernel)
  | _ => (resultOk 0, k)

theorem handlers_serve (id : Nat) (k : Kernel) (frame : TaskFrame) : Serves k (handlers stack rounds io id k frame).2 := by
  unfold handlers
  split
  · rename_i hserve
    exact serve_serves hserve
  · exact .refl k

/-- A system call that ends is one of `syscall_dispatch` with handlers that leave the other tasks alone. -/
theorem syscallDispatch_ended {frame : TaskFrame} {out : Option TaskFrame}
    (h : io.syscallDispatch stack rounds frame = .ended (out, io')) :
    io.kernel.syscallDispatch (handlers stack rounds io) frame = out.map fun frame' => (frame', io'.kernel) := by
  unfold syscallDispatch at h
  simp only at h
  unfold Kernel.syscallDispatch
  simp only
  split at h
  · rename_i hid
    rw [if_neg (not_not.mpr hid.1), dispatch_files hid.2]
    have hsame : io.setKernel io.kernel = io := rfl
    unfold handlers
    rw [hsame]
    split at h
    · cases h
    · cases h
    · rename_i hserve
      cases h
      rw [hserve]
      rfl
  · rename_i hno
    -- without the tag, or by its id, the call is none of the handlers'
    have hcall : io.kernel.syscallDispatch (fun _ k _ => (resultError narcNotSupported, k)) frame =
        out.map fun frame' => (frame', io'.kernel) := by
      split at h
      · rename_i hnone
        cases h
        exact hnone
      · rename_i hsome
        cases h
        exact hsome
    unfold Kernel.syscallDispatch at hcall
    simp only at hcall
    rw [← hcall]
    split
    · rfl
    · rename_i htag
      exact dispatch_congr fun hid => hno ⟨not_not.mp htag, hid⟩

theorem syscallDispatch_enters {u : UserRegs} {frame : TaskFrame} (scratch : Reg → Nat)
    (h : io.syscallDispatch stack rounds u.frame = .ended (some frame, io')) :
    Enters io.kernel u .sysretq io'.kernel (Exit.restore frame .sysretq) := by
  have hserves : ∀ id k frame, Serves k (handlers stack rounds io id k frame).2 := fun id k frame =>
    handlers_serve id k frame
  refine .syscall scratch hserves ?_
  rw [syscallEntry_eq, syscallDispatch_ended h]
  rfl

end Io

end NarcOs
