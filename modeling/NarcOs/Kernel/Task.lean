import NarcOs.Kernel.User

/-!
# Tasks

The processes of `kernel/task.c`: creation, fork, wait, exec, exit and the
scheduler. `task_list` is the list of the tasks' addresses in order, and a task
is read at its address. A call takes the frame that the entry stub saved for
the current task and gives back the frame that the exit stub restores. The
floating-point state of the processor is `fpu`; the thread pointer register is
left out. A count of type `int` that runs over wraps.
-/

namespace NarcOs

inductive TaskState
  | unused
  | runnable
  | blocked
  | zombie
  deriving DecidableEq

inductive FdType
  | console
  | vfs
  | pipeR
  | pipeW
  deriving DecidableEq

/-- `struct pipe`, without the position in its page. -/
structure Pipe where
  refs : Int := 0
  page : Nat := 0

/-- `struct open_file` -/
structure OpenFile where
  refs : Int := 0
  type : FdType := .console
  pipe : Option Ptr := none
  file : File := ⟨none, 0, 0⟩

/-- `struct task`. `space` is the root of its address space, and `fds` the array
of its descriptors, as long as `fd_count`. -/
structure Task where
  pid : Int := 0
  ppid : Int := 0
  state : TaskState := .unused
  exitStatus : Nat := 0
  waitPid : Int := 0
  waitStatus : Nat := 0
  space : Nat := 0
  frame : TaskFrame := ⟨0, 0, 0, 0, 0, 0, 0, 0, 0, 0, 0, 0, 0, 0, 0, 0, 0, 0⟩
  archState : ArchState := {}
  fsBase : Nat := 0
  mmapNext : Nat := 0
  fds : List (Option Ptr) := []

/-- The variables of `task.c`, with the file system and physical memory.
`heap`, `files` and `pipes` are not part of the source: `heap` is the script of
the kernel heap's answers, and the other two are the addresses in use. -/
structure Kernel where
  vfs : Vfs
  cr3 : Nat
  heap : List (Option Ptr)
  taskList : List Ptr
  task : Ptr → Task
  nextPid : Int
  current : Ptr
  files : List Ptr
  openFile : Ptr → OpenFile
  pipes : List Ptr
  pipe : Ptr → Pipe
  fpu : ArchState := {}

def int32Max : Int := 2 ^ 31 - 1

/-- The value an `int` holds after an addition or a subtraction. -/
def wrapInt (n : Int) : Int := n.bmod (2 ^ 32)

namespace Phys

/-- `copy_status`, whose result the callers do not look at. -/
def copyStatus (p : Phys) (root dst status : Nat) : Phys :=
  if dst = 0 ∨ ¬ p.vmmUserRangeOk root dst 4 true then p
  else
    (forEntries (fun p i =>
      let phys := p.vmmUserPhys root (wrap64 (dst + i))
      if phys = 0 then (false, p)
      else (true, { p with mem := p.mem.write phys [(toLE 4 status).getD i 0] })) (List.range 4) p).2

end Phys

namespace Kernel

def phys (k : Kernel) : Phys := k.vfs.phys

def setPhys (k : Kernel) (phys : Phys) : Kernel := { k with vfs := { k.vfs with phys := phys } }

def modifyTask (k : Kernel) (t : Ptr) (f : Task → Task) : Kernel :=
  { k with task := Function.update k.task t (f (k.task t)) }

/-- One call of `kmalloc` or `kzalloc`: NULL, or an address that is not taken. -/
def kmalloc (k : Kernel) (taken : List Ptr) : Option Ptr × Kernel :=
  match k.heap with
  | [] => (none, k)
  | answer :: rest => (answer.filter (· ∉ taken), { k with heap := rest })

-- ---------------------------------------------------------------------------
-- The task list
-- ---------------------------------------------------------------------------

/-- The tasks in the order `next_task` looks at them, the current one last. -/
def rotation (k : Kernel) : List Ptr :=
  (k.taskList.dropWhile (· != k.current)).tail ++ k.taskList.takeWhile (· != k.current) ++ [k.current]

def nextTask (k : Kernel) : Option Ptr :=
  k.rotation.find? fun t => (k.task t).state = .runnable

def findTask (k : Kernel) (pid : Int) : Option Ptr :=
  k.taskList.find? fun t => (k.task t).pid = pid

/-- The loop of `alloc_pid`: the pid and the new `next_pid`. After `INT32_MAX`
rounds it has tried them all, so `none` is the loop that does not end. -/
def allocPid (k : Kernel) : Nat → Int → Option (Int × Int)
  | 0, _ => none
  | n + 1, next =>
    let following := if next = int32Max then 1 else next + 1
    if (k.findTask next).isSome then allocPid k n following else some (next, following)

/-- `task_alloc`. The new task is in the list when its pid is chosen. -/
def taskAlloc (k : Kernel) : Option (Option Ptr × Kernel) :=
  match k.kmalloc k.taskList with
  | (none, k) => some (none, k)
  | (some t, k) =>
    let k := { k with
      taskList := k.taskList ++ [t]
      task := Function.update k.task t {} }
    match k.allocPid int32Max.toNat k.nextPid with
    | none => none
    | some (pid, next) =>
      some (some t, { k.modifyTask t (fun v => { v with pid := pid }) with nextPid := next })

def taskFree (k : Kernel) (t : Ptr) : Kernel := { k with taskList := k.taskList.erase t }

/-- `switch_to`; `vmm_space_activate` loads `cr3`. -/
def switchTo (k : Kernel) (next : Ptr) (frame : TaskFrame) : TaskFrame × Kernel :=
  let k := k.modifyTask k.current fun v => { v with frame := frame, archState := k.fpu }
  ((k.task next).frame, { k with
    current := next
    cr3 := (k.task next).space
    fpu := (k.task next).archState })

/-- `vmm_space_destroy(&task->space)` -/
def spaceDestroy (k : Kernel) (t : Ptr) : Kernel :=
  let (root, phys) := k.phys.vmmSpaceDestroy k.cr3 (k.task t).space
  (k.setPhys phys).modifyTask t fun v => { v with space := root }

-- ---------------------------------------------------------------------------
-- Descriptors
-- ---------------------------------------------------------------------------

def pipePut (k : Kernel) (p : Ptr) : Kernel :=
  let refs := wrapInt ((k.pipe p).refs - 1)
  let k := { k with pipe := Function.update k.pipe p { k.pipe p with refs := refs } }
  if refs ≠ 0 then k
  else { k.setPhys (k.phys.pmmFreePage (k.pipe p).page) with pipes := k.pipes.erase p }

def filePut (k : Kernel) (fd : Option Ptr) : Kernel :=
  match fd with
  | none => k
  | some f =>
    let refs := wrapInt ((k.openFile f).refs - 1)
    let k := { k with openFile := Function.update k.openFile f { k.openFile f with refs := refs } }
    if refs ≠ 0 then k
    else
      let k := if (k.openFile f).type = .vfs then
          { k with vfs := (k.vfs.vfsClose (k.openFile f).file).2 }
        else k
      let k := match (k.openFile f).pipe with
        | some p => k.pipePut p
        | none => k
      { k with files := k.files.erase f }

def closeAll (k : Kernel) (t : Ptr) : Kernel :=
  let k := (k.task t).fds.foldl filePut k
  k.modifyTask t fun v => { v with fds := [] }

def fileNew (k : Kernel) (type : FdType) : Option Ptr × Kernel :=
  match k.kmalloc k.files with
  | (none, k) => (none, k)
  | (some f, k) =>
    (some f, { k with
      files := f :: k.files
      openFile := Function.update k.openFile f { refs := 1, type := type } })

/-- The loop of `fd_reserve`, which doubles the length until `fd` is below it.
For an `fd` below `INT32_MAX` it ends within 32 rounds. -/
def growFds (fd : Nat) : Nat → Nat → Nat
  | 0, count => count
  | rounds + 1, count =>
    if count ≤ fd then
      growFds fd rounds (if count > int32Max.toNat / 2 then int32Max.toNat else count * 2)
    else count

def fdReserve (k : Kernel) (t : Ptr) (fd : Nat) : Bool × Kernel :=
  if fd < (k.task t).fds.length then (true, k)
  else if fd = int32Max.toNat then (false, k)
  else
    match k.kmalloc [] with
    | (none, k) => (false, k)
    | (some _, k) =>
      let fds := (k.task t).fds
      let count := growFds fd 32 (if fds.length = 0 then 8 else fds.length)
      (true, k.modifyTask t fun v => { v with
        fds := fds ++ List.replicate (count - fds.length) none })

/-- `fd_install`: the descriptor, or `none` for -1. -/
def fdInstall (k : Kernel) (t f : Ptr) (minimum : Nat) : Option Nat × Kernel :=
  let fd := minimum + (((k.task t).fds.drop minimum).takeWhile Option.isSome).length
  match k.fdReserve t fd with
  | (false, k) => (none, k)
  | (true, k) => (some fd, k.modifyTask t fun v => { v with fds := v.fds.set fd (some f) })

/-- `init_fds`: three descriptors on the console, the ones still to come in `fds`. -/
def initFds (t : Ptr) : List Nat → Kernel → Bool × Kernel
  | [], k => (true, k)
  | fd :: rest, k =>
    match k.fileNew .console with
    | (none, k) => (false, k.closeAll t)
    | (some f, k) =>
      let (installed, k) := k.fdInstall t f fd
      if installed ≠ some fd then (false, (k.filePut (some f)).closeAll t) else initFds t rest k

-- ---------------------------------------------------------------------------
-- Calls
-- ---------------------------------------------------------------------------

/-- The fields that `task_create` sets. -/
def readyTask (root : Nat) (state : ArchState) (v : Task) : Task :=
  { v with
    space := root
    state := .runnable
    mmapNext := userMmapBase
    frame := archTaskFrameInit
    archState := state }

/-- `arch_task_state_init`, which leaves the processor with the state it stores. -/
def initState (k : Kernel) : Kernel := { k with fpu := archTaskStateInit k.fpu }

def taskCreate (k : Kernel) : Option (Option Ptr × Kernel) :=
  match k.taskAlloc with
  | none => none
  | some (none, k) => some (none, k)
  | some (some t, k) =>
    match k.phys.vmmSpaceCreate k.cr3 with
    | (none, phys) => some (none, (k.setPhys phys).taskFree t)
    | (some root, phys) =>
      let k := (k.setPhys phys).initState
      let k := k.modifyTask t (readyTask root k.fpu)
      match initFds t [0, 1, 2] k with
      | (false, k) => some (none, (k.spaceDestroy t).taskFree t)
      | (true, k) => some (some t, k)

/-- `task_start` -/
def taskStart (k : Kernel) : Option (TaskFrame × Kernel) :=
  match k.taskList.find? fun t => (k.task t).state = .runnable with
  | none => none
  | some t => some ((k.task t).frame, { k with
      current := t
      cr3 := (k.task t).space
      fpu := (k.task t).archState })

/-- `"/sbin/init"` -/
def initPath : CString := ⟨[47, 115, 98, 105, 110, 47, 105, 110, 105, 116], by decide⟩

/-- `user_start` of `kernel/user.c`; `none` is the halt. -/
def userStart (k : Kernel) : Option (TaskFrame × Kernel) :=
  match k.taskCreate with
  | some (some t, k) =>
    match load k.vfs (k.task t).space initPath [initPath] [] with
    | (none, _) => none
    | (some (entry, stack), vfs) =>
      taskStart ({ k with vfs := vfs }.modifyTask t fun v => { v with
        frame := archTaskSetEntry v.frame entry stack })
  | _ => none

def taskYield (k : Kernel) (frame : TaskFrame) : TaskFrame × Kernel :=
  match k.nextTask with
  | none => (frame, k)
  | some next => if next = k.current then (frame, k) else k.switchTo next frame

def taskPreempt (k : Kernel) (frame : TaskFrame) : TaskFrame × Kernel := k.taskYield frame

def addRef (k : Kernel) (f : Ptr) : Kernel :=
  { k with
    openFile := Function.update k.openFile f
      { k.openFile f with refs := wrapInt ((k.openFile f).refs + 1) } }

def shareFds (k : Kernel) (fds : List (Option Ptr)) : Kernel :=
  fds.foldl (fun k fd =>
    match fd with
    | none => k
    | some f => k.addRef f) k

/-- The current task's floating-point state, saved and copied to `child`. -/
def copyState (k : Kernel) (child : Ptr) : Kernel :=
  let k := k.modifyTask k.current fun v => { v with archState := k.fpu }
  k.modifyTask child fun v => { v with archState := (k.task k.current).archState }

/-- The rest of `task_fork` after `vmm_space_clone`: the child's pid, or -1. -/
def forkInto (k : Kernel) (child : Ptr) (frame : TaskFrame) (space : Option Nat × Phys) :
    Int × Kernel :=
  match space with
  | (none, phys) => (-1, (k.setPhys phys).taskFree child)
  | (some root, phys) =>
    let k := (k.setPhys phys).modifyTask child fun v => { v with space := root }
    match k.kmalloc [] with
    | (none, k) => (-1, (k.spaceDestroy child).taskFree child)
    | (some _, k) =>
      let parent := k.task k.current
      let k := k.shareFds parent.fds
      let k := k.modifyTask child fun v => { v with
        fds := parent.fds
        ppid := parent.pid
        state := .runnable
        mmapNext := parent.mmapNext
        fsBase := parent.fsBase
        frame := archSyscallReturn2 frame 0 0 }
      let k := k.copyState child
      ((k.task child).pid, k)

/-- `task_fork` -/
def taskFork (k : Kernel) (frame : TaskFrame) : Option (Int × Kernel) :=
  match k.taskAlloc with
  | none => none
  | some (none, k) => some (-1, k)
  | some (some child, k) =>
    some (k.forkInto child frame (k.phys.vmmSpaceClone k.cr3 (k.task k.current).space))

/-- `matches` -/
def isChild (k : Kernel) (child parent : Ptr) (pid : Int) : Bool :=
  (k.task child).ppid = (k.task parent).pid ∧ (pid = -1 ∨ pid = (k.task child).pid)

/-- `task_wait`. The result is `none` when the task was suspended. -/
def taskWait (k : Kernel) (frame : TaskFrame) (pid : Int) (status : Nat) (options : Int) :
    Option Int × TaskFrame × Kernel :=
  if status ≠ 0 ∧ ¬ k.phys.vmmUserRangeOk (k.task k.current).space status 4 true then
    (some (-1), frame, k)
  else
    match k.taskList.find? fun t => k.isChild t k.current pid ∧ (k.task t).state = .zombie with
    | some child =>
      let phys := k.phys.copyStatus (k.task k.current).space status ((k.task child).exitStatus <<< 8)
      (some (k.task child).pid, frame, (k.setPhys phys).taskFree child)
    | none =>
      if ¬ k.taskList.any (fun t => k.isChild t k.current pid) then (some (-1), frame, k)
      else if options % 2 = 1 then (some 0, frame, k)
      else
        let k := k.modifyTask k.current fun v => { v with
          state := .blocked
          waitPid := pid
          waitStatus := status }
        match k.nextTask with
        | none => (some (-1), frame, k.modifyTask k.current fun v => { v with state := .runnable })
        | some next =>
          let (frame, k) := k.switchTo next frame
          (none, frame, k)

/-- `task_exec`: the frame to return with, and the old space is gone. -/
def taskExec (k : Kernel) (space entry stack : Nat) : TaskFrame × Kernel :=
  let old := (k.task k.current).space
  let k := k.initState
  let k := k.modifyTask k.current fun v => { v with
    space := space
    fsBase := 0
    mmapNext := userMmapBase
    archState := k.fpu }
  let k := { k with cr3 := space }
  (taskExecFrame entry stack, k.setPhys (k.phys.vmmSpaceDestroy k.cr3 old).2)

/-- `user_exec` of `kernel/user.c`. -/
def userExec (k : Kernel) (frame : TaskFrame) (path : CString) (argv envp : List CString) :
    Int × TaskFrame × Kernel :=
  match k.phys.vmmSpaceCreate k.cr3 with
  | (none, phys) => (-1, frame, k.setPhys phys)
  | (some space, phys) =>
    match load { k.vfs with phys := phys } space path argv envp with
    | (none, vfs) =>
      let k := { k with vfs := vfs }
      (-1, frame, k.setPhys (k.phys.vmmSpaceDestroy k.cr3 space).2)
    | (some (entry, stack), vfs) =>
      let (frame, k) := taskExec { k with vfs := vfs } space entry stack
      (0, frame, k)

/-- The parent that waits for the exit of `old`. -/
def waiter (k : Kernel) (old : Ptr) : Option Ptr :=
  (k.findTask (k.task old).ppid).filter fun parent =>
    (k.task parent).state = .blocked ∧
      ((k.task parent).waitPid = -1 ∨ (k.task parent).waitPid = (k.task old).pid)

/-- The first part of `task_exit`, on the task that exits. -/
def markZombie (k : Kernel) (old : Ptr) (status : Int) : Kernel :=
  (k.closeAll old).modifyTask old fun v => { v with
    state := .zombie
    exitStatus := (status % 256).toNat }

def wakeParent (k : Kernel) (old : Ptr) (parent : Option Ptr) : Kernel :=
  match parent with
  | none => k
  | some parent =>
    let phys := k.phys.copyStatus (k.task parent).space (k.task parent).waitStatus
      ((k.task old).exitStatus <<< 8)
    (k.setPhys phys).modifyTask parent fun v => { v with
      frame := archSyscallReturn2 v.frame (k.task old).pid.toNat 0
      state := .runnable }

/-- `task_exit`; `none` is the halt when no task can run. -/
def taskExit (k : Kernel) (frame : TaskFrame) (status : Int) : Option (TaskFrame × Kernel) :=
  let old := k.current
  let k := k.markZombie old status
  let parent := k.waiter old
  let k := k.wakeParent old parent
  match k.nextTask with
  | none => none
  | some next =>
    let (frame, k) := k.switchTo next frame
    let k := k.spaceDestroy old
    some (frame, if parent.isSome then k.taskFree old else k)

-- ---------------------------------------------------------------------------
-- Descriptor calls
-- ---------------------------------------------------------------------------

def setFd (k : Kernel) (fd : Nat) (f : Option Ptr) : Kernel :=
  k.modifyTask k.current fun v => { v with fds := v.fds.set fd f }

def fdGet (k : Kernel) (fd : Int32) : Option Ptr :=
  if fd < 0 then none else (k.task k.current).fds.getD fd.toInt.toNat none

/-- `task_fd_open`, with the status that a failed `vfs_open` leaves. -/
def taskFdOpen (k : Kernel) (path : CString) (flags : OpenFlags) : Int × Option VfsStatus × Kernel :=
  match k.fileNew .vfs with
  | (none, k) => (-2, none, k)
  | (some f, k) =>
    match k.vfs.vfsOpen path flags with
    | (.ok, some file, vfs) =>
      let k := { k with
        vfs := vfs
        openFile := Function.update k.openFile f { k.openFile f with file := file } }
      match k.fdInstall k.current f 3 with
      | (none, k) => (-2, none, k.filePut (some f))
      | (some fd, k) => (fd, none, k)
    | (status, _, vfs) =>
      (-1, some status, { k with
        vfs := vfs
        files := k.files.erase f })

def taskFdClose (k : Kernel) (fd : Int32) : Int × Kernel :=
  match k.fdGet fd with
  | none => (-1, k)
  | some f => (0, (k.setFd fd.toInt.toNat none).filePut (some f))

def taskFdDup (k : Kernel) (oldfd minimum : Int32) : Int × Kernel :=
  match k.fdGet oldfd with
  | none => (-1, k)
  | some f =>
    if minimum < 0 then (-1, k)
    else
      match k.fdInstall k.current f minimum.toInt.toNat with
      | (none, k) => (-1, k)
      | (some fd, k) => (fd, k.addRef f)

def taskFdDup2 (k : Kernel) (oldfd newfd : Int32) : Int × Kernel :=
  match k.fdGet oldfd with
  | none => (-1, k)
  | some f =>
    if newfd < 0 then (-1, k)
    else if oldfd = newfd then (newfd.toInt, k)
    else
      match k.fdReserve k.current newfd.toInt.toNat with
      | (false, k) => (-1, k)
      | (true, k) =>
        let k := k.addRef f
        let k := k.filePut ((k.task k.current).fds.getD newfd.toInt.toNat none)
        (newfd.toInt, k.setFd newfd.toInt.toNat (some f))

/-- `kfree` of an `open_file` that `file_new` may have refused. -/
def fileFree (k : Kernel) (f : Option Ptr) : Kernel :=
  match f with
  | none => k
  | some f => { k with files := k.files.erase f }

def pipePage (k : Kernel) (pipe : Option Ptr) : Nat × Kernel :=
  match pipe with
  | none => (0, k)
  | some _ => (k.phys.allocPage.1, k.setPhys k.phys.allocPage.2)

/-- `task_fd_pipe`: the two descriptors, or `none` for -1. -/
def taskFdPipe (k : Kernel) : Option (Nat × Nat) × Kernel :=
  let (pipe, k) := k.kmalloc k.pipes
  let (r, k) := k.fileNew .pipeR
  let (w, k) := k.fileNew .pipeW
  let (page, k) := k.pipePage pipe
  match pipe, r, w with
  | some pipe, some r, some w =>
    if page = 0 then (none, (k.fileFree (some r)).fileFree (some w))
    else
      let k := { k with
        pipes := pipe :: k.pipes
        pipe := Function.update k.pipe pipe ⟨2, page⟩
        openFile := Function.update (Function.update k.openFile r
          { k.openFile r with pipe := some pipe }) w { k.openFile w with pipe := some pipe } }
      match k.fdInstall k.current r 0 with
      | (none, k) => (none, (k.filePut (some r)).filePut (some w))
      | (some rfd, k) =>
        match k.fdInstall k.current w 0 with
        | (none, k) => (none, ((k.setFd rfd none).filePut (some r)).filePut (some w))
        | (some wfd, k) => (some (rfd, wfd), k)
  | _, r, w =>
    let k := if page = 0 then k else k.setPhys (k.phys.pmmFreePage page)
    (none, (k.fileFree r).fileFree w)

end Kernel

end NarcOs
