import NarcOs.Kernel.ExecCall
import NarcOs.Kernel.Scheduler
import NarcOs.Kernel.Streams

/-!
# System calls

`syscall_dispatch` of `kernel/syscall.c`: the calls on processes, and the calls
on files and memory as `handle`. `Serves` is what these do to the tasks.
-/

namespace NarcOs

def narcSyscallTag : Nat := 0x4e41524300000000
def narcSyscallTagMask : Nat := 0xffffffff00000000
def narcSyscallIdMask : Nat := 0x00000000ffffffff
def narcAbiVersion : Nat := 1

def narcSysAbiQuery : Nat := 0x0000
def narcSysExit : Nat := 0x0001
def narcSysGetpid : Nat := 0x0002
def narcSysYield : Nat := 0x0003
def narcSysFork : Nat := 0x0004
def narcSysWait : Nat := 0x0005
def narcSysExec : Nat := 0x0006

/-- `NARC_SYS_OPEN` to `NARC_SYS_RENAME`, `NARC_SYS_MAP` and `NARC_SYS_UNMAP`. -/
def narcSysFiles : List Nat :=
  [0x0100, 0x0101, 0x0102, 0x0103, 0x0104, 0x0105, 0x0106, 0x0107, 0x0108, 0x0109, 0x010a, 0x0200, 0x0201]

def narcOk : Nat := 0
def narcNotFound : Nat := 3
def narcBadAddress : Nat := 5
def narcNotSupported : Nat := 12
def narcNoChild : Nat := 13
def narcTryAgain : Nat := 14

structure KernelResult where
  value : Nat
  status : Nat

def resultOk (value : Nat) : KernelResult := ⟨value, narcOk⟩

def resultError (status : Nat) : KernelResult := ⟨0, status⟩

def returnResult (frame : TaskFrame) (result : KernelResult) : TaskFrame :=
  archSyscallReturn2 frame result.value result.status

namespace Kernel

abbrev Handlers := Nat → Kernel → TaskFrame → KernelResult × Kernel

/-- `dispatch` -/
def dispatch (handle : Handlers) (k : Kernel) (frame : TaskFrame) (id : Nat) : Option (TaskFrame × Kernel) :=
  let a1 := frame.rdi
  let a2 := frame.rsi
  let a3 := frame.rdx
  if id = narcSysAbiQuery then some (returnResult frame (resultOk narcAbiVersion), k)
  else if id = narcSysExit then k.taskExit frame (wrapInt a1)
  else if id = narcSysGetpid then
    some (returnResult frame (resultOk ((k.task k.current).pid % 2 ^ 64).toNat), k)
  else if id = narcSysYield then some (k.taskYield (returnResult frame (resultOk 0)))
  else if id = narcSysFork then
    (k.taskFork frame).map fun (pid, k) =>
      (returnResult frame (if pid < 0 then resultError narcTryAgain else resultOk pid.toNat), k)
  else if id = narcSysWait then
    if a2 ≠ 0 ∧ ¬ k.phys.vmmUserRangeOk k.cr3 a2 4 true then
      some (returnResult frame (resultError narcBadAddress), k)
    else
      match k.taskWait frame (wrapInt a1) a2 (wrapInt a3) with
      | (none, frame, k) => some (frame, k)
      | (some value, frame, k) =>
        some (returnResult frame (if value < 0 then resultError narcNoChild else resultOk value.toNat), k)
  else if id = narcSysExec then
    match k.handleExec frame a1 a2 a3 with
    | (.ok, frame, k) => some (frame, k)
    | (.badAddress, frame, k) => some (returnResult frame (resultError narcBadAddress), k)
    | (.notFound, frame, k) => some (returnResult frame (resultError narcNotFound), k)
  else if id ∈ narcSysFiles then
    let (result, k) := handle id k frame
    some (returnResult frame result, k)
  else some (returnResult frame (resultError narcNotSupported), k)

/-- `syscall_dispatch` -/
def syscallDispatch (handle : Handlers) (k : Kernel) (frame : TaskFrame) : Option (TaskFrame × Kernel) :=
  let number := frame.rax
  if number &&& narcSyscallTagMask ≠ narcSyscallTag then
    some (returnResult frame (resultError narcNotSupported), k)
  else k.dispatch handle frame (number &&& narcSyscallIdMask)

-- ---------------------------------------------------------------------------
-- Calls on files and memory
-- ---------------------------------------------------------------------------

/-- What the calls on files and memory do to the tasks: of the current one they change the
descriptors and `mmap_next`. -/
structure Serves (k k' : Kernel) : Prop where
  list : k'.taskList = k.taskList
  current : k'.current = k.current
  other : ∀ t, t ≠ k.current → k'.task t = k.task t
  own : ∃ fds mmapNext, k'.task k.current = { k.task k.current with
    fds := fds
    mmapNext := mmapNext }

variable {k k' k'' : Kernel} {t : Ptr}

theorem SameTable.serves (h : SameTable k k') : Serves k k' where
  list := h.list
  current := h.current
  other u _ := congrFun h.task u
  own := ⟨_, _, congrFun h.task k.current⟩

theorem Serves.trans (h : Serves k k') (h' : Serves k' k'') : Serves k k'' where
  list := h'.list.trans h.list
  current := h'.current.trans h.current
  other u hu := (h'.other u (h.current ▸ hu)).trans (h.other u hu)
  own := by
    obtain ⟨fds, mmapNext, hown⟩ := h.own
    obtain ⟨fds', mmapNext', hown'⟩ := h'.own
    rw [h.current, hown] at hown'
    exact ⟨fds', mmapNext', hown'⟩

theorem modifyFds_serves (k : Kernel) (f : List (Option Ptr) → List (Option Ptr)) :
    Serves k (k.modifyTask k.current fun v => { v with fds := f v.fds }) where
  list := rfl
  current := rfl
  other _ hu := Function.update_of_ne hu _ _
  own := ⟨_, _, Function.update_self _ _ _⟩

theorem fdReserve_serves (k : Kernel) (fd : Nat) : Serves k (k.fdReserve k.current fd).2 := by
  unfold fdReserve
  split
  · exact (SameTable.refl k).serves
  split
  · exact (SameTable.refl k).serves
  have hheap := kmalloc_table k []
  generalize k.kmalloc [] = a at hheap ⊢
  obtain ⟨_ | _, k₁⟩ := a
  · exact hheap.serves
  · have hgrown := modifyFds_serves k₁ fun fds => fds ++ List.replicate
      (growFds fd 32 (if (k₁.task k₁.current).fds.length = 0 then 8 else (k₁.task k₁.current).fds.length) -
        (k₁.task k₁.current).fds.length) none
    rw [show k.current = k₁.current from hheap.current.symm]
    exact hheap.serves.trans hgrown

theorem fdInstall_serves (k : Kernel) (f : Ptr) (minimum : Nat) : Serves k (k.fdInstall k.current f minimum).2 := by
  unfold fdInstall
  simp only
  generalize minimum + (((k.task k.current).fds.drop minimum).takeWhile Option.isSome).length = fd
  have hreserve := fdReserve_serves k fd
  generalize k.fdReserve k.current fd = r at hreserve ⊢
  obtain ⟨_ | _, k₁⟩ := r
  · exact hreserve
  · have hset := modifyFds_serves k₁ fun fds => fds.set fd (some f)
    rw [show k.current = k₁.current from hreserve.current.symm]
    exact hreserve.trans hset

theorem taskFdOpen_serves (k : Kernel) (path : CString) (flags : OpenFlags) : Serves k (k.taskFdOpen path flags).2.2 := by
  unfold taskFdOpen
  have hnew := fileNew_table k .vfs
  generalize k.fileNew .vfs = a at hnew ⊢
  obtain ⟨_ | f, k₁⟩ := a
  · exact hnew.serves
  replace hnew : SameTable k k₁ := hnew
  simp only
  split
  · rename_i file vfs _
    have hopened : SameTable k { k₁ with
        vfs := vfs
        openFile := Function.update k₁.openFile f { k₁.openFile f with file := file } } :=
      hnew.trans ⟨rfl, rfl, rfl, rfl, rfl⟩
    have hinstall := hopened.serves.trans (fdInstall_serves _ f 3)
    split
    · rename_i k₂ hnone
      rw [hnone] at hinstall
      exact hinstall.trans (filePut_table k₂ (some f)).serves
    · rename_i fd k₂ hsome
      rw [hsome] at hinstall
      exact hinstall
  · rename_i vfs _ _
    have hfailed : SameTable k₁ { k₁ with
        vfs := vfs
        files := k₁.files.erase f } := ⟨rfl, rfl, rfl, rfl, rfl⟩
    exact (hnew.trans hfailed).serves

theorem taskFdClose_serves (k : Kernel) (fd : Int32) : Serves k (k.taskFdClose fd).2 := by
  unfold taskFdClose
  split
  · exact (SameTable.refl k).serves
  · rename_i f _
    have hset : Serves k (k.setFd fd.toInt.toNat none) := modifyFds_serves k fun fds => fds.set fd.toInt.toNat none
    exact hset.trans (filePut_table _ (some f)).serves

theorem handleReadDir_serves (k : Kernel) (stack : DirentStack) (fd address : Nat) :
    Serves k (k.handleReadDir stack fd address).2 := by
  have hphys : ∀ f file phys, SameTable k ((k.setFile f file).setPhys phys) := fun _ _ _ => ⟨rfl, rfl, rfl, rfl, rfl⟩
  unfold handleReadDir
  split
  · exact (SameTable.refl k).serves
  split
  · exact (SameTable.refl k).serves
  split
  · exact (SameTable.refl k).serves
  simp only
  split
  · exact (hphys _ _ _).serves
  split
  · exact (hphys _ _ _).serves
  split
  · exact (hphys _ _ _).serves
  · exact (hphys _ _ _).serves

theorem taskFdRead_serves {io io' : Io} {fd : Int32} {len : Nat} {bytes : Option (List UInt8)}
    (h : io.taskFdRead fd len = some (bytes, io')) : Serves io.kernel io'.kernel := by
  unfold Io.taskFdRead at h
  split at h
  · cases h
    exact (SameTable.refl _).serves
  split at h
  · cases h
    exact SameTable.serves ⟨rfl, rfl, rfl, rfl, rfl⟩
  · obtain ⟨console, -, heq⟩ := Option.map_eq_some_iff.mp h
    cases heq
    exact (SameTable.refl _).serves
  · split at h
    · cases h
      exact (SameTable.refl _).serves
    · cases h
      exact (SameTable.refl _).serves
  · cases h
    exact (SameTable.refl _).serves

theorem taskFdWrite_serves (io : Io) (fd : Int32) (bytes : List UInt8) :
    Serves io.kernel (io.taskFdWrite fd bytes).2.kernel := by
  unfold Io.taskFdWrite
  split
  · exact (SameTable.refl _).serves
  split
  · exact (SameTable.refl _).serves
  · exact SameTable.serves ⟨rfl, rfl, rfl, rfl, rfl⟩
  · split
    · exact (SameTable.refl _).serves
    · exact SameTable.serves ⟨rfl, rfl, rfl, rfl, rfl⟩
  · exact (SameTable.refl _).serves

end Kernel

end NarcOs
