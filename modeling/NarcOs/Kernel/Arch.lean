import Mathlib

/-!
# Task frames

`struct task_frame` of `kernel/include/kernel/arch.h` for x86_64, and the
functions on it in `kernel/arch/x86_64/platform.c`. A frame is what the entry
stubs leave on the kernel stack, lowest address first. The floating-point state
is what `fxsave64` stores.
-/

namespace NarcOs

structure TaskFrame where
  r15 : Nat
  r14 : Nat
  r13 : Nat
  r12 : Nat
  rbp : Nat
  rbx : Nat
  rax : Nat
  rdi : Nat
  rsi : Nat
  rdx : Nat
  r10 : Nat
  r8 : Nat
  r9 : Nat
  rip : Nat
  cs : Nat
  rflags : Nat
  rsp : Nat
  ss : Nat
  deriving DecidableEq

/-- `arch_task_frame_init` -/
def archTaskFrameInit : TaskFrame where
  r15 := 0
  r14 := 0
  r13 := 0
  r12 := 0
  rbp := 0
  rbx := 0
  rax := 0
  rdi := 0
  rsi := 0
  rdx := 0
  r10 := 0
  r8 := 0
  r9 := 0
  rip := 0
  cs := 0x23
  rflags := 0x202
  rsp := 0
  ss := 0x1b

def archTaskSetEntry (frame : TaskFrame) (pc sp : Nat) : TaskFrame :=
  { frame with rip := pc, rsp := sp }

/-- `arch_state` of a task: the words of the x87 unit, and in `regs` the
registers and the rest, which `fninit` keeps. -/
structure ArchState where
  fcw : Nat := 0
  fsw : Nat := 0
  ftw : Nat := 0
  fop : Nat := 0
  fip : Nat := 0
  fdp : Nat := 0
  regs : List Nat := []
  deriving DecidableEq

/-- `arch_task_state_init` on the live state. The tag word of `fxsave64` is 0 for
empty registers. -/
def archTaskStateInit (live : ArchState) : ArchState :=
  { live with
    fcw := 0x37f
    fsw := 0
    ftw := 0
    fop := 0
    fip := 0
    fdp := 0 }

def archSyscallReturn2 (frame : TaskFrame) (value status : Nat) : TaskFrame :=
  { frame with rax := value, rdx := status }

end NarcOs
