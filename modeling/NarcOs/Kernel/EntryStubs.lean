import NarcOs.Kernel.Arch

/-!
# The entry stubs of x86_64

`timer_interrupt` and `syscall_entry`, instruction by instruction, around the C
function that they call. The kernel stack is the list of its words from `rsp`
on: at the call it is the task frame. The C function may change the frame, and
keeps the registers that the System V ABI tells it to keep.
-/

namespace NarcOs

inductive Reg
  | rax | rbx | rcx | rdx | rsi | rdi | rbp | r8 | r9 | r10 | r11 | r12 | r13 | r14 | r15
  deriving DecidableEq

/-- The registers of user code; `rip` is the instruction it goes on with. -/
@[ext]
structure UserRegs where
  reg : Reg → Nat
  rsp : Nat
  rip : Nat
  rflags : Nat

/-- The processor in a stub. `userRsp` is `rsp` while it is still the user's. -/
structure Cpu where
  reg : Reg → Nat
  userRsp : Nat
  stack : List Nat
  syscallUserRsp : Nat := 0

-- ---------------------------------------------------------------------------
-- Instructions
-- ---------------------------------------------------------------------------

inductive Insn
  | push (r : Reg)
  | pushWord (n : Nat)
  /-- `pushq syscall_user_rsp(%rip)` -/
  | pushUserRsp
  | pop (r : Reg)
  /-- `movq offset(%rsp), r` -/
  | load (offset : Nat) (r : Reg)
  /-- `movq offset(%rsp), %rsp` -/
  | loadRsp (offset : Nat)
  /-- `movq %rsp, syscall_user_rsp(%rip)` -/
  | saveUserRsp
  /-- `movq syscall_kernel_rsp(%rip), %rsp` -/
  | kernelRsp
  | cld

def Cpu.set (c : Cpu) (r : Reg) (v : Nat) : Cpu := { c with reg := Function.update c.reg r v }

def Insn.exec (c : Cpu) : Insn → Option Cpu
  | .push r => some { c with stack := c.reg r :: c.stack }
  | .pushWord n => some { c with stack := n :: c.stack }
  | .pushUserRsp => some { c with stack := c.syscallUserRsp :: c.stack }
  | .pop r =>
    match c.stack with
    | [] => none
    | v :: stack => some { c.set r v with stack := stack }
  | .load offset r => c.stack[offset / 8]?.map (c.set r)
  | .loadRsp offset => c.stack[offset / 8]?.map fun v => { c with userRsp := v }
  | .saveUserRsp => some { c with syscallUserRsp := c.userRsp }
  | .kernelRsp => some { c with stack := [] }
  | .cld => some c

def Cpu.run (c : Cpu) (code : List Insn) : Option Cpu := code.foldlM Insn.exec c

/-- `iretq` -/
def Cpu.iretq (c : Cpu) : Option UserRegs :=
  match c.stack with
  | [rip, _, rflags, rsp, _] => some ⟨c.reg, rsp, rip, rflags⟩
  | _ => none

/-- The flags that `sysretq` takes from `r11`. -/
def sysretFlags (r11 : Nat) : Nat := (r11 &&& 0x3c7fd7) ||| 2

/-- `sysretq` -/
def Cpu.sysretq (c : Cpu) : UserRegs := ⟨c.reg, c.userRsp, c.reg .rcx, sysretFlags (c.reg .r11)⟩

-- ---------------------------------------------------------------------------
-- Calls of C
-- ---------------------------------------------------------------------------

def TaskFrame.words (f : TaskFrame) : List Nat :=
  [f.r15, f.r14, f.r13, f.r12, f.rbp, f.rbx, f.rax, f.rdi, f.rsi, f.rdx, f.r10, f.r8, f.r9, f.rip, f.cs, f.rflags, f.rsp, f.ss]

def TaskFrame.ofWords : List Nat → Option TaskFrame
  | [r15, r14, r13, r12, rbp, rbx, rax, rdi, rsi, rdx, r10, r8, r9, rip, cs, rflags, rsp, ss] =>
    some ⟨r15, r14, r13, r12, rbp, rbx, rax, rdi, rsi, rdx, r10, r8, r9, rip, cs, rflags, rsp, ss⟩
  | _ => none

def Reg.calleeSaved : Reg → Bool
  | .rbx | .rbp | .r12 | .r13 | .r14 | .r15 => true
  | _ => false

/-- After a call, with the frame that the function leaves on the stack and what it leaves in
the other registers. -/
def Cpu.afterCall (c : Cpu) (scratch : Reg → Nat) (frame : TaskFrame) : Cpu :=
  { c with
    reg := fun r => if r.calleeSaved then c.reg r else scratch r
    stack := frame.words }

-- ---------------------------------------------------------------------------
-- The stubs
-- ---------------------------------------------------------------------------

section
variable {σ : Type}

/-- An interrupt of user code: the processor switches to the kernel stack and pushes. -/
def UserRegs.interrupted (u : UserRegs) : Cpu where
  reg := u.reg
  userRsp := u.rsp
  stack := [u.rip, 0x23, u.rflags, u.rsp, 0x1b]

def timerSave : List Insn :=
  [.push .r9, .push .r8, .push .r10, .push .rdx, .push .rsi, .push .rdi, .push .rax, .push .rbx, .push .rbp, .push .r12,
    .push .r13, .push .r14, .push .r15, .cld]

def timerRestore : List Insn :=
  [.pop .r15, .pop .r14, .pop .r13, .pop .r12, .pop .rbp, .pop .rbx, .pop .rax, .pop .rdi, .pop .rsi, .pop .rdx, .pop .r10,
    .pop .r8, .pop .r9]

/-- `timer_interrupt` -/
def timerInterrupt (timerDispatch : TaskFrame → Option (TaskFrame × σ)) (scratch : Reg → Nat) (u : UserRegs) :
    Option (UserRegs × σ) := do
  let c ← u.interrupted.run timerSave
  let frame ← TaskFrame.ofWords c.stack
  let (frame, s) ← timerDispatch frame
  let c ← (c.afterCall scratch frame).run timerRestore
  let u ← c.iretq
  some (u, s)

def UserRegs.syscall (u : UserRegs) : Cpu where
  reg := Function.update (Function.update u.reg .rcx u.rip) .r11 u.rflags
  userRsp := u.rsp
  stack := []

def syscallSave : List Insn :=
  [.saveUserRsp, .kernelRsp, .pushWord 0x1b, .pushUserRsp, .push .r11, .pushWord 0x23, .push .rcx, .push .r9, .push .r8,
    .push .r10, .push .rdx, .push .rsi, .push .rdi, .push .rax, .push .rbx, .push .rbp, .push .r12, .push .r13, .push .r14,
    .push .r15]

def syscallRestore : List Insn :=
  [.load 0 .r15, .load 8 .r14, .load 16 .r13, .load 24 .r12, .load 32 .rbp, .load 40 .rbx, .load 48 .rax, .load 56 .rdi,
    .load 64 .rsi, .load 72 .rdx, .load 80 .r10, .load 88 .r8, .load 96 .r9, .load 104 .rcx, .load 120 .r11, .loadRsp 128]

/-- `syscall_entry` -/
def syscallEntry (syscallDispatch : TaskFrame → Option (TaskFrame × σ)) (scratch : Reg → Nat) (u : UserRegs) :
    Option (UserRegs × σ) := do
  let c ← u.syscall.run syscallSave
  let frame ← TaskFrame.ofWords c.stack
  let (frame, s) ← syscallDispatch frame
  let c ← (c.afterCall scratch frame).run syscallRestore
  some (c.sysretq, s)

-- ---------------------------------------------------------------------------
-- What they save and restore
-- ---------------------------------------------------------------------------

def UserRegs.frame (u : UserRegs) : TaskFrame where
  r15 := u.reg .r15
  r14 := u.reg .r14
  r13 := u.reg .r13
  r12 := u.reg .r12
  rbp := u.reg .rbp
  rbx := u.reg .rbx
  rax := u.reg .rax
  rdi := u.reg .rdi
  rsi := u.reg .rsi
  rdx := u.reg .rdx
  r10 := u.reg .r10
  r8 := u.reg .r8
  r9 := u.reg .r9
  rip := u.rip
  cs := 0x23
  rflags := u.rflags
  rsp := u.rsp
  ss := 0x1b

def TaskFrame.regs (frame : TaskFrame) (rcx r11 : Nat) : Reg → Nat
  | .rax => frame.rax
  | .rbx => frame.rbx
  | .rcx => rcx
  | .rdx => frame.rdx
  | .rsi => frame.rsi
  | .rdi => frame.rdi
  | .rbp => frame.rbp
  | .r8 => frame.r8
  | .r9 => frame.r9
  | .r10 => frame.r10
  | .r11 => r11
  | .r12 => frame.r12
  | .r13 => frame.r13
  | .r14 => frame.r14
  | .r15 => frame.r15

variable {call : TaskFrame → Option (TaskFrame × σ)} {scratch : Reg → Nat} {u : UserRegs}

theorem restore_timer (scratch : Reg → Nat) (c : Cpu) (frame : TaskFrame) :
    ((c.afterCall scratch frame).run timerRestore).bind Cpu.iretq =
      some ⟨frame.regs (scratch .rcx) (scratch .r11), frame.rsp, frame.rip, frame.rflags⟩ := by
  refine congrArg some (UserRegs.ext (funext fun r => ?_) rfl rfl rfl)
  cases r <;> rfl

theorem restore_syscall (scratch : Reg → Nat) (c : Cpu) (frame : TaskFrame) :
    ((c.afterCall scratch frame).run syscallRestore).map Cpu.sysretq =
      some ⟨frame.regs frame.rip frame.rflags, frame.rsp, frame.rip, sysretFlags frame.rflags⟩ := by
  refine congrArg some (UserRegs.ext (funext fun r => ?_) rfl rfl rfl)
  cases r <;> rfl

/-- The timer's frame leaves out two registers, which come back as the C function leaves them. -/
theorem timerInterrupt_eq : timerInterrupt call scratch u = (call u.frame).map fun r =>
    (⟨r.1.regs (scratch .rcx) (scratch .r11), r.1.rsp, r.1.rip, r.1.rflags⟩, r.2) := by
  have hsave : timerInterrupt call scratch u = (call u.frame).bind fun r =>
      (((u.interrupted.run timerSave).getD u.interrupted).afterCall scratch r.1 |>.run timerRestore).bind fun c =>
        c.iretq.bind fun u => some (u, r.2) := rfl
  rw [hsave]
  cases call u.frame with
  | none => rfl
  | some r =>
    rw [Option.bind_some, ← Option.bind_assoc, restore_timer]
    rfl

/-- A system call's frame keeps `rip` and `rflags` where the processor has put them. -/
theorem syscallEntry_eq : syscallEntry call scratch u = (call u.frame).map fun r =>
    (⟨r.1.regs r.1.rip r.1.rflags, r.1.rsp, r.1.rip, sysretFlags r.1.rflags⟩, r.2) := by
  have hsave : syscallEntry call scratch u = (call u.frame).bind fun r =>
      ((((u.syscall.run syscallSave).getD u.syscall).afterCall scratch r.1).run syscallRestore).bind fun c =>
        some (c.sysretq, r.2) := rfl
  rw [hsave]
  cases call u.frame with
  | none => rfl
  | some r =>
    have hrestore := restore_syscall scratch ((u.syscall.run syscallSave).getD u.syscall) r.1
    obtain ⟨c, hc, hregs⟩ := Option.map_eq_some_iff.mp hrestore
    rw [Option.bind_some, hc, Option.bind_some, hregs]
    rfl

end

end NarcOs
