import NarcOs.Kernel.Calls
import NarcOs.Kernel.EntryStubs

/-!
# Preemption

`timer_dispatch` and `syscall_dispatch` between the entry stubs, and the runs
from the timer interrupt of a task to the moment it goes on. Its frame waits in
its `struct task` and comes back as it was, by either way out of the kernel. The
frame has no place for `rcx` and `r11`: `resumes_transparent_iff` says what has
become of them.
-/

namespace NarcOs

def UserRegs.Calls (u : UserRegs) (id : Nat) : Prop :=
  u.reg .rax &&& narcSyscallTagMask = narcSyscallTag ∧ u.reg .rax &&& narcSyscallIdMask = id

namespace Kernel

/-- `timer_dispatch`, after the end of the interrupt. -/
def timerDispatch (k : Kernel) (frame : TaskFrame) : TaskFrame × Kernel := k.taskPreempt frame

-- ---------------------------------------------------------------------------
-- Runs
-- ---------------------------------------------------------------------------

def afterUser (k : Kernel) (phys : Phys) (fpu : ArchState) : Kernel := { k.setPhys phys with fpu := fpu }

inductive Exit
  | iretq (scratch : Reg → Nat)
  | sysretq

/-- User code with the registers `u` is interrupted by the timer, or makes a system call. The
task that is current then goes on with `u'`. -/
inductive Enters (k : Kernel) (u : UserRegs) : Exit → Kernel → UserRegs → Prop
  | timer {k' u'} (scratch : Reg → Nat) :
      timerInterrupt (fun frame => some (k.timerDispatch frame)) scratch u = some (u', k') →
      Enters k u (.iretq scratch) k' u'
  | syscall {k' u'} {handle : Handlers} (scratch : Reg → Nat) :
      (∀ id k frame, Serves k (handle id k frame).2) →
      syscallEntry (k.syscallDispatch handle) scratch u = some (u', k') → Enters k u .sysretq k' u'

inductive Reached : Kernel → Prop
  | start {k} : Started k → Reached k
  | user {k} (phys : Phys) (fpu : ArchState) : Reached k → Reached (k.afterUser phys fpu)
  | enter {k k' u e u'} : Reached k → Enters k u e k' u' → Reached k'

/-- From `k`, left by `e` with `u`, other tasks run and enter the kernel until `t` goes on: it
comes out by `e'` with `u'`. -/
inductive Resumes (t : Ptr) (e' : Exit) (u' : UserRegs) : Exit → Kernel → UserRegs → Prop
  | back {k} : k.current = t → Resumes t e' u' e' k u'
  | other {k e u v e₁ k₁ u₁} (phys : Phys) (fpu : ArchState) : k.current ≠ t →
      Enters (k.afterUser phys fpu) v e₁ k₁ u₁ → Resumes t e' u' e₁ k₁ u₁ → Resumes t e' u' e k u

-- ---------------------------------------------------------------------------
-- A frame that waits
-- ---------------------------------------------------------------------------

variable {k k' k'' : Kernel} {t u : Ptr} {f frame : TaskFrame} {r : TaskFrame × Kernel}

structure Parked (k : Kernel) (t : Ptr) (f : TaskFrame) : Prop where
  mem : t ∈ k.taskList
  runnable : (k.task t).state = .runnable
  frame : (k.task t).frame = f

structure Goes (t : Ptr) (f : TaskFrame) (r : TaskFrame × Kernel) : Prop where
  back : r.2.current = t → r.1 = f
  away : r.2.current ≠ t → Parked r.2 t f

theorem Parked.stored (h : Parked k t f) : Stored k t (k.task t) := ⟨h.mem, rfl⟩

theorem Parked.afterUser (h : Parked k t f) (phys : Phys) (fpu : ArchState) : Parked (k.afterUser phys fpu) t f :=
  ⟨h.mem, h.runnable, h.frame⟩

theorem Running.afterUser (h : Running k) (phys : Phys) (fpu : ArchState) : Running (k.afterUser phys fpu) :=
  ⟨h.mem, h.runnable⟩

theorem Holds.goes {v : Task} (h : Holds t v r) (hs : v.state = .runnable) : Goes t v.frame r where
  back := h.frame
  away _ := ⟨h.stored.mem, (congrArg Task.state h.stored.task).trans hs, congrArg Task.frame h.stored.task⟩

-- ---------------------------------------------------------------------------
-- Ways out
-- ---------------------------------------------------------------------------

def Exit.restore (frame : TaskFrame) : Exit → UserRegs
  | .iretq scratch => ⟨frame.regs (scratch .rcx) (scratch .r11), frame.rsp, frame.rip, frame.rflags⟩
  | .sysretq => ⟨frame.regs frame.rip frame.rflags, frame.rsp, frame.rip, sysretFlags frame.rflags⟩

variable {v v' w w' : UserRegs} {e e' : Exit}

inductive Called (k : Kernel) (v : UserRegs) : Exit → TaskFrame × Kernel → Prop
  | timer (scratch : Reg → Nat) : Called k v (.iretq scratch) (k.timerDispatch v.frame)
  | refused (frame : TaskFrame) : Called k v .sysretq (frame, k)
  | syscall {handle : Handlers} {id out} : (∀ id k frame, Serves k (handle id k frame).2) → v.Calls id →
      Dispatched handle k v.frame id out → Called k v .sysretq out

theorem Enters.called (h : Enters k v e k' v') : ∃ frame, Called k v e (frame, k') ∧ v' = e.restore frame := by
  cases h with
  | timer scratch hi =>
    rw [timerInterrupt_eq] at hi
    cases hi
    exact ⟨_, .timer scratch, rfl⟩
  | syscall scratch hserves hs =>
    rw [syscallEntry_eq] at hs
    obtain ⟨⟨frame, k₁⟩, hd, heq⟩ := Option.map_eq_some_iff.mp hs
    cases heq
    obtain ⟨-, hsame⟩ | ⟨htag, hd⟩ := syscallDispatch_dispatched hd
    · exact ⟨frame, hsame ▸ .refused frame, rfl⟩
    · exact ⟨frame, .syscall hserves ⟨htag, rfl⟩ hd, rfl⟩

theorem Enters.dispatched {id : Nat} (h : Enters k v .sysretq k' v') (hid : v.Calls id) : ∃ handle frame,
    (∀ id k frame, Serves k (handle id k frame).2) ∧ Dispatched handle k v.frame id (frame, k') ∧
      v' = Exit.restore frame .sysretq := by
  cases h with
  | syscall scratch hserves hs =>
    rw [syscallEntry_eq] at hs
    obtain ⟨⟨frame, k₁⟩, hd, heq⟩ := Option.map_eq_some_iff.mp hs
    cases heq
    obtain ⟨hno, -⟩ | ⟨-, hd⟩ := syscallDispatch_dispatched hd
    · exact absurd hid.1 hno
    · have hnum : v.frame.rax &&& narcSyscallIdMask = id := hid.2
      exact ⟨_, frame, hserves, hnum ▸ hd, rfl⟩

theorem Running.called (h : Running k) (hc : Called k v e r) : Running r.2 := by
  cases hc with
  | timer => exact h.taskYield v.frame
  | refused => exact h
  | syscall hserves hid hd => exact h.dispatched hserves hd

theorem PidsApart.called (h : PidsApart k) (hr : Running k) (hc : Called k v e r) : PidsApart r.2 := by
  cases hc with
  | timer => exact h.shrinks (taskYield_yields hr.mem v.frame).shrinks
  | refused => exact h
  | syscall hserves hid hd => exact h.dispatched hr hserves hd

/-- What is stored of another task stays, or the exit of the current one wakes it. -/
theorem Stored.called {a : Task} (h : Stored k t a) (hne : t ≠ k.current) (hz : a.state ≠ .zombie) (hr : Running k)
    (hc : Called k v e r) : Holds t a r ∨ (e = .sysretq ∧ v.Calls narcSysExit ∧ k.waiter k.current = some t ∧
      Holds t (wokenBy (k.row k.current).pid a) r) := by
  cases hc with
  | timer => exact .inl (h.taskYield hne v.frame)
  | refused frame => exact .inl (h.holds hne frame)
  | syscall hserves hid hd =>
    have hholds := h.dispatched hne hz hr hserves hd
    unfold leaves at hholds
    split at hholds
    · rename_i hw
      exact .inr ⟨rfl, hw.1 ▸ hid, hw.2, hholds⟩
    · exact .inl hholds

theorem Parked.called (h : Parked k t f) (hne : t ≠ k.current) (hr : Running k) (hc : Called k v e r) : Goes t f r := by
  have hz : (k.task t).state ≠ .zombie := by
    rw [h.runnable]
    exact TaskState.noConfusion
  rcases h.stored.called hne hz hr hc with hholds | ⟨-, -, hw, -⟩
  · exact h.frame ▸ hholds.goes h.runnable
  · have hblocked := (waiter_eq_some hw).2.2.1
    rw [show (k.row t).state = .runnable from h.runnable] at hblocked
    cases hblocked

theorem Reached.running (h : Reached k) : Running k := by
  induction h with
  | start hs => exact ⟨hs.scheduled.table.mem, hs.scheduled.table.running⟩
  | user phys fpu _ ih => exact ih.afterUser phys fpu
  | enter _ he ih =>
    obtain ⟨frame, hc, -⟩ := he.called
    exact ih.called hc

theorem Running.timerDispatch (h : Running k) (frame : TaskFrame) :
    Goes k.current frame (k.timerDispatch frame) := by
  have hsame : Goes k.current frame (frame, k) := ⟨fun _ => rfl, fun hne => absurd rfl hne⟩
  unfold Kernel.timerDispatch taskPreempt Kernel.taskYield
  split
  · exact hsame
  split
  · exact hsame
  rename_i next _ hne
  refine ⟨fun he => absurd he hne, fun _ => ?_⟩
  have htask : (k.switchTo next frame).2.task k.current = { k.task k.current with
      frame := frame
      archState := k.fpu } := Function.update_self _ _ _
  exact ⟨h.mem, by rw [htask]; exact h.runnable, by rw [htask]⟩

-- ---------------------------------------------------------------------------
-- Transparency
-- ---------------------------------------------------------------------------

theorem Resumes.restored (h : Resumes t e' w' e k w) (hr : Running k) (hback : k.current = t → w = e.restore f)
    (haway : k.current ≠ t → Parked k t f) : w' = e'.restore f := by
  induction h with
  | back hc => exact hback hc
  | other phys fpu hne he _ ih =>
    have hparked := (haway hne).afterUser phys fpu
    have hafter := hr.afterUser phys fpu
    obtain ⟨frame, hc, rfl⟩ := he.called
    have hgoes := hparked.called (Ne.symm hne) hafter hc
    exact ih (hafter.called hc) (fun hcur => congrArg (Exit.restore · _) (hgoes.back hcur)) hgoes.away

theorem Goes.restored (h : Goes t f r) (hr : Running r.2) (hres : Resumes t e' w' e r.2 (e.restore r.1)) :
    w' = e'.restore f :=
  hres.restored hr (fun hcur => congrArg (Exit.restore · e) (h.back hcur)) h.away

/-- Whether the two registers that a frame leaves out, and the flags, are the task's. -/
def Exit.Keeps (u : UserRegs) : Exit → Prop
  | .iretq scratch => scratch .rcx = u.reg .rcx ∧ scratch .r11 = u.reg .r11
  | .sysretq => u.rip = u.reg .rcx ∧ u.rflags = u.reg .r11 ∧ sysretFlags u.rflags = u.rflags

theorem regs_frame_iff {u : UserRegs} {rcx r11 : Nat} :
    u.frame.regs rcx r11 = u.reg ↔ rcx = u.reg .rcx ∧ r11 = u.reg .r11 := by
  constructor
  · intro h
    exact ⟨congrFun h .rcx, congrFun h .r11⟩
  · rintro ⟨rfl, rfl⟩
    funext r
    cases r <;> rfl

theorem restore_frame_iff {u : UserRegs} : e.restore u.frame = u ↔ e.Keeps u := by
  rw [UserRegs.ext_iff]
  cases e with
  | iretq scratch =>
    show u.frame.regs _ _ = u.reg ∧ u.rsp = u.rsp ∧ u.rip = u.rip ∧ u.rflags = u.rflags ↔ _
    rw [regs_frame_iff]
    simp [Exit.Keeps]
  | sysretq =>
    show u.frame.regs u.rip u.rflags = u.reg ∧ u.rsp = u.rsp ∧ u.rip = u.rip ∧ sysretFlags u.rflags = u.rflags ↔ _
    rw [regs_frame_iff]
    simp [Exit.Keeps, and_assoc]

section
variable {u u₁ u' : UserRegs} {k₁ : Kernel} {scratch : Reg → Nat}

/-- A task that the timer has preempted comes back with what its frame holds. -/
theorem resumes_restored (hr : Reached k)
    (hi : timerInterrupt (fun frame => some (k.timerDispatch frame)) scratch u = some (u₁, k₁))
    (h : Resumes k.current e u' (.iretq scratch) k₁ u₁) : u' = e.restore u.frame := by
  rw [timerInterrupt_eq] at hi
  cases hi
  exact (hr.running.timerDispatch u.frame).restored (hr.running.taskYield u.frame) h

theorem resumes_kept (hr : Reached k)
    (hi : timerInterrupt (fun frame => some (k.timerDispatch frame)) scratch u = some (u₁, k₁))
    (h : Resumes k.current e u' (.iretq scratch) k₁ u₁) :
    u'.rip = u.rip ∧ u'.rsp = u.rsp ∧ ∀ r, r ≠ .rcx → r ≠ .r11 → u'.reg r = u.reg r := by
  rw [resumes_restored hr hi h]
  cases e with
  | iretq scratch =>
    refine ⟨rfl, rfl, fun r hrcx hr11 => ?_⟩
    cases r <;> first | rfl | contradiction
  | sysretq =>
    refine ⟨rfl, rfl, fun r hrcx hr11 => ?_⟩
    cases r <;> first | rfl | contradiction

theorem resumes_transparent_iff (hr : Reached k)
    (hi : timerInterrupt (fun frame => some (k.timerDispatch frame)) scratch u = some (u₁, k₁))
    (h : Resumes k.current e u' (.iretq scratch) k₁ u₁) : u' = u ↔ e.Keeps u := by
  rw [resumes_restored hr hi h]
  exact restore_frame_iff

end

-- ---------------------------------------------------------------------------
-- Init alone
-- ---------------------------------------------------------------------------

def initRegs : UserRegs where
  reg _ := 1
  rsp := 0x7ffffff0
  rip := 0x400000
  rflags := 0x202

theorem started_reached : Reached started :=
  .start ⟨emptyKernel, created, created, 1000, archTaskFrameInit, rfl, rfl, created_eq, SameRows.refl _, rfl, started_eq⟩

theorem started_timerDispatch (frame : TaskFrame) : started.timerDispatch frame = (frame, started) := by
  have hnext : started.nextTask = some started.current := by decide +kernel
  rw [Kernel.timerDispatch, taskPreempt, Kernel.taskYield, hnext]
  exact if_pos rfl

theorem started_interrupt (scratch : Reg → Nat) :
    timerInterrupt (fun frame => some (started.timerDispatch frame)) scratch initRegs =
      some (Exit.restore initRegs.frame (.iretq scratch), started) := by
  rw [timerInterrupt_eq, Option.map_some, started_timerDispatch]
  rfl

theorem resumes_transparent_iff_started : Exit.restore initRegs.frame (.iretq fun _ => 0) ≠ initRegs :=
  mt (resumes_transparent_iff started_reached (started_interrupt fun _ => 0) (.back rfl)).mp fun h =>
    absurd h.1 (by decide)

/-- The C function has left 0 in `rcx`. -/
theorem resumes_changed : ¬ ∀ (k k₁ : Kernel) (scratch : Reg → Nat) (u u₁ u' : UserRegs) (e : Exit), Reached k →
    timerInterrupt (fun frame => some (k.timerDispatch frame)) scratch u = some (u₁, k₁) →
    Resumes k.current e u' (.iretq scratch) k₁ u₁ → u' = u := by
  intro h
  have hsame := h started started (fun _ => 0) initRegs _ _ _ started_reached (started_interrupt fun _ => 0) (.back rfl)
  have hrcx : (0 : Nat) = 1 := congrArg (UserRegs.reg · .rcx) hsame
  cases hrcx

end Kernel

end NarcOs
