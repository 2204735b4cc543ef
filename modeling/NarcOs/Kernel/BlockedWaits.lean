import NarcOs.Kernel.Preemption

/-!
# Waits that block

A task that `task_wait` has suspended stays as it is, whatever the other tasks
do, until a child that it waits for exits. Then its frame gets the child's pid,
and the task comes back from its system call with it.
-/

namespace NarcOs

namespace Kernel

variable {k k' k₁ : Kernel} {t u : Ptr} {v : Task} {frame : TaskFrame} {r : TaskFrame × Kernel} {w : UserRegs}
  {e : Exit} {handle : Handlers}

-- ---------------------------------------------------------------------------
-- A task that is blocked
-- ---------------------------------------------------------------------------

structure Asleep (k : Kernel) (t : Ptr) (v : Task) : Prop extends Stored k t v where
  blocked : v.state = .blocked

theorem Asleep.afterUser (h : Asleep k t v) (phys : Phys) (fpu : ArchState) : Asleep (k.afterUser phys fpu) t v :=
  ⟨⟨h.mem, h.task⟩, h.blocked⟩

theorem Asleep.ne_current (h : Asleep k t v) (hr : Running k) : t ≠ k.current := by
  rintro rfl
  have hrun : (k.task k.current).state = .runnable := hr.runnable
  rw [h.task, h.blocked] at hrun
  cases hrun

theorem Asleep.not_zombie (h : Asleep k t v) : v.state ≠ .zombie := by
  rw [h.blocked]
  exact TaskState.noConfusion

theorem Asleep.called (h : Asleep k t v) (hr : Running k) (hc : Called k w e r) : Asleep r.2 t v ∨
    (e = .sysretq ∧ w.Calls narcSysExit ∧ k.waiter k.current = some t ∧ Holds t (wokenBy (k.row k.current).pid v) r) :=
  (h.toStored.called (h.ne_current hr) h.not_zombie hr hc).imp_left fun hholds => ⟨hholds.stored, h.blocked⟩

theorem Asleep.exit_wakes (h : Asleep k t v) (hr : Running k) (hw : k.waiter k.current = some t) {status : Int}
    (he : k.taskExit frame status = some r) : Holds t (wokenBy (k.row k.current).pid v) r := by
  have hholds := h.toStored.taskExit (h.ne_current hr) hr he
  rwa [if_pos hw] at hholds

-- ---------------------------------------------------------------------------
-- The call that blocks
-- ---------------------------------------------------------------------------

def suspended (k : Kernel) (frame : TaskFrame) (pid : Int) (status : Nat) : Task :=
  { k.task k.current with
    state := .blocked
    waitPid := pid
    waitStatus := status
    frame := frame
    archState := k.fpu }

theorem suspended_fields (k : Kernel) (frame : TaskFrame) (pid : Int) (status : Nat) :
    (k.suspended frame pid status).pid = (k.task k.current).pid ∧ (k.suspended frame pid status).waitPid = pid ∧
      (k.suspended frame pid status).frame = frame := ⟨rfl, rfl, rfl⟩

theorem taskWait_suspended (frame : TaskFrame) (pid : Int) (status : Nat) (options : Int)
    (h : (k.taskWait frame pid status options).1 = none) :
    (k.taskWait frame pid status options).2.2.task k.current = k.suspended frame pid status := by
  unfold taskWait at h ⊢
  split
  · rename_i hbad
    rw [if_pos hbad] at h
    cases h
  rename_i hgood
  rw [if_neg hgood] at h
  split
  · rename_i child hfind
    simp only [hfind, reduceCtorEq] at h
  rename_i hfind
  simp only [hfind] at h
  split
  · rename_i hany
    rw [if_pos hany] at h
    cases h
  rename_i hany
  rw [if_neg hany] at h
  split
  · rename_i hopt
    rw [if_pos hopt] at h
    cases h
  rename_i hopt
  rw [if_neg hopt] at h
  simp only at h ⊢
  split
  · rename_i hnext
    simp only [hnext, reduceCtorEq] at h
  · simp [switchTo, modifyTask, suspended]

theorem Running.ne_blocked (h : Running k) (hs : (k'.row k.current).state = (k.row k.current).state) :
    (k'.row k.current).state ≠ .blocked := by
  rw [hs, h.runnable]
  exact TaskState.noConfusion

theorem Running.waits_ne_blocked (h : Running k) {pid : Int} {status : Nat} {options : Int} {result : Option Int}
    (hw : Waits k k' pid status options result) (hsome : result.isSome) : (k'.row k.current).state ≠ .blocked := by
  cases hw with
  | refused hbad hs hn => exact h.ne_blocked (by rw [hs.row _ h.mem])
  | reaped ht hz hc hl hr hcur hcr3 hn => exact h.ne_blocked (by rw [hr])
  | childless hnone hs hn => exact h.ne_blocked (by rw [hs.row _ h.mem])
  | running ht hc hz ho hs hn => exact h.ne_blocked (by rw [hs.row _ h.mem])
  | stuck ht hc hz hstuck hl hr hcur hcr3 hn =>
    rw [hr, if_pos rfl]
    exact TaskState.noConfusion
  | suspended => cases hsome

theorem Running.dispatched_blocks (h : Running k) (hserves : ∀ id k frame, Serves k (handle id k frame).2) {id : Nat}
    (hd : Dispatched handle k frame id r) (hb : (r.2.row k.current).state = .blocked) :
    id = narcSysWait ∧ Asleep r.2 k.current (k.suspended frame (wrapInt frame.rdi) frame.rsi) := by
  have hwaits := taskWait_waits h.mem frame (wrapInt frame.rdi) frame.rsi (wrapInt frame.rdx)
  have hsusp := taskWait_suspended (k := k) frame (wrapInt frame.rdi) frame.rsi (wrapInt frame.rdx)
  cases hd with
  | nothing => exact absurd hb (h.ne_blocked rfl)
  | exit he =>
    obtain ⟨next, hexits⟩ := taskExit_exits h.mem h.runnable he
    obtain ⟨space, hgone⟩ := hexits.gone
    rw [hgone, exitRow, if_pos rfl] at hb
    cases hb
  | yield =>
    have hy := taskYield_yields h.mem (returnResult frame (resultOk 0))
    generalize (k.taskYield (returnResult frame (resultOk 0))).2 = k' at hy hb
    cases hy with
    | stays hs hn => exact absurd hb (h.ne_blocked (by rw [hs.row _ h.mem]))
    | switches hm hr hs => exact absurd hb (h.ne_blocked (by rw [hs.row]))
  | fork frame' hf =>
    have hforks := taskFork_forks h.mem hf
    generalize (k.kmalloc k.taskList).1.isSome = allocated at hforks
    cases hforks with
    | refused hs hn => exact absurd hb (h.ne_blocked (by rw [hs.row _ h.mem]))
    | undone hs hp => exact absurd hb (h.ne_blocked (by rw [hs.row _ h.mem]))
    | forked ht hl hr hc hcur hcr3 hnew hp => exact absurd hb (h.ne_blocked (by rw [hr _ h.mem]))
  | suspended hw =>
    rw [hw] at hwaits hsusp
    cases hwaits with
    | suspended ht hc hz hm hne hrun hl hr hcur hcr3 hn => exact ⟨rfl, ⟨hl ▸ h.mem, hsusp rfl⟩, rfl⟩
  | answered frame' hw =>
    rw [hw] at hwaits
    exact absurd hb (h.waits_ne_blocked hwaits rfl)
  | exec =>
    have hexecs := handleExec_execs k frame frame.rdi frame.rsi frame.rdx
    generalize (k.handleExec frame frame.rdi frame.rsi frame.rdx).2.2 = k' at hexecs hb
    cases hexecs with
    | fails hs hn => exact absurd hb (h.ne_blocked (by rw [hs.row _ h.mem]))
    | replaces hl hr hcur hcr3 hn => exact absurd hb (h.ne_blocked (by rw [hr, if_pos rfl]))
  | files => exact absurd hb (h.ne_blocked (by rw [(hserves _ k frame).row]))

-- ---------------------------------------------------------------------------
-- Until it goes on
-- ---------------------------------------------------------------------------

/-- From `k`, other tasks than `t` run and enter the kernel, which comes to `k'`. -/
inductive Meanwhile (t : Ptr) (k : Kernel) : Kernel → Prop
  | start : Meanwhile t k k
  | user {k₂} (phys : Phys) (fpu : ArchState) : Meanwhile t k k₂ → Meanwhile t k (k₂.afterUser phys fpu)
  | enter {k₂ k₃ v₂ e v₃} : Meanwhile t k k₂ → k₂.current ≠ t → Enters k₂ v₂ e k₃ v₃ → Meanwhile t k k₃

/-- The current task of `k`, a child of the task with the pid `parent`, makes the exit call, and a wait
for `pid` is about it. The kernel comes to `k'`, where user code goes on with `u'`. -/
structure ChildExits (k : Kernel) (parent pid : Int) (k' : Kernel) (u' : UserRegs) : Prop where
  call : ∃ u, u.Calls narcSysExit ∧ Enters k u .sysretq k' u'
  child : (k.task k.current).ppid = parent
  waited : pid = -1 ∨ pid = (k.task k.current).pid

theorem Meanwhile.reached (h : Meanwhile t k k') (hr : Reached k) : Reached k' := by
  induction h with
  | start => exact hr
  | user phys fpu _ ih => exact ih.user phys fpu
  | enter _ _ he ih => exact ih.enter he

theorem Reached.pidsApart (h : Reached k) : PidsApart k := by
  induction h with
  | start hs => exact hs.scheduled.table.inj
  | user phys fpu _ ih => exact ih
  | enter hr he ih =>
    obtain ⟨frame, hc, -⟩ := he.called
    exact ih.called hr.running hc

theorem Stored.called_runnable (h : Stored k t v) (hs : v.state = .runnable) (hne : t ≠ k.current) (hr : Running k)
    (hc : Called k w e r) : ∃ v', Stored r.2 t v' ∧ v'.state = .runnable := by
  have hz : v.state ≠ .zombie := by
    rw [hs]
    exact TaskState.noConfusion
  rcases h.called hne hz hr hc with hholds | ⟨-, -, -, hholds⟩
  · exact ⟨_, hholds.stored, hs⟩
  · exact ⟨_, hholds.stored, rfl⟩

theorem Meanwhile.asleep (h : Meanwhile t k k') (hr : Reached k) (ha : Asleep k t v) :
    Asleep k' t v ∨ ∃ v', Stored k' t v' ∧ v'.state = .runnable := by
  induction h with
  | start => exact .inl ha
  | user phys fpu _ ih =>
    rcases ih with hasleep | ⟨v', hstored, hs⟩
    · exact .inl (hasleep.afterUser phys fpu)
    · exact .inr ⟨v', ⟨hstored.mem, hstored.task⟩, hs⟩
  | enter hm hne he ih =>
    have hrunning := (hm.reached hr).running
    obtain ⟨frame, hc, -⟩ := he.called
    rcases ih with hasleep | ⟨v', hstored, hs⟩
    · exact (hasleep.called hrunning hc).imp_right fun hw => ⟨_, hw.2.2.2.stored, rfl⟩
    · exact .inr (hstored.called_runnable hs hne.symm hrunning hc)

theorem Meanwhile.asleep_of_blocked (h : Meanwhile t k k') (hr : Reached k) (ha : Asleep k t v)
    (hb : (k'.task t).state = .blocked) : Asleep k' t v := by
  rcases h.asleep hr ha with hasleep | ⟨v', hstored, hs⟩
  · exact hasleep
  · rw [hstored.task, hs] at hb
    cases hb

theorem Asleep.waiter_iff (h : Asleep k t v) (hp : PidsApart k) : k.waiter k.current = some t ↔
    (k.task k.current).ppid = v.pid ∧ (v.waitPid = -1 ∨ v.waitPid = (k.task k.current).pid) := by
  have hrow : k.row t = v.row := congrArg Task.row h.task
  rw [hp.waiter_iff, hrow]
  constructor
  · rintro ⟨-, hpid, -, hwait⟩
    exact ⟨hpid.symm, hwait⟩
  · rintro ⟨hpid, hwait⟩
    exact ⟨h.mem, hpid.symm, h.blocked, hwait⟩

/-- A child that exits wakes the task, which comes back with the child's pid. -/
theorem ChildExits.wakes (hx : ChildExits k v.pid v.waitPid k' w) (hr : Reached k) (ha : Asleep k t v) :
    (k'.task t).state = .runnable ∧ ∀ e u', Resumes t e u' .sysretq k' w →
      u' = e.restore (archSyscallReturn2 v.frame (k.task k.current).pid.toNat 0) := by
  obtain ⟨u, hcall, henters⟩ := hx.call
  obtain ⟨handle, frame, hserves, hd, rfl⟩ := henters.dispatched hcall
  have hw := (ha.waiter_iff hr.pidsApart).mpr ⟨hx.child, hx.waited⟩
  have hholds := ha.toStored.dispatched (ha.ne_current hr.running) ha.not_zombie hr.running hserves hd
  rw [leaves, if_pos ⟨rfl, hw⟩] at hholds
  refine ⟨congrArg Task.state hholds.stored.task, fun e u' h => ?_⟩
  exact (hholds.goes rfl).restored (hr.running.dispatched hserves hd) h

theorem Resumes.woken {e' : Exit} {w' : UserRegs} (h : Resumes t e' w' e k w) (hr : Reached k₁)
    (hm : Meanwhile t k₁ k) (ha : Asleep k t v) : ∃ k₂ k₃ w₃, Meanwhile t k₁ k₂ ∧ Asleep k₂ t v ∧
      ChildExits k₂ v.pid v.waitPid k₃ w₃ ∧ Resumes t e' w' .sysretq k₃ w₃ := by
  induction h with
  | back hc => exact absurd hc.symm (ha.ne_current (hm.reached hr).running)
  | other phys fpu hne he hrest ih =>
    have hafter := hm.user phys fpu
    have hreached := hafter.reached hr
    have hasleep := ha.afterUser phys fpu
    obtain ⟨frame, hc, -⟩ := he.called
    rcases hasleep.called hreached.running hc with hstill | ⟨rfl, hcall, hwaiter, -⟩
    · exact ih (hafter.enter hne he) hstill
    · have hchild := (hasleep.waiter_iff hreached.pidsApart).mp hwaiter
      exact ⟨_, _, _, hafter, hasleep, ⟨⟨_, hcall, he⟩, hchild.1, hchild.2⟩, hrest⟩

/-- A system call that blocks is a wait. It returns when a child that it waits for exits, with the pid of
that child and every other register of the frame, and such an exit makes it return. -/
theorem wait_returns {u u₁ : UserRegs} {scratch : Reg → Nat} (hr : Reached k)
    (hserves : ∀ id k frame, Serves k (handle id k frame).2)
    (hs : syscallEntry (k.syscallDispatch handle) scratch u = some (u₁, k₁))
    (hb : (k₁.task k.current).state = .blocked) :
    u.Calls narcSysWait ∧
      (∀ e u', Resumes k.current e u' .sysretq k₁ u₁ → ∃ k₂ k₃ u₃, Meanwhile k.current k₁ k₂ ∧
        ChildExits k₂ (k.task k.current).pid (wrapInt (u.reg .rdi)) k₃ u₃ ∧ Resumes k.current e u' .sysretq k₃ u₃ ∧
        u' = e.restore (archSyscallReturn2 u.frame (k₂.task k₂.current).pid.toNat 0)) ∧
      ∀ k₂ k₃ u₃, Meanwhile k.current k₁ k₂ → (k₂.task k.current).state = .blocked →
        ChildExits k₂ (k.task k.current).pid (wrapInt (u.reg .rdi)) k₃ u₃ →
        (k₃.task k.current).state = .runnable ∧ ∀ e u', Resumes k.current e u' .sysretq k₃ u₃ →
          u' = e.restore (archSyscallReturn2 u.frame (k₂.task k₂.current).pid.toNat 0) := by
  have hreached : Reached k₁ := hr.enter (.syscall scratch hserves hs)
  obtain ⟨hcall, v, hasleep, hpid, hwait, hframe⟩ : u.Calls narcSysWait ∧ ∃ v, Asleep k₁ k.current v ∧
      v.pid = (k.task k.current).pid ∧ v.waitPid = wrapInt (u.reg .rdi) ∧ v.frame = u.frame := by
    rw [syscallEntry_eq] at hs
    obtain ⟨⟨frame, k'⟩, hd, heq⟩ := Option.map_eq_some_iff.mp hs
    cases heq
    obtain ⟨-, hsame⟩ | ⟨htag, hd⟩ := syscallDispatch_dispatched hd
    · exact absurd hb (hr.running.ne_blocked (congrArg (fun k' : Kernel => (k'.row k.current).state) hsame))
    · obtain ⟨hid, hasleep⟩ := hr.running.dispatched_blocks hserves hd hb
      have hrdi : u.frame.rdi = u.reg .rdi := rfl
      rw [hrdi] at hasleep
      exact ⟨⟨htag, hid⟩, _, hasleep, suspended_fields k u.frame _ _⟩
  rw [← hpid, ← hwait, ← hframe]
  refine ⟨hcall, fun e u' h => ?_, fun k₂ k₃ u₃ hm hb₂ hx => ?_⟩
  · obtain ⟨k₂, k₃, u₃, hm, ha, hx, hres⟩ := h.woken hreached .start hasleep
    exact ⟨k₂, k₃, u₃, hm, hx, hres, (hx.wakes (hm.reached hreached) ha).2 e u' hres⟩
  · exact hx.wakes (hm.reached hreached) (hm.asleep_of_blocked hreached hasleep hb₂)

-- ---------------------------------------------------------------------------
-- Init and its child
-- ---------------------------------------------------------------------------

def callRegs (id rdi : Nat) : UserRegs :=
  { initRegs with
    reg := fun r =>
      if r = .rax then narcSyscallTag + id else if r = .rdi then rdi else 0 }

def noHandlers : Handlers := fun _ k _ => (resultOk 0, k)

theorem noHandlers_serves (id : Nat) (k : Kernel) (frame : TaskFrame) : Serves k (noHandlers id k frame).2 :=
  (SameTable.refl k).serves

def childOfInit : Kernel := started.forkNew (callRegs narcSysFork 0).frame
def parentWaits : Kernel := (childOfInit.taskWait (callRegs narcSysWait (2 ^ 64 - 1)).frame (-1) 0 0).2.2

theorem started_fork (frame : TaskFrame) : started.perform frame .fork = some (started.forkNew frame) := by
  have hA := @Phys.avail_mmInit _ (fun _ => 0) [] smallMap_ok
  rcases hA.vmmSpaceCreate 0 with ⟨hnone, -⟩ | ⟨root, B, hsome, hAB, hav, hsp, -⟩
  · exact absurd hnone (by decide +kernel)
  rw [← started_phys] at hav hsp
  have hnd := hA.nodup
  rw [hAB] at hnd
  have hroot : (started.task started.current).space = root :=
    Option.some.inj (Eq.trans (by decide +kernel) hsome)
  refine perform_forkNew frame (by decide +kernel) (hroot ▸ hsp) hav ?_ (by decide +kernel)
  rw [hroot]
  exact (Multiset.nodup_cons.mp hnd).1

theorem dispatch_callRegs {id rdi : Nat} (hid : id = narcSysExit ∨ id = narcSysFork ∨ id = narcSysWait) :
    k.syscallDispatch noHandlers (callRegs id rdi).frame = k.dispatch noHandlers (callRegs id rdi).frame id := by
  have hrax : (callRegs id rdi).frame.rax = narcSyscallTag + id := rfl
  have htag : (narcSyscallTag + id) &&& narcSyscallTagMask = narcSyscallTag ∧
      (narcSyscallTag + id) &&& narcSyscallIdMask = id := by
    rcases hid with rfl | rfl | rfl <;> decide
  unfold syscallDispatch
  simp only [hrax, htag.1, htag.2, ne_eq, not_true_eq_false, if_false]

theorem entry_callRegs {id rdi : Nat} (hid : id = narcSysExit ∨ id = narcSysFork ∨ id = narcSysWait)
    (hd : k.dispatch noHandlers (callRegs id rdi).frame id = some r) :
    syscallEntry (k.syscallDispatch noHandlers) (fun _ => 0) (callRegs id rdi) =
      some (Exit.restore r.1 .sysretq, r.2) := by
  rw [syscallEntry_eq, dispatch_callRegs hid, hd]
  rfl

theorem childOfInit_reached : Reached childOfInit := by
  have hfork : (started.taskFork (callRegs narcSysFork 0).frame).map Prod.snd = some childOfInit :=
    started_fork (callRegs narcSysFork 0).frame
  obtain ⟨⟨pid, k₁⟩, hf, hk₁⟩ := Option.map_eq_some_iff.mp hfork
  have hd : started.dispatch noHandlers (callRegs narcSysFork 0).frame narcSysFork =
      some (returnResult (callRegs narcSysFork 0).frame
        (if pid < 0 then resultError narcTryAgain else resultOk pid.toNat), k₁) := by
    unfold dispatch
    simp only [narcSysFork, narcSysAbiQuery, narcSysExit, narcSysGetpid, narcSysYield] at hf ⊢
    simp [hf]
  rw [← hk₁]
  exact started_reached.enter (.syscall (fun _ => 0) noHandlers_serves (entry_callRegs (by simp) hd))

def waitFrame : TaskFrame := (callRegs narcSysWait (2 ^ 64 - 1)).frame

theorem parentWaits_entry :
    syscallEntry (childOfInit.syscallDispatch noHandlers) (fun _ => 0) (callRegs narcSysWait (2 ^ 64 - 1)) =
      some (Exit.restore (childOfInit.taskWait waitFrame (-1) 0 0).2.1 .sysretq, parentWaits) := by
  have hnone : (childOfInit.taskWait waitFrame (-1) 0 0).1 = none := by decide +kernel
  have hany : wrapInt waitFrame.rdi = -1 := by decide
  have hrest : waitFrame.rsi = 0 ∧ wrapInt waitFrame.rdx = 0 := by decide
  have hd : childOfInit.dispatch noHandlers waitFrame narcSysWait =
      some (childOfInit.taskWait waitFrame (-1) 0 0).2 := by
    unfold dispatch
    simp only [hany, hrest.1, hrest.2, ne_eq, not_true_eq_false, false_and, if_false]
    generalize childOfInit.taskWait waitFrame (-1) 0 0 = out at hnone
    obtain ⟨result, frame, k⟩ := out
    subst hnone
    rfl
  exact entry_callRegs (by simp) hd

def childExits : TaskFrame × Kernel :=
  (parentWaits.taskExit (callRegs narcSysExit 7).frame 7).getD (waitFrame, parentWaits)

theorem childExits_entry :
    syscallEntry (parentWaits.syscallDispatch noHandlers) (fun _ => 0) (callRegs narcSysExit 7) =
      some (Exit.restore childExits.1 .sysretq, childExits.2) := by
  have hsome : (parentWaits.taskExit (callRegs narcSysExit 7).frame 7).isSome := by decide +kernel
  have hstatus : wrapInt (callRegs narcSysExit 7).frame.rdi = 7 := by decide
  have hd : parentWaits.dispatch noHandlers (callRegs narcSysExit 7).frame narcSysExit = some childExits := by
    obtain ⟨out, hout⟩ := Option.isSome_iff_exists.1 hsome
    have hexits : childExits = out := by rw [childExits, hout, Option.getD_some]
    rw [hexits, dispatch, if_neg (by decide), if_pos rfl, hstatus]
    exact hout
  exact entry_callRegs (by simp) hd

theorem parentWaits_resumes :
    Resumes childOfInit.current .sysretq (Exit.restore childExits.1 .sysretq) .sysretq parentWaits
      (Exit.restore (childOfInit.taskWait waitFrame (-1) 0 0).2.1 .sysretq) := by
  have hback : childExits.2.current = childOfInit.current := by decide +kernel
  have hsame : ∀ k : Kernel, k.afterUser k.phys k.fpu = k := fun _ => rfl
  have henters : Enters (parentWaits.afterUser parentWaits.phys parentWaits.fpu) (callRegs narcSysExit 7) .sysretq
      childExits.2 (Exit.restore childExits.1 .sysretq) := by
    rw [hsame]
    exact .syscall (fun _ => 0) noHandlers_serves childExits_entry
  exact .other parentWaits.phys parentWaits.fpu (by decide +kernel) henters (.back hback)

theorem childExits_child : ChildExits parentWaits (childOfInit.task childOfInit.current).pid
    (wrapInt ((callRegs narcSysWait (2 ^ 64 - 1)).reg .rdi)) childExits.2 (Exit.restore childExits.1 .sysretq) where
  call := ⟨callRegs narcSysExit 7, ⟨by decide, by decide⟩, .syscall (fun _ => 0) noHandlers_serves childExits_entry⟩
  child := by decide +kernel
  waited := .inl (by decide)

/-- The child exits, and init comes back with its pid. -/
theorem wait_returns_init : (callRegs narcSysWait (2 ^ 64 - 1)).Calls narcSysWait ∧
    (∃ k₂ k₃ u₃, Meanwhile childOfInit.current parentWaits k₂ ∧
      ChildExits k₂ (childOfInit.task childOfInit.current).pid (wrapInt ((callRegs narcSysWait (2 ^ 64 - 1)).reg .rdi)) k₃ u₃ ∧
      Exit.restore childExits.1 .sysretq =
        Exit.restore (archSyscallReturn2 waitFrame (k₂.task k₂.current).pid.toNat 0) .sysretq) ∧
    (childExits.2.task childOfInit.current).state = .runnable ∧
    Exit.restore childExits.1 .sysretq = Exit.restore (archSyscallReturn2 waitFrame 2 0) .sysretq := by
  obtain ⟨hcall, hback, hexit⟩ :=
    wait_returns childOfInit_reached noHandlers_serves parentWaits_entry (by decide +kernel)
  obtain ⟨k₂, k₃, u₃, hm, hx, -, hu⟩ := hback _ _ parentWaits_resumes
  have hchild : (parentWaits.task parentWaits.current).pid.toNat = 2 := by decide +kernel
  have hcurrent : childExits.2.current = childOfInit.current := by decide +kernel
  obtain ⟨hrun, hregs⟩ := hexit parentWaits childExits.2 _ .start (by decide +kernel) childExits_child
  have hlast := hregs .sysretq _ (.back hcurrent)
  rw [hchild] at hlast
  exact ⟨hcall, ⟨k₂, k₃, u₃, hm, hx, hu⟩, hrun, hlast⟩

end Kernel

end NarcOs
