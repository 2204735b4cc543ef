import NarcOs.Kernel.Dispatch
import NarcOs.Kernel.Fork

/-!
# What a call leaves of the tasks

The calls behind `dispatch`, each once. The task that is current after a call can
run (`Running.dispatched`), no two tasks get the same pid (`PidsApart.dispatched`),
and what is stored of another task stays as it is, but for a parent that an exit
wakes (`Stored.dispatched`).
-/

namespace NarcOs

namespace Kernel

variable {k k' : Kernel} {t u : Ptr} {v : Task} {frame : TaskFrame} {r : TaskFrame × Kernel} {handle : Handlers}

-- ---------------------------------------------------------------------------
-- The calls
-- ---------------------------------------------------------------------------

inductive Dispatched (handle : Handlers) (k : Kernel) (frame : TaskFrame) : Nat → TaskFrame × Kernel → Prop
  | nothing {id} (frame' : TaskFrame) : id ≠ narcSysExit → Dispatched handle k frame id (frame', k)
  | exit {out} : k.taskExit frame (wrapInt frame.rdi) = some out → Dispatched handle k frame narcSysExit out
  | yield : Dispatched handle k frame narcSysYield (k.taskYield (returnResult frame (resultOk 0)))
  | fork {pid k₁} (frame' : TaskFrame) : k.taskFork frame = some (pid, k₁) →
      Dispatched handle k frame narcSysFork (frame', k₁)
  | suspended {out} : k.taskWait frame (wrapInt frame.rdi) frame.rsi (wrapInt frame.rdx) = (none, out) →
      Dispatched handle k frame narcSysWait out
  | answered {pid} {out : TaskFrame × Kernel} (frame' : TaskFrame) :
      k.taskWait frame (wrapInt frame.rdi) frame.rsi (wrapInt frame.rdx) = (some pid, out) →
      Dispatched handle k frame narcSysWait (frame', out.2)
  | exec (frame' : TaskFrame) :
      Dispatched handle k frame narcSysExec (frame', (k.handleExec frame frame.rdi frame.rsi frame.rdx).2.2)
  | files {id} (frame' : TaskFrame) : id ≠ narcSysExit → Dispatched handle k frame id (frame', (handle id k frame).2)

theorem dispatch_dispatched {id : Nat} (hd : k.dispatch handle frame id = some r) : Dispatched handle k frame id r := by
  unfold Kernel.dispatch at hd
  simp only at hd
  split at hd
  · rename_i hid
    cases hd
    exact .nothing _ (hid ▸ by decide)
  split at hd
  · rename_i hid
    exact hid ▸ .exit hd
  rename_i hexit
  split at hd
  · cases hd
    exact .nothing _ hexit
  split at hd
  · rename_i hid
    cases hd
    exact hid ▸ .yield
  split at hd
  · rename_i hid
    obtain ⟨⟨pid, k₁⟩, hf, rfl⟩ := Option.map_eq_some_iff.mp hd
    exact hid ▸ .fork _ hf
  split at hd
  · rename_i hid
    split at hd
    · cases hd
      exact .nothing _ hexit
    split at hd
    · rename_i hw
      cases hd
      exact hid ▸ .suspended hw
    · rename_i hw
      cases hd
      exact hid ▸ .answered _ hw
  split at hd
  · rename_i hid
    have hexec : ∀ frame', Dispatched handle k frame narcSysExec
        (frame', (k.handleExec frame frame.rdi frame.rsi frame.rdx).2.2) := fun frame' => .exec frame'
    split at hd <;> rename_i he <;> rw [he] at hexec <;> cases hd <;> exact hid ▸ hexec _
  split at hd
  · cases hd
    exact .files _ hexit
  · cases hd
    exact .nothing _ hexit

theorem syscallDispatch_dispatched (hd : k.syscallDispatch handle frame = some r) :
    (frame.rax &&& narcSyscallTagMask ≠ narcSyscallTag ∧ r.2 = k) ∨
      (frame.rax &&& narcSyscallTagMask = narcSyscallTag ∧
        Dispatched handle k frame (frame.rax &&& narcSyscallIdMask) r) := by
  unfold Kernel.syscallDispatch at hd
  simp only at hd
  split at hd
  · rename_i htag
    cases hd
    exact .inl ⟨htag, rfl⟩
  · rename_i htag
    exact .inr ⟨not_not.mp htag, dispatch_dispatched hd⟩

theorem handleExec_execs (k : Kernel) (frame : TaskFrame) (path argv envp : Nat) :
    Execs k (k.handleExec frame path argv envp).2.2 := by
  have hsame : Execs k k := .fails (SameRows.refl k) rfl
  unfold Kernel.handleExec
  split
  · exact hsame
  split
  · exact hsame
  split
  · exact hsame
  · exact userExec_execs k frame _ _ _

theorem Serves.row (h : Serves k k') (t : Ptr) : k'.row t = k.row t := by
  by_cases hne : t = k.current
  · subst hne
    obtain ⟨fds, mmapNext, hown⟩ := h.own
    rw [Kernel.row, hown]
    rfl
  · exact congrArg Task.row (h.other t hne)

-- ---------------------------------------------------------------------------
-- The task that is current
-- ---------------------------------------------------------------------------

structure Running (k : Kernel) : Prop where
  mem : k.current ∈ k.taskList
  runnable : (k.row k.current).state = .runnable

theorem Running.same (h : Running k) (hs : SameRows k k') : Running k' where
  mem := by rw [hs.current, hs.list]; exact h.mem
  runnable := by rw [hs.current, hs.row _ h.mem]; exact h.runnable

theorem Running.taskYield (h : Running k) (frame : TaskFrame) : Running (k.taskYield frame).2 := by
  have hy := taskYield_yields h.mem frame
  generalize (k.taskYield frame).2 = k' at hy
  cases hy with
  | stays hs hn => exact h.same hs
  | switches hm hr hs =>
    exact ⟨by rw [hs.current, hs.list]; exact hm, by rw [hs.current, hs.row]; exact hr⟩

theorem Running.taskFork (h : Running k) {pid : Int} (hf : k.taskFork frame = some (pid, k')) : Running k' := by
  have hforks := taskFork_forks h.mem hf
  generalize (k.kmalloc k.taskList).1.isSome = allocated at hforks
  cases hforks with
  | refused hs hn => exact h.same hs
  | undone hs hp => exact h.same hs
  | forked ht hl hr hc hcur hcr3 hnew hp =>
    exact ⟨by rw [hcur, hl]; exact List.mem_append_left _ h.mem, by rw [hcur, hr _ h.mem]; exact h.runnable⟩

theorem Running.taskWait (h : Running k) (frame : TaskFrame) (pid : Int) (status : Nat) (options : Int) :
    Running (k.taskWait frame pid status options).2.2 := by
  have hw := taskWait_waits h.mem frame pid status options
  generalize (k.taskWait frame pid status options).2.2 = k' at hw
  generalize (k.taskWait frame pid status options).1 = result at hw
  cases hw with
  | refused hbad hs hn => exact h.same hs
  | @reaped u hu hz hc hl hr hcur hcr3 hn =>
    have hne : k.current ≠ u := by
      rintro rfl
      rw [h.runnable] at hz
      cases hz
    exact ⟨by rw [hcur, hl]; exact (List.mem_erase_of_ne hne).mpr h.mem, by rw [hcur, hr]; exact h.runnable⟩
  | childless hnone hs hn => exact h.same hs
  | running hu hc hz ho hs hn => exact h.same hs
  | stuck hu hc hz hstuck hl hr hcur hcr3 hn =>
    exact ⟨by rw [hcur, hl]; exact h.mem, by rw [hcur, hr, if_pos rfl]⟩
  | suspended hu hc hz hm hne hrun hl hr hcur hcr3 hn =>
    exact ⟨by rw [hcur, hl]; exact hm, by rw [hcur, hr, if_neg hne]; exact hrun⟩

theorem Running.taskExit (h : Running k) {status : Int} (he : k.taskExit frame status = some r) : Running r.2 := by
  obtain ⟨next, hx⟩ := taskExit_exits h.mem h.runnable he
  have hne : next ≠ k.current := by
    rintro rfl
    have hr := hx.runnable
    rw [exitRow, if_pos rfl] at hr
    cases hr
  refine ⟨?_, by rw [hx.current, hx.row next hx.mem hne]; exact hx.runnable⟩
  rw [hx.current, hx.list]
  split
  · exact (List.mem_erase_of_ne hne).mpr hx.mem
  · exact hx.mem

theorem Running.execs (h : Running k) (he : Execs k k') : Running k' := by
  cases he with
  | fails hs hn => exact h.same hs
  | replaces hl hr hcur hcr3 hn =>
    exact ⟨by rw [hcur, hl]; exact h.mem, by rw [hcur, hr, if_pos rfl]; exact h.runnable⟩

theorem Running.serves (h : Running k) (hs : Serves k k') : Running k' where
  mem := by rw [hs.current, hs.list]; exact h.mem
  runnable := by rw [hs.current, hs.row]; exact h.runnable

theorem Running.dispatched (h : Running k) (hserves : ∀ id k frame, Serves k (handle id k frame).2) {id : Nat}
    (hd : Dispatched handle k frame id r) : Running r.2 := by
  have hwait := h.taskWait frame (wrapInt frame.rdi) frame.rsi (wrapInt frame.rdx)
  cases hd with
  | nothing => exact h
  | exit he => exact h.taskExit he
  | yield => exact h.taskYield _
  | fork frame' hf => exact h.taskFork hf
  | suspended hw =>
    rw [hw] at hwait
    exact hwait
  | answered frame' hw =>
    rw [hw] at hwait
    exact hwait
  | exec => exact h.execs (handleExec_execs k frame _ _ _)
  | files => exact h.serves (hserves _ k frame)

-- ---------------------------------------------------------------------------
-- Pids
-- ---------------------------------------------------------------------------

def PidsApart (k : Kernel) : Prop :=
  ∀ t ∈ k.taskList, ∀ u ∈ k.taskList, (k.row t).pid = (k.row u).pid → t = u

theorem PidsApart.shrinks (h : PidsApart k) (hs : Shrinks k k') : PidsApart k' := by
  intro t ht u hu hp
  rw [(hs.pids t (hs.sub t ht)).1, (hs.pids u (hs.sub u hu)).1] at hp
  exact h t (hs.sub t ht) u (hs.sub u hu) hp

theorem PidsApart.forks (h : PidsApart k) {allocated : Bool} {pid : Int} (hf : Forks k k' allocated pid) : PidsApart k' := by
  cases hf with
  | refused hs hn => exact h.shrinks hs.shrinks
  | undone hs hp => exact h.shrinks hs.shrinks
  | @forked c _ space hc hl hr hchild hcur hcr3 hnew hp =>
    have hpid : (k'.row c).pid = pid := congrArg Row.pid hchild
    intro t ht u hu heq
    rw [hl, List.mem_append, List.mem_singleton] at ht hu
    rcases ht with ht | rfl <;> rcases hu with hu | rfl
    · rw [hr t ht, hr u hu] at heq
      exact h t ht u hu heq
    · rw [hr t ht, hpid] at heq
      exact absurd heq (hnew t ht)
    · rw [hr u hu, hpid] at heq
      exact absurd heq.symm (hnew u hu)
    · rfl

theorem PidsApart.dispatched (h : PidsApart k) (hr : Running k) (hserves : ∀ id k frame, Serves k (handle id k frame).2)
    {id : Nat} (hd : Dispatched handle k frame id r) : PidsApart r.2 := by
  have hwait := (taskWait_waits hr.mem frame (wrapInt frame.rdi) frame.rsi (wrapInt frame.rdx)).shrinks
  cases hd with
  | nothing => exact h
  | exit he =>
    obtain ⟨next, hexits⟩ := taskExit_exits hr.mem hr.runnable he
    exact h.shrinks hexits.shrinks
  | yield => exact h.shrinks (taskYield_yields hr.mem _).shrinks
  | fork frame' hf => exact h.forks (taskFork_forks hr.mem hf)
  | suspended hw =>
    rw [hw] at hwait
    exact h.shrinks hwait
  | answered frame' hw =>
    rw [hw] at hwait
    exact h.shrinks hwait
  | exec => exact h.shrinks (handleExec_execs k frame _ _ _).shrinks
  | @files id =>
    have hs := hserves id k frame
    exact h.shrinks (shrinks_of_list hs.list (samePids_of_row fun u _ => hs.row u))

/-- The parent that an exit of `t` wakes. -/
theorem PidsApart.waiter_iff (h : PidsApart k) : k.waiter t = some u ↔ u ∈ k.taskList ∧
    (k.row u).pid = (k.row t).ppid ∧ (k.row u).state = .blocked ∧
    ((k.row u).waitPid = -1 ∨ (k.row u).waitPid = (k.row t).pid) := by
  refine ⟨waiter_eq_some, ?_⟩
  rintro ⟨hu, hpid, hwaits⟩
  have hfind : k.findTask (k.row t).ppid = some u := by
    cases hf : k.findTask (k.row t).ppid with
    | none => exact absurd hpid (findTask_none hf u hu)
    | some w =>
      obtain ⟨hw, hp⟩ := findTask_spec hf
      exact congrArg some (h w hw u hu (hp.trans hpid.symm))
  exact Option.filter_eq_some_iff.mpr ⟨hfind, decide_eq_true hwaits⟩

-- ---------------------------------------------------------------------------
-- What is stored of a task
-- ---------------------------------------------------------------------------

structure Stored (k : Kernel) (t : Ptr) (v : Task) : Prop where
  mem : t ∈ k.taskList
  task : k.task t = v

theorem Stored.of_task (h : Stored k t v) (hl : k'.taskList = k.taskList) (ht : k'.task t = k.task t) : Stored k' t v :=
  ⟨hl ▸ h.mem, ht.trans h.task⟩

theorem Stored.table (h : Stored k t v) (hs : SameTable k k') : Stored k' t v :=
  h.of_task hs.list (congrFun hs.task t)

theorem Stored.modifyTask (h : Stored k t v) (hne : t ≠ u) (g : Task → Task) : Stored (k.modifyTask u g) t v :=
  h.of_task rfl (Function.update_of_ne hne _ _)

theorem Stored.modifySelf (h : Stored k t v) (g : Task → Task) : Stored (k.modifyTask t g) t (g v) :=
  ⟨h.mem, (Function.update_self _ _ _).trans (congrArg g h.task)⟩

theorem Stored.taskFree (h : Stored k t v) (hne : t ≠ u) : Stored (k.taskFree u) t v :=
  ⟨(List.mem_erase_of_ne hne).mpr h.mem, h.task⟩

theorem Stored.spaceDestroy (h : Stored k t v) (hne : t ≠ u) : Stored (k.spaceDestroy u) t v := by
  unfold Kernel.spaceDestroy
  exact (h.table (setPhys_table k _)).modifyTask hne _

theorem Stored.markZombie (h : Stored k t v) (hne : t ≠ u) (status : Int) : Stored (k.markZombie u status) t v := by
  unfold Kernel.markZombie closeAll
  exact ((h.table (filePuts_table _ k)).modifyTask hne _).modifyTask hne _

structure Holds (t : Ptr) (v : Task) (r : TaskFrame × Kernel) : Prop where
  stored : Stored r.2 t v
  frame : r.2.current = t → r.1 = v.frame

theorem Stored.holds (h : Stored k t v) (hne : t ≠ k.current) (frame : TaskFrame) : Holds t v (frame, k) :=
  ⟨h, fun he => absurd he.symm hne⟩

theorem Stored.switchTo (h : Stored k t v) (hne : t ≠ k.current) (next : Ptr) (frame : TaskFrame) :
    Holds t v (k.switchTo next frame) := by
  have hsaved := h.modifyTask hne fun v => { v with frame := frame, archState := k.fpu }
  refine ⟨hsaved.of_task rfl rfl, fun he => ?_⟩
  have hnext : next = t := he
  subst hnext
  exact congrArg Task.frame hsaved.task

-- ---------------------------------------------------------------------------
-- Calls of other tasks
-- ---------------------------------------------------------------------------

theorem Stored.taskYield (h : Stored k t v) (hne : t ≠ k.current) (frame : TaskFrame) :
    Holds t v (k.taskYield frame) := by
  unfold Kernel.taskYield
  split
  · exact h.holds hne frame
  · split
    · exact h.holds hne frame
    · exact h.switchTo hne _ frame

theorem Stored.forkInto {c : Ptr} (h : Stored k t v) (hcur : t ≠ k.current) (hne : t ≠ c) (frame : TaskFrame)
    (space : Option Nat × Phys) : Stored (k.forkInto c frame space).2 t v ∧ (k.forkInto c frame space).2.current = k.current := by
  unfold Kernel.forkInto
  obtain ⟨_ | root, phys⟩ := space
  · exact ⟨(h.table (setPhys_table k phys)).taskFree hne, rfl⟩
  have hrooted := (h.table (setPhys_table k phys)).modifyTask hne fun v => { v with space := root }
  have hcur₂ : ((k.setPhys phys).modifyTask c fun v => { v with space := root }).current = k.current := rfl
  simp only
  generalize (k.setPhys phys).modifyTask c (fun v => { v with space := root }) = k₂ at hrooted hcur₂ ⊢
  have hheap := kmalloc_table k₂ []
  generalize k₂.kmalloc [] = a at hheap ⊢
  obtain ⟨_ | _, k₃⟩ := a
  · exact ⟨((hrooted.table hheap).spaceDestroy hne).taskFree hne, hheap.current.trans hcur₂⟩
  · replace hheap : SameTable k₂ k₃ := hheap
    have hshare := hheap.trans (shareFds_table k₃ (k₃.task k₃.current).fds)
    simp only
    generalize k₃.shareFds (k₃.task k₃.current).fds = k₄ at hshare ⊢
    have hcur₄ : k₄.current = k.current := hshare.current.trans hcur₂
    unfold Kernel.copyState
    exact ⟨(((hrooted.table hshare).modifyTask hne _).modifyTask (hcur₄ ▸ hcur) _).modifyTask hne _, hcur₄⟩

theorem Stored.taskAlloc {pid : Int} (h : Stored k t v) (ha : TaskAdded k k' u pid) : Stored k' t v := by
  have hne : t ≠ u := fun e => ha.fresh (e ▸ h.mem)
  refine ⟨ha.list ▸ List.mem_append_left _ h.mem, ?_⟩
  rw [ha.task, Function.update_of_ne hne, h.task]

theorem Stored.taskFork (h : Stored k t v) (hne : t ≠ k.current) {pid : Int} (hf : k.taskFork frame = some (pid, k')) :
    Stored k' t v ∧ k'.current = k.current := by
  unfold Kernel.taskFork at hf
  cases ha : k.taskAlloc with
  | none => simp [ha] at hf
  | some a =>
    obtain ⟨o, k₁⟩ := a
    rw [ha] at hf
    obtain ⟨rfl, hsame⟩ | ⟨c, _, rfl, hadd⟩ := taskAlloc_added ha
    · cases hf
      exact ⟨h.table hsame, hsame.current⟩
    · have hc : t ≠ c := fun e => hadd.fresh (e ▸ h.mem)
      have hinto := (h.taskAlloc hadd).forkInto (hadd.current ▸ hne) hc frame
        (k₁.phys.vmmSpaceClone k₁.cr3 (k₁.task k₁.current).space)
      rw [Option.some.inj hf] at hinto
      exact ⟨hinto.1, hinto.2.trans hadd.current⟩

theorem Stored.taskWait (h : Stored k t v) (hne : t ≠ k.current) (hz : v.state ≠ .zombie) {pid : Int} {status : Nat}
    {options : Int} {result : Option Int} (hw : k.taskWait frame pid status options = (result, r)) :
    Holds t v r ∧ (result.isSome → r.2.current = k.current) := by
  unfold Kernel.taskWait at hw
  split at hw
  · cases hw
    exact ⟨h.holds hne frame, fun _ => rfl⟩
  split at hw
  · rename_i child hfind
    have hzombie := List.find?_some hfind
    simp only [decide_eq_true_eq] at hzombie
    have hchild : t ≠ child := by
      rintro rfl
      exact hz (h.task ▸ hzombie.2)
    cases hw
    refine ⟨((h.table (setPhys_table k _)).taskFree hchild).holds ?_ frame, fun _ => rfl⟩
    exact hne
  split at hw
  · cases hw
    exact ⟨h.holds hne frame, fun _ => rfl⟩
  split at hw
  · cases hw
    exact ⟨h.holds hne frame, fun _ => rfl⟩
  have hblocked := h.modifyTask hne fun v => { v with
    state := .blocked
    waitPid := pid
    waitStatus := status }
  simp only at hw
  split at hw
  · have hrunnable := hblocked.modifyTask hne fun v => { v with state := .runnable }
    cases hw
    exact ⟨hrunnable.holds hne frame, fun _ => rfl⟩
  · cases hw
    exact ⟨hblocked.switchTo hne _ frame, fun hsome => by cases hsome⟩

def wokenBy (pid : Int) (v : Task) : Task :=
  { v with
    frame := archSyscallReturn2 v.frame pid.toNat 0
    state := .runnable }

theorem Stored.wakeParent (h : Stored k t v) (old : Ptr) (w : Option Ptr) : Stored (k.wakeParent old w) t
    (if w = some t then wokenBy (k.task old).pid v else v) := by
  cases w with
  | none => exact h
  | some parent =>
    have hstored := h.table (setPhys_table k (k.phys.copyStatus (k.task parent).space (k.task parent).waitStatus
      ((k.task old).exitStatus <<< 8)))
    by_cases hne : t = parent
    · subst hne
      rw [if_pos rfl]
      exact hstored.modifySelf (wokenBy (k.task old).pid)
    · rw [if_neg fun he => hne (Option.some.inj he).symm]
      exact hstored.modifyTask hne (wokenBy (k.task old).pid)

theorem Stored.taskExit (h : Stored k t v) (hne : t ≠ k.current) (hr : Running k) {status : Int}
    (he : k.taskExit frame status = some r) :
    Holds t (if k.waiter k.current = some t then wokenBy (k.row k.current).pid v else v) r := by
  obtain ⟨woken, hwoken, hwaiter, -, hcur, -, -⟩ := exit_woken hr.mem hr.runnable status
  have hpid : ((k.markZombie k.current status).task k.current).pid = (k.row k.current).pid :=
    congrArg Row.pid (markZombie_row k status hr.mem) |>.trans (exitRow_pids k status none k.current).1
  have hstored := (h.markZombie hne status).wakeParent k.current (k.waiter k.current)
  rw [hpid, ← hwaiter, ← hwoken, hwaiter] at hstored
  unfold Kernel.taskExit at he
  simp only at he
  rw [← hwoken, hwaiter] at he
  clear hwoken
  split at he
  · cases he
  rename_i next _
  have hholds := hstored.switchTo (hcur ▸ hne) next frame
  have hdestroyed := hholds.stored.spaceDestroy hne
  cases he
  refine ⟨?_, fun hback => hholds.frame ?_⟩
  · dsimp only
    split
    · exact hdestroyed.taskFree hne
    · exact hdestroyed
  · split at hback <;> exact hback

theorem Stored.userExec (h : Stored k t v) (hne : t ≠ k.current) (frame : TaskFrame) (path : CString)
    (argv envp : List CString) : Stored (k.userExec frame path argv envp).2.2 t v := by
  unfold Kernel.userExec
  split
  · exact h.of_task rfl rfl
  split
  · exact h.of_task rfl rfl
  · rename_i space _ _ _ _ _ vfs _
    have hinit : Stored (initState { k with vfs := vfs }) t v := h.of_task rfl rfl
    exact (hinit.modifyTask hne fun v => { v with
      space := space
      fsBase := 0
      mmapNext := userMmapBase
      archState := (initState { k with vfs := vfs }).fpu }).of_task rfl rfl

theorem Stored.handleExec (h : Stored k t v) (hne : t ≠ k.current) (frame : TaskFrame) (path argv envp : Nat) :
    Stored (k.handleExec frame path argv envp).2.2 t v := by
  unfold Kernel.handleExec
  split
  · exact h
  split
  · exact h
  split
  · exact h
  · exact h.userExec hne frame _ _ _

theorem Execs.current (h : Execs k k') : k'.current = k.current := by
  cases h with
  | fails hs hn => exact hs.current
  | replaces hl hr hcur hcr3 hn => exact hcur

/-- What a call of the current task leaves of another task, of which `v` is stored: an exit wakes the
parent that waits for it. -/
def leaves (k : Kernel) (id : Nat) (t : Ptr) (v : Task) : Task :=
  if id = narcSysExit ∧ k.waiter k.current = some t then wokenBy (k.row k.current).pid v else v

theorem Stored.dispatched (h : Stored k t v) (hne : t ≠ k.current) (hz : v.state ≠ .zombie) (hr : Running k)
    (hserves : ∀ id k frame, Serves k (handle id k frame).2) {id : Nat} (hd : Dispatched handle k frame id r) :
    Holds t (k.leaves id t v) r := by
  have hsame : id ≠ narcSysExit → k.leaves id t v = v := fun hid => if_neg fun hw => hid hw.1
  cases hd with
  | nothing frame' hid =>
    rw [hsame hid]
    exact h.holds hne frame'
  | exit he =>
    simp only [leaves, true_and]
    exact h.taskExit hne hr he
  | yield =>
    rw [hsame (by decide)]
    exact h.taskYield hne _
  | fork frame' hf =>
    obtain ⟨hstored, hcur⟩ := h.taskFork hne hf
    rw [hsame (by decide)]
    exact hstored.holds (hcur ▸ hne) frame'
  | suspended hw =>
    rw [hsame (by decide)]
    exact (h.taskWait hne hz hw).1
  | answered frame' hw =>
    obtain ⟨hholds, hcur⟩ := h.taskWait hne hz hw
    rw [hsame (by decide)]
    exact hholds.stored.holds (hcur rfl ▸ hne) frame'
  | exec frame' =>
    have hcur := (handleExec_execs k frame frame.rdi frame.rsi frame.rdx).current
    rw [hsame (by decide)]
    exact (h.handleExec hne frame _ _ _).holds (hcur ▸ hne) frame'
  | @files id frame' hid =>
    have hs := hserves id k frame
    rw [hsame hid]
    exact (h.of_task hs.list (hs.other t hne)).holds (hs.current ▸ hne) frame'

end Kernel

end NarcOs
