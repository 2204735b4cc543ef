import NarcOs.Kernel.TaskLaws

/-!
# Round robin

`next_task` over the links of the task list, and the runs in which tasks take turns. The
task that it chooses is the first one, in the circle from the current one on, that can run,
so none is chosen twice while another one can run all the time.
-/

namespace NarcOs

/-- `next_task` with the variables `task_list` and `current`, for as many rounds of its
loop as it is given. -/
def nextTaskLoop (next : Ptr → Option Ptr) (taskList : Option Ptr) (task : Ptr → Task) (rounds : Nat)
    (current : Option Ptr) : Option (Option Ptr) :=
  walk next taskList (fun t => (task t).state = .runnable) rounds current

namespace Kernel

variable {k k' k₁ : Kernel} {t u : Ptr} {head : Option Ptr} {next : Ptr → Option Ptr} {rounds : Nat}

-- ---------------------------------------------------------------------------
-- The walk is the search
-- ---------------------------------------------------------------------------

theorem nextTask_eq (k : Kernel) :
    k.nextTask = (cycleFrom k.taskList (some k.current)).find? fun t => (k.task t).state = .runnable := rfl

/-- The loop gives what `nextTask` says, which the calls use. -/
theorem nextTaskLoop_eq (h : Chain next head k.taskList) (hc : k.current ∈ k.taskList) (hr : k.taskList.length ≤ rounds) :
    nextTaskLoop next head k.task rounds (some k.current) = some k.nextTask :=
  walk_eq h (fun _ hcur => Option.some.inj hcur ▸ hc) hr

/-- Without a current task it gives what `taskStart` looks for. -/
theorem nextTaskLoop_null (h : Chain next head k.taskList) (hr : k.taskList.length ≤ rounds) :
    nextTaskLoop next head k.task rounds none = some (k.taskList.find? fun t => (k.task t).state = .runnable) :=
  walk_eq h (fun _ hcur => by cases hcur) hr

-- ---------------------------------------------------------------------------
-- Runs
-- ---------------------------------------------------------------------------

def Ready (k : Kernel) (t : Ptr) : Prop := t ∈ k.taskList ∧ (k.task t).state = .runnable

/-- A run of yields and preemptions, with the tasks that `next_task` has chosen. `t` can run
at each of them. Between them tasks may block, wake up, exit and be freed; `switch` is what
`task_wait` and `task_exit` do with the task that is chosen there. -/
inductive RoundRobin (t : Ptr) : Kernel → List Ptr → Kernel → Prop
  | nil {k : Kernel} : RoundRobin t k [] k
  | yield {k k' : Kernel} {u : Ptr} {chosen : List Ptr} (frame : TaskFrame) : k.Ready t → k.nextTask = some u →
      RoundRobin t (k.taskYield frame).2 chosen k' → RoundRobin t k (u :: chosen) k'
  | preempt {k k' : Kernel} {u : Ptr} {chosen : List Ptr} (frame : TaskFrame) : k.Ready t → k.nextTask = some u →
      RoundRobin t (k.taskPreempt frame).2 chosen k' → RoundRobin t k (u :: chosen) k'
  | switch {k k' : Kernel} {u : Ptr} {chosen : List Ptr} (frame : TaskFrame) : k.Ready t → k.nextTask = some u →
      RoundRobin t (k.switchTo u frame).2 chosen k' → RoundRobin t k (u :: chosen) k'
  | other {k k₁ k' : Kernel} {chosen : List Ptr} : k₁.taskList.Sublist k.taskList → k₁.current = k.current → k₁.current ∈ k₁.taskList →
      RoundRobin t k₁ chosen k' → RoundRobin t k chosen k'

theorem taskYield_next (h : k.nextTask = some u) (frame : TaskFrame) :
    (k.taskYield frame).2.current = u ∧ (k.taskYield frame).2.taskList = k.taskList := by
  unfold taskYield
  rw [h]
  simp only
  split
  · rename_i hu
    exact ⟨hu.symm, rfl⟩
  · exact ⟨rfl, rfl⟩

theorem RoundRobin.turns {chosen : List Ptr} (h : RoundRobin t k chosen k') : Turns t k.taskList k.current chosen := by
  have hselect : ∀ {k k₁ : Kernel} {u chosen}, k.Ready t → k.nextTask = some u →
      k₁.current = u ∧ k₁.taskList = k.taskList → Turns t k₁.taskList k₁.current chosen →
      Turns t k.taskList k.current (u :: chosen) := by
    rintro k k₁ u chosen ⟨hmem, hrun⟩ hnext ⟨rfl, hlist⟩ hturns
    rw [hlist] at hturns
    exact .select (fun t => (k.task t).state = .runnable) hmem (decide_eq_true hrun) hnext hturns
  induction h with
  | nil => exact .nil
  | yield frame hready hnext _ ih => exact hselect hready hnext (taskYield_next hnext frame) ih
  | preempt frame hready hnext _ ih => exact hselect hready hnext (taskYield_next hnext frame) ih
  | @switch k k' u chosen frame hready hnext _ ih =>
    have hswitch : (k.switchTo u frame).2.current = u ∧ (k.switchTo u frame).2.taskList = k.taskList := ⟨rfl, rfl⟩
    exact hselect hready hnext hswitch ih
  | other hsub hcur hmem _ ih =>
    rw [hcur] at ih hmem
    exact .leave hsub hmem ih

-- ---------------------------------------------------------------------------
-- Waits and exits in a run
-- ---------------------------------------------------------------------------

theorem RoundRobin.before {chosen : List Ptr} (h : RoundRobin t k₁ chosen k') (hlist : k₁.taskList.Sublist k.taskList)
    (hcur : k₁.current = k.current) (hmem : k₁.current ∈ k₁.taskList) : RoundRobin t k chosen k' :=
  .other hlist hcur hmem h

theorem Ready.modifyTask (h : k.Ready t) (f : Task → Task) (hne : t ≠ u) : (k.modifyTask u f).Ready t :=
  ⟨h.1, (congrArg Task.state (Function.update_of_ne hne _ _)).trans h.2⟩

theorem taskWait_roundRobin {frame : TaskFrame} {pid : Int} {status : Nat} {options : Int} (hc : k.current ∈ k.taskList)
    (ht : k.Ready t) (hne : t ≠ k.current) (h : (k.taskWait frame pid status options).1 = none) :
    ∃ u, RoundRobin t k [u] (k.taskWait frame pid status options).2.2 := by
  unfold taskWait at h ⊢
  by_cases hbad : status ≠ 0 ∧ ¬ k.phys.vmmUserRangeOk (k.task k.current).space status 4 true
  · rw [if_pos hbad] at h
    cases h
  rw [if_neg hbad] at h ⊢
  cases hzombie : k.taskList.find? fun t => k.isChild t k.current pid ∧ (k.task t).state = .zombie with
  | some child =>
    simp only [hzombie] at h
    cases h
  | none =>
    simp only [hzombie] at h ⊢
    by_cases hany : k.taskList.any fun t => k.isChild t k.current pid
    · by_cases hoptions : options % 2 = 1
      · rw [if_neg (not_not.mpr hany), if_pos hoptions] at h
        cases h
      · rw [if_neg (not_not.mpr hany), if_neg hoptions] at h ⊢
        set blocked := k.modifyTask k.current fun v => { v with state := .blocked, waitPid := pid, waitStatus := status } with hblocked
        cases hnext : blocked.nextTask with
        | none =>
          simp only [hnext] at h
          cases h
        | some u =>
          have hrun : RoundRobin t blocked [u] (blocked.switchTo u frame).2 :=
            .switch frame (ht.modifyTask _ hne) hnext .nil
          exact ⟨u, hrun.before (List.Sublist.refl _) rfl hc⟩
    · rw [if_pos hany] at h
      cases h

theorem taskExit_roundRobin {frame frame' : TaskFrame} {status : Int} (hc : k.current ∈ k.taskList)
    (ht : k.Ready t) (hne : t ≠ k.current) (h : k.taskExit frame status = some (frame', k')) :
    ∃ u, RoundRobin t k [u] k' := by
  have hclosed := closeAll_rows k k.current
  have hlist : (k.markZombie k.current status).taskList = k.taskList := hclosed.list
  have hcur : (k.markZombie k.current status).current = k.current := hclosed.current
  have hdead := fun t (ht : t ∈ k.taskList) => markZombie_row k status ht
  unfold taskExit at h
  simp only at h
  generalize k.markZombie k.current status = zombie at *
  -- the parent that waits is not the zombie
  have hparent : ∀ u, zombie.waiter k.current = some u → u ≠ k.current := by
    rintro u hu rfl
    have hblocked := (waiter_eq_some hu).2.2.1
    rw [hdead _ hc, exitRow, if_pos rfl] at hblocked
    cases hblocked
  generalize zombie.waiter k.current = parent at *
  have hrow : ∀ t ∈ k.taskList, (zombie.wakeParent k.current parent).row t = k.exitRow status parent t :=
    fun t ht => wakeParent_row hparent (hdead t ht)
  obtain ⟨hlist', hcur', -⟩ := wakeParent_fields zombie k.current parent
  generalize zombie.wakeParent k.current parent = woken at *
  rw [hlist] at hlist'
  rw [hcur] at hcur'
  have hready : woken.Ready t := by
    refine ⟨hlist'.symm ▸ ht.1, ?_⟩
    show (woken.row t).state = _
    rw [hrow t ht.1, exitRow, if_neg hne]
    split
    · rfl
    · exact ht.2
  cases hnext : woken.nextTask with
  | none => simp [hnext] at h
  | some u =>
    simp only [hnext, Option.some.injEq, Prod.mk.injEq] at h
    obtain ⟨hmem, hrun⟩ := nextTask_some (by rw [hcur', hlist']; exact hc) hnext
    have hu : u ≠ k.current := by
      rintro rfl
      rw [hrow _ hc, exitRow, if_pos rfl] at hrun
      cases hrun
    have hl : k'.taskList = woken.taskList ∨ k'.taskList = woken.taskList.erase k.current := by
      rw [← h.2]
      split
      · exact .inr rfl
      · exact .inl rfl
    have hcurrent : k'.current = u := by
      rw [← h.2]
      split <;> rfl
    have hrest : RoundRobin t (woken.switchTo u frame).2 [] k' := by
      refine RoundRobin.nil.before ?_ hcurrent ?_
      · rcases hl with hl | hl <;> rw [hl]
        · exact List.Sublist.refl _
        · exact List.erase_sublist
      · rw [hcurrent]
        rcases hl with hl | hl <;> rw [hl]
        · exact hmem
        · exact (List.mem_erase_of_ne hu).mpr hmem
    refine ⟨u, (RoundRobin.switch frame hready hnext hrest).before ?_ hcur' ?_⟩
    · rw [hlist']
    · rw [hcur', hlist']
      exact hc

-- ---------------------------------------------------------------------------
-- Round robin
-- ---------------------------------------------------------------------------

theorem nextTask_roundRobin :
    (∀ (next : Ptr → Option Ptr) (taskList : Option Ptr) (list : List Ptr) (task : Ptr → Task) (current : Option Ptr),
      Chain next taskList list → (∀ c ∈ current, c ∈ list) →
      (∀ rounds ≥ list.length, nextTaskLoop next taskList task rounds current =
        some ((cycleFrom list current).find? fun t => (task t).state = .runnable)) ∧
      (((cycleFrom list current).find? fun t => (task t).state = .runnable) = none ↔
        ∀ t ∈ list, (task t).state ≠ .runnable)) ∧
    ∀ (t u : Ptr) (k k' : Kernel) (before between behind : List Ptr), k.taskList.Nodup → k.current ∈ k.taskList →
      RoundRobin t k (before ++ u :: (between ++ u :: behind)) k' → u ≠ t → t ∈ between := by
  refine ⟨fun next taskList list task current h hc => ⟨fun rounds hr => walk_eq h hc hr, ?_⟩, ?_⟩
  · rw [List.find?_eq_none]
    constructor
    · intro hnone t ht
      simpa using hnone t ((mem_cycleFrom hc).mpr ht)
    · intro hnone t ht
      simpa using hnone t ((mem_cycleFrom hc).mp ht)
  · intro t u k k' before between behind hl hc hrun hne
    exact hrun.turns.between hl hc hne

def pair : Kernel := { emptyKernel with
  taskList := [2, 3]
  task := fun _ => { state := .runnable }
  current := 2 }

theorem nextTask_roundRobin_pair :
    nextTaskLoop (fun t => if t = 2 then some 3 else none) (some 2) pair.task 2 (some 2) = some (some 3) ∧
      2 ∈ [2] := by
  constructor
  · have hchain : Chain (fun t : Ptr => if t = 2 then some 3 else none) (some 2) [2, 3] := .cons (.cons .nil)
    exact (nextTask_roundRobin.1 _ _ [2, 3] pair.task (some 2) hchain (by decide)).1 2 (by decide)
  · obtain ⟨k', hrun⟩ : ∃ k', RoundRobin 2 pair [3, 2, 3] k' :=
      ⟨_, .yield archTaskFrameInit ⟨by decide, rfl⟩ rfl (.preempt archTaskFrameInit ⟨by decide, rfl⟩ rfl
        (.yield archTaskFrameInit ⟨by decide, rfl⟩ rfl .nil))⟩
    exact nextTask_roundRobin.2 2 3 pair k' [] [2] [] (by decide) (by decide) hrun (by decide)

end Kernel
end NarcOs
