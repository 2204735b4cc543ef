import NarcOs.Kernel.Table

/-!
# Zombies and their parents

What fork, wait, exit and the scheduler do to the pids, parents and states of
the tasks in the list. `task_exit` leaves the children of the task to a parent
that is gone, so a zombie can end up with nobody to wait for it; `runs_reapable`
says which exits do not do that.
-/

namespace NarcOs

namespace Kernel

def key (k : Kernel) (t : Ptr) : Int × Int × TaskState :=
  ((k.task t).pid, (k.task t).ppid, (k.task t).state)

structure SameTasks (k k' : Kernel) : Prop where
  list : k'.taskList = k.taskList
  current : k'.current = k.current
  key : ∀ t ∈ k.taskList, k'.key t = k.key t
  next : 1 ≤ k.nextPid → 1 ≤ k'.nextPid

variable {k k' k'' : Kernel} {t u : Ptr}

theorem SameTasks.refl (k : Kernel) : SameTasks k k := ⟨rfl, rfl, fun _ _ => rfl, id⟩

theorem key_of_row (h : k'.row t = k.row t) : k'.key t = k.key t :=
  congrArg (fun r : Row => (r.pid, r.ppid, r.state)) h

theorem SameRows.same (h : SameRows k k') (hn : 1 ≤ k.nextPid → 1 ≤ k'.nextPid) : SameTasks k k' :=
  ⟨h.list, h.current, fun t ht => key_of_row (h.row t ht), hn⟩

-- ---------------------------------------------------------------------------
-- The list
-- ---------------------------------------------------------------------------

structure TasksOk (k : Kernel) : Prop where
  nodup : k.taskList.Nodup
  pos : ∀ t ∈ k.taskList, 0 < (k.task t).pid
  inj : ∀ t ∈ k.taskList, ∀ u ∈ k.taskList, (k.task t).pid = (k.task u).pid → t = u
  current : k.current ∈ k.taskList
  running : (k.task k.current).state = .runnable
  init : ∃ t ∈ k.taskList, (k.task t).pid = 1 ∧ (k.task t).ppid = 0
  self : ∀ t ∈ k.taskList, (k.task t).ppid ≠ (k.task t).pid
  next : 1 ≤ k.nextPid

/-- Every zombie but init has a parent in the list that is not a zombie. -/
def Reapable (k : Kernel) : Prop :=
  ∀ t ∈ k.taskList, (k.task t).state = .zombie → (k.task t).pid ≠ 1 →
    ∃ u ∈ k.taskList, (k.task u).pid = (k.task t).ppid ∧ (k.task u).state ≠ .zombie

theorem key_eq_iff : k'.key t = k.key u ↔ (k'.task t).pid = (k.task u).pid ∧
    (k'.task t).ppid = (k.task u).ppid ∧ (k'.task t).state = (k.task u).state := by
  simp [key]

theorem SameTasks.fields (h : SameTasks k k') (ht : t ∈ k.taskList) :
    (k'.task t).pid = (k.task t).pid ∧ (k'.task t).ppid = (k.task t).ppid ∧
      (k'.task t).state = (k.task t).state :=
  key_eq_iff.mp (h.key t ht)

theorem SameTasks.ok (h : SameTasks k k') (hk : TasksOk k) : TasksOk k' := by
  have hpid := fun t ht => (h.fields (t := t) ht).1
  constructor
  · rw [h.list]
    exact hk.nodup
  · rw [h.list]
    intro t ht
    rw [hpid t ht]
    exact hk.pos t ht
  · rw [h.list]
    intro t ht u hu
    rw [hpid t ht, hpid u hu]
    exact hk.inj t ht u hu
  · rw [h.current, h.list]
    exact hk.current
  · rw [h.current, (h.fields hk.current).2.2]
    exact hk.running
  · obtain ⟨t, ht, h₁, h₂⟩ := hk.init
    refine ⟨t, h.list.symm ▸ ht, ?_, ?_⟩
    · rw [hpid t ht, h₁]
    · rw [(h.fields ht).2.1, h₂]
  · rw [h.list]
    intro t ht
    rw [hpid t ht, (h.fields ht).2.1]
    exact hk.self t ht
  · exact h.next hk.next

theorem SameTasks.reapable (h : SameTasks k k') (hr : Reapable k) : Reapable k' := by
  intro t ht hz hne
  rw [h.list] at ht
  obtain ⟨hp, hpp, hst⟩ := h.fields ht
  rw [hst] at hz
  rw [hp] at hne
  obtain ⟨u, hu, hpid, hlive⟩ := hr t ht hz hne
  obtain ⟨hp', -, hst'⟩ := h.fields hu
  exact ⟨u, h.list.symm ▸ hu, by rw [hp', hpp, hpid], by rwa [hst']⟩

theorem findTask_spec {pid : Int} (h : k.findTask pid = some t) :
    t ∈ k.taskList ∧ (k.task t).pid = pid :=
  ⟨List.mem_of_find?_eq_some h, by simpa using List.find?_some h⟩

theorem findTask_none {pid : Int} (h : k.findTask pid = none) :
    ∀ t ∈ k.taskList, (k.task t).pid ≠ pid := by
  simpa [findTask] using h

-- ---------------------------------------------------------------------------
-- Fork
-- ---------------------------------------------------------------------------

structure Allocated (k k' : Kernel) (t : Ptr) : Prop where
  fresh : t ∉ k.taskList
  list : k'.taskList = k.taskList ++ [t]
  current : k'.current = k.current
  key : ∀ u ∈ k.taskList, k'.key u = k.key u
  pos : 0 < (k'.task t).pid
  unused : ∀ u ∈ k.taskList, (k.task u).pid ≠ (k'.task t).pid
  self : (k'.task t).ppid ≠ (k'.task t).pid
  next : 1 ≤ k'.nextPid

theorem Allocated.ok (h : Allocated k k' t) (hk : TasksOk k) : TasksOk k' := by
  have hpid : ∀ u ∈ k.taskList, (k'.task u).pid = (k.task u).pid := fun u hu =>
    (key_eq_iff.mp (h.key u hu)).1
  have hmem : ∀ {u}, u ∈ k'.taskList ↔ u ∈ k.taskList ∨ u = t := by simp [h.list]
  constructor
  · rw [h.list]
    exact List.nodup_append.mpr ⟨hk.nodup, List.nodup_singleton t, fun a ha b hb e => by
      rw [List.mem_singleton.mp hb] at e
      exact h.fresh (e ▸ ha)⟩
  · intro u hu
    rcases hmem.mp hu with hu | rfl
    · rw [hpid u hu]
      exact hk.pos u hu
    · exact h.pos
  · intro u hu v hv e
    rcases hmem.mp hu with hu | rfl <;> rcases hmem.mp hv with hv | rfl
    · rw [hpid u hu, hpid v hv] at e
      exact hk.inj u hu v hv e
    · rw [hpid u hu] at e
      exact absurd e (h.unused u hu)
    · rw [hpid v hv] at e
      exact absurd e.symm (h.unused v hv)
    · rfl
  · rw [h.current]
    exact hmem.mpr (.inl hk.current)
  · rw [h.current, (key_eq_iff.mp (h.key _ hk.current)).2.2]
    exact hk.running
  · obtain ⟨u, hu, h₁, h₂⟩ := hk.init
    exact ⟨u, hmem.mpr (.inl hu), by rw [hpid u hu, h₁], by
      rw [(key_eq_iff.mp (h.key u hu)).2.1, h₂]⟩
  · intro u hu
    rcases hmem.mp hu with hu | rfl
    · rw [hpid u hu, (key_eq_iff.mp (h.key u hu)).2.1]
      exact hk.self u hu
    · exact h.self
  · exact h.next

structure Forked (k k' : Kernel) (t : Ptr) : Prop where
  allocated : Allocated k k' t
  ppid : (k'.task t).ppid = (k.task k.current).pid
  runnable : (k'.task t).state = .runnable

/-- A fork changes nothing, or adds a child of the current task that can run. -/
theorem Forks.forked_or {allocated : Bool} {r : Int} (hf : Forks k k' allocated r) (hk : TasksOk k) : SameTasks k k' ∨ ∃ t, Forked k k' t := by
  cases hf with
  | refused hs hn => exact .inl (hs.same fun h => hn ▸ h)
  | undone hs hp => exact .inl (hs.same fun h => (hp h).next_pos)
  | @forked t pid space ht hl hr hc hcur hcr3 hnew hp =>
    have hchosen := hp hk.next
    have hpid : (k'.task t).pid = r := congrArg Row.pid hc
    have hppid : (k'.task t).ppid = (k.task k.current).pid := congrArg Row.ppid hc
    refine .inr ⟨t, ⟨ht, hl, hcur, fun u hu => key_of_row (hr u hu), ?_, ?_, ?_, hchosen.next_pos⟩, hppid,
      congrArg Row.state hc⟩
    · rw [hpid]
      exact Int.lt_of_lt_of_le Int.zero_lt_one hchosen.pos
    · rw [hpid]
      exact hnew
    · rw [hppid, hpid]
      exact hnew _ hk.current

theorem Forked.reapable (hf : Forked k k' t) (hr : Reapable k) : Reapable k' := by
  have h := hf.allocated
  intro u hu hz hne
  rw [h.list, List.mem_append, List.mem_singleton] at hu
  rcases hu with hu | rfl
  · obtain ⟨hp, hpp, hst⟩ := key_eq_iff.mp (h.key u hu)
    rw [hst] at hz
    rw [hp] at hne
    obtain ⟨v, hv, hpid, hlive⟩ := hr u hu hz hne
    obtain ⟨hp', -, hst'⟩ := key_eq_iff.mp (h.key v hv)
    exact ⟨v, by simp [h.list, hv], by rw [hp', hpp, hpid], by rwa [hst']⟩
  · rw [hf.runnable] at hz
    cases hz

-- ---------------------------------------------------------------------------
-- Scheduling
-- ---------------------------------------------------------------------------

structure Moved (k k' : Kernel) (s : Ptr → TaskState) : Prop where
  list : k'.taskList = k.taskList
  pid : ∀ t ∈ k.taskList, (k'.task t).pid = (k.task t).pid ∧ (k'.task t).ppid = (k.task t).ppid
  state : ∀ t ∈ k.taskList, (k'.task t).state = s t
  current : k'.current ∈ k.taskList
  running : s k'.current = .runnable
  next : 1 ≤ k.nextPid → 1 ≤ k'.nextPid

theorem Moved.ok {s : Ptr → TaskState} (h : Moved k k' s) (hk : TasksOk k) : TasksOk k' := by
  constructor
  · rw [h.list]
    exact hk.nodup
  · rw [h.list]
    intro t ht
    rw [(h.pid t ht).1]
    exact hk.pos t ht
  · rw [h.list]
    intro t ht u hu
    rw [(h.pid t ht).1, (h.pid u hu).1]
    exact hk.inj t ht u hu
  · rw [h.list]
    exact h.current
  · rw [h.state _ h.current]
    exact h.running
  · obtain ⟨t, ht, h₁, h₂⟩ := hk.init
    exact ⟨t, h.list.symm ▸ ht, by rw [(h.pid t ht).1, h₁], by rw [(h.pid t ht).2, h₂]⟩
  · rw [h.list]
    intro t ht
    rw [(h.pid t ht).1, (h.pid t ht).2]
    exact hk.self t ht
  · exact h.next hk.next

theorem Moved.reapable_iff {s : Ptr → TaskState} (h : Moved k k' s) : Reapable k' ↔
    ∀ t ∈ k.taskList, s t = .zombie → (k.task t).pid ≠ 1 →
      ∃ u ∈ k.taskList, (k.task u).pid = (k.task t).ppid ∧ s u ≠ .zombie := by
  unfold Reapable
  rw [h.list]
  refine forall₂_congr fun t ht => ?_
  rw [h.state t ht, (h.pid t ht).1, (h.pid t ht).2]
  refine imp_congr_right fun _ => imp_congr_right fun _ => exists_congr fun u => ?_
  constructor
  · rintro ⟨hu, h₁, h₂⟩
    rw [(h.pid u hu).1] at h₁
    rw [h.state u hu] at h₂
    exact ⟨hu, h₁, h₂⟩
  · rintro ⟨hu, h₁, h₂⟩
    rw [← (h.pid u hu).1] at h₁
    rw [← h.state u hu] at h₂
    exact ⟨hu, h₁, h₂⟩

def withState (k : Kernel) (t : Ptr) (s : TaskState) : Ptr → TaskState :=
  Function.update (fun u => (k.task u).state) t s

theorem Yields.moved (hy : Yields k k') (hk : TasksOk k) : Moved k k' fun t => (k.task t).state := by
  have hkeys : ∀ t, k'.row t = k.row t → ((k'.task t).pid = (k.task t).pid ∧ (k'.task t).ppid = (k.task t).ppid) ∧
      (k'.task t).state = (k.task t).state :=
    fun t h => ⟨⟨congrArg Row.pid h, congrArg Row.ppid h⟩, congrArg Row.state h⟩
  cases hy with
  | stays hs hn =>
    refine ⟨hs.list, fun t ht => (hkeys t (hs.row t ht)).1, fun t ht => (hkeys t (hs.row t ht)).2, ?_, ?_, fun h => hn ▸ h⟩
    · exact hs.current ▸ hk.current
    · rw [hs.current]
      exact hk.running
  | switches hm hr hs =>
    refine ⟨hs.list, fun t _ => (hkeys t (hs.row t)).1, fun t _ => (hkeys t (hs.row t)).2, ?_, ?_, fun h => hs.nextPid ▸ h⟩
    · exact hs.current ▸ hm
    · rw [hs.current]
      exact hr

-- ---------------------------------------------------------------------------
-- Removal
-- ---------------------------------------------------------------------------

theorem mem_taskFree (hk : TasksOk k) : u ∈ (k.taskFree t).taskList ↔ u ≠ t ∧ u ∈ k.taskList :=
  hk.nodup.mem_erase_iff

theorem taskFree_ok (hk : TasksOk k) (hc : t ≠ k.current) (hi : (k.task t).ppid ≠ 0) :
    TasksOk (k.taskFree t) where
  nodup := hk.nodup.erase t
  pos u hu := hk.pos u ((mem_taskFree hk).mp hu).2
  inj u hu v hv := hk.inj u ((mem_taskFree hk).mp hu).2 v ((mem_taskFree hk).mp hv).2
  current := (mem_taskFree hk).mpr ⟨hc.symm, hk.current⟩
  running := hk.running
  init := by
    obtain ⟨u, hu, h₁, h₂⟩ := hk.init
    refine ⟨u, (mem_taskFree hk).mpr ⟨?_, hu⟩, h₁, h₂⟩
    rintro rfl
    exact hi h₂
  self u hu := hk.self u ((mem_taskFree hk).mp hu).2
  next := hk.next

theorem taskFree_reapable (hk : TasksOk k) (hz : (k.task t).state = .zombie) (hr : Reapable k) :
    Reapable (k.taskFree t) := by
  intro u hu hzu hne
  obtain ⟨-, hu⟩ := (mem_taskFree hk).mp hu
  obtain ⟨v, hv, hpid, hlive⟩ := hr u hu hzu hne
  refine ⟨v, (mem_taskFree hk).mpr ⟨?_, hv⟩, hpid, hlive⟩
  rintro rfl
  exact hlive hz

-- ---------------------------------------------------------------------------
-- Wait
-- ---------------------------------------------------------------------------

/-- A task that waits is no zombie, before and after. -/
theorem Moved.blocked_reapable (h : Moved k k' (k.withState t .blocked)) (hr : Reapable k) : Reapable k' := by
  have hlive : ∀ u, (k.task u).state ≠ .zombie → k.withState t .blocked u ≠ .zombie := by
    intro u hu
    by_cases hut : u = t
    · subst hut
      simp [withState]
    · simpa [withState, hut] using hu
  refine h.reapable_iff.mpr fun u hu hz hne => ?_
  have hzu : (k.task u).state = .zombie := by
    by_contra hn
    exact hlive u hn hz
  obtain ⟨v, hv, hpid, hl⟩ := hr u hu hzu hne
  exact ⟨v, hv, hpid, hlive v hl⟩

/-- A wait keeps the list and the states, or collects a zombie child of the
current task, or suspends the current task. -/
theorem Waits.keeps {pid : Int} {status : Nat} {options : Int} {result : Option Int}
    (hw : Waits k k' pid status options result) (hk : TasksOk k) : TasksOk k' ∧ (Reapable k → Reapable k') := by
  have hsame : SameTasks k k' → TasksOk k' ∧ (Reapable k → Reapable k') := fun hs => ⟨hs.ok hk, hs.reapable⟩
  cases hw with
  | refused hbad hs hn => exact hsame (hs.same fun h => hn ▸ h)
  | @reaped t ht hz hc hl hr hcur hcr3 hn =>
    have hgone : SameTasks (k.taskFree t) k' := ⟨hl, hcur, fun u _ => key_of_row (hr u), fun h => hn ▸ h⟩
    have hne : t ≠ k.current := by
      rintro rfl
      have hrun : (k.row k.current).state = .runnable := hk.running
      rw [hz] at hrun
      cases hrun
    have hppid : (k.task t).ppid ≠ 0 := by
      rw [show (k.task t).ppid = (k.task k.current).pid from hc.1]
      exact (hk.pos _ hk.current).ne'
    exact ⟨hgone.ok (taskFree_ok hk hne hppid), fun h => hgone.reapable (taskFree_reapable hk hz h)⟩
  | childless hnone hs hn => exact hsame (hs.same fun h => hn ▸ h)
  | running ht hc hz ho hs hn => exact hsame (hs.same fun h => hn ▸ h)
  | stuck ht hc hz hstuck hl hr hcur hcr3 hn =>
    refine hsame ⟨hl, hcur, fun u _ => ?_, fun h => hn ▸ h⟩
    have hrow := hr u
    split at hrow
    · rename_i hu
      subst hu
      rw [key_eq_iff]
      exact ⟨congrArg Row.pid hrow, congrArg Row.ppid hrow, (congrArg Row.state hrow).trans hk.running.symm⟩
    · exact key_of_row hrow
  | suspended ht hc hz hm hne hrun hl hr hcur hcr3 hn =>
    have hmoved : Moved k k' (k.withState k.current .blocked) := by
      refine ⟨hl, fun u _ => ?_, fun u _ => ?_, hcur ▸ hm, ?_, fun h => hn ▸ h⟩
      · have hrow := hr u
        split at hrow <;> exact ⟨congrArg Row.pid hrow, congrArg Row.ppid hrow⟩
      · have hrow := congrArg Row.state (hr u)
        unfold withState
        by_cases hu : u = k.current
        · rw [hu, Function.update_self]
          rw [hu, if_pos rfl] at hrow
          exact hrow
        · rw [Function.update_of_ne hu]
          rw [if_neg hu] at hrow
          exact hrow
      · rw [hcur, withState, Function.update_of_ne hne]
        exact hrun
    exact ⟨hmoved.ok hk, hmoved.blocked_reapable⟩

-- ---------------------------------------------------------------------------
-- Exit
-- ---------------------------------------------------------------------------

def exitStates (k : Kernel) (w : Option Ptr) (t : Ptr) : TaskState :=
  if t = k.current then .zombie else if w = some t then .runnable else (k.task t).state

theorem exitRow_state (k : Kernel) (status : Int) (w : Option Ptr) (t : Ptr) :
    (k.exitRow status w t).state = k.exitStates w t := by
  unfold exitRow exitStates
  split
  · rfl
  · split <;> rfl

/-- An exit makes the current task a zombie; a parent that waits is woken, and
then the zombie is removed. -/
theorem Exits.moved {status : Int} {next : Ptr} (he : Exits k k' status next) :
    ∃ k₁, Moved k k₁ (k.exitStates (k.waiter k.current)) ∧
      k' = if (k.waiter k.current).isSome then k₁.taskFree k.current else k₁ := by
  have hrow : ∀ t ∈ k.taskList, ((k'.task t).pid = (k.task t).pid ∧ (k'.task t).ppid = (k.task t).ppid) ∧
      (k'.task t).state = k.exitStates (k.waiter k.current) t := fun t ht => by
    have hkept : ∀ {r : Row}, k'.row t = r → r.pid = (k.row t).pid → r.ppid = (k.row t).ppid →
        r.state = k.exitStates (k.waiter k.current) t → ((k'.task t).pid = (k.task t).pid ∧
          (k'.task t).ppid = (k.task t).ppid) ∧ (k'.task t).state = k.exitStates (k.waiter k.current) t := by
      rintro r rfl hpid hppid hstate
      exact ⟨⟨hpid, hppid⟩, hstate⟩
    obtain ⟨hpid, hppid⟩ := exitRow_pids k status (k.waiter k.current) t
    have hstate := exitRow_state k status (k.waiter k.current) t
    by_cases hne : t = k.current
    · subst hne
      obtain ⟨space, hgone⟩ := he.gone
      exact hkept hgone hpid hppid hstate
    · exact hkept (he.row t ht hne) hpid hppid hstate
  refine ⟨{ k' with taskList := k.taskList }, ⟨rfl, fun t ht => (hrow t ht).1, fun t ht => (hrow t ht).2, ?_, ?_, ?_⟩, ?_⟩
  · exact he.current ▸ he.mem
  · show k.exitStates _ k'.current = _
    rw [he.current, ← exitRow_state k status]
    exact he.runnable
  · exact fun h => he.nextPid ▸ h
  · have hl := he.list
    split
    · rename_i hw
      rw [if_pos hw] at hl
      rw [taskFree, ← hl]
    · rename_i hw
      rw [if_neg hw] at hl
      rw [← hl]

/-- The current task can exit and leave no zombie that nobody can wait for: it
has no zombie children, and its own parent is there to wait for it. -/
def ExitSafe (k : Kernel) : Prop :=
  (∀ t ∈ k.taskList, (k.task t).state = .zombie → (k.task t).ppid ≠ (k.task k.current).pid) ∧
    ((k.task k.current).pid = 1 ∨ ∃ u ∈ k.taskList, (k.task u).pid = (k.task k.current).ppid ∧
      (k.task u).state ≠ .zombie)

theorem exitStates_of_ne {w : Option Ptr} (h : t ≠ k.current) (hz : k.exitStates w t = .zombie) :
    (k.task t).state = .zombie := by
  rw [exitStates, if_neg h] at hz
  split at hz
  · cases hz
  · exact hz

theorem exitStates_of_zombie {w : Option Ptr} (hw : w ≠ some t) (hz : (k.task t).state = .zombie) :
    k.exitStates w t = .zombie := by
  rw [exitStates, if_neg hw, hz]
  exact ite_self _

theorem exitStates_live {w : Option Ptr} (h : t ≠ k.current) (hl : (k.task t).state ≠ .zombie) :
    k.exitStates w t ≠ .zombie := fun hz => hl (exitStates_of_ne h hz)

theorem exit_reapable_of_safe {w : Option Ptr} (hk : TasksOk k) (hr : Reapable k)
    (hm : Moved k k' (k.exitStates w)) (hs : ExitSafe k) : Reapable k' := by
  rw [hm.reapable_iff]
  intro t ht hz hne
  by_cases hc : t = k.current
  · subst hc
    obtain ⟨u, hu, hpid, hlive⟩ := hs.2.resolve_left hne
    refine ⟨u, hu, hpid, exitStates_live ?_ hlive⟩
    rintro rfl
    exact hk.self _ ht hpid.symm
  · have hzt := exitStates_of_ne hc hz
    obtain ⟨u, hu, hpid, hlive⟩ := hr t ht hzt hne
    refine ⟨u, hu, hpid, exitStates_live ?_ hlive⟩
    rintro rfl
    exact hs.1 t ht hzt hpid.symm

theorem child_ne_init (hk : TasksOk k) (ht : t ∈ k.taskList)
    (hp : (k.task t).ppid = (k.task k.current).pid) : (k.task t).pid ≠ 1 := by
  intro h
  obtain ⟨i, hi, h₁, h₂⟩ := hk.init
  obtain rfl := hk.inj t ht i hi (h.trans h₁.symm)
  have := hk.pos _ hk.current
  omega

theorem taskExit_reapable_iff (hk : TasksOk k) (hr : Reapable k) {frame frame' : TaskFrame}
    {status : Int} (h : k.taskExit frame status = some (frame', k')) :
    TasksOk k' ∧ (Reapable k' ↔ ExitSafe k) := by
  obtain ⟨next, he⟩ := taskExit_exits hk.current hk.running h
  obtain ⟨k₁, hm, rfl⟩ := he.moved
  have hw := fun u => waiter_eq_some (k := k) (t := k.current) (u := u)
  generalize k.waiter k.current = w at hm hw ⊢
  have hok := hm.ok hk
  have hdead : (k₁.task k.current).state = .zombie := by
    rw [hm.state _ hk.current, exitStates, if_pos rfl]
  have hmoved : k.current ≠ k₁.current := by
    intro e
    have := hok.running
    rw [← e, hdead] at this
    cases this
  cases w with
  | none =>
    refine ⟨hok, fun hr' => ?_, exit_reapable_of_safe hk hr hm⟩
    rw [if_neg (by simp), hm.reapable_iff] at hr'
    refine ⟨fun t ht hz hp => ?_, ?_⟩
    · have hz' : k.exitStates none t = .zombie := exitStates_of_zombie (by simp) hz
      obtain ⟨u, hu, hpid, hlive⟩ := hr' t ht hz' (child_ne_init hk ht hp)
      obtain rfl := hk.inj u hu _ hk.current (hpid.trans hp)
      exact hlive (if_pos rfl)
    · by_cases h1 : (k.task k.current).pid = 1
      · exact .inl h1
      · obtain ⟨u, hu, hpid, hlive⟩ := hr' _ hk.current (if_pos rfl) h1
        exact .inr ⟨u, hu, hpid, fun hz => hlive (exitStates_of_zombie (by simp) hz)⟩
  | some p =>
    obtain ⟨hp, hpid, hblocked, -⟩ := hw p rfl
    replace hpid : (k.task p).pid = (k.task k.current).ppid := hpid
    replace hblocked : (k.task p).state = .blocked := hblocked
    have hppid : (k₁.task k.current).ppid ≠ 0 := by
      rw [(hm.pid _ hk.current).2, ← hpid]
      have := hk.pos p hp
      omega
    rw [if_pos (by simp)]
    refine ⟨taskFree_ok hok hmoved hppid, fun hr' => ⟨fun t ht hz hpt => ?_, ?_⟩, fun hs => ?_⟩
    · have htc : t ≠ k.current := by
        rintro rfl
        have := hk.running
        rw [hz] at this
        cases this
      have htp : p ≠ t := by
        rintro rfl
        rw [hz] at hblocked
        cases hblocked
      have ht' : t ∈ (k₁.taskFree k.current).taskList :=
        (mem_taskFree hok).mpr ⟨htc, hm.list.symm ▸ ht⟩
      have hz' : (k₁.task t).state = .zombie := by
        rw [hm.state t ht]
        exact exitStates_of_zombie (fun e => htp (Option.some.inj e)) hz
      have hne : (k₁.task t).pid ≠ 1 := by
        rw [(hm.pid t ht).1]
        exact child_ne_init hk ht hpt
      obtain ⟨u, hu, hup, -⟩ := hr' t ht' hz' hne
      obtain ⟨huc, hul⟩ := (mem_taskFree hok).mp hu
      have hup' : (k₁.task u).pid = (k₁.task t).ppid := hup
      rw [hm.list] at hul
      rw [(hm.pid u hul).1, (hm.pid t ht).2, hpt] at hup'
      exact huc (hk.inj u hul _ hk.current hup')
    · exact .inr ⟨p, hp, hpid, by rw [hblocked]; decide⟩
    · exact taskFree_reapable hok hdead (exit_reapable_of_safe hk hr hm hs)

-- ---------------------------------------------------------------------------
-- Boot
-- ---------------------------------------------------------------------------

theorem fdReserve_rows (k : Kernel) (t : Ptr) (fd : Nat) :
    SameRows k (k.fdReserve t fd).2 ∧ (k.fdReserve t fd).2.nextPid = k.nextPid := by
  unfold fdReserve
  split
  · exact ⟨SameRows.refl k, rfl⟩
  split
  · exact ⟨SameRows.refl k, rfl⟩
  have h := kmalloc_table k []
  generalize k.kmalloc [] = a at h ⊢
  obtain ⟨_ | f, k₁⟩ := a
  · exact ⟨h.rows, h.nextPid⟩
  · obtain ⟨hrows, hnext⟩ : SameRows k k₁ ∧ k₁.nextPid = k.nextPid := ⟨h.rows, h.nextPid⟩
    simp only
    refine ⟨hrows.trans (modifyTask_rows ?_ k₁ t), hnext⟩
    exact fun _ => rfl

theorem fdInstall_rows (k : Kernel) (t f : Ptr) (minimum : Nat) :
    SameRows k (k.fdInstall t f minimum).2 ∧ (k.fdInstall t f minimum).2.nextPid = k.nextPid := by
  unfold fdInstall
  simp only
  generalize minimum + (((k.task t).fds.drop minimum).takeWhile Option.isSome).length = fd
  have h := fdReserve_rows k t fd
  generalize k.fdReserve t fd = a at h ⊢
  obtain ⟨_ | _, k₁⟩ := a
  · exact h
  · obtain ⟨hrows, hnext⟩ : SameRows k k₁ ∧ k₁.nextPid = k.nextPid := h
    simp only
    refine ⟨hrows.trans (modifyTask_rows ?_ k₁ t), hnext⟩
    exact fun _ => rfl

theorem initFds_rows (t : Ptr) (fds : List Nat) (k : Kernel) :
    SameRows k (initFds t fds k).2 ∧ (initFds t fds k).2.nextPid = k.nextPid := by
  induction fds generalizing k with
  | nil => exact ⟨SameRows.refl k, rfl⟩
  | cons fd fds ih =>
    rw [initFds]
    have hnew := fileNew_table k .console
    generalize k.fileNew .console = a at hnew ⊢
    obtain ⟨_ | f, k₁⟩ := a
    · exact ⟨hnew.rows.trans (closeAll_rows k₁ t), (closeAll_nextPid k₁ t).trans hnew.nextPid⟩
    have hins := fdInstall_rows k₁ t f fd
    simp only
    generalize k₁.fdInstall t f fd = a at hins ⊢
    obtain ⟨installed, k₂⟩ := a
    have hput := filePut_table k₂ (some f)
    simp only
    split
    · exact ⟨(hnew.rows.trans hins.1).trans (hput.rows.trans (closeAll_rows _ t)),
        ((closeAll_nextPid _ t).trans hput.nextPid).trans (hins.2.trans hnew.nextPid)⟩
    · exact ⟨(hnew.rows.trans hins.1).trans (ih k₂).1, (ih k₂).2.trans (hins.2.trans hnew.nextPid)⟩

theorem taskAlloc_first (hl : k.taskList = []) (hn : k.nextPid = 1)
    (h : k.taskAlloc = some (some t, k')) : k'.taskList = [t] ∧ k'.task t = { pid := 1 } ∧ k'.nextPid = 2 := by
  obtain ⟨hnone, -⟩ | ⟨u, pid, hu, hadd⟩ := taskAlloc_added h
  · cases hnone
  cases hu
  have hchosen := hadd.chosen (le_of_eq hn.symm)
  obtain ⟨hpid, hnext⟩ := hchosen.first (by simp [hl])
  rw [hn] at hpid hnext
  refine ⟨by rw [hadd.list, hl, List.nil_append], ?_, hnext⟩
  rw [hadd.task, Function.update_self, hpid]

/-- The state in which init runs: `user_start` has made it in an empty list, the
loader and the rest of the start have left the list alone. -/
def Booted (k : Kernel) : Prop :=
  ∃ (k₀ k₁ k₂ : Kernel) (t : Ptr) (frame : TaskFrame), k₀.taskList = [] ∧ k₀.nextPid = 1 ∧ k₀.taskCreate = some (some t, k₁) ∧
    SameTasks k₁ k₂ ∧ k₂.taskStart = some (frame, k)

theorem taskCreate_first (hl : k.taskList = []) (hn : k.nextPid = 1)
    (h : k.taskCreate = some (some t, k')) :
    k'.taskList = [t] ∧ k'.key t = (1, 0, .runnable) ∧ k'.nextPid = 2 := by
  unfold taskCreate at h
  cases ha : k.taskAlloc with
  | none => simp [ha] at h
  | some a =>
    obtain ⟨_ | u, k₁⟩ := a
    · simp [ha] at h
    rw [ha] at h
    obtain ⟨h₁, h₂, h₃⟩ := taskAlloc_first hl hn ha
    simp only at h
    generalize k₁.phys.vmmSpaceCreate k₁.cr3 = c at h
    obtain ⟨_ | root, phys⟩ := c
    · simp at h
    simp only at h
    generalize hready : readyTask root (k₁.setPhys phys).initState.fpu = ready at h
    have hfds := initFds_rows u [0, 1, 2] ((k₁.setPhys phys).initState.modifyTask u ready)
    have hkey : ((k₁.setPhys phys).initState.modifyTask u ready).key u = (1, 0, .runnable) := by
      rw [← hready]
      simp [key, modifyTask, setPhys, initState, readyTask, h₂]
    have hlist : ((k₁.setPhys phys).initState.modifyTask u ready).taskList = [u] := h₁
    have hnext : ((k₁.setPhys phys).initState.modifyTask u ready).nextPid = 2 := h₃
    generalize (k₁.setPhys phys).initState.modifyTask u ready = k₂ at h hfds hkey hlist hnext
    generalize initFds u [0, 1, 2] k₂ = c at h hfds
    obtain ⟨_ | _, k₃⟩ := c
    · simp at h
    simp only [Option.some.injEq, Prod.mk.injEq] at h
    obtain ⟨rfl, rfl⟩ := h
    obtain ⟨hrows, hkept⟩ : SameRows k₂ k₃ ∧ k₃.nextPid = k₂.nextPid := hfds
    exact ⟨hrows.list.trans hlist, (key_of_row (hrows.row u (by simp [hlist]))).trans hkey, hkept.trans hnext⟩

theorem Booted.ok (h : Booted k) : TasksOk k ∧ Reapable k := by
  obtain ⟨k₀, k₁, k₂, t, frame, hl, hn, hcreate, hsame, hstart⟩ := h
  obtain ⟨h₁, h₂, h₃⟩ := taskCreate_first hl hn hcreate
  have hlist : k₂.taskList = [t] := hsame.list.trans h₁
  have hkey : k₂.key t = (1, 0, .runnable) := (hsame.key t (by simp [h₁])).trans h₂
  rw [Kernel.key, Prod.mk.injEq, Prod.mk.injEq] at hkey
  obtain ⟨hp, hpp, hst⟩ := hkey
  unfold taskStart at hstart
  rw [hlist, List.find?_cons_of_pos (by simpa using hst)] at hstart
  simp only [Option.some.injEq, Prod.mk.injEq] at hstart
  obtain ⟨-, rfl⟩ := hstart
  constructor
  · constructor
    · simp
    · simp [hp]
    · simp
    · simp
    · exact hst
    · exact ⟨t, by simp, hp, hpp⟩
    · simp [hp, hpp]
    · exact hsame.next (by omega)
  · intro u hu hz
    obtain rfl : u = t := by simpa [hlist] using hu
    rw [hst] at hz
    cases hz

-- ---------------------------------------------------------------------------
-- Runs
-- ---------------------------------------------------------------------------

inductive TaskCall
  | fork
  | exit (status : Int)
  | wait (pid : Int) (status : Nat) (options : Int)
  | yield
  | preempt

def perform (k : Kernel) (frame : TaskFrame) : TaskCall → Option Kernel
  | .fork => (k.taskFork frame).map Prod.snd
  | .exit status => (k.taskExit frame status).map Prod.snd
  | .wait pid status options => some (k.taskWait frame pid status options).2.2
  | .yield => some (k.taskYield frame).2
  | .preempt => some (k.taskPreempt frame).2

/-- The states of all runs from init on in which every call is as `ok` says.
Between calls, user code and the rest of the kernel may do anything that is not
about the task list. -/
inductive TaskRun (ok : Kernel → TaskCall → Prop) : Kernel → Prop
  | boot {k : Kernel} (h : Booted k) : TaskRun ok k
  | call {k k' : Kernel} {c : TaskCall} (frame : TaskFrame) (h : TaskRun ok k) (hc : ok k c)
      (hp : k.perform frame c = some k') : TaskRun ok k'
  | other {k k' : Kernel} (h : TaskRun ok k) (hs : SameTasks k k') : TaskRun ok k'

/-- An exit only by a task that leaves no zombie behind that nobody can wait for. -/
def SafeCall (k : Kernel) : TaskCall → Prop
  | .exit _ => ExitSafe k
  | _ => True

theorem perform_keeps (hk : TasksOk k) (hr : Reapable k) {frame : TaskFrame} {c : TaskCall}
    (hc : SafeCall k c) (hp : k.perform frame c = some k') : TasksOk k' ∧ Reapable k' := by
  have hyield : TasksOk (k.taskYield frame).2 ∧ Reapable (k.taskYield frame).2 :=
    ⟨((taskYield_yields hk.current frame).moved hk).ok hk,
      ((taskYield_yields hk.current frame).moved hk).reapable_iff.mpr hr⟩
  cases c with
  | fork =>
    obtain ⟨⟨r, k₁⟩, hf, rfl⟩ := Option.map_eq_some_iff.mp hp
    rcases (taskFork_forks hk.current hf).forked_or hk with hs | ⟨t, hf⟩
    · exact ⟨hs.ok hk, hs.reapable hr⟩
    · exact ⟨hf.allocated.ok hk, hf.reapable hr⟩
  | exit status =>
    obtain ⟨⟨f, k₁⟩, he, rfl⟩ := Option.map_eq_some_iff.mp hp
    obtain ⟨hok, hiff⟩ := taskExit_reapable_iff hk hr he
    exact ⟨hok, hiff.mpr hc⟩
  | wait pid status options =>
    cases hp
    obtain ⟨hok, hrw⟩ := (taskWait_waits hk.current frame pid status options).keeps hk
    exact ⟨hok, hrw hr⟩
  | yield =>
    cases hp
    exact hyield
  | preempt =>
    cases hp
    exact hyield

theorem TaskRun.keeps (h : TaskRun SafeCall k) : TasksOk k ∧ Reapable k := by
  induction h with
  | boot hb => exact hb.ok
  | call _ _ hc hp ih => exact perform_keeps ih.1 ih.2 hc hp
  | other _ hs ih => exact ⟨hs.ok ih.1, hs.reapable ih.2⟩

/-- In every run with such exits only, every zombie can be collected. -/
theorem runs_reapable (h : TaskRun SafeCall k) : Reapable k := h.keeps.2

instance (k : Kernel) : Decidable (Reapable k) :=
  inferInstanceAs (Decidable (∀ t ∈ k.taskList, (k.task t).state = .zombie → (k.task t).pid ≠ 1 →
    ∃ u ∈ k.taskList, (k.task u).pid = (k.task t).ppid ∧ (k.task u).state ≠ .zombie))

instance (k : Kernel) : Decidable (ExitSafe k) :=
  inferInstanceAs (Decidable
    ((∀ t ∈ k.taskList, (k.task t).state = .zombie → (k.task t).ppid ≠ (k.task k.current).pid) ∧
      ((k.task k.current).pid = 1 ∨ ∃ u ∈ k.taskList, (k.task u).pid = (k.task k.current).ppid ∧
        (k.task u).state ≠ .zombie)))

-- ---------------------------------------------------------------------------
-- A grandchild that nobody waits for
-- ---------------------------------------------------------------------------

def forkNew (k : Kernel) (frame : TaskFrame) : Kernel :=
  match k.taskAlloc with
  | some (some child, k) => (k.forkInto child frame (k.phys.vmmSpaceCreate k.cr3)).2
  | _ => k

theorem taskAlloc_rest (h : k.taskAlloc = some (some t, k')) (hc : k.current ∈ k.taskList) :
    k'.vfs = k.vfs ∧ k'.cr3 = k.cr3 ∧ k'.task k'.current = k.task k.current := by
  unfold taskAlloc at h
  have hrest : (k.kmalloc k.taskList).2 = { k with heap := (k.kmalloc k.taskList).2.heap } := by
    unfold kmalloc
    split <;> rfl
  have hfresh := fun t => kmalloc_not_mem (k := k) (t := t) k.taskList
  generalize k.kmalloc k.taskList = a at h hrest hfresh
  obtain ⟨_ | u, k₁⟩ := a
  · cases h
  have hne : k.current ≠ u := by
    rintro rfl
    exact hfresh _ rfl hc
  simp only at h hrest
  split at h
  · cases h
  cases h
  rw [hrest]
  refine ⟨rfl, rfl, ?_⟩
  simp [modifyTask, hne]

theorem perform_forkNew {A : Multiset Nat} (frame : TaskFrame) (hc : k.current ∈ k.taskList)
    (hs : IsSpace k.phys.mem (k.task k.current).space fun _ => .empty) (hA : k.phys.Avail A)
    (hn : (k.task k.current).space ∉ A) (ha : (k.taskAlloc.bind Prod.fst).isSome) :
    k.perform frame .fork = some (k.forkNew frame) := by
  unfold perform taskFork forkNew
  cases halloc : k.taskAlloc with
  | none => simp [halloc] at ha
  | some a =>
    obtain ⟨_ | t, k₁⟩ := a
    · simp [halloc] at ha
    obtain ⟨h₁, h₂, h₃⟩ := taskAlloc_rest halloc hc
    have hp : k₁.phys = k.phys := congrArg Vfs.phys h₁
    simp only [Option.map_some, h₃, hp]
    rw [hs.vmmSpaceClone_empty hA hn]

def emptyKernel : Kernel where
  vfs :=
    { tarData := fun _ => 0
      tarSize := 0
      nextInode := 1
      root := 0
      node := fun _ => {}
      live := ∅
      heap := []
      phys := mmInit smallMap (fun _ => 0) [] }
  cr3 := 0
  heap := [some 1000, some 2001, some 3000, some 2002, some 2003, some 1001, some 3001, some 1002, some 3002]
  taskList := []
  task := fun _ => {}
  nextPid := 1
  current := 0
  files := []
  openFile := fun _ => {}
  pipes := []
  pipe := fun _ => {}

def created : Kernel := (emptyKernel.taskCreate.map Prod.snd).getD emptyKernel
def started : Kernel := (created.taskStart.map Prod.snd).getD created

def parentRuns : Kernel := ((started.forkNew archTaskFrameInit).taskYield archTaskFrameInit).2
def childRuns : Kernel := ((parentRuns.forkNew archTaskFrameInit).taskYield archTaskFrameInit).2

theorem eq_some_getD {α β : Type} {o : Option (α × β)} (d : β) (a : α) (h : o.map Prod.fst = some a) :
    o = some (a, (o.map Prod.snd).getD d) := by
  cases o with
  | none => cases h
  | some p =>
    cases h
    rfl

theorem perform_exit (frame : TaskFrame) (status : Int) (h : (k.taskExit frame status).isSome) :
    k.perform frame (.exit status) = some (((k.taskExit frame status).map Prod.snd).getD k) := by
  rw [perform]
  cases he : k.taskExit frame status with
  | none => simp [he] at h
  | some r => rfl

theorem created_eq : emptyKernel.taskCreate = some (some 1000, created) :=
  eq_some_getD emptyKernel (some 1000) (by decide +kernel)

theorem started_eq : created.taskStart = some (archTaskFrameInit, started) :=
  eq_some_getD created archTaskFrameInit (by decide +kernel)

theorem started_booted : Booted started :=
  ⟨emptyKernel, created, created, 1000, archTaskFrameInit, rfl, rfl, created_eq, SameTasks.refl _,
    started_eq⟩

theorem started_phys : started.phys = ((mmInit smallMap (fun _ => 0) []).vmmSpaceCreate 0).2 := rfl

set_option maxRecDepth 20000 in
theorem parentRuns_phys : parentRuns.phys = (started.phys.vmmSpaceCreate started.cr3).2 := rfl

theorem example_forks :
    started.perform archTaskFrameInit .fork = some (started.forkNew archTaskFrameInit) ∧
      parentRuns.perform archTaskFrameInit .fork = some (parentRuns.forkNew archTaskFrameInit) := by
  have hA := @Phys.avail_mmInit _ (fun _ => 0) [] smallMap_ok
  rcases hA.vmmSpaceCreate 0 with ⟨hnone, -⟩ | ⟨root, B, hsome, hAB, hav, hsp, -⟩
  · exact absurd hnone (by decide +kernel)
  rw [← started_phys] at hav hsp
  have hnd := hA.nodup
  rw [hAB] at hnd
  have hroot : (started.task started.current).space = root :=
    Option.some.inj (Eq.trans (by decide +kernel) hsome)
  rcases hav.vmmSpaceCreate started.cr3 with ⟨hnone, -⟩ | ⟨root', C, hsome', hBC, hav', hsp', -⟩
  · exact absurd hnone (by decide +kernel)
  rw [← parentRuns_phys] at hav' hsp'
  have hnd' := hav.nodup
  rw [hBC] at hnd'
  have hroot' : (parentRuns.task parentRuns.current).space = root' :=
    Option.some.inj (Eq.trans (by decide +kernel) hsome')
  constructor
  · refine perform_forkNew archTaskFrameInit (by decide +kernel) (hroot ▸ hsp) hav ?_ (by decide +kernel)
    rw [hroot]
    exact (Multiset.nodup_cons.mp hnd).1
  · refine perform_forkNew archTaskFrameInit (by decide +kernel) (hroot' ▸ hsp') hav' ?_
      (by decide +kernel)
    rw [hroot']
    exact (Multiset.nodup_cons.mp hnd').1

/-- The states of the example are states of runs; `ok` is any condition on exits. -/
theorem childRuns_run (ok : Kernel → TaskCall → Prop) (hf : ∀ k, ok k .fork) (hy : ∀ k, ok k .yield) :
    TaskRun ok (started.forkNew archTaskFrameInit) ∧ TaskRun ok childRuns := by
  obtain ⟨hstarted, hparent⟩ := example_forks
  have h₁ : TaskRun ok (started.forkNew archTaskFrameInit) :=
    .call archTaskFrameInit (.boot started_booted) (hf _) hstarted
  have h₂ : TaskRun ok parentRuns := .call archTaskFrameInit h₁ (hy _) rfl
  have h₃ : TaskRun ok (parentRuns.forkNew archTaskFrameInit) :=
    .call archTaskFrameInit h₂ (hf _) hparent
  exact ⟨h₁, .call archTaskFrameInit h₃ (hy _) rfl⟩

def childGone : Kernel :=
  ((((childRuns.taskExit archTaskFrameInit 0).map Prod.snd).getD childRuns).taskYield
    archTaskFrameInit).2

def bothGone : Kernel := ((childGone.taskExit archTaskFrameInit 0).map Prod.snd).getD childGone

/-- The grandchild is a zombie whose parent is a zombie. -/
theorem runs_unreapable : ∃ k, TaskRun (fun _ _ => True) k ∧ ¬ Reapable k := by
  have hrun := (childRuns_run (fun _ _ => True) (fun _ => trivial) (fun _ => trivial)).2
  have h₁ := TaskRun.call archTaskFrameInit hrun trivial
    (perform_exit archTaskFrameInit 0 (by decide +kernel))
  have h₂ : TaskRun (fun _ _ => True) childGone := .call archTaskFrameInit (c := .yield) h₁ trivial rfl
  have h₃ := TaskRun.call archTaskFrameInit h₂ trivial
    (perform_exit archTaskFrameInit 0 (by decide +kernel))
  exact ⟨bothGone, h₃, by decide +kernel⟩

def initWaits : Kernel :=
  ((started.forkNew archTaskFrameInit).taskWait archTaskFrameInit (-1) 0 0).2.2

theorem runs_reapable_wait :
    Reapable (((initWaits.taskExit archTaskFrameInit 0).map Prod.snd).getD initWaits) := by
  have h₁ := (childRuns_run SafeCall (fun _ => trivial) (fun _ => trivial)).1
  have h₂ : TaskRun SafeCall initWaits :=
    .call archTaskFrameInit (c := .wait (-1) 0 0) h₁ trivial rfl
  exact runs_reapable (.call archTaskFrameInit (c := .exit 0) h₂
    (show ExitSafe initWaits by decide +kernel)
    (perform_exit archTaskFrameInit 0 (by decide +kernel)))

end Kernel

end NarcOs
