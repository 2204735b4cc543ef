import NarcOs.Kernel.BlockedWaits
import NarcOs.Lib.Delivery

/-!
# Reports of exits

A run with a log of the exits and of the reports that `task_wait` and
`task_exit` make of them. The log is a run of deliveries in which a zombie in
`task_list` is an item that is pending.
-/

namespace NarcOs

namespace Kernel

/-- A task exits, or its parent is told: the pid is the result of a wait, and
`word` is stored at `address` when that is not 0. -/
inductive Event
  | exited (child parent status : Int)
  | reported (child parent : Int) (address word : Nat)

def Event.child : Event → Int
  | exited child _ _ => child
  | reported child _ _ _ => child

def statusWord (status : Int) : Nat := (status % 256).toNat <<< 8

def Event.delivery : Event → Delivery Int (Int × Nat)
  | exited child parent status => .sent child (parent, statusWord status)
  | reported child parent _ word => .delivered child (parent, word)

def Event.exitedPid : Event → Option Int
  | exited child _ _ => some child
  | reported _ _ _ _ => none

def Event.reportedPid : Event → Option Int
  | exited _ _ _ => none
  | reported child _ _ _ => some child

def exitEvents (k : Kernel) (status : Int) : List Event :=
  let old := k.current
  let k := k.markZombie old status
  ((k.waiter old).map fun parent => .reported (k.task old).pid (k.task parent).pid
    (k.task parent).waitStatus ((k.task old).exitStatus <<< 8)).toList ++
    [.exited (k.task old).pid (k.task old).ppid status]

def waitEvents (k : Kernel) (status : Nat) : Option Int → List Event
  | none => []
  | some pid =>
    if 0 < pid then
      ((k.findTask pid).map fun child => .reported pid (k.task k.current).pid status
        ((k.task child).exitStatus <<< 8)).toList
    else []

def events (k : Kernel) (frame : TaskFrame) : ProcCall → List Event
  | .task (.exit status) => k.exitEvents status
  | .task (.wait pid status options) => k.waitEvents status (k.taskWait frame pid status options).1
  | _ => []

inductive ReportRun : List Event → Nat → Kernel → Prop
  | boot {k : Kernel} (h : Started k) : ReportRun [] 1 k
  | call {log : List Event} {n : Nat} {k k' : Kernel} {c : ProcCall} (frame : TaskFrame)
      (h : ReportRun log n k) (hp : k.call frame c = some k') :
      ReportRun (k.events frame c ++ log) (n + (k.allocates c).toNat) k'
  | other {log : List Event} {n : Nat} {k k' : Kernel} (h : ReportRun log n k) (hs : SameRows k k')
      (hn : k'.nextPid = k.nextPid) : ReportRun log n k'

variable {k k' : Kernel} {t u : Ptr} {n : Nat} {log : List Event}

theorem ReportRun.pidRun (h : ReportRun log n k) : PidRun n k := by
  induction h with
  | boot hb => exact .boot hb
  | call frame _ hp ih => exact .call frame ih hp
  | other _ hs hn ih => exact .other ih hs hn

-- ---------------------------------------------------------------------------
-- The invariant
-- ---------------------------------------------------------------------------

def ZombiesPending (list : List Ptr) (row : Ptr → Row) (pending : Int → Option (Int × Nat)) : Prop :=
  ∀ c v, pending c = some v ↔ ∃ t ∈ list, (row t).state = .zombie ∧ (row t).pid = c ∧
    ((row t).ppid, (row t).exitStatus <<< 8) = v

structure Logged (n : Nat) (log : List Event) (list : List Ptr) (row : Ptr → Row) : Prop where
  pending : ∃ pending, Delivery.Run (log.map Event.delivery) pending ∧ ZombiesPending list row pending
  live : ∀ t ∈ list, (row t).state ≠ .zombie → ∀ e ∈ log, e.child ≠ (row t).pid
  max : ∀ e ∈ log, e.child ≤ n

def SameZombies (list : List Ptr) (row row' : Ptr → Row) : Prop :=
  ∀ t ∈ list, (row' t).pid = (row t).pid ∧ (row' t).ppid = (row t).ppid ∧
    (row' t).exitStatus = (row t).exitStatus ∧ ((row' t).state = .zombie ↔ (row t).state = .zombie)

@[simp] theorem Event.delivery_key (e : Event) : e.delivery.key = e.child := by
  cases e <;> rfl

namespace Logged

variable {list : List Ptr} {row row' : Ptr → Row} {current : Ptr}

theorem change (h : Logged n log list row) (hs : SameZombies list row row') :
    Logged n log list row' := by
  obtain ⟨pending, hrun, hz⟩ := h.pending
  refine ⟨⟨pending, hrun, fun c v => (hz c v).trans ⟨?_, ?_⟩⟩, fun t ht hn e he => ?_, h.max⟩
  · rintro ⟨t, ht, hst, hp, hv⟩
    obtain ⟨h₁, h₂, h₃, h₄⟩ := hs t ht
    exact ⟨t, ht, h₄.2 hst, h₁.trans hp, by rw [h₂, h₃]; exact hv⟩
  · rintro ⟨t, ht, hst, hp, hv⟩
    obtain ⟨h₁, h₂, h₃, h₄⟩ := hs t ht
    exact ⟨t, ht, h₄.1 hst, h₁.symm.trans hp, by rw [← h₂, ← h₃]; exact hv⟩
  · obtain ⟨h₁, h₂, h₃, h₄⟩ := hs t ht
    rw [h₁]
    exact h.live t ht (mt h₄.2 hn) e he

theorem mono (h : Logged n log list row) {m : Nat} (hm : n ≤ m) : Logged m log list row :=
  { h with max := fun e he => by have := h.max e he; omega }

theorem append (h : Logged n log list row) (hpid : (row t).pid = n + 1) (hst : (row t).state ≠ .zombie) :
    Logged (n + 1) log (list ++ [t]) row := by
  obtain ⟨pending, hrun, hz⟩ := h.pending
  refine ⟨⟨pending, hrun, fun c v => (hz c v).trans ⟨?_, ?_⟩⟩, fun u hu hn e he => ?_, fun e he => ?_⟩
  · rintro ⟨u, hu, hrest⟩
    exact ⟨u, List.mem_append_left _ hu, hrest⟩
  · rintro ⟨u, hu, hst', hrest⟩
    rcases List.mem_append.1 hu with hu | hu
    · exact ⟨u, hu, hst', hrest⟩
    · rw [List.mem_singleton.1 hu] at hst'
      exact absurd hst' hst
  · rcases List.mem_append.1 hu with hu | hu
    · exact h.live u hu hn e he
    · rw [List.mem_singleton.1 hu, hpid]
      have := h.max e he
      omega
  · have := h.max e he
    push_cast
    omega

theorem exit (h : Logged n log list row) (hok : TableOk list row current) (hmax : (row current).pid ≤ n)
    {status : Int} (hr : ∀ t ∈ list, row' t = if t = current then
      { row t with
        state := .zombie
        exitStatus := (status % 256).toNat } else row t) :
    Logged n (.exited (row current).pid (row current).ppid status :: log) list row' := by
  obtain ⟨pending, hrun, hz⟩ := h.pending
  have hlive : (row current).state ≠ .zombie := by simp [hok.running]
  have hnew : ∀ e ∈ log, e.child ≠ (row current).pid := h.live current hok.mem hlive
  have hself := hr current hok.mem
  rw [if_pos rfl] at hself
  have hkeys : ∀ d ∈ log.map Event.delivery, d.key ≠ (row current).pid := by
    intro d hd
    obtain ⟨e, he, rfl⟩ := List.mem_map.1 hd
    rw [Event.delivery_key]
    exact hnew e he
  refine ⟨⟨_, hrun.sent ((row current).ppid, statusWord status) hkeys, fun c v => ?_⟩,
    fun t ht hn e he => ?_, fun e he => ?_⟩
  · by_cases hc : c = (row current).pid
    · subst hc
      rw [Function.update_self]
      constructor
      · rintro hv
        refine ⟨current, hok.mem, by rw [hself], by rw [hself], ?_⟩
        rw [hself]
        exact Option.some.inj hv
      · rintro ⟨t, ht, hst, hp, hv⟩
        have hpid : (row' t).pid = (row t).pid := by
          rw [hr t ht]
          split <;> rfl
        have heq := hok.inj t ht current hok.mem (hpid.symm.trans hp)
        subst heq
        rw [← hv, hself]
        rfl
    · rw [Function.update_of_ne hc, hz]
      constructor
      · rintro ⟨t, ht, hst, hp, hv⟩
        have hne : t ≠ current := fun he => hlive (he ▸ hst)
        refine ⟨t, ht, ?_⟩
        rw [hr t ht, if_neg hne]
        exact ⟨hst, hp, hv⟩
      · rintro ⟨t, ht, hst, hp, hv⟩
        have hne : t ≠ current := by
          rintro rfl
          rw [hself] at hp
          exact hc hp.symm
        rw [hr t ht, if_neg hne] at hst hp hv
        exact ⟨t, ht, hst, hp, hv⟩
  · have hne : t ≠ current := by
      rintro rfl
      rw [hself] at hn
      exact hn rfl
    rw [hr t ht, if_neg hne] at hn ⊢
    rcases List.mem_cons.1 he with rfl | he
    · intro hp
      exact hne (hok.inj t ht current hok.mem hp.symm)
    · exact h.live t ht hn e he
  · rcases List.mem_cons.1 he with rfl | he
    · exact hmax
    · exact h.max e he

theorem report (h : Logged n log list row) (hnodup : list.Nodup)
    (hinj : ∀ t ∈ list, ∀ u ∈ list, (row t).pid = (row u).pid → t = u)
    (ht : t ∈ list) (hst : (row t).state = .zombie) (address : Nat) :
    Logged n (.reported (row t).pid (row t).ppid address ((row t).exitStatus <<< 8) :: log)
      (list.erase t) row := by
  obtain ⟨pending, hrun, hz⟩ := h.pending
  have hmem : ∀ {u}, u ∈ list.erase t ↔ u ≠ t ∧ u ∈ list := hnodup.mem_erase_iff
  have hpend := (hz (row t).pid _).2 ⟨t, ht, hst, rfl, rfl⟩
  refine ⟨⟨_, hrun.delivered hpend, fun c v => ?_⟩, fun u hu hn e he => ?_, fun e he => ?_⟩
  · by_cases hc : c = (row t).pid
    · subst hc
      rw [Function.update_self]
      refine ⟨fun hv => absurd hv (by simp), ?_⟩
      rintro ⟨u, hu, -, hp, -⟩
      obtain ⟨hne, hu⟩ := hmem.1 hu
      exact absurd (hinj u hu t ht hp) hne
    · rw [Function.update_of_ne hc, hz]
      constructor
      · rintro ⟨u, hu, hrest⟩
        refine ⟨u, hmem.2 ⟨?_, hu⟩, hrest⟩
        rintro rfl
        exact hc hrest.2.1.symm
      · rintro ⟨u, hu, hrest⟩
        exact ⟨u, (hmem.1 hu).2, hrest⟩
  · obtain ⟨hne, hu⟩ := hmem.1 hu
    rcases List.mem_cons.1 he with rfl | he
    · intro hp
      exact hne (hinj u hu t ht hp.symm)
    · exact h.live u hu hn e he
  · rcases List.mem_cons.1 he with rfl | he
    · obtain ⟨hs, -⟩ := hrun.pending_iff.1 hpend
      obtain ⟨e, he, heq⟩ := List.mem_map.1 hs
      have hkey : e.child = (row t).pid := by
        rw [← e.delivery_key, heq]
        rfl
      exact hkey ▸ h.max e he
    · exact h.max e he

end Logged

-- ---------------------------------------------------------------------------
-- Each call keeps it
-- ---------------------------------------------------------------------------

def LogOk (n : Nat) (log : List Event) (k : Kernel) : Prop := Logged n log k.taskList k.row

theorem LogOk.same (h : LogOk n log k) (hs : SameRows k k') : LogOk n log k' := by
  unfold LogOk
  rw [hs.list]
  refine h.change fun t ht => ?_
  rw [hs.row t ht]
  exact ⟨rfl, rfl, rfl, Iff.rfl⟩

theorem LogOk.fork (h : LogOk n log k) (hk : Scheduled n k) {allocated : Bool} {r : Int}
    (hf : Forks k k' allocated r) (hn : (n : Int) + allocated.toNat < int32Max) :
    LogOk (n + allocated.toNat) log k' := by
  cases hf with
  | refused hs hnext => exact (h.same hs).mono (Nat.le_add_right _ _)
  | undone hs hp => exact (h.same hs).mono (Nat.le_add_right _ _)
  | @forked t pid space ht hl hr hc hcur hcr3 hnew hp =>
    obtain ⟨rfl, -⟩ := hk.pid_eq hn hp
    unfold LogOk
    rw [hl]
    have hold : Logged n log k.taskList k'.row := h.change fun u hu => by
      rw [hr u hu]
      exact ⟨rfl, rfl, rfl, Iff.rfl⟩
    refine hold.append ?_ ?_
    · rw [hc]
      rfl
    · rw [hc]
      simp [childRow]

theorem LogOk.yield (h : LogOk n log k) (hy : Yields k k') : LogOk n log k' := by
  cases hy with
  | stays hs hn => exact h.same hs
  | switches hm hr hs =>
    have hrows : k'.row = k.row := funext hs.row
    unfold LogOk
    rw [hs.list, hrows]
    exact h

theorem LogOk.exec (h : LogOk n log k) (he : Execs k k') : LogOk n log k' := by
  cases he with
  | fails hs hn => exact h.same hs
  | @replaces space hl hr hcur hcr3 hn =>
    unfold LogOk
    rw [hl]
    refine h.change fun t ht => ?_
    rw [hr t]
    split <;> exact ⟨rfl, rfl, rfl, Iff.rfl⟩

theorem Scheduled.findTask_eq (h : Scheduled n k) (ht : t ∈ k.taskList) : k.findTask (k.row t).pid = some t := by
  cases hf : k.findTask (k.row t).pid with
  | none => exact absurd rfl (findTask_none hf t ht)
  | some u =>
    obtain ⟨hu, hp⟩ := findTask_spec hf
    exact congrArg some (h.table.inj u hu t ht hp)

theorem Scheduled.waitEvents_reaped (h : Scheduled n k) (ht : t ∈ k.taskList) (status : Nat) :
    k.waitEvents status (some (k.row t).pid) =
      [.reported (k.row t).pid (k.row k.current).pid status ((k.row t).exitStatus <<< 8)] := by
  have hpos := h.table.pos t ht
  unfold waitEvents
  simp only [if_pos hpos, h.findTask_eq ht]
  rfl

theorem LogOk.wait (h : LogOk n log k) (hk : Scheduled n k) {pid : Int} {status : Nat} {options : Int}
    {result : Option Int} (hw : Waits k k' pid status options result) :
    LogOk n (k.waitEvents status result ++ log) k' := by
  cases hw with
  | refused hbad hs hn => exact h.same hs
  | @reaped t ht hz hc hl hr hcur hcr3 hn =>
    have hrows : k'.row = k.row := funext hr
    unfold LogOk
    rw [hk.waitEvents_reaped ht, hl, hrows]
    have hrep := Logged.report h hk.table.nodup hk.table.inj ht hz status
    rw [hc.1] at hrep
    exact hrep
  | childless hnone hs hn => exact h.same hs
  | running ht hc hz ho hs hn => exact h.same hs
  | stuck ht hc hz hstuck hl hr hcur hcr3 hn =>
    obtain ⟨u, hu, hne, hrun⟩ := hk.table.exists_other ht hc (hz _ ht hc)
    exact absurd hrun (hstuck u hu hne)
  | suspended ht hc hz hm hne hrun hl hr hcur hcr3 hn =>
    unfold LogOk
    rw [hl]
    refine h.change fun t ht => ?_
    rw [hr t]
    split
    · rename_i hcur
      refine ⟨rfl, rfl, rfl, ?_⟩
      simp [Row.block, hcur, hk.table.running]
    · exact ⟨rfl, rfl, rfl, Iff.rfl⟩

theorem exitEvents_eq (hc : k.current ∈ k.taskList) (hr : (k.row k.current).state = .runnable) (status : Int) :
    k.exitEvents status = ((k.waiter k.current).map fun parent =>
      Event.reported (k.row k.current).pid (k.row parent).pid (k.row parent).waitStatus (statusWord status)).toList ++
      [.exited (k.row k.current).pid (k.row k.current).ppid status] := by
  have hself := markZombie_row k status hc
  rw [exitRow, if_pos rfl] at hself
  have hpid : ((k.markZombie k.current status).task k.current).pid = (k.row k.current).pid :=
    congrArg Row.pid hself
  have hppid : ((k.markZombie k.current status).task k.current).ppid = (k.row k.current).ppid :=
    congrArg Row.ppid hself
  have hword : ((k.markZombie k.current status).task k.current).exitStatus = (status % 256).toNat :=
    congrArg Row.exitStatus hself
  unfold exitEvents
  simp only [markZombie_waiter hc (by simp [hr]) status, hpid, hppid, hword]
  cases hw : k.waiter k.current with
  | none => rfl
  | some parent =>
    obtain ⟨hm, -, hb, -⟩ := waiter_eq_some hw
    have hne : parent ≠ k.current := by
      rintro rfl
      rw [hr] at hb
      cases hb
    have hrow := markZombie_row k status hm
    rw [exitRow, if_neg hne, if_neg (by simp)] at hrow
    have h₁ : ((k.markZombie k.current status).task parent).pid = (k.row parent).pid :=
      congrArg Row.pid hrow
    have h₂ : ((k.markZombie k.current status).task parent).waitStatus = (k.row parent).waitStatus :=
      congrArg Row.waitStatus hrow
    rw [Option.map_some, Option.map_some, h₁, h₂]
    rfl

theorem LogOk.exit (h : LogOk n log k) (hk : Scheduled n k) {status : Int} {next : Ptr}
    (he : Exits k k' status next) : LogOk n (k.exitEvents status ++ log) k' := by
  have hok := hk.table.toTableOk
  -- the rows after the exit, for the log: the task that was woken is no zombie
  have hz : Logged n (.exited (k.row k.current).pid (k.row k.current).ppid status :: log) k.taskList k'.row := by
    have hzombie : Logged n (.exited (k.row k.current).pid (k.row k.current).ppid status :: log) k.taskList
        (k.exitRow status none) :=
      Logged.exit h hok (hk.table.max _ hok.mem) fun t _ => by simp only [exitRow, reduceCtorEq, if_false]
    refine hzombie.change fun t ht => ?_
    obtain ⟨space, hgone⟩ := he.gone
    by_cases hne : t = k.current
    · subst hne
      rw [hgone, exitRow, exitRow, if_pos rfl, if_pos rfl]
      exact ⟨rfl, rfl, rfl, Iff.rfl⟩
    · have hnone : k.exitRow status none t = k.row t := by simp [exitRow, hne]
      rw [he.row t ht hne, hnone, exitRow, if_neg hne]
      split
      · rename_i hw
        obtain ⟨-, -, hb, -⟩ := waiter_eq_some hw
        refine ⟨rfl, rfl, rfl, ?_⟩
        simp [hb]
      · exact ⟨rfl, rfl, rfl, Iff.rfl⟩
  rw [exitEvents_eq hok.mem hok.running]
  unfold LogOk
  rw [he.list]
  cases hw : k.waiter k.current with
  | none => exact hz
  | some parent =>
    obtain ⟨space, hgone⟩ := he.gone
    rw [exitRow, if_pos rfl] at hgone
    obtain ⟨hm, hp, -, -⟩ := waiter_eq_some hw
    have hinj : ∀ t ∈ k.taskList, ∀ u ∈ k.taskList, (k'.row t).pid = (k'.row u).pid → t = u := by
      intro t ht u hu heq
      rw [(he.shrinks.pids t ht).1, (he.shrinks.pids u hu).1] at heq
      exact hok.inj t ht u hu heq
    have hrep := hz.report hok.nodup hinj hok.mem (by rw [hgone]) (k.row parent).waitStatus
    rw [hgone] at hrep
    rw [Option.map_some, Option.toList_some, hp]
    exact hrep

theorem LogOk.call (h : LogOk n log k) (hk : Scheduled n k) {frame : TaskFrame} {c : ProcCall}
    (hn : ((n + (k.allocates c).toNat : Nat) : Int) < int32Max) (hp : k.call frame c = some k') :
    LogOk (n + (k.allocates c).toNat) (k.events frame c ++ log) k' := by
  have hc := hk.table.mem
  cases c with
  | exec path argv envp =>
    cases hp
    exact h.exec (userExec_execs k frame path argv envp)
  | task c =>
    cases c with
    | fork =>
      obtain ⟨⟨r, k₁⟩, hf, rfl⟩ := Option.map_eq_some_iff.mp hp
      exact h.fork hk (taskFork_forks hc hf) (by exact_mod_cast hn)
    | exit status =>
      obtain ⟨⟨f, k₁⟩, he, rfl⟩ := Option.map_eq_some_iff.mp hp
      obtain ⟨next, hexits⟩ := taskExit_exits hc hk.table.running he
      exact h.exit hk hexits
    | wait pid status options =>
      cases hp
      exact h.wait hk (taskWait_waits hc frame pid status options)
    | yield =>
      cases hp
      exact h.yield (taskYield_yields hc frame)
    | preempt =>
      cases hp
      exact h.yield (taskYield_yields hc frame)

theorem Started.noZombie (h : Started k) (ht : t ∈ k.taskList) : (k.row t).state ≠ .zombie := by
  have htab := h.scheduled.table
  have heq : t = k.current := by
    refine htab.inj t ht _ htab.mem ?_
    have h₁ := htab.pos t ht
    have h₂ := htab.max t ht
    have h₃ := htab.pos _ htab.mem
    have h₄ := htab.max _ htab.mem
    omega
  rw [heq, htab.running]
  simp

theorem Started.logOk (h : Started k) : LogOk 1 [] k where
  pending := by
    refine ⟨_, .nil, fun c v => ?_⟩
    simp only [reduceCtorEq, false_iff]
    rintro ⟨t, ht, hz, -⟩
    exact h.noZombie ht hz
  live _ _ _ e he := by cases he
  max e he := by cases he

theorem ReportRun.logOk (h : ReportRun log n k) (hn : (n : Int) < int32Max) : LogOk n log k := by
  induction h with
  | boot hb => exact hb.logOk
  | @call log n k k' c frame h hp ih =>
    have hn' : (n : Int) < int32Max := by
      push_cast at hn
      omega
    exact (ih hn').call (h.pidRun.scheduled hn') hn hp
  | other _ hs _ ih => exact (ih hn).same hs

-- ---------------------------------------------------------------------------
-- What the log says
-- ---------------------------------------------------------------------------

def Unreported (log : List Event) (child parent status : Int) : Prop :=
  .exited child parent status ∈ log ∧ ∀ p a w, .reported child p a w ∉ log

theorem mem_delivery_sent {c : Int} {v : Int × Nat} : .sent c v ∈ log.map Event.delivery ↔
    ∃ status, .exited c v.1 status ∈ log ∧ v.2 = statusWord status := by
  rw [List.mem_map]
  constructor
  · rintro ⟨e, he, hv⟩
    cases e with
    | exited child parent status =>
      cases hv
      exact ⟨status, he, rfl⟩
    | reported child parent address word => cases hv
  · rintro ⟨status, he, hw⟩
    exact ⟨_, he, by rw [Event.delivery, ← hw]⟩

theorem mem_delivery_delivered {c : Int} {v : Int × Nat} : .delivered c v ∈ log.map Event.delivery ↔
    ∃ address, .reported c v.1 address v.2 ∈ log := by
  rw [List.mem_map]
  constructor
  · rintro ⟨e, he, hv⟩
    cases e with
    | exited child parent status => cases hv
    | reported child parent address word =>
      cases hv
      exact ⟨address, he⟩
  · rintro ⟨address, he⟩
    exact ⟨_, he, rfl⟩

theorem LogOk.zombie_iff (h : LogOk n log k) {c p : Int} {word : Nat} :
    (∃ t ∈ k.taskList, (k.row t).state = .zombie ∧ (k.row t).pid = c ∧ (k.row t).ppid = p ∧
      (k.row t).exitStatus <<< 8 = word) ↔ ∃ status, Unreported log c p status ∧ word = statusWord status := by
  obtain ⟨pending, hrun, hz⟩ := h.pending
  have hzombie := hz c (p, word)
  rw [hrun.pending_iff, mem_delivery_sent] at hzombie
  simp only [mem_delivery_delivered, Prod.mk.injEq] at hzombie
  rw [← hzombie]
  constructor
  · rintro ⟨⟨status, he, hw⟩, hnone⟩
    exact ⟨status, ⟨he, fun p a w hm => hnone (p, w) ⟨a, hm⟩⟩, hw⟩
  · rintro ⟨status, ⟨he, hnone⟩, hw⟩
    refine ⟨⟨status, he, hw⟩, fun v hv => ?_⟩
    obtain ⟨a, hm⟩ := hv
    exact hnone v.1 a v.2 hm

theorem taskWait_word {frame : TaskFrame} {pid : Int} {status : Nat} {options c : Int}
    (h : (k.taskWait frame pid status options).1 = some c) (hpos : 0 < c) :
    ∃ t ∈ k.taskList, (k.row t).state = .zombie ∧ (k.row t).IsChild (k.row k.current) pid ∧ (k.row t).pid = c ∧
      (k.taskWait frame pid status options).2.2.phys =
        k.phys.copyStatus (k.row k.current).space status ((k.row t).exitStatus <<< 8) ∧
      (k.taskWait frame pid status options).2.2.taskList = k.taskList.erase t := by
  unfold taskWait at h ⊢
  split
  · rename_i hbad
    rw [if_pos hbad] at h
    cases h
    omega
  rename_i hgood
  rw [if_neg hgood] at h
  split
  · rename_i child hfind
    simp only [hfind] at h
    have hp := List.find?_some hfind
    simp only [decide_eq_true_eq, isChild_iff] at hp
    exact ⟨child, List.mem_of_find?_eq_some hfind, hp.2, hp.1, Option.some.inj h, rfl, rfl⟩
  rename_i hfind
  simp only [hfind] at h
  split
  · rename_i hany
    rw [if_pos hany] at h
    cases h
    omega
  rename_i hany
  rw [if_neg hany] at h
  split
  · rename_i hopt
    rw [if_pos hopt] at h
    cases h
    omega
  rename_i hopt
  rw [if_neg hopt] at h
  split at h
  · cases h
    omega
  · cases h

/-- What is reported of exits in a state with this log. A wait that is answered with a pid reports a
child that exited and was not reported, stores its status word and takes it from the list; a wait
that is not answered so, from a good address, leaves no such child unreported. An exit tells the
parent that waits for it, which goes on with the pid, and otherwise nobody. -/
structure ReportsExact (log : List Event) (k : Kernel) : Prop where
  exits_once : (log.filterMap Event.exitedPid).Nodup
  reports_once : (log.filterMap Event.reportedPid).Nodup
  told : ∀ newer older child parent address word, log = newer ++ .reported child parent address word :: older →
    ∃ status, .exited child parent status ∈ older ∧ word = statusWord status
  zombie : ∀ t ∈ k.taskList, (k.task t).state = .zombie → ∃ status,
    Unreported log (k.task t).pid (k.task t).ppid status ∧ (k.task t).exitStatus <<< 8 = statusWord status
  kept : ∀ child parent status, Unreported log child parent status →
    ∃ t ∈ k.taskList, (k.task t).state = .zombie ∧ (k.task t).pid = child ∧ (k.task t).ppid = parent
  removed : ∀ child parent address word, .reported child parent address word ∈ log →
    ∀ t ∈ k.taskList, (k.task t).pid ≠ child
  answered : ∀ frame pid address options child, (k.taskWait frame pid address options).1 = some child → 0 < child →
    ∃ status, Unreported log child (k.task k.current).pid status ∧ (pid = -1 ∨ pid = child) ∧
      k.waitEvents address (some child) = [.reported child (k.task k.current).pid address (statusWord status)] ∧
      (k.taskWait frame pid address options).2.2.phys =
        k.phys.copyStatus (k.task k.current).space address (statusWord status)
  unanswered : ∀ frame pid address options, (address = 0 ∨ k.phys.vmmUserRangeOk (k.task k.current).space address 4 true) →
    (∀ child, (k.taskWait frame pid address options).1 = some child → child ≤ 0) →
    ∀ child status, pid = -1 ∨ pid = child → ¬ Unreported log child (k.task k.current).pid status
  handed : ∀ parent, k.waiter k.current = some parent → ∀ frame status r, k.taskExit frame status = some r →
    k.exitEvents status = [.reported (k.task k.current).pid (k.task k.current).ppid (k.task parent).waitStatus
      (statusWord status), .exited (k.task k.current).pid (k.task k.current).ppid status] ∧
    Goes parent (archSyscallReturn2 (k.task parent).frame (k.task k.current).pid.toNat 0) r ∧
    ∀ t ∈ k.taskList, t ≠ k.current → t ≠ parent → Stored r.2 t (k.task t)
  unheard : k.waiter k.current = none → ∀ status,
    k.exitEvents status = [.exited (k.task k.current).pid (k.task k.current).ppid status] ∧
    ∀ frame r, k.taskExit frame status = some r → ∀ t ∈ k.taskList, t ≠ k.current → Stored r.2 t (k.task t)

theorem exitedPid_map (log : List Event) :
    (log.map Event.delivery).filterMap Delivery.sentKey = log.filterMap Event.exitedPid := by
  rw [List.filterMap_map]
  refine List.filterMap_congr fun e _ => ?_
  cases e <;> rfl

theorem reportedPid_map (log : List Event) :
    (log.map Event.delivery).filterMap Delivery.deliveredKey = log.filterMap Event.reportedPid := by
  rw [List.filterMap_map]
  refine List.filterMap_congr fun e _ => ?_
  cases e <;> rfl

theorem LogOk.reportsExact (h : LogOk n log k) (hk : Scheduled n k) : ReportsExact log k := by
  obtain ⟨pending, hrun, hz⟩ := h.pending
  have htab := hk.table
  have hrunning : Running k := ⟨htab.mem, htab.running⟩
  have hother : ∀ {frame status r t}, k.taskExit frame status = some r → t ∈ k.taskList → t ≠ k.current →
      k.waiter k.current ≠ some t → Stored r.2 t (k.task t) := fun he ht hne hw => by
    have hholds := Stored.taskExit ⟨ht, rfl⟩ hne hrunning he
    rw [if_neg hw] at hholds
    exact hholds.stored
  exact {
    exits_once := by
      rw [← exitedPid_map]
      exact hrun.sent_nodup
    reports_once := by
      rw [← reportedPid_map]
      exact hrun.delivered_nodup
    told := fun newer older child parent address word hl => by
      have hmap := congrArg (List.map Event.delivery) hl
      rw [List.map_append, List.map_cons] at hmap
      exact mem_delivery_sent.1 (hrun.sent_before hmap)
    zombie := fun t ht hst => h.zombie_iff.1 ⟨t, ht, hst, rfl, rfl, rfl⟩
    kept := fun child parent status hu => by
      obtain ⟨t, ht, hst, hp, hpp, -⟩ := h.zombie_iff.2 ⟨status, hu, rfl⟩
      exact ⟨t, ht, hst, hp, hpp⟩
    removed := fun child parent address word hm t ht hp => by
      by_cases hst : (k.row t).state = .zombie
      · obtain ⟨status, hu, -⟩ := h.zombie_iff.1 ⟨t, ht, hst, hp, rfl, rfl⟩
        exact hu.2 _ _ _ hm
      · exact h.live t ht hst _ hm hp.symm
    answered := fun frame pid address options child hr hpos => by
      obtain ⟨t, ht, hst, hc, rfl, hphys, -⟩ := taskWait_word hr hpos
      obtain ⟨status, hu, hw⟩ := h.zombie_iff.1 ⟨t, ht, hst, rfl, hc.1, rfl⟩
      refine ⟨status, hu, hc.2, ?_, ?_⟩
      · rw [hk.waitEvents_reaped ht, hw]
        rfl
      · rw [hphys, hw]
        rfl
    unanswered := fun frame pid address options hgood hnone child status hpid hu => by
      obtain ⟨t, ht, hst, hp, hpp, -⟩ := h.zombie_iff.2 ⟨status, hu, rfl⟩
      have hchild : (k.row t).IsChild (k.row k.current) pid := ⟨hpp, hp ▸ hpid⟩
      have hw := taskWait_waits htab.mem frame pid address options
      generalize (k.taskWait frame pid address options).2.2 = k' at hw
      generalize (k.taskWait frame pid address options).1 = result at hw hnone
      cases hw with
      | refused hbad hs hn =>
        rcases hgood with h₀ | hok
        · exact hbad.1 h₀
        · have hfalse := hbad.2
          rw [show (k.row k.current).space = (k.task k.current).space from rfl, hok] at hfalse
          cases hfalse
      | reaped ht' hz' hc hl hr hcur hcr3 hn =>
        have h₁ := hnone _ rfl
        have h₂ := htab.pos _ ht'
        omega
      | childless hno hs hn => exact hno t ht hchild
      | running ht' hc hz' ho hs hn => exact hz' t ht hchild hst
      | stuck ht' hc hz' hstuck hl hr hcur hcr3 hn => exact hz' t ht hchild hst
      | suspended ht' hc hz' hm hne hrun hl hr hcur hcr3 hn => exact hz' t ht hchild hst
    handed := fun parent hw frame status r he => by
      obtain ⟨hm, hp, hb, -⟩ := waiter_eq_some hw
      have hasleep : Asleep k parent (k.task parent) := ⟨⟨hm, rfl⟩, hb⟩
      refine ⟨?_, (hasleep.exit_wakes hrunning hw he).goes rfl, fun t ht hne hnp => ?_⟩
      · rw [exitEvents_eq htab.mem htab.running, hw, Option.map_some, hp]
        rfl
      · exact hother he ht hne fun hwt => hnp (Option.some.inj (hwt.symm.trans hw))
    unheard := fun hw status => by
      refine ⟨?_, fun frame r he t ht hne => hother he ht hne fun hwt => by rw [hw] at hwt; cases hwt⟩
      rw [exitEvents_eq htab.mem htab.running, hw]
      rfl
  }

/-- In every run in which the pids have not run out. -/
theorem ReportRun.reports_exact (h : ReportRun log n k) (hn : (n : Int) < int32Max) : ReportsExact log k :=
  (h.logOk hn).reportsExact (h.pidRun.scheduled hn)

def childTold : Kernel := ((initWaits.taskExit archTaskFrameInit 7).map Prod.snd).getD initWaits

theorem childTold_run : ReportRun (initWaits.exitEvents 7) 2 childTold := by
  have h₁ : ReportRun [] 1 started := .boot ⟨emptyKernel, created, created, 1000, archTaskFrameInit, rfl, rfl,
    created_eq, SameRows.refl _, rfl, started_eq⟩
  have h₂ := ReportRun.call (c := .task .fork) archTaskFrameInit h₁ example_forks.1
  have h₃ : ReportRun _ _ initWaits := .call (c := .task (.wait (-1) 0 0)) archTaskFrameInit h₂ rfl
  have hexit : initWaits.perform archTaskFrameInit (.exit 7) = some childTold := by
    rw [childTold]
    exact perform_exit archTaskFrameInit 7 (by decide +kernel)
  have h₄ := ReportRun.call (c := .task (.exit 7)) archTaskFrameInit h₃ hexit
  -- only the exit is in the log, and only the fork takes a pid
  have hblocks : ((started.forkNew archTaskFrameInit).taskWait archTaskFrameInit (-1) 0 0).1 = none := by
    decide +kernel
  have hwait : (started.forkNew archTaskFrameInit).events archTaskFrameInit (.task (.wait (-1) 0 0)) = [] := by
    rw [events, hblocks, waitEvents]
  have hfork : (started.allocates (.task .fork)).toNat = 1 := by decide +kernel
  rw [hwait, hfork] at h₄
  simpa [events, allocates] using h₄

theorem ReportRun.reports_exact_told : ReportsExact (initWaits.exitEvents 7) childTold :=
  ReportRun.reports_exact childTold_run (by decide)

end Kernel

end NarcOs
