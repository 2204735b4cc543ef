import NarcOs.Kernel.Scheduler

/-!
# Parents

A task knows its parent by a pid. `Lineage` is the history that the kernel does
not keep: who made whom. The two agree as long as no fork gives a task the pid
of a parent that is gone while a child of that parent is still in the list.
-/

namespace NarcOs

namespace Kernel

/-- A number of its own for every task ever made, at the address of the task,
with the number of the task that forked it. -/
structure Lineage where
  id : Ptr → Nat
  creator : Ptr → Option Nat
  fresh : Nat

/-- The lineage after a call: a task that is new in the list was forked by the
task that made the call. -/
def Lineage.record (g : Lineage) (k k' : Kernel) : Lineage :=
  match k'.taskList.find? (· ∉ k.taskList) with
  | none => g
  | some t =>
    { id := Function.update g.id t g.fresh
      creator := Function.update g.creator t (some (g.id k.current))
      fresh := g.fresh + 1 }

/-- The states of all runs in which every call is as `ok` says, with the
lineage. -/
inductive LineageRun (ok : Kernel → ProcCall → Prop) : Kernel → Lineage → Prop
  | boot {k : Kernel} (h : Started k) : LineageRun ok k ⟨fun _ => 0, fun _ => none, 1⟩
  | call {k k' : Kernel} {g : Lineage} {c : ProcCall} (frame : TaskFrame) (h : LineageRun ok k g)
      (hok : ok k c) (hp : k.call frame c = some k') : LineageRun ok k' (g.record k k')
  | other {k k' : Kernel} {g : Lineage} (h : LineageRun ok k g) (hs : SameRows k k')
      (hn : k'.nextPid = k.nextPid) : LineageRun ok k' g

/-- A fork does not give a pid that a task in the list has for its parent. -/
def ForkSafe (k : Kernel) : ProcCall → Prop
  | .task .fork => ∀ pid next, k.allocPid int32Max.toNat k.nextPid = some (pid, next) →
      ∀ t ∈ k.taskList, (k.task t).ppid ≠ pid
  | _ => True

structure ParentsTrue (k : Kernel) (g : Lineage) : Prop where
  wait : ∀ frame pid status options r, (k.taskWait frame pid status options).1 = some r → 0 < r →
    ∃ t ∈ k.taskList, (k.task t).pid = r ∧ g.creator t = some (g.id k.current)
  exit : ∀ status parent, (k.markZombie k.current status).waiter k.current = some parent →
    parent ∈ k.taskList ∧ g.creator k.current = some (g.id parent)

variable {k k' : Kernel} {g : Lineage} {t u : Ptr}

-- ---------------------------------------------------------------------------
-- What a call does to the list
-- ---------------------------------------------------------------------------

structure Grows (k k' : Kernel) (t : Ptr) : Prop where
  fresh : t ∉ k.taskList
  list : k'.taskList = k.taskList ++ [t]
  row : ∀ u ∈ k.taskList, k'.row u = k.row u
  ppid : (k'.row t).ppid = (k.row k.current).pid
  current : k'.current = k.current

structure ListOk (k : Kernel) : Prop where
  table : TableOk k.taskList k.row k.current
  next : 1 ≤ k.nextPid

theorem ListOk.same (h : ListOk k) (hs : SameRows k k') (hn : 1 ≤ k'.nextPid) : ListOk k' := by
  refine ⟨?_, hn⟩
  rw [hs.list, hs.current]
  exact h.table.change hs.shrinks.pids h.table.mem (by rw [hs.row _ h.table.mem]; exact h.table.running)

theorem ListOk.fork (h : ListOk k) {allocated : Bool} {r : Int} (hf : Forks k k' allocated r) :
    ListOk k' ∧ (Shrinks k k' ∨ ∃ t, Grows k k' t ∧ PidChosen k (k'.row t).pid k'.nextPid) := by
  cases hf with
  | refused hs hn => exact ⟨h.same hs (by rw [hn]; exact h.next), .inl hs.shrinks⟩
  | undone hs hp => exact ⟨h.same hs (hp h.next).next_pos, .inl hs.shrinks⟩
  | @forked t pid space ht hl hr hc hcur hcr3 hnew hp =>
    replace hp := hp h.next
    have hpid : (k'.row t).pid = r := by rw [hc]; rfl
    refine ⟨⟨?_, hp.next_pos⟩, .inr ⟨t, ⟨ht, hl, hr, by rw [hc]; rfl, hcur⟩, by rw [hpid]; exact hp⟩⟩
    rw [hl, hcur]
    have hold : TableOk k.taskList k'.row k.current :=
      h.table.change (samePids_of_row hr) h.table.mem (by rw [hr _ h.table.mem]; exact h.table.running)
    refine hold.append ht ?_ fun u hu => ?_
    · rw [hpid]
      have := hp.pos
      omega
    · rw [hr u hu, hpid]
      exact hnew u hu

theorem ListOk.move (h : ListOk k) (hl : k'.taskList = k.taskList) (hs : Shrinks k k') (hm : k'.current ∈ k.taskList)
    (hr : (k'.row k'.current).state = .runnable) (hn : k'.nextPid = k.nextPid) : ListOk k' := by
  refine ⟨?_, by rw [hn]; exact h.next⟩
  rw [hl]
  exact h.table.change hs.pids hm hr

theorem ListOk.yield (h : ListOk k) (hy : Yields k k') : ListOk k' := by
  have hs := hy.shrinks
  cases hy with
  | stays hs hn => exact h.same hs (by rw [hn]; exact h.next)
  | switches hm hr hsw =>
    refine h.move hsw.list hs ?_ ?_ hsw.nextPid
    · rw [hsw.current]
      exact hm
    · rw [hsw.row, hsw.current]
      exact hr

theorem ListOk.exec (h : ListOk k) (he : Execs k k') : ListOk k' := by
  have hs := he.shrinks
  cases he with
  | fails hs hn => exact h.same hs (by rw [hn]; exact h.next)
  | replaces hl hr hcur hcr3 hn =>
    refine h.move hl hs (hcur ▸ h.table.mem) ?_ hn
    rw [hcur, hr, if_pos rfl]
    exact h.table.running

theorem ListOk.wait (h : ListOk k) {pid : Int} {status : Nat} {options : Int}
    {result : Option Int} (hw : Waits k k' pid status options result) : ListOk k' := by
  have hs := hw.shrinks
  cases hw with
  | refused hbad hs hn => exact h.same hs (by rw [hn]; exact h.next)
  | reaped ht hz hc hl hr hcur hcr3 hn =>
    have hrows : k'.row = k.row := funext hr
    refine ⟨?_, by rw [hn]; exact h.next⟩
    rw [hl, hcur, hrows]
    exact h.table.erase hz
  | childless hnone hs hn => exact h.same hs (by rw [hn]; exact h.next)
  | running ht hc hz ho hs hn => exact h.same hs (by rw [hn]; exact h.next)
  | stuck ht hc hz hstuck hl hr hcur hcr3 hn =>
    refine h.move hl hs (hcur ▸ h.table.mem) ?_ hn
    rw [hcur, hr, if_pos rfl]
  | suspended ht hc hz hm hne hrun hl hr hcur hcr3 hn =>
    refine h.move hl hs (hcur ▸ hm) ?_ hn
    rw [hcur, hr, if_neg hne]
    exact hrun

theorem ListOk.exit (h : ListOk k) {status : Int} {next : Ptr} (he : Exits k k' status next) : ListOk k' := by
  obtain ⟨space, hgone⟩ := he.gone
  have hz : (k'.row k.current).state = .zombie := by
    rw [hgone, exitRow, if_pos rfl]
  have hne : next ≠ k.current := by
    rintro rfl
    have hr := he.runnable
    rw [exitRow, if_pos rfl] at hr
    cases hr
  have htab : TableOk k.taskList k'.row next :=
    h.table.change he.shrinks.pids he.mem (by rw [he.row next he.mem hne]; exact he.runnable)
  refine ⟨?_, by rw [he.nextPid]; exact h.next⟩
  rw [he.list, he.current]
  split
  · exact htab.erase hz
  · exact htab

theorem ListOk.call (h : ListOk k) {frame : TaskFrame} {c : ProcCall} (hp : k.call frame c = some k') :
    ListOk k' ∧ (Shrinks k k' ∨ c = .task .fork ∧
      ∃ t, Grows k k' t ∧ PidChosen k (k'.row t).pid k'.nextPid) := by
  have hc := h.table.mem
  cases c with
  | exec path argv envp =>
    cases hp
    have he := userExec_execs k frame path argv envp
    exact ⟨h.exec he, .inl he.shrinks⟩
  | task c =>
    cases c with
    | fork =>
      obtain ⟨⟨r, k₁⟩, hf, rfl⟩ := Option.map_eq_some_iff.mp hp
      obtain ⟨hok, hs | ht⟩ := h.fork (taskFork_forks hc hf)
      · exact ⟨hok, .inl hs⟩
      · exact ⟨hok, .inr ⟨rfl, ht⟩⟩
    | exit status =>
      obtain ⟨⟨f, k₁⟩, he, rfl⟩ := Option.map_eq_some_iff.mp hp
      obtain ⟨next, hexits⟩ := taskExit_exits hc h.table.running he
      exact ⟨h.exit hexits, .inl hexits.shrinks⟩
    | wait pid status options =>
      cases hp
      have hw := taskWait_waits hc frame pid status options
      exact ⟨h.wait hw, .inl hw.shrinks⟩
    | yield =>
      cases hp
      have hy := taskYield_yields hc frame
      exact ⟨h.yield hy, .inl hy.shrinks⟩
    | preempt =>
      cases hp
      have hy := taskYield_yields hc frame
      exact ⟨h.yield hy, .inl hy.shrinks⟩

-- ---------------------------------------------------------------------------
-- The lineage
-- ---------------------------------------------------------------------------

structure Truthful (k : Kernel) (g : Lineage) : Prop where
  ok : ListOk k
  parent : ∀ t ∈ k.taskList, ∀ u ∈ k.taskList, (k.row t).ppid = (k.row u).pid →
    g.creator t = some (g.id u)

theorem Lineage.record_sub (g : Lineage) (h : ∀ t ∈ k'.taskList, t ∈ k.taskList) :
    g.record k k' = g := by
  have hnone : k'.taskList.find? (· ∉ k.taskList) = none := by
    rw [List.find?_eq_none]
    intro t ht
    simpa using h t ht
  rw [Lineage.record, hnone]

theorem Lineage.record_shrinks (g : Lineage) (h : Shrinks k k') : g.record k k' = g :=
  g.record_sub h.sub

theorem Lineage.record_grows (g : Lineage) (h : Grows k k' t) : g.record k k' =
    { id := Function.update g.id t g.fresh
      creator := Function.update g.creator t (some (g.id k.current))
      fresh := g.fresh + 1 } := by
  have hsome : k'.taskList.find? (· ∉ k.taskList) = some t := by
    rw [h.list, List.find?_append, List.find?_eq_none.2 fun u hu => by simpa using hu]
    simp [h.fresh]
  rw [Lineage.record, hsome]

theorem Truthful.shrinks (h : Truthful k g) (hok : ListOk k') (hs : Shrinks k k') :
    Truthful k' (g.record k k') := by
  rw [g.record_shrinks hs]
  refine ⟨hok, fun t ht u hu hp => ?_⟩
  rw [(hs.pids t (hs.sub t ht)).2, (hs.pids u (hs.sub u hu)).1] at hp
  exact h.parent t (hs.sub t ht) u (hs.sub u hu) hp

theorem Truthful.grows (h : Truthful k g) (hok : ListOk k') (hg : Grows k k' t)
    (hfree : ∀ u ∈ k.taskList, (k.row u).ppid ≠ (k'.row t).pid) : Truthful k' (g.record k k') := by
  rw [g.record_grows hg]
  have hmem : ∀ {u}, u ∈ k'.taskList → u ∈ k.taskList ∨ u = t := fun hu => by
    simpa [hg.list] using hu
  have hne : ∀ {u}, u ∈ k.taskList → u ≠ t := fun hu e => hg.fresh (e ▸ hu)
  have hold : ∀ {u}, u ∈ k.taskList → u ∈ k'.taskList := fun hu => by simp [hg.list, hu]
  have htmem : t ∈ k'.taskList := by simp [hg.list]
  refine ⟨hok, fun u hu v hv hp => ?_⟩
  rcases hmem hu with hu' | rfl
  · rcases hmem hv with hv' | rfl
    · rw [hg.row u hu', hg.row v hv'] at hp
      simpa [hne hu', hne hv'] using h.parent u hu' v hv' hp
    · rw [hg.row u hu'] at hp
      exact absurd hp (hfree u hu')
  · rw [hg.ppid] at hp
    have hcur := h.ok.table.mem
    have heq : k.current = v := by
      refine hok.table.inj _ (hold hcur) v hv ?_
      rw [hg.row _ hcur]
      exact hp
    subst heq
    simp [hne hcur]

theorem Truthful.call (h : Truthful k g) {frame : TaskFrame} {c : ProcCall} (hs : ForkSafe k c)
    (hp : k.call frame c = some k') : Truthful k' (g.record k k') := by
  obtain ⟨hok, hshrinks | ⟨rfl, t, hg, hpid⟩⟩ := h.ok.call hp
  · exact h.shrinks hok hshrinks
  · exact h.grows hok hg fun u hu => hs _ _ hpid.alloc u hu

theorem Truthful.same (h : Truthful k g) (hs : SameRows k k') (hn : k'.nextPid = k.nextPid) :
    Truthful k' g := by
  have hkept := h.shrinks (h.ok.same hs (by rw [hn]; exact h.ok.next)) hs.shrinks
  rwa [g.record_shrinks hs.shrinks] at hkept

theorem Started.truthful (h : Started k) : Truthful k ⟨fun _ => 0, fun _ => none, 1⟩ := by
  have hsch := h.scheduled
  refine ⟨⟨hsch.table.toTableOk, by rw [hsch.nextPid]; decide⟩, fun t ht u hu hp => ?_⟩
  have ht₁ := hsch.table.order t ht
  have ht₂ := hsch.table.max t ht
  have hu₁ := hsch.table.pos u hu
  omega

theorem LineageRun.truthful (h : LineageRun ForkSafe k g) : Truthful k g := by
  induction h with
  | boot hb => exact hb.truthful
  | call frame _ hok hp ih => exact ih.call hok hp
  | other _ hs hn ih => exact ih.same hs hn

theorem Truthful.parentsTrue (h : Truthful k g) : ParentsTrue k g where
  wait frame pid status options r hr hpos := by
    have hw := taskWait_waits h.ok.table.mem frame pid status options
    generalize (k.taskWait frame pid status options).2.2 = k' at hw
    generalize (k.taskWait frame pid status options).1 = result at hw hr
    cases hw with
    | refused hbad hs hn =>
      cases hr
      omega
    | reaped ht hz hc hl hrow hcur hcr3 hn =>
      cases hr
      exact ⟨_, ht, rfl, h.parent _ ht _ h.ok.table.mem hc.1⟩
    | childless hnone hs hn =>
      cases hr
      omega
    | running ht hc hz ho hs hn =>
      cases hr
      omega
    | stuck ht hc hz hstuck hl hrow hcur hcr3 hn =>
      cases hr
      omega
    | suspended ht hc hz hm hne hrun hl hrow hcur hcr3 hn => cases hr
  exit status parent hw := by
    have hrun := h.ok.table.running
    rw [markZombie_waiter h.ok.table.mem (by simp [hrun])] at hw
    obtain ⟨hm, hp, -⟩ := waiter_eq_some hw
    exact ⟨hm, h.parent _ h.ok.table.mem _ hm hp.symm⟩

/-- In every run whose forks are safe, parents are those who forked. -/
theorem LineageRun.parents_true (h : LineageRun ForkSafe k g) : ParentsTrue k g :=
  h.truthful.parentsTrue

def childLineage : Lineage :=
  (⟨fun _ => 0, fun _ => none, 1⟩ : Lineage).record started (started.forkNew archTaskFrameInit)

theorem childLineage_run : LineageRun ForkSafe (started.forkNew archTaskFrameInit) childLineage := by
  have h₀ : LineageRun ForkSafe started _ := .boot ⟨emptyKernel, created, created, 1000,
    archTaskFrameInit, rfl, rfl, created_eq, SameRows.refl _, rfl, started_eq⟩
  have hpid : started.allocPid int32Max.toNat started.nextPid = some (2, 3) := by decide +kernel
  have hsafe : ForkSafe started (.task .fork) := by
    intro pid next h
    rw [hpid] at h
    cases h
    decide +kernel
  exact .call archTaskFrameInit h₀ hsafe example_forks.1

def childExited : Kernel := ((parentRuns.taskExit archTaskFrameInit 7).map Prod.snd).getD parentRuns

/-- Init waits for a child that it made, before and after the exit of the child. -/
theorem LineageRun.parents_true_child :
    (∃ g, LineageRun ForkSafe initWaits g ∧ ∃ parent, (initWaits.markZombie initWaits.current 7).waiter initWaits.current = some parent ∧
      g.creator initWaits.current = some (g.id parent)) ∧
    ∃ g, LineageRun ForkSafe childExited g ∧ (childExited.taskWait archTaskFrameInit (-1) 0 0).1 = some 2 ∧
      ∃ t ∈ childExited.taskList, (childExited.task t).pid = 2 ∧ g.creator t = some (g.id childExited.current) := by
  have hwaits : LineageRun ForkSafe initWaits _ :=
    .call (c := .task (.wait (-1) 0 0)) archTaskFrameInit childLineage_run trivial rfl
  have hruns : LineageRun ForkSafe parentRuns _ := .call (c := .task .yield) archTaskFrameInit childLineage_run trivial rfl
  have hexit : parentRuns.perform archTaskFrameInit (.exit 7) = some childExited := by
    rw [childExited]
    exact perform_exit archTaskFrameInit 7 (by decide +kernel)
  have hexits : LineageRun ForkSafe childExited _ := .call (c := .task (.exit 7)) archTaskFrameInit hruns trivial hexit
  have hwaiter : (initWaits.markZombie initWaits.current 7).waiter initWaits.current = some 1000 := by decide +kernel
  have hreaped : (childExited.taskWait archTaskFrameInit (-1) 0 0).1 = some 2 := by decide +kernel
  exact ⟨⟨_, hwaits, 1000, hwaiter, ((LineageRun.parents_true hwaits).exit 7 1000 hwaiter).2⟩,
    _, hexits, hreaped, (LineageRun.parents_true hexits).wait archTaskFrameInit (-1) 0 0 2 hreaped (by decide)⟩

-- ---------------------------------------------------------------------------
-- A pid that comes back
-- ---------------------------------------------------------------------------

def forkRefused (k : Kernel) (child : Ptr) (heap : List (Option Ptr)) (denied : List Bool)
    (next : Int) : Kernel :=
  { k with
    heap := heap
    vfs := { k.vfs with phys := { k.phys with denied := denied } }
    task := Function.update k.task child { pid := if next = 1 then int32Max else next - 1 }
    nextPid := next }

theorem allocPid_next (h : ∀ t ∈ k.taskList, (k.task t).pid ≠ k.nextPid) :
    k.allocPid int32Max.toNat k.nextPid =
      some (k.nextPid, if k.nextPid = int32Max then 1 else k.nextPid + 1) := by
  have hmax : int32Max.toNat = 2147483646 + 1 := rfl
  have hfind : k.findTask k.nextPid = none := by
    rw [findTask, List.find?_eq_none]
    intro t ht
    simpa using h t ht
  rw [hmax, allocPid, hfind]
  rfl

theorem perform_fork_refused {heap : List (Option Ptr)} {denied : List Bool} (frame : TaskFrame)
    (hh : k.heap = some t :: heap) (hd : k.phys.denied = true :: denied) (ht : t ∉ k.taskList)
    (hpos : 0 < k.nextPid) (hfree : ∀ u ∈ k.taskList, (k.task u).pid ≠ k.nextPid) :
    k.perform frame .fork = some (k.forkRefused t heap denied
      (if k.nextPid = int32Max then 1 else k.nextPid + 1)) := by
  have hadded : ∀ u ∈ k.taskList ++ [t], (Function.update k.task t {} u).pid ≠ k.nextPid := by
    intro u hu
    rcases List.mem_append.mp hu with hu | hu
    · have hne : u ≠ t := fun e => ht (e ▸ hu)
      rw [Function.update_of_ne hne]
      exact hfree u hu
    · rw [List.mem_singleton.mp hu, Function.update_self]
      exact hpos.ne
  have hpid := allocPid_next (k := { k with
    heap := heap
    taskList := k.taskList ++ [t]
    task := Function.update k.task t {} }) hadded
  have halloc : k.kmalloc k.taskList = (some t, { k with heap := heap }) := by
    simp [kmalloc, hh, ht]
  have hspace : ∀ cr3 root, k.phys.vmmSpaceClone cr3 root = (none, { k.phys with denied := denied }) := by
    intro cr3 root
    simp [Phys.vmmSpaceClone, Phys.vmmSpaceCreate, Phys.allocPage, hd]
  have herase : (k.taskList ++ [t]).erase t = k.taskList := by
    rw [List.erase_append_right _ ht]
    simp
  have hnum : (if (if k.nextPid = int32Max then 1 else k.nextPid + 1) = 1 then int32Max
      else (if k.nextPid = int32Max then 1 else k.nextPid + 1) - 1) = k.nextPid := by
    split <;> split <;> omega
  unfold perform taskFork taskAlloc
  rw [halloc]
  simp only
  rw [hpid]
  simp only [modifyTask, phys] at hspace ⊢
  rw [hspace]
  simp only [forkInto, Option.map_some, setPhys, taskFree, forkRefused, herase, hnum,
    Function.update_self, Function.update_idem, phys]

theorem Lineage.record_refused (g : Lineage) {heap : List (Option Ptr)} {denied : List Bool} {next : Int}
    (ht : t ∉ k.taskList) : g.record k (k.forkRefused t heap denied next) = g := by
  refine g.record_shrinks ⟨fun _ hu => hu, fun u hu => ?_⟩
  have hne : u ≠ t := fun e => ht (e ▸ hu)
  simp [Kernel.row, forkRefused, Function.update_of_ne hne]

theorem LineageRun.forks_refused {heap : List (Option Ptr)} {n : Nat} {ok : Kernel → ProcCall → Prop}
    (hok : ∀ k, ok k (.task .fork)) (h : LineageRun ok k g)
    (hh : k.heap = List.replicate (n + 1) (some t) ++ heap)
    (hd : k.phys.denied = List.replicate (n + 1) true) (ht : t ∉ k.taskList) (hpos : 0 < k.nextPid)
    (hlt : ∀ u ∈ k.taskList, (k.task u).pid < k.nextPid) (hn : k.nextPid + n = int32Max) :
    LineageRun ok (k.forkRefused t heap [] 1) g := by
  induction n generalizing k with
  | zero =>
    have hstep := perform_fork_refused archTaskFrameInit hh hd ht hpos fun u hu => (hlt u hu).ne
    rw [if_pos (by omega)] at hstep
    have hrun := LineageRun.call (c := .task .fork) archTaskFrameInit h (hok k) hstep
    rwa [g.record_refused ht] at hrun
  | succ n ih =>
    have hstep := perform_fork_refused archTaskFrameInit hh hd ht hpos fun u hu => (hlt u hu).ne
    rw [if_neg (by omega)] at hstep
    have hrun := LineageRun.call (c := .task .fork) archTaskFrameInit h (hok k) hstep
    rw [g.record_refused ht] at hrun
    have hlast := ih hrun rfl rfl ht (show 0 < k.nextPid + 1 by omega) (fun u hu => ?_)
      (show k.nextPid + 1 + n = int32Max by push_cast at hn; omega)
    · simpa [forkRefused, phys, Function.update_idem] using hlast
    · have hne : u ≠ t := fun e => ht (e ▸ hu)
      have := hlt u hu
      simp only [forkRefused, Function.update_of_ne hne]
      omega

theorem shareFds_rest (fds : List (Option Ptr)) (k : Kernel) :
    (k.shareFds fds).heap = k.heap ∧ (k.shareFds fds).vfs = k.vfs := by
  induction fds generalizing k with
  | nil => exact ⟨rfl, rfl⟩
  | cons fd fds ih =>
    cases fd with
    | none => exact ih k
    | some f => exact ih (k.addRef f)

theorem taskAlloc_heap (h : k.taskAlloc = some (some t, k')) : k'.heap = k.heap.tail := by
  unfold taskAlloc at h
  have hheap : (k.kmalloc k.taskList).2.heap = k.heap.tail := by
    unfold kmalloc
    split <;> simp [*]
  generalize k.kmalloc k.taskList = a at h hheap
  obtain ⟨_ | u, k₁⟩ := a
  · cases h
  simp only at h
  split at h
  · cases h
  · cases h
    exact hheap

theorem forkNew_rest {c d : Ptr} {heap : List (Option Ptr)} {frame : TaskFrame}
    (hc : k.current ∈ k.taskList) (ha : (k.taskAlloc.bind Prod.fst).isSome)
    (hs : (k.phys.vmmSpaceCreate k.cr3).1.isSome) (hh : k.heap = some c :: some d :: heap) :
    (k.forkNew frame).heap = heap ∧ (k.forkNew frame).phys = (k.phys.vmmSpaceCreate k.cr3).2 := by
  unfold forkNew
  cases halloc : k.taskAlloc with
  | none => simp [halloc] at ha
  | some a =>
    obtain ⟨_ | t, k₁⟩ := a
    · simp [halloc] at ha
    obtain ⟨hvfs, hcr3, -⟩ := taskAlloc_rest halloc hc
    have hheap : k₁.heap = some d :: heap := by rw [taskAlloc_heap halloc, hh]; rfl
    have hp : k₁.phys = k.phys := congrArg Vfs.phys hvfs
    simp only [hp, hcr3]
    generalize k.phys.vmmSpaceCreate k.cr3 = r at hs ⊢
    obtain ⟨_ | root, q⟩ := r
    · cases hs
    simp only [forkInto, kmalloc, modifyTask, setPhys, hheap, Option.filter_some, List.not_mem_nil,
      not_false_eq_true, decide_true, if_true]
    rw [phys, (shareFds_rest _ _).1, (shareFds_rest _ _).2]
    exact ⟨rfl, rfl⟩

def exitNew (k : Kernel) (frame : TaskFrame) (status : Int) : Kernel :=
  match (k.markZombie k.current status).nextTask with
  | none => k
  | some next =>
    let root := (k.task k.current).space
    let k' := ((k.markZombie k.current status).switchTo next frame).2
    (k'.setPhys (k.phys.pmmFreePage root)).modifyTask k.current fun v => { v with space := 0 }

theorem markZombie_space (k : Kernel) (status : Int) (t : Ptr) :
    ((k.markZombie k.current status).task t).space = (k.task t).space := by
  have hclose : (k.closeAll k.current).task = Function.update k.task k.current
      { k.task k.current with fds := [] } := by
    have htab := filePuts_table (k.task k.current).fds k
    unfold closeAll modifyTask
    simp only [htab.task]
  by_cases ht : t = k.current
  · subst ht
    simp [markZombie, modifyTask, hclose]
  · simp [markZombie, modifyTask, hclose, ht]

theorem perform_exitNew {next : Ptr} (frame : TaskFrame) (status : Int)
    (hw : (k.markZombie k.current status).waiter k.current = none)
    (hn : (k.markZombie k.current status).nextTask = some next)
    (hne : (k.task next).space ≠ (k.task k.current).space)
    (hv : (k.markZombie k.current status).vfs = k.vfs)
    (hs : IsSpace k.phys.mem (k.task k.current).space fun _ => .empty) :
    k.perform frame (.exit status) = some (k.exitNew frame status) := by
  have hspace := markZombie_space k status
  have hcur : (k.markZombie k.current status).current = k.current :=
    (filePuts_table (k.task k.current).fds k).current
  unfold perform taskExit exitNew
  simp only [hw, wakeParent, hn, Option.map_some]
  unfold spaceDestroy
  have hphys : ((k.markZombie k.current status).switchTo next frame).2.phys = k.phys :=
    congrArg Vfs.phys hv
  have hold : (((k.markZombie k.current status).switchTo next frame).2.task k.current).space =
      (k.task k.current).space := by
    simp [switchTo, modifyTask, hcur, hspace]
  have hcr3 : ((k.markZombie k.current status).switchTo next frame).2.cr3 = (k.task next).space := by
    by_cases hc : next = k.current
    · simp [switchTo, modifyTask, hcur, hspace, hc]
    · simp [switchTo, modifyTask, hcur, hspace, hc]
  rw [hphys, hold, hcr3, hs.vmmSpaceDestroy_empty hne]
  rfl

@[irreducible] def lateHeap : List (Option Ptr) :=
  List.replicate 2147483644 (some 1003) ++ [some 1004, some 3004]

@[irreducible] def lateDenied : List Bool := List.replicate 2147483644 true

def scriptedKernel : Kernel :=
  { emptyKernel with
    vfs := { emptyKernel.vfs with
      phys := mmInit smallMap (fun _ => 0) (false :: false :: false :: lateDenied) }
    heap := some 1000 :: some 2001 :: some 3000 :: some 2002 :: some 2003 :: some 1001 :: some 3001 ::
      some 1002 :: some 3002 :: lateHeap }

def scriptedInit : Kernel := (scriptedKernel.taskCreate.map Prod.snd).getD scriptedKernel
def scriptedStart : Kernel := (scriptedInit.taskStart.map Prod.snd).getD scriptedInit

def parentForked : Kernel := scriptedStart.forkNew archTaskFrameInit
def parentActs : Kernel := (parentForked.taskYield archTaskFrameInit).2
def orphanForked : Kernel := parentActs.forkNew archTaskFrameInit

def parentExited : Kernel := orphanForked.exitNew archTaskFrameInit 0
def initBack : Kernel := (parentExited.taskYield archTaskFrameInit).2
def parentReaped : Kernel := (initBack.taskWait archTaskFrameInit (-1) 0 0).2.2

theorem scriptedStart_phys : scriptedStart.phys = (scriptedKernel.phys.vmmSpaceCreate 0).2 := rfl

set_option maxRecDepth 20000 in
theorem scriptedStart_heap : scriptedStart.heap =
    some 1001 :: some 3001 :: some 1002 :: some 3002 :: lateHeap := rfl

theorem parentForked_rest : parentForked.heap = some 1002 :: some 3002 :: lateHeap ∧
    parentForked.phys = (scriptedStart.phys.vmmSpaceCreate scriptedStart.cr3).2 :=
  forkNew_rest (by decide +kernel) (by decide +kernel) (by decide +kernel) scriptedStart_heap

theorem taskYield_rest (k : Kernel) (frame : TaskFrame) :
    (k.taskYield frame).2.heap = k.heap ∧ (k.taskYield frame).2.vfs = k.vfs := by
  unfold taskYield
  split
  · exact ⟨rfl, rfl⟩
  · split <;> exact ⟨rfl, rfl⟩

theorem parentActs_rest : parentActs.heap = some 1002 :: some 3002 :: lateHeap ∧
    parentActs.phys = (scriptedStart.phys.vmmSpaceCreate scriptedStart.cr3).2 := by
  obtain ⟨hh, hv⟩ := taskYield_rest parentForked archTaskFrameInit
  obtain ⟨hh', hp⟩ := parentForked_rest
  exact ⟨hh.trans hh', (congrArg Vfs.phys hv).trans hp⟩

theorem orphanForked_rest : orphanForked.heap = lateHeap ∧
    orphanForked.phys = (parentActs.phys.vmmSpaceCreate parentActs.cr3).2 :=
  forkNew_rest (by decide +kernel) (by decide +kernel) (by decide +kernel) parentActs_rest.1

theorem filePuts_heap (fds : List (Option Ptr)) (k : Kernel) : (fds.foldl filePut k).heap = k.heap := by
  have hpipe : ∀ (k : Kernel) (p : Ptr), (k.pipePut p).heap = k.heap := by
    intro k p
    unfold pipePut
    simp only
    split <;> rfl
  have hfile : ∀ (k : Kernel) (fd : Option Ptr), (k.filePut fd).heap = k.heap := by
    intro k fd
    unfold filePut
    split
    · rfl
    simp only
    split
    · rfl
    · split <;> split <;> simp only [hpipe]
  induction fds generalizing k with
  | nil => rfl
  | cons fd fds ih => exact (ih _).trans (hfile k fd)

theorem exitNew_rest {frame : TaskFrame} {status : Int}
    (hn : (k.markZombie k.current status).nextTask.isSome) :
    (k.exitNew frame status).heap = k.heap ∧
      (k.exitNew frame status).phys = k.phys.pmmFreePage (k.task k.current).space := by
  unfold exitNew
  cases h : (k.markZombie k.current status).nextTask with
  | none => simp [h] at hn
  | some next => exact ⟨filePuts_heap _ k, rfl⟩

theorem filePut_shared {f : Ptr} (h : wrapInt ((k.openFile f).refs - 1) ≠ 0) :
    k.filePut (some f) = { k with
      openFile := Function.update k.openFile f
        { k.openFile f with refs := wrapInt ((k.openFile f).refs - 1) } } := by
  unfold filePut
  simp only
  rw [if_pos h]

theorem markZombie_vfs (k : Kernel) (t : Ptr) (status : Int) :
    (k.markZombie t status).vfs = ((k.task t).fds.foldl filePut k).vfs := rfl

theorem filePuts_vfs {fds : List (Option Ptr)}
    (hs : ∀ f, some f ∈ fds → wrapInt ((k.openFile f).refs - 1) ≠ 0)
    (hd : fds.Pairwise fun a b => a = none ∨ a ≠ b) : (fds.foldl filePut k).vfs = k.vfs := by
  induction fds generalizing k with
  | nil => rfl
  | cons fd fds ih =>
    obtain ⟨hne, htail⟩ := List.pairwise_cons.mp hd
    rw [List.foldl_cons]
    cases fd with
    | none => exact ih (fun f hf => hs f (List.mem_cons_of_mem _ hf)) htail
    | some f =>
      rw [filePut_shared (hs f List.mem_cons_self)]
      refine ih (fun g hg => ?_) htail
      have hgf : g ≠ f := by
        rintro rfl
        exact (hne _ hg).elim (fun h => by cases h) fun h => h rfl
      simp only [Function.update_of_ne hgf]
      exact hs g (List.mem_cons_of_mem _ hg)

theorem parent_shares : (orphanForked.markZombie orphanForked.current 0).vfs = orphanForked.vfs := by
  have hfds : (orphanForked.task orphanForked.current).fds =
      [some 2001, some 2002, some 2003, none, none, none, none, none] := by decide +kernel
  rw [markZombie_vfs]
  refine filePuts_vfs (fun f hf => ?_) ?_
  · rw [hfds] at hf
    have : f = 2001 ∨ f = 2002 ∨ f = 2003 := by simpa using hf
    rcases this with rfl | rfl | rfl <;> decide +kernel
  · rw [hfds]
    decide

example : (orphanForked.task orphanForked.current).pid = 2 := by decide +kernel

theorem orphanForked_spaces : ∃ (A : Multiset Nat) (init parent : Nat),
    (scriptedStart.task scriptedStart.current).space = init ∧
    (orphanForked.task orphanForked.current).space = parent ∧
    (init ::ₘ parent ::ₘ A).Nodup ∧ orphanForked.phys.Avail A ∧
    IsSpace orphanForked.phys.mem init (fun _ => .empty) ∧
    IsSpace orphanForked.phys.mem parent (fun _ => .empty) ∧
    scriptedStart.perform archTaskFrameInit .fork = some parentForked ∧
    parentActs.perform archTaskFrameInit .fork = some orphanForked := by
  have hA : scriptedKernel.phys.Avail _ := Phys.avail_mmInit smallMap_ok
  rcases hA.vmmSpaceCreate 0 with ⟨hnone, -⟩ | ⟨r₀, A₁, hsome, hA₁, hav, hsp, -⟩
  · exact absurd hnone (by decide +kernel)
  rw [← scriptedStart_phys] at hav hsp
  have hroot : (scriptedStart.task scriptedStart.current).space = r₀ :=
    Option.some.inj (Eq.trans (by decide +kernel) hsome)
  rcases hav.vmmSpaceCreate scriptedStart.cr3 with ⟨hnone, -⟩ | ⟨r₁, A₂, hsome₁, hA₂, hav₁, hsp₁, hw₁⟩
  · exact absurd hnone (by decide +kernel)
  rw [← parentActs_rest.2] at hav₁ hsp₁ hw₁
  have hroot₁ : (parentActs.task parentActs.current).space = r₁ :=
    Option.some.inj (Eq.trans (by decide +kernel) hsome₁)
  rcases hav₁.vmmSpaceCreate parentActs.cr3 with ⟨hnone, -⟩ | ⟨r₂, A₃, hsome₂, hA₃, hav₂, -, hw₂⟩
  · exact absurd hnone (by decide +kernel)
  rw [← orphanForked_rest.2] at hav₂ hw₂
  have hroot₂ : (orphanForked.task orphanForked.current).space = r₁ :=
    Eq.trans (by decide +kernel) hroot₁
  have hnd := hA.nodup
  rw [hA₁, hA₂, hA₃] at hnd
  simp only [Multiset.nodup_cons, Multiset.mem_cons, not_or] at hnd
  obtain ⟨⟨h₀₁, h₀₂, h₀⟩, ⟨h₁₂, h₁⟩, h₂, h₃⟩ := hnd
  have hinit : IsSpace parentActs.phys.mem r₀ fun _ => .empty :=
    hsp.within_empty hw₁ (by simpa using h₀₁)
  refine ⟨A₃, r₀, r₁, hroot, hroot₂, by simp [h₀₁, h₀, h₁, h₃], hav₂,
    hinit.within_empty hw₂ (by simpa using h₀₂), hsp₁.within_empty hw₂ (by simpa using h₁₂), ?_, ?_⟩
  · refine perform_forkNew archTaskFrameInit (by decide +kernel) (hroot ▸ hsp) hav ?_ (by decide +kernel)
    simp [hroot, hA₂, hA₃, h₀₁, h₀₂, h₀]
  · refine perform_forkNew archTaskFrameInit (by decide +kernel) (hroot₁ ▸ hsp₁) hav₁ ?_
      (by decide +kernel)
    simp [hroot₁, hA₃, h₁₂, h₁]


theorem taskWait_rest (k : Kernel) (frame : TaskFrame) (pid options : Int) :
    (k.taskWait frame pid 0 options).2.2.heap = k.heap ∧
      (k.taskWait frame pid 0 options).2.2.phys = k.phys := by
  unfold taskWait
  rw [if_neg (by simp)]
  split
  · exact ⟨rfl, rfl⟩
  split
  · exact ⟨rfl, rfl⟩
  split
  · exact ⟨rfl, rfl⟩
  simp only
  split <;> exact ⟨rfl, rfl⟩

theorem parentReaped_rest : parentReaped.heap = lateHeap ∧
    parentReaped.phys = orphanForked.phys.pmmFreePage (orphanForked.task orphanForked.current).space := by
  obtain ⟨hh₁, hp₁⟩ := taskWait_rest initBack archTaskFrameInit (-1) 0
  obtain ⟨hh₂, hv₂⟩ := taskYield_rest parentExited archTaskFrameInit
  have hn : (orphanForked.markZombie orphanForked.current 0).nextTask.isSome := by decide +kernel
  obtain ⟨hh₃, hp₃⟩ : (orphanForked.exitNew archTaskFrameInit 0).heap = _ ∧ _ := exitNew_rest hn
  constructor
  · rw [parentReaped, hh₁, initBack, hh₂, parentExited, hh₃, orphanForked_rest.1]
  · rw [parentReaped, hp₁, initBack, phys, hv₂, ← phys, parentExited, hp₃]

def pidsWrapped : Kernel := parentReaped.forkRefused 1003 [some 1004, some 3004] [] 1
def strangerForked : Kernel := pidsWrapped.forkNew archTaskFrameInit
def orphanActs : Kernel := (strangerForked.taskYield archTaskFrameInit).2

example : (orphanActs.task orphanActs.current).pid = 3 := by decide +kernel

def strangerActs : Kernel :=
  ((orphanActs.taskExit archTaskFrameInit 0).map Prod.snd).getD orphanActs

def forkedLineage : Lineage :=
  ((⟨fun _ => 0, fun _ => none, 1⟩ : Lineage).record scriptedStart parentForked).record parentActs
    orphanForked

theorem parentReaped_run : LineageRun (fun _ _ => True) parentReaped forkedLineage := by
  obtain ⟨A, init, parent, hinit, hparent, hnd, hav, hspi, hspp, hfork₁, hfork₂⟩ := orphanForked_spaces
  have h₀ : LineageRun (fun _ _ => True) scriptedStart _ := .boot ⟨scriptedKernel, scriptedInit,
    scriptedInit, 1000, archTaskFrameInit, rfl, rfl,
    eq_some_getD scriptedKernel (some 1000) (by decide +kernel), SameRows.refl _, rfl,
    eq_some_getD scriptedInit archTaskFrameInit (by decide +kernel)⟩
  have h₁ := LineageRun.call (c := .task .fork) archTaskFrameInit h₀ trivial hfork₁
  have h₂ : LineageRun (fun _ _ => True) parentActs _ :=
    .call (c := .task .yield) archTaskFrameInit h₁ trivial rfl
  rw [Lineage.record_sub _ (by decide +kernel)] at h₂
  have h₃ := LineageRun.call (c := .task .fork) archTaskFrameInit h₂ trivial hfork₂
  have hexit : orphanForked.perform archTaskFrameInit (.exit 0) = some parentExited :=
    perform_exitNew archTaskFrameInit 0 (by decide +kernel)
      (show _ = some 1002 by decide +kernel) (by decide +kernel) parent_shares (hparent ▸ hspp)
  have h₄ := LineageRun.call (c := .task (.exit 0)) archTaskFrameInit h₃ trivial hexit
  rw [Lineage.record_sub _ (by decide +kernel)] at h₄
  have h₅ : LineageRun (fun _ _ => True) initBack _ :=
    .call (c := .task .yield) archTaskFrameInit h₄ trivial rfl
  rw [Lineage.record_sub _ (by decide +kernel)] at h₅
  have h₆ : LineageRun (fun _ _ => True) parentReaped _ :=
    .call (c := .task (.wait (-1) 0 0)) archTaskFrameInit h₅ trivial rfl
  rw [Lineage.record_sub _ (by decide +kernel)] at h₆
  exact h₆

theorem pidsWrapped_run : LineageRun (fun _ _ => True) pidsWrapped forkedLineage := by
  have hdenied : orphanForked.phys.denied = lateDenied := by
    rw [orphanForked_rest.2, Phys.vmmSpaceCreate_denied, parentActs_rest.2, Phys.vmmSpaceCreate_denied,
      scriptedStart_phys, Phys.vmmSpaceCreate_denied]
    rfl
  refine parentReaped_run.forks_refused (n := 2147483643) (fun _ => trivial) ?_ ?_ (by decide +kernel)
    (by decide +kernel) (by decide +kernel) (by decide +kernel)
  · rw [parentReaped_rest.1, lateHeap]
  · rw [parentReaped_rest.2, Phys.pmmFreePage_denied, hdenied, lateDenied]

theorem pidsWrapped_space : ∃ A, pidsWrapped.phys.Avail A ∧
    (pidsWrapped.task pidsWrapped.current).space ∉ A ∧
    IsSpace pidsWrapped.phys.mem (pidsWrapped.task pidsWrapped.current).space fun _ => .empty := by
  obtain ⟨A, init, parent, hinit, hparent, hnd, hav, hspi, hspp, -, -⟩ := orphanForked_spaces
  simp only [Multiset.nodup_cons, Multiset.mem_cons, not_or] at hnd
  obtain ⟨⟨hne, hi⟩, hp, -⟩ := hnd
  have hroot : (pidsWrapped.task pidsWrapped.current).space = init :=
    Eq.trans (by decide +kernel) hinit
  have hphys : pidsWrapped.phys = { orphanForked.phys.pmmFreePage parent with denied := [] } := by
    rw [← hparent, ← parentReaped_rest.2]
    rfl
  have hfree := Phys.within_pmmFreePage (p := orphanForked.phys) hspp.frame (Multiset.mem_singleton_self _)
  rw [hroot, hphys]
  refine ⟨parent ::ₘ A, (hav.pmmFreePage hspp.frame hp).setDenied [], by simp [hne, hi], ?_⟩
  exact hspi.within_empty hfree (by simpa using hne)

theorem strangerActs_run : LineageRun (fun _ _ => True) strangerActs
    (forkedLineage.record pidsWrapped strangerForked) := by
  obtain ⟨A, hav, hn, hsp⟩ := pidsWrapped_space
  have hfork : pidsWrapped.perform archTaskFrameInit .fork = some strangerForked :=
    perform_forkNew archTaskFrameInit (by decide +kernel) hsp hav hn (by decide +kernel)
  have h₁ := LineageRun.call (c := .task .fork) archTaskFrameInit pidsWrapped_run trivial hfork
  have h₂ : LineageRun (fun _ _ => True) orphanActs _ :=
    .call (c := .task .yield) archTaskFrameInit h₁ trivial rfl
  rw [Lineage.record_sub _ (by decide +kernel)] at h₂
  have hexit : orphanActs.perform archTaskFrameInit (.exit 0) = some strangerActs :=
    perform_exit archTaskFrameInit 0 (by decide +kernel)
  have h₃ := LineageRun.call (c := .task (.exit 0)) archTaskFrameInit h₂ trivial hexit
  rw [Lineage.record_sub _ (by decide +kernel)] at h₃
  exact h₃

/-- A task that never forked collects the child of another one. -/
theorem LineageRun.parents_untrue :
    ¬ ∀ k g, LineageRun (fun _ _ => True) k g → ParentsTrue k g := by
  intro h
  obtain ⟨t, ht, hpid, hcreator⟩ :=
    (h _ _ strangerActs_run).wait archTaskFrameInit (-1) 0 0 3 (by decide +kernel) (by decide)
  have hno : ∀ t ∈ strangerActs.taskList, (strangerActs.task t).pid = 3 →
      (forkedLineage.record pidsWrapped strangerForked).creator t ≠
        some ((forkedLineage.record pidsWrapped strangerForked).id strangerActs.current) := by
    decide +kernel
  exact hno t ht hpid hcreator

end Kernel

end NarcOs
