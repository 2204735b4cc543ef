import NarcOs.Kernel.TaskLaws

/-!
# The scheduler

While the pids have not run out, a child has a larger pid than its parent, so a
chain of tasks that wait for their children ends at one that can run. The
invariant `Scheduled` says this of the rows of the task table; every call keeps
it.
-/

namespace NarcOs

namespace Kernel

variable {k k' : Kernel} {t u : Ptr} {n : Nat}

-- ---------------------------------------------------------------------------
-- Chains of waiting tasks
-- ---------------------------------------------------------------------------

def Awaited (list : List Ptr) (row : Ptr → Row) : Prop :=
  ∀ t ∈ list, (row t).state = .blocked → ∃ u ∈ list, (row u).IsChild (row t) (row t).waitPid ∧
    ((row u).state = .runnable ∨ (row u).state = .blocked)

theorem Awaited.exists_runnable {list : List Ptr} {row : Ptr → Row} (h : Awaited list row)
    (hmax : ∀ t ∈ list, (row t).pid ≤ n) (horder : ∀ t ∈ list, (row t).ppid < (row t).pid)
    (ht : t ∈ list) (hb : (row t).state = .blocked) :
    ∃ u ∈ list, (row u).state = .runnable ∧ (row t).pid < (row u).pid := by
  -- on the distance of the pid from the largest one
  obtain ⟨d, hd⟩ : ∃ d : Nat, (n : Int) - (row t).pid = d :=
    ⟨((n : Int) - (row t).pid).toNat, by have := hmax t ht; omega⟩
  induction d using Nat.strong_induction_on generalizing t with
  | _ d ih =>
    obtain ⟨u, hu, hc, hr | hb'⟩ := h t ht hb
    · have hlt := horder u hu
      rw [hc.1] at hlt
      exact ⟨u, hu, hr, hlt⟩
    · have hlt := horder u hu
      have hle := hmax u hu
      rw [hc.1] at hlt
      obtain ⟨v, hv, hr, hlt'⟩ := ih ((n : Int) - (row u).pid).toNat (by omega) hu hb' (by omega)
      exact ⟨v, hv, hr, by omega⟩

-- ---------------------------------------------------------------------------
-- The invariant
-- ---------------------------------------------------------------------------

structure TableInv (n : Nat) (list : List Ptr) (row : Ptr → Row) (current : Ptr) (cr3 : Nat) : Prop
    extends TableOk list row current where
  max : ∀ t ∈ list, (row t).pid ≤ n
  order : ∀ t ∈ list, (row t).ppid < (row t).pid
  used : ∀ t ∈ list, (row t).state ≠ .unused
  active : cr3 = (row current).space
  awaited : Awaited list row

namespace TableInv

variable {list : List Ptr} {row row' : Ptr → Row} {current next : Ptr} {cr3 : Nat}

/-- Only states, waits and spaces change, and `next` runs. -/
theorem change (h : TableInv n list row current cr3) (hp : SamePids list row row')
    (hu : ∀ t ∈ list, (row' t).state ≠ .unused) (hm : next ∈ list)
    (hr : (row' next).state = .runnable) (ha : Awaited list row') :
    TableInv n list row' next (row' next).space where
  toTableOk := h.toTableOk.change hp hm hr
  max t ht := by rw [(hp t ht).1]; exact h.max t ht
  order t ht := by rw [(hp t ht).1, (hp t ht).2]; exact h.order t ht
  used := hu
  active := rfl
  awaited := ha

theorem respace (h : TableInv n list row current cr3)
    (hr : ∀ t ∈ list, ∃ space, row' t = { row t with space := space }) :
    TableInv n list row' current (row' current).space := by
  have hstate : ∀ t ∈ list, (row' t).state = (row t).state := fun t ht => by
    obtain ⟨space, hs⟩ := hr t ht
    rw [hs]
  have hchild : ∀ t ∈ list, ∀ u ∈ list, (row u).IsChild (row t) (row t).waitPid →
      (row' u).IsChild (row' t) (row' t).waitPid := fun t ht u hu hc => by
    obtain ⟨space, hs⟩ := hr t ht
    obtain ⟨space', hs'⟩ := hr u hu
    rw [hs, hs']
    exact hc
  refine h.change (fun t ht => ?_) (fun t ht => ?_) h.mem ?_ fun t ht hb => ?_
  · obtain ⟨space, hs⟩ := hr t ht
    rw [hs]
    exact ⟨rfl, rfl⟩
  · rw [hstate t ht]
    exact h.used t ht
  · rw [hstate _ h.mem]
    exact h.running
  · rw [hstate t ht] at hb
    obtain ⟨u, hu, hc, hst⟩ := h.awaited t ht hb
    exact ⟨u, hu, hchild t ht u hu hc, by rw [hstate u hu]; exact hst⟩

theorem congr (h : TableInv n list row current cr3) (hr : ∀ t ∈ list, row' t = row t) :
    TableInv n list row' current cr3 := by
  rw [h.active, ← hr _ h.mem]
  exact h.respace fun t ht => ⟨(row t).space, hr t ht⟩

theorem mono (h : TableInv n list row current cr3) {m : Nat} (hm : n ≤ m) :
    TableInv m list row current cr3 :=
  { h with max := fun t ht => by have := h.max t ht; omega }

theorem erase (h : TableInv n list row current cr3) (hz : (row t).state = .zombie) :
    TableInv n (list.erase t) row current cr3 := by
  have hmem : ∀ {u}, u ∈ list.erase t ↔ u ≠ t ∧ u ∈ list := h.nodup.mem_erase_iff
  exact {
    toTableOk := h.toTableOk.erase hz
    max := fun u hu => h.max u (hmem.1 hu).2
    order := fun u hu => h.order u (hmem.1 hu).2
    used := fun u hu => h.used u (hmem.1 hu).2
    active := h.active
    awaited := fun u hu hb => by
      obtain ⟨v, hv, hc, hst⟩ := h.awaited u (hmem.1 hu).2 hb
      have hne : v ≠ t := by
        rintro rfl
        rcases hst with hst | hst <;> simp [hz] at hst
      exact ⟨v, hmem.2 ⟨hne, hv⟩, hc, hst⟩
  }

theorem append (h : TableInv n list row current cr3) (ht : t ∉ list)
    (hpid : (row t).pid = n + 1) (hppid : (row t).ppid = (row current).pid)
    (hst : (row t).state = .runnable) : TableInv (n + 1) (list ++ [t]) row current cr3 := by
  have hmem : ∀ {u}, u ∈ list ++ [t] ↔ u ∈ list ∨ u = t := by simp
  have hnew : ∀ u ∈ list, (row u).pid < (row t).pid := fun u hu => by
    have := h.max u hu
    omega
  exact {
    toTableOk := h.toTableOk.append ht (by omega) fun u hu => (hnew u hu).ne
    max := fun u hu => by
      rcases hmem.1 hu with hu | rfl
      · have := h.max u hu
        omega
      · omega
    order := fun u hu => by
      rcases hmem.1 hu with hu | rfl
      · exact h.order u hu
      · rw [hppid]
        exact hnew _ h.mem
    used := fun u hu => by
      rcases hmem.1 hu with hu | rfl
      · exact h.used u hu
      · simp [hst]
    active := h.active
    awaited := fun u hu hb => by
      rcases hmem.1 hu with hu | rfl
      · obtain ⟨v, hv, hc, hs⟩ := h.awaited u hu hb
        exact ⟨v, hmem.2 (.inl hv), hc, hs⟩
      · rw [hst] at hb
        cases hb
  }

theorem suspend (h : TableInv n list row current cr3) {pid : Int} {status : Nat} (ht : t ∈ list)
    (hc : (row t).IsChild (row current) pid) (hz : (row t).state ≠ .zombie) (hm : next ∈ list)
    (hne : next ≠ current) (hrun : (row next).state = .runnable)
    (hr : ∀ u ∈ list, row' u = if u = current then (row u).block pid status else row u) :
    TableInv n list row' next (row next).space := by
  have hself : row' current = (row current).block pid status := by rw [hr _ h.mem, if_pos rfl]
  have hother : ∀ u ∈ list, u ≠ current → row' u = row u := fun u hu hne => by
    rw [hr u hu, if_neg hne]
  have hpids : SamePids list row row' := by
    intro u hu
    by_cases hu' : u = current
    · rw [hu', hself]
      exact ⟨rfl, rfl⟩
    · rw [hother u hu hu']
      exact ⟨rfl, rfl⟩
  rw [← hother next hm hne] at hrun ⊢
  refine h.change hpids (fun u hu => ?_) hm hrun fun u hu hb => ?_
  · by_cases hu' : u = current
    · rw [hu', hself]
      simp [Row.block]
    · rw [hother u hu hu']
      exact h.used u hu
  · -- the child that is waited for is live, and stays so when it is the one suspended
    have hlive : ∀ v ∈ list, (row v).state = .runnable ∨ (row v).state = .blocked →
        (row' v).state = .runnable ∨ (row' v).state = .blocked := by
      intro v hv hst
      by_cases hv' : v = current
      · rw [hv', hself]
        exact .inr rfl
      · rw [hother v hv hv']
        exact hst
    have hchild : ∀ v ∈ list, ∀ p, (row v).IsChild (row u) p → (row' v).IsChild (row' u) p := by
      intro v hv p hp
      rw [Row.IsChild, (hpids v hv).1, (hpids v hv).2, (hpids u hu).1]
      exact hp
    by_cases hu' : u = current
    · subst hu'
      have hlt := h.order t ht
      rw [hc.1] at hlt
      have hst : (row t).state = .runnable ∨ (row t).state = .blocked := by
        cases hst : (row t).state with
        | unused => exact absurd hst (h.used t ht)
        | runnable => exact .inl rfl
        | blocked => exact .inr rfl
        | zombie => exact absurd hst hz
      refine ⟨t, ht, hchild t ht _ ?_, hlive t ht hst⟩
      rw [hself]
      exact hc
    · have hw : (row' u).waitPid = (row u).waitPid := by rw [hother u hu hu']
      rw [hother u hu hu'] at hb
      obtain ⟨v, hv, hcv, hst⟩ := h.awaited u hu hb
      exact ⟨v, hv, by rw [hw]; exact hchild v hv _ hcv, hlive v hv hst⟩

theorem exists_runnable (h : TableInv n list row current cr3) (ht : t ∈ list)
    (hb : (row t).state = .blocked) : ∃ u ∈ list, (row u).state = .runnable ∧ (row t).pid < (row u).pid :=
  h.awaited.exists_runnable h.max h.order ht hb

theorem exists_other (h : TableInv n list row current cr3) {pid : Int} (ht : t ∈ list)
    (hc : (row t).IsChild (row current) pid) (hz : (row t).state ≠ .zombie) :
    ∃ u ∈ list, u ≠ current ∧ (row u).state = .runnable := by
  have hlt := h.order t ht
  rw [hc.1] at hlt
  cases hst : (row t).state with
  | unused => exact absurd hst (h.used t ht)
  | runnable => exact ⟨t, ht, by rintro rfl; omega, hst⟩
  | blocked =>
    obtain ⟨u, hu, hr, hlt'⟩ := h.exists_runnable ht hst
    exact ⟨u, hu, by rintro rfl; omega, hr⟩
  | zombie => exact absurd hst hz

end TableInv

structure Scheduled (n : Nat) (k : Kernel) : Prop where
  nextPid : k.nextPid = n + 1
  table : TableInv n k.taskList k.row k.current k.cr3

theorem Scheduled.same (h : Scheduled n k) (hs : SameRows k k') {m : Nat} (hm : n ≤ m)
    (hn : k'.nextPid = m + 1) : Scheduled m k' := by
  refine ⟨hn, ?_⟩
  rw [hs.list, hs.current, hs.cr3]
  exact (h.table.congr hs.row).mono hm

-- ---------------------------------------------------------------------------
-- Each call keeps it
-- ---------------------------------------------------------------------------

theorem Scheduled.pid_eq (h : Scheduled n k) (hn : (n : Int) + 1 < int32Max) {pid next : Int}
    (hp : 1 ≤ k.nextPid → PidChosen k pid next) : pid = n + 1 ∧ next = n + 2 := by
  have hpos : 1 ≤ k.nextPid := by
    rw [h.nextPid]
    omega
  have hfirst := (hp hpos).first fun u hu he => by
    have := h.table.max u hu
    rw [h.nextPid] at he
    omega
  rw [h.nextPid, if_neg (by omega)] at hfirst
  exact ⟨hfirst.1, by omega⟩

theorem Scheduled.fork (h : Scheduled n k) {allocated : Bool} {r : Int} (hf : Forks k k' allocated r)
    (hn : (n : Int) + allocated.toNat < int32Max) : Scheduled (n + allocated.toNat) k' := by
  cases hf with
  | refused hs hnext => exact h.same hs (Nat.le_add_right _ _) (by rw [hnext]; exact h.nextPid)
  | undone hs hp =>
    obtain ⟨-, hnext⟩ := h.pid_eq hn hp
    exact h.same hs (Nat.le_add_right _ _) (by rw [hnext]; simp; omega)
  | @forked t pid space ht hl hr hc hcur hcr3 hnew hp =>
    obtain ⟨rfl, hnext⟩ := h.pid_eq hn hp
    refine ⟨by rw [hnext]; simp; omega, ?_⟩
    rw [hl, hcur, hcr3]
    refine (h.table.congr hr).append ht ?_ ?_ ?_
    · rw [hc]
      rfl
    · rw [hc, hr _ h.table.mem]
      rfl
    · rw [hc]
      rfl

theorem Scheduled.yield (h : Scheduled n k) (hy : Yields k k') : Scheduled n k' := by
  cases hy with
  | stays hs hn => exact h.same hs le_rfl (by rw [hn]; exact h.nextPid)
  | switches hm hr hs =>
    refine ⟨by rw [hs.nextPid]; exact h.nextPid, ?_⟩
    have hrows : k'.row = k.row := funext hs.row
    rw [hs.list, hs.current, hs.cr3, hrows]
    exact h.table.change (fun _ _ => ⟨rfl, rfl⟩) h.table.used hm hr h.table.awaited

theorem Scheduled.exec (h : Scheduled n k) (he : Execs k k') : Scheduled n k' := by
  cases he with
  | fails hs hn => exact h.same hs le_rfl (by rw [hn]; exact h.nextPid)
  | @replaces space hl hr hcur hcr3 hn =>
    have hspace : (k'.row k.current).space = space := by rw [hr, if_pos rfl]
    refine ⟨by rw [hn]; exact h.nextPid, ?_⟩
    rw [hl, hcur, hcr3, ← hspace]
    refine h.table.respace fun u _ => ?_
    rw [hr u]
    split
    · exact ⟨space, rfl⟩
    · exact ⟨(k.row u).space, rfl⟩

theorem Scheduled.wait (h : Scheduled n k) {pid : Int} {status : Nat} {options : Int}
    {result : Option Int} (hw : Waits k k' pid status options result) : Scheduled n k' := by
  cases hw with
  | refused hbad hs hn => exact h.same hs le_rfl (by rw [hn]; exact h.nextPid)
  | reaped ht hz hc hl hr hcur hcr3 hn =>
    refine ⟨by rw [hn]; exact h.nextPid, ?_⟩
    have hrows : k'.row = k.row := funext hr
    rw [hl, hcur, hcr3, hrows]
    exact h.table.erase hz
  | childless hnone hs hn => exact h.same hs le_rfl (by rw [hn]; exact h.nextPid)
  | running ht hc hz ho hs hn => exact h.same hs le_rfl (by rw [hn]; exact h.nextPid)
  | stuck ht hc hz hstuck hl hr hcur hcr3 hn =>
    obtain ⟨u, hu, hne, hrun⟩ := h.table.exists_other ht hc (hz _ ht hc)
    exact absurd hrun (hstuck u hu hne)
  | suspended ht hc hz hm hne hrun hl hr hcur hcr3 hn =>
    refine ⟨by rw [hn]; exact h.nextPid, ?_⟩
    rw [hl, hcur, hcr3]
    exact h.table.suspend ht hc (hz _ ht hc) hm hne hrun fun u _ => hr u

/-- After an exit every task that waits still has a child to wait for: the one
that waited for the task that exited is woken. -/
theorem Scheduled.exit_awaited (h : Scheduled n k) (status : Int) :
    Awaited k.taskList (k.exitRow status (k.waiter k.current)) := by
  have htab := h.table
  intro t ht hb
  have hcur : t ≠ k.current := by
    rintro rfl
    rw [exitRow, if_pos rfl] at hb
    cases hb
  have hwoken : k.waiter k.current ≠ some t := by
    intro hw
    rw [exitRow, if_neg hcur, if_pos hw] at hb
    cases hb
  have hrow : k.exitRow status (k.waiter k.current) t = k.row t := by
    rw [exitRow, if_neg hcur, if_neg hwoken]
  rw [hrow] at hb ⊢
  obtain ⟨u, hu, hc, hst⟩ := htab.awaited t ht hb
  have hne : u ≠ k.current := by
    rintro rfl
    refine hwoken ?_
    have hfind : k.findTask (k.task k.current).ppid = some t := by
      cases hf : k.findTask (k.task k.current).ppid with
      | none => exact absurd hc.1.symm (findTask_none hf t ht)
      | some v =>
        obtain ⟨hv, hp⟩ := findTask_spec hf
        exact congrArg some (htab.inj v hv t ht (hp.trans hc.1))
    rw [waiter, hfind, Option.filter_some, if_pos]
    exact decide_eq_true ⟨hb, hc.2⟩
  refine ⟨u, hu, ?_, ?_⟩
  · rw [exitRow, if_neg hne]
    split <;> exact hc
  · rw [exitRow, if_neg hne]
    split
    · exact .inl rfl
    · exact hst

theorem Scheduled.exit_table (h : Scheduled n k) {status : Int} {next : Ptr} (hm : next ∈ k.taskList)
    (hr : (k.exitRow status (k.waiter k.current) next).state = .runnable) :
    TableInv n k.taskList (k.exitRow status (k.waiter k.current)) next (k.row next).space := by
  have hspace : (k.exitRow status (k.waiter k.current) next).space = (k.row next).space := by
    unfold exitRow
    split
    · rfl
    · split <;> rfl
  rw [← hspace]
  refine h.table.change (fun u _ => exitRow_pids k status _ u) (fun u hu => ?_) hm hr
    (h.exit_awaited status)
  unfold exitRow
  split
  · simp
  · split
    · simp
    · exact h.table.used u hu

theorem Scheduled.exit_zombies (h : Scheduled n k) {status : Int}
    (hnr : ∀ u ∈ k.taskList, (k.exitRow status (k.waiter k.current) u).state ≠ .runnable)
    (ht : t ∈ k.taskList) (hne : t ≠ k.current) : (k.row t).state = .zombie := by
  have hpids := exitRow_pids k status (k.waiter k.current)
  have hnb : (k.exitRow status (k.waiter k.current) t).state ≠ .blocked := fun hb => by
    obtain ⟨u, hu, hr, -⟩ := (h.exit_awaited status).exists_runnable
      (fun u hu => by rw [(hpids u).1]; exact h.table.max u hu)
      (fun u hu => by rw [(hpids u).1, (hpids u).2]; exact h.table.order u hu) ht hb
    exact hnr u hu hr
  have hrun := hnr t ht
  rw [exitRow, if_neg hne] at hrun hnb
  split at hrun
  · simp at hrun
  · rename_i hw
    rw [if_neg hw] at hnb
    cases hst : (k.row t).state with
    | unused => exact absurd hst (h.table.used t ht)
    | runnable => exact absurd hst hrun
    | blocked => exact absurd hst hnb
    | zombie => rfl

theorem Scheduled.exit (h : Scheduled n k) {status : Int} {next : Ptr} (he : Exits k k' status next) :
    Scheduled n k' := by
  refine ⟨by rw [he.nextPid]; exact h.nextPid, ?_⟩
  have hz : (k.exitRow status (k.waiter k.current) k.current).state = .zombie := by
    rw [exitRow, if_pos rfl]
  have hne : next ≠ k.current := by
    rintro rfl
    have hr := he.runnable
    rw [hz] at hr
    cases hr
  have hnext : (k'.row next).space = (k.row next).space := by
    rw [he.row next he.mem hne, exitRow, if_neg hne]
    split <;> rfl
  have htab : TableInv n k.taskList k'.row next (k.row next).space := by
    rw [← hnext]
    refine (h.exit_table he.mem he.runnable).respace fun u hu => ?_
    by_cases hu' : u = k.current
    · rw [hu']
      exact he.gone
    · exact ⟨(k.exitRow status (k.waiter k.current) u).space, he.row u hu hu'⟩
  obtain ⟨space, hgone⟩ := he.gone
  rw [he.list, he.current, he.cr3]
  split
  · exact htab.erase (by rw [hgone]; exact hz)
  · exact htab

-- ---------------------------------------------------------------------------
-- Runs
-- ---------------------------------------------------------------------------

/-- The state in which init runs: it is the first task, and what is done between
`task_create` and `task_start` leaves the table alone. -/
def Started (k : Kernel) : Prop :=
  ∃ (k₀ k₁ k₂ : Kernel) (t : Ptr) (frame : TaskFrame), k₀.taskList = [] ∧ k₀.nextPid = 1 ∧
    k₀.taskCreate = some (some t, k₁) ∧ SameRows k₁ k₂ ∧ k₂.nextPid = k₁.nextPid ∧
    k₂.taskStart = some (frame, k)

theorem userStart_started {k₀ : Kernel} {frame : TaskFrame} (hl : k₀.taskList = [])
    (hn : k₀.nextPid = 1) (h : k₀.userStart = some (frame, k)) : Started k := by
  unfold userStart at h
  split at h
  · rename_i t k₁ hcreate
    split at h
    · cases h
    · rename_i entry stack vfs hload
      refine ⟨k₀, k₁, _, t, frame, hl, hn, hcreate, ?_, ?_, h⟩
      · have hvfs : SameRows k₁ { k₁ with vfs := vfs } := ⟨rfl, fun _ _ => rfl, rfl, rfl⟩
        refine hvfs.trans (modifyTask_rows ?_ _ t)
        exact fun _ => rfl
      · rfl
  · cases h

theorem Started.scheduled (h : Started k) : Scheduled 1 k := by
  obtain ⟨k₀, k₁, k₂, t, frame, hl, hn, hcreate, hsame, hnext, hstart⟩ := h
  obtain ⟨h₁, h₂, h₃⟩ := taskCreate_first hl hn hcreate
  have hlist : k₂.taskList = [t] := hsame.list.trans h₁
  have hrow : k₂.row t = k₁.row t := hsame.row t (by simp [h₁])
  rw [key, Prod.mk.injEq, Prod.mk.injEq] at h₂
  have hpid : (k₂.row t).pid = 1 := by rw [hrow]; exact h₂.1
  have hppid : (k₂.row t).ppid = 0 := by rw [hrow]; exact h₂.2.1
  have hst : (k₂.row t).state = .runnable := by rw [hrow]; exact h₂.2.2
  unfold taskStart at hstart
  have hfind : k₂.taskList.find? (fun t => (k₂.task t).state = .runnable) = some t := by
    rw [hlist]
    exact List.find?_cons_of_pos (decide_eq_true hst)
  rw [hfind] at hstart
  simp only [Option.some.injEq, Prod.mk.injEq] at hstart
  obtain ⟨-, rfl⟩ := hstart
  refine ⟨by rw [← hnext] at h₃; exact h₃, ?_⟩
  show TableInv 1 k₂.taskList k₂.row t (k₂.row t).space
  rw [hlist]
  refine ⟨⟨List.nodup_singleton t, by simp [hpid], by simp, by simp, hst⟩, by simp [hpid],
    by simp [hpid, hppid], by simp [hst], rfl, fun u hu hb => ?_⟩
  rw [List.mem_singleton.1 hu, hst] at hb
  cases hb

inductive ProcCall
  | task (c : TaskCall)
  | exec (path : CString) (argv envp : List CString)

def call (k : Kernel) (frame : TaskFrame) : ProcCall → Option Kernel
  | .task c => k.perform frame c
  | .exec path argv envp => some (k.userExec frame path argv envp).2.2

def allocates (k : Kernel) : ProcCall → Bool
  | .task .fork => (k.kmalloc k.taskList).1.isSome
  | _ => false

/-- The states of all runs, with the number of pids that were allocated. Between
calls, user code and the rest of the kernel may do anything that leaves the
task table alone. -/
inductive PidRun : Nat → Kernel → Prop
  | boot {k : Kernel} (h : Started k) : PidRun 1 k
  | call {n : Nat} {k k' : Kernel} {c : ProcCall} (frame : TaskFrame) (h : PidRun n k)
      (hp : k.call frame c = some k') : PidRun (n + (k.allocates c).toNat) k'
  | other {n : Nat} {k k' : Kernel} (h : PidRun n k) (hs : SameRows k k')
      (hn : k'.nextPid = k.nextPid) : PidRun n k'

theorem Scheduled.call (h : Scheduled n k) {frame : TaskFrame} {c : ProcCall}
    (hn : ((n + (k.allocates c).toNat : Nat) : Int) < int32Max) (hp : k.call frame c = some k') :
    Scheduled (n + (k.allocates c).toNat) k' := by
  have hc := h.table.mem
  cases c with
  | exec path argv envp =>
    cases hp
    exact h.exec (userExec_execs k frame path argv envp)
  | task c =>
    cases c with
    | fork =>
      obtain ⟨⟨r, k₁⟩, hf, rfl⟩ := Option.map_eq_some_iff.mp hp
      exact h.fork (taskFork_forks hc hf) (by exact_mod_cast hn)
    | exit status =>
      obtain ⟨⟨f, k₁⟩, he, rfl⟩ := Option.map_eq_some_iff.mp hp
      obtain ⟨next, hexits⟩ := taskExit_exits hc h.table.running he
      exact h.exit hexits
    | wait pid status options =>
      cases hp
      exact h.wait (taskWait_waits hc frame pid status options)
    | yield =>
      cases hp
      exact h.yield (taskYield_yields hc frame)
    | preempt =>
      cases hp
      exact h.yield (taskYield_yields hc frame)

theorem PidRun.scheduled (h : PidRun n k) (hn : (n : Int) < int32Max) : Scheduled n k := by
  induction h with
  | boot hb => exact hb.scheduled
  | call frame _ hp ih => exact (ih (by push_cast at hn; omega)).call hn hp
  | other _ hs hnext ih =>
    have := ih hn
    exact this.same hs le_rfl (by rw [hnext]; exact this.nextPid)

structure SchedulerSafe (k : Kernel) : Prop where
  nodup : k.taskList.Nodup
  pos : ∀ t ∈ k.taskList, 0 < (k.task t).pid
  distinct : ∀ t ∈ k.taskList, ∀ u ∈ k.taskList, (k.task t).pid = (k.task u).pid → t = u
  current : k.current ∈ k.taskList
  runnable : (k.task k.current).state = .runnable
  active : k.cr3 = (k.task k.current).space
  awaited : ∀ t ∈ k.taskList, (k.task t).state = .blocked → ∃ u ∈ k.taskList,
    k.isChild u t (k.task t).waitPid ∧ ((k.task u).state = .runnable ∨ (k.task u).state = .blocked)
  progress : (∃ t ∈ k.taskList, (k.task t).state = .blocked) →
    ∃ t ∈ k.taskList, (k.task t).state = .runnable
  wait : ∀ frame pid status options, (k.taskWait frame pid status options).1 = some (-1) →
    (status ≠ 0 ∧ k.phys.vmmUserRangeOk (k.task k.current).space status 4 true = false) ∨
      ∀ t ∈ k.taskList, k.isChild t k.current pid = false
  exit : ∀ frame status, k.taskExit frame status = none → ∀ t ∈ k.taskList, t ≠ k.current →
    (k.task t).state = .zombie

theorem Scheduled.schedulerSafe (h : Scheduled n k) : SchedulerSafe k := by
  have htab := h.table
  exact {
    nodup := htab.nodup
    pos := htab.pos
    distinct := htab.inj
    current := htab.mem
    runnable := htab.running
    active := htab.active
    awaited := fun t ht hb => by
      obtain ⟨u, hu, hc, hst⟩ := htab.awaited t ht hb
      exact ⟨u, hu, isChild_iff.2 hc, hst⟩
    progress := fun ⟨t, ht, hb⟩ => by
      obtain ⟨u, hu, hr, -⟩ := htab.exists_runnable ht hb
      exact ⟨u, hu, hr⟩
    wait := fun frame pid status options he => by
      have hw := taskWait_waits htab.mem frame pid status options
      generalize (k.taskWait frame pid status options).2.2 = k' at hw
      generalize (k.taskWait frame pid status options).1 = r at hw he
      cases hw with
      | refused hbad hs hn => exact .inl hbad
      | reaped ht hz hc hl hr hcur hcr3 hn =>
        have hpos := htab.pos _ ht
        have := Option.some.inj he
        omega
      | childless hnone hs hn =>
        exact .inr fun t ht => Bool.eq_false_iff.2 fun hc => hnone t ht (isChild_iff.1 hc)
      | running ht hc hz ho hs hn => cases he
      | stuck ht hc hz hstuck hl hr hcur hcr3 hn =>
        obtain ⟨u, hu, hne, hrun⟩ := htab.exists_other ht hc (hz _ ht hc)
        exact absurd hrun (hstuck u hu hne)
      | suspended ht hc hz hm hne hrun hl hr hcur hcr3 hn => cases he
    exit := fun frame status he t ht hne => by
      have hnr : ∀ u ∈ k.taskList, (k.exitRow status (k.waiter k.current) u).state ≠ .runnable :=
        fun u hu => taskExit_none htab.mem htab.running he hu
      exact h.exit_zombies hnr ht hne
  }

/-- In every run in which the pids have not run out. -/
theorem PidRun.scheduler_safe (h : PidRun n k) (hn : (n : Int) < int32Max) : SchedulerSafe k :=
  (h.scheduled hn).schedulerSafe

/-- Init waits for its child. -/
theorem PidRun.scheduler_safe_initWaits : SchedulerSafe initWaits := by
  have h₁ : PidRun 1 started := .boot ⟨emptyKernel, created, created, 1000, archTaskFrameInit, rfl, rfl,
    created_eq, SameRows.refl _, rfl, started_eq⟩
  have h₂ := PidRun.call (c := .task .fork) archTaskFrameInit h₁ example_forks.1
  have h₃ : PidRun _ initWaits := .call (c := .task (.wait (-1) 0 0)) archTaskFrameInit h₂ rfl
  exact PidRun.scheduler_safe h₃ (by decide +kernel)

end Kernel

end NarcOs
