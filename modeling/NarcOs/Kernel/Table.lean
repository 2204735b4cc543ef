import NarcOs.Kernel.Task
import NarcOs.Lib.Rotation

/-!
# The task table

What each call of `kernel/task.c` does to the list of tasks, to the fields that
scheduling and waiting look at, and to the active space. `Row` has these fields
of a task; the frames, descriptors and memory of the tasks are left out.
-/

namespace NarcOs

structure Row where
  pid : Int
  ppid : Int
  state : TaskState
  exitStatus : Nat
  waitPid : Int
  waitStatus : Nat
  space : Nat
  deriving DecidableEq

def Task.row (v : Task) : Row where
  pid := v.pid
  ppid := v.ppid
  state := v.state
  exitStatus := v.exitStatus
  waitPid := v.waitPid
  waitStatus := v.waitStatus
  space := v.space

def Row.IsChild (child parent : Row) (pid : Int) : Prop :=
  child.ppid = parent.pid ∧ (pid = -1 ∨ pid = child.pid)

def Row.block (r : Row) (pid : Int) (status : Nat) : Row :=
  { r with
    state := .blocked
    waitPid := pid
    waitStatus := status }

namespace Kernel

def row (k : Kernel) (t : Ptr) : Row := (k.task t).row

variable {k k' k'' : Kernel} {t u : Ptr}

-- ---------------------------------------------------------------------------
-- What is left alone
-- ---------------------------------------------------------------------------

structure SameTable (k k' : Kernel) : Prop where
  list : k'.taskList = k.taskList
  task : k'.task = k.task
  current : k'.current = k.current
  cr3 : k'.cr3 = k.cr3
  nextPid : k'.nextPid = k.nextPid

theorem SameTable.refl (k : Kernel) : SameTable k k := ⟨rfl, rfl, rfl, rfl, rfl⟩

theorem SameTable.trans (h : SameTable k k') (h' : SameTable k' k'') : SameTable k k'' where
  list := h'.list.trans h.list
  task := h'.task.trans h.task
  current := h'.current.trans h.current
  cr3 := h'.cr3.trans h.cr3
  nextPid := h'.nextPid.trans h.nextPid

theorem setPhys_table (k : Kernel) (p : Phys) : SameTable k (k.setPhys p) := ⟨rfl, rfl, rfl, rfl, rfl⟩

theorem kmalloc_table (k : Kernel) (taken : List Ptr) : SameTable k (k.kmalloc taken).2 := by
  unfold kmalloc
  split
  · exact SameTable.refl k
  · exact ⟨rfl, rfl, rfl, rfl, rfl⟩

theorem pipePut_table (k : Kernel) (p : Ptr) : SameTable k (k.pipePut p) := by
  unfold pipePut
  simp only
  split <;> exact ⟨rfl, rfl, rfl, rfl, rfl⟩

theorem filePut_table (k : Kernel) (fd : Option Ptr) : SameTable k (k.filePut fd) := by
  cases fd with
  | none => exact SameTable.refl k
  | some f =>
    unfold filePut
    simp only
    split
    · exact ⟨rfl, rfl, rfl, rfl, rfl⟩
    · have hfree : ∀ k' : Kernel, SameTable k' { k' with files := k'.files.erase f } :=
        fun _ => ⟨rfl, rfl, rfl, rfl, rfl⟩
      refine SameTable.trans ?_ (hfree _)
      split
      · refine SameTable.trans ?_ (pipePut_table _ _)
        split <;> exact ⟨rfl, rfl, rfl, rfl, rfl⟩
      · split <;> exact ⟨rfl, rfl, rfl, rfl, rfl⟩

theorem filePuts_table (fds : List (Option Ptr)) (k : Kernel) : SameTable k (fds.foldl filePut k) := by
  induction fds generalizing k with
  | nil => exact SameTable.refl k
  | cons fd fds ih => exact (filePut_table k fd).trans (ih _)

theorem shareFds_table (k : Kernel) (fds : List (Option Ptr)) : SameTable k (k.shareFds fds) := by
  unfold shareFds
  induction fds generalizing k with
  | nil => exact SameTable.refl k
  | cons fd fds ih =>
    rw [List.foldl_cons]
    refine SameTable.trans ?_ (ih _)
    cases fd with
    | none => exact SameTable.refl k
    | some f => exact ⟨rfl, rfl, rfl, rfl, rfl⟩

theorem fileNew_table (k : Kernel) (type : FdType) : SameTable k (k.fileNew type).2 := by
  unfold fileNew
  have h := kmalloc_table k k.files
  generalize k.kmalloc k.files = a at h ⊢
  obtain ⟨_ | f, k₁⟩ := a
  · exact h
  · exact h.trans ⟨rfl, rfl, rfl, rfl, rfl⟩

structure SameRows (k k' : Kernel) : Prop where
  list : k'.taskList = k.taskList
  row : ∀ t ∈ k.taskList, k'.row t = k.row t
  current : k'.current = k.current
  cr3 : k'.cr3 = k.cr3

theorem SameRows.refl (k : Kernel) : SameRows k k := ⟨rfl, fun _ _ => rfl, rfl, rfl⟩

theorem SameRows.trans (h : SameRows k k') (h' : SameRows k' k'') : SameRows k k'' where
  list := h'.list.trans h.list
  row t ht := (h'.row t (h.list.symm ▸ ht)).trans (h.row t ht)
  current := h'.current.trans h.current
  cr3 := h'.cr3.trans h.cr3

theorem SameTable.rows (h : SameTable k k') : SameRows k k' :=
  ⟨h.list, fun t _ => by rw [row, row, h.task], h.current, h.cr3⟩

@[simp] theorem row_modifyTask_self (f : Task → Task) : (k.modifyTask t f).row t = (f (k.task t)).row := by
  simp [row, modifyTask]

theorem row_modifyTask_of_ne (f : Task → Task) (h : u ≠ t) : (k.modifyTask t f).row u = k.row u := by
  simp [row, modifyTask, h]

theorem modifyTask_rows {f : Task → Task} (hf : ∀ v, (f v).row = v.row) (k : Kernel) (t : Ptr) :
    SameRows k (k.modifyTask t f) := by
  refine ⟨rfl, fun u _ => ?_, rfl, rfl⟩
  by_cases h : u = t
  · subst h
    rw [row_modifyTask_self, hf]
    rfl
  · exact row_modifyTask_of_ne f h

theorem closeAll_rows (k : Kernel) (t : Ptr) : SameRows k (k.closeAll t) := by
  unfold closeAll
  refine (filePuts_table (k.task t).fds k).rows.trans (modifyTask_rows ?_ _ t)
  exact fun _ => rfl

theorem closeAll_nextPid (k : Kernel) (t : Ptr) : (k.closeAll t).nextPid = k.nextPid :=
  (filePuts_table (k.task t).fds k).nextPid

-- ---------------------------------------------------------------------------
-- Good tables
-- ---------------------------------------------------------------------------

structure TableOk (list : List Ptr) (row : Ptr → Row) (current : Ptr) : Prop where
  nodup : list.Nodup
  pos : ∀ t ∈ list, 0 < (row t).pid
  inj : ∀ t ∈ list, ∀ u ∈ list, (row t).pid = (row u).pid → t = u
  mem : current ∈ list
  running : (row current).state = .runnable

def SamePids (list : List Ptr) (row row' : Ptr → Row) : Prop :=
  ∀ t ∈ list, (row' t).pid = (row t).pid ∧ (row' t).ppid = (row t).ppid

namespace TableOk

variable {list : List Ptr} {row row' : Ptr → Row} {current next : Ptr}

theorem change (h : TableOk list row current) (hp : SamePids list row row') (hm : next ∈ list)
    (hr : (row' next).state = .runnable) : TableOk list row' next where
  nodup := h.nodup
  pos t ht := by rw [(hp t ht).1]; exact h.pos t ht
  inj t ht u hu := by rw [(hp t ht).1, (hp u hu).1]; exact h.inj t ht u hu
  mem := hm
  running := hr

theorem erase (h : TableOk list row current) (hz : (row t).state = .zombie) :
    TableOk (list.erase t) row current where
  nodup := h.nodup.erase t
  pos u hu := h.pos u (List.mem_of_mem_erase hu)
  inj u hu v hv := h.inj u (List.mem_of_mem_erase hu) v (List.mem_of_mem_erase hv)
  mem := by
    refine h.nodup.mem_erase_iff.2 ⟨?_, h.mem⟩
    rintro rfl
    have hr := h.running
    rw [hz] at hr
    cases hr
  running := h.running

theorem append (h : TableOk list row current) (ht : t ∉ list) (hpos : 0 < (row t).pid)
    (hnew : ∀ u ∈ list, (row u).pid ≠ (row t).pid) : TableOk (list ++ [t]) row current := by
  have hmem : ∀ {u}, u ∈ list ++ [t] ↔ u ∈ list ∨ u = t := by simp
  exact {
    nodup := List.nodup_append.mpr ⟨h.nodup, List.nodup_singleton t, fun a ha b hb e => by
      rw [List.mem_singleton.mp hb] at e
      exact ht (e ▸ ha)⟩
    pos := fun u hu => by
      rcases hmem.1 hu with hu | rfl
      · exact h.pos u hu
      · exact hpos
    inj := fun u hu v hv he => by
      rcases hmem.1 hu with hu' | rfl <;> rcases hmem.1 hv with hv' | rfl
      · exact h.inj u hu' v hv' he
      · exact absurd he (hnew u hu')
      · exact absurd he.symm (hnew v hv')
      · rfl
    mem := hmem.2 (.inl h.mem)
    running := h.running
  }

end TableOk

-- ---------------------------------------------------------------------------
-- Pids
-- ---------------------------------------------------------------------------

structure PidChosen (k : Kernel) (pid next : Int) : Prop where
  alloc : k.allocPid int32Max.toNat k.nextPid = some (pid, next)
  pos : 1 ≤ pid
  fresh : ∀ u ∈ k.taskList, (k.row u).pid ≠ pid
  next_pos : 1 ≤ next
  first : (∀ u ∈ k.taskList, (k.row u).pid ≠ k.nextPid) →
    pid = k.nextPid ∧ next = if k.nextPid = int32Max then 1 else k.nextPid + 1

theorem allocPid_unused {n : Nat} {next pid following : Int} (h : k.allocPid n next = some (pid, following)) :
    ∀ u ∈ k.taskList, (k.task u).pid ≠ pid := by
  induction n generalizing next with
  | zero => cases h
  | succ n ih =>
    rw [allocPid] at h
    split at h
    · exact ih h
    · rename_i hnone
      cases h
      simpa [findTask] using hnone

theorem allocPid_pos {n : Nat} {next pid following : Int} (hn : 1 ≤ next)
    (h : k.allocPid n next = some (pid, following)) : 1 ≤ pid ∧ 1 ≤ following := by
  induction n generalizing next with
  | zero => cases h
  | succ n ih =>
    have hf : 1 ≤ if next = int32Max then 1 else next + 1 := by
      split <;> omega
    rw [allocPid] at h
    split at h
    · exact ih hf h
    · cases h
      exact ⟨hn, hf⟩

theorem allocPid_first {n : Nat} {next pid following : Int}
    (hu : ∀ u ∈ k.taskList, (k.task u).pid ≠ next) (h : k.allocPid n next = some (pid, following)) :
    pid = next ∧ following = if next = int32Max then 1 else next + 1 := by
  have hnone : k.findTask next = none := by simpa [findTask] using hu
  cases n with
  | zero => cases h
  | succ n =>
    rw [allocPid, hnone] at h
    simp only [Option.isSome_none, Bool.false_eq_true, if_false, Option.some.injEq,
      Prod.mk.injEq] at h
    exact ⟨h.1.symm, h.2.symm⟩

/-- The new task, which has no pid yet, does not matter to `alloc_pid`. -/
theorem allocPid_append {n : Nat} {next : Int} (hn : 1 ≤ next) (hl : k'.taskList = k.taskList ++ [t])
    (ho : ∀ u ∈ k.taskList, (k'.task u).pid = (k.task u).pid) (ht : (k'.task t).pid = 0) :
    k'.allocPid n next = k.allocPid n next := by
  have hfind : ∀ pid, 1 ≤ pid → (k'.findTask pid).isSome = (k.findTask pid).isSome := by
    intro pid hpid
    have hne : ¬ (k'.task t).pid = pid := by omega
    have hcongr : k.taskList.find? (fun u => (k'.task u).pid = pid) =
        k.taskList.find? (fun u => (k.task u).pid = pid) :=
      List.find?_congr fun u hu => by rw [ho u hu]
    rw [findTask, hl, List.find?_append, hcongr, List.find?_singleton]
    simp [hne, findTask]
  induction n generalizing next with
  | zero => rfl
  | succ n ih =>
    rw [allocPid, allocPid, hfind next hn, ih]
    split <;> omega

structure TaskAdded (k k' : Kernel) (t : Ptr) (pid : Int) : Prop where
  fresh : t ∉ k.taskList
  list : k'.taskList = k.taskList ++ [t]
  task : k'.task = Function.update k.task t { pid := pid }
  current : k'.current = k.current
  cr3 : k'.cr3 = k.cr3
  unused : ∀ u ∈ k.taskList, (k.row u).pid ≠ pid
  chosen : 1 ≤ k.nextPid → PidChosen k pid k'.nextPid

theorem kmalloc_not_mem (taken : List Ptr) (h : (k.kmalloc taken).1 = some t) : t ∉ taken := by
  unfold kmalloc at h
  split at h
  · cases h
  · simpa using (Option.filter_eq_some_iff.mp h).2

theorem taskAlloc_added {r : Option Ptr} (h : k.taskAlloc = some (r, k')) :
    (r = none ∧ SameTable k k') ∨ ∃ t pid, r = some t ∧ TaskAdded k k' t pid := by
  unfold taskAlloc at h
  have hsame := kmalloc_table k k.taskList
  have hfresh := fun t => kmalloc_not_mem (k := k) (t := t) k.taskList
  generalize k.kmalloc k.taskList = a at h hsame hfresh
  obtain ⟨_ | t, k₁⟩ := a
  · cases h
    exact .inl ⟨rfl, hsame⟩
  · have hnew := hfresh t rfl
    obtain ⟨hlist, htask, hcur, hcr3, hnext⟩ : SameTable k k₁ := hsame
    simp only at h
    split at h
    · cases h
    rename_i pid following hpid
    cases h
    rw [hnext] at hpid
    have hne : ∀ u ∈ k.taskList, u ≠ t := fun u hu e => hnew (e ▸ hu)
    have hunused : ∀ u ∈ k.taskList, (k.row u).pid ≠ pid := fun u hu => by
      have hu' := allocPid_unused hpid u (by simp [hlist, hu])
      simpa [row, Task.row, hne u hu, htask] using hu'
    refine .inr ⟨t, pid, rfl, hnew, ?_, ?_, hcur, hcr3, hunused, fun hn => ?_⟩
    · show k₁.taskList ++ [t] = _
      rw [hlist]
    · simp [modifyTask, htask]
    obtain ⟨hpos, hnextPos⟩ := allocPid_pos hn hpid
    have halloc : k.allocPid int32Max.toNat k.nextPid = some (pid, following) := by
      rw [← hpid]
      refine (allocPid_append (t := t) hn ?_ (fun u hu => ?_) ?_).symm
      · show k₁.taskList ++ [t] = _
        rw [hlist]
      · simp [hne u hu, htask]
      · simp
    refine ⟨halloc, hpos, hunused, hnextPos, fun hall => allocPid_first (fun u hu => ?_) hpid⟩
    rw [hlist, List.mem_append, List.mem_singleton] at hu
    rcases hu with hu | rfl
    · simpa [row, Task.row, hne u hu, htask] using hall u hu
    · simp only [Function.update_self]
      omega

def childRow (k : Kernel) (pid : Int) (space : Nat) : Row where
  pid := pid
  ppid := (k.row k.current).pid
  state := .runnable
  exitStatus := 0
  waitPid := 0
  waitStatus := 0
  space := space

/-- The outcomes of a fork, with whether a pid was allocated: no task, a task
that was taken back, a child. -/
inductive Forks (k k' : Kernel) : Bool → Int → Prop
  | refused (hs : SameRows k k') (hn : k'.nextPid = k.nextPid) : Forks k k' false (-1)
  | undone {pid : Int} (hs : SameRows k k') (hp : 1 ≤ k.nextPid → PidChosen k pid k'.nextPid) : Forks k k' true (-1)
  | forked {t : Ptr} {pid : Int} {space : Nat} (ht : t ∉ k.taskList)
      (hl : k'.taskList = k.taskList ++ [t]) (hr : ∀ u ∈ k.taskList, k'.row u = k.row u)
      (hc : k'.row t = k.childRow pid space) (hcur : k'.current = k.current)
      (hcr3 : k'.cr3 = k.cr3) (hnew : ∀ u ∈ k.taskList, (k.row u).pid ≠ pid)
      (hp : 1 ≤ k.nextPid → PidChosen k pid k'.nextPid) : Forks k k' true pid

structure Extended (k k' : Kernel) (t : Ptr) : Prop where
  list : k'.taskList = k.taskList ++ [t]
  row : ∀ u ∈ k.taskList, k'.row u = k.row u
  current : k'.current = k.current
  cr3 : k'.cr3 = k.cr3

theorem TaskAdded.extended {pid : Int} (h : TaskAdded k k' t pid) : Extended k k' t where
  list := h.list
  row u hu := by
    have hne : u ≠ t := fun e => h.fresh (e ▸ hu)
    simp [Kernel.row, h.task, hne]
  current := h.current
  cr3 := h.cr3

theorem Extended.table (h : Extended k k' t) (h' : SameTable k' k'') : Extended k k'' t where
  list := h'.list.trans h.list
  row u hu := by rw [Kernel.row, h'.task]; exact h.row u hu
  current := h'.current.trans h.current
  cr3 := h'.cr3.trans h.cr3

theorem Extended.modifyTask (h : Extended k k' t) (ht : t ∉ k.taskList) (f : Task → Task) :
    Extended k (k'.modifyTask t f) t where
  list := h.list
  row u hu := by
    have hne : u ≠ t := fun e => ht (e ▸ hu)
    rw [row_modifyTask_of_ne f hne]
    exact h.row u hu
  current := h.current
  cr3 := h.cr3

theorem Extended.free (h : Extended k k' t) (ht : t ∉ k.taskList) : SameRows k (k'.taskFree t) where
  list := by
    show k'.taskList.erase t = _
    rw [h.list, List.erase_append_right _ ht]
    simp
  row := h.row
  current := h.current
  cr3 := h.cr3

theorem row_copyState (k : Kernel) (t u : Ptr) : (k.copyState t).row u = k.row u := by
  unfold copyState
  have h : ∀ (k : Kernel) (t : Ptr) (a : ArchState), (k.modifyTask t fun v => { v with archState := a }).row u = k.row u := by
    intro k t a
    by_cases hu : u = t
    · subst hu
      rw [row_modifyTask_self]
      rfl
    · exact row_modifyTask_of_ne _ hu
  rw [h, h]

theorem forkInto_forks {k₁ : Kernel} {pid : Int} (hc : k.current ∈ k.taskList)
    (h : TaskAdded k k₁ t pid) (frame : TaskFrame) (space : Option Nat × Phys) :
    Forks k (k₁.forkInto t frame space).2 true (k₁.forkInto t frame space).1 := by
  have hpid : (k₁.task t).pid = pid := by simp [h.task]
  have hchosen := h.chosen
  unfold forkInto
  obtain ⟨_ | root, phys⟩ := space
  · exact .undone ((h.extended.table (setPhys_table k₁ phys)).free h.fresh) hchosen
  have hext := (h.extended.table (setPhys_table k₁ phys)).modifyTask h.fresh
    fun v => { v with space := root }
  have htask : ((k₁.setPhys phys).modifyTask t fun v => { v with space := root }).task t =
      { pid := pid, space := root } := by
    simp [modifyTask, setPhys, h.task]
  have hnext : ((k₁.setPhys phys).modifyTask t fun v => { v with space := root }).nextPid =
    k₁.nextPid := rfl
  simp only
  generalize (k₁.setPhys phys).modifyTask t (fun v => { v with space := root }) = k₂ at *
  have hheap := kmalloc_table k₂ []
  generalize k₂.kmalloc [] = a at hheap ⊢
  obtain ⟨_ | _, k₃⟩ := a
  · replace hheap : SameTable k₂ k₃ := hheap
    have hdestroy : Extended k (k₃.spaceDestroy t) t := by
      unfold spaceDestroy
      exact ((hext.table hheap).table (setPhys_table _ _)).modifyTask h.fresh _
    have hpid' : 1 ≤ k.nextPid → PidChosen k pid k₃.nextPid := by
      rw [hheap.nextPid, hnext]
      exact hchosen
    exact .undone (hdestroy.free h.fresh) hpid'
  · replace hheap : SameTable k₂ k₃ := hheap
    have hshare := shareFds_table k₃ (k₃.task k₃.current).fds
    have hchild : (k₃.task k₃.current).pid = (k.row k.current).pid := by
      have hrow := (hext.table hheap).row _ hc
      rw [(hext.table hheap).current, ← hrow]
      rfl
    simp only
    generalize k₃.shareFds (k₃.task k₃.current).fds = k₄ at hshare ⊢
    have hext := (hext.table hheap).table hshare
    have htask : k₄.task t = { pid := pid, space := root } := by
      rw [hshare.task, hheap.task, htask]
    have hnext : k₄.nextPid = k₁.nextPid := by
      rw [hshare.nextPid, hheap.nextPid, hnext]
    have hextend := fun f => hext.modifyTask h.fresh f
    generalize hv : (fun v : Task => ({ v with
      fds := (k₃.task k₃.current).fds
      ppid := (k₃.task k₃.current).pid
      state := .runnable
      mmapNext := (k₃.task k₃.current).mmapNext
      fsBase := (k₃.task k₃.current).fsBase
      frame := archSyscallReturn2 frame 0 0 } : Task)) = f
    have hrow : ((k₄.modifyTask t f).copyState t).row t = k.childRow pid root := by
      rw [row_copyState, row_modifyTask_self, htask, ← hv]
      simp only [Task.row, childRow, hchild]
    have hpid : (((k₄.modifyTask t f).copyState t).task t).pid = pid := congrArg Row.pid hrow
    rw [hpid]
    refine .forked h.fresh (hextend f).list (fun u hu => ?_) hrow (hextend f).current (hextend f).cr3 h.unused ?_
    · rw [row_copyState]
      exact (hextend f).row u hu
    · show 1 ≤ k.nextPid → PidChosen k pid k₄.nextPid
      rw [hnext]
      exact hchosen

theorem taskAlloc_isSome {r : Option Ptr} (h : k.taskAlloc = some (r, k')) :
    r = (k.kmalloc k.taskList).1 := by
  unfold taskAlloc at h
  generalize k.kmalloc k.taskList = a at h ⊢
  obtain ⟨_ | t, k₁⟩ := a
  · cases h
    rfl
  · simp only at h
    split at h
    · cases h
    · cases h
      rfl

theorem taskFork_forks (hc : k.current ∈ k.taskList) {frame : TaskFrame} {r : Int}
    (h : k.taskFork frame = some (r, k')) : Forks k k' (k.kmalloc k.taskList).1.isSome r := by
  unfold taskFork at h
  cases ha : k.taskAlloc with
  | none => simp [ha] at h
  | some a =>
    obtain ⟨ot, k₁⟩ := a
    rw [ha] at h
    rw [← taskAlloc_isSome ha]
    rcases taskAlloc_added ha with ⟨rfl, hsame⟩ | ⟨t, pid, rfl, hall⟩
    · cases h
      exact .refused hsame.rows hsame.nextPid
    · have hspec := forkInto_forks hc hall frame
        (k₁.phys.vmmSpaceClone k₁.cr3 (k₁.task k₁.current).space)
      have heq := Option.some.inj h
      rw [heq] at hspec
      exact hspec

-- ---------------------------------------------------------------------------
-- Scheduling
-- ---------------------------------------------------------------------------

theorem mem_rotation (hc : k.current ∈ k.taskList) : t ∈ k.rotation ↔ t ∈ k.taskList := by
  have hcycle : k.rotation = cycleFrom k.taskList (some k.current) := rfl
  rw [hcycle]
  refine mem_cycleFrom fun c h => ?_
  cases h
  exact hc

theorem nextTask_some (hc : k.current ∈ k.taskList) (h : k.nextTask = some t) :
    t ∈ k.taskList ∧ (k.row t).state = .runnable :=
  ⟨(mem_rotation hc).1 (List.mem_of_find?_eq_some h), by
    simpa [row, Task.row] using List.find?_some h⟩

theorem nextTask_none (hc : k.current ∈ k.taskList) (h : k.nextTask = none) (ht : t ∈ k.taskList) :
    (k.row t).state ≠ .runnable := by
  rw [nextTask, List.find?_eq_none] at h
  simpa [row, Task.row] using h t ((mem_rotation hc).2 ht)

structure Switched (k k' : Kernel) (next : Ptr) : Prop where
  list : k'.taskList = k.taskList
  row : ∀ t, k'.row t = k.row t
  current : k'.current = next
  cr3 : k'.cr3 = (k.row next).space
  nextPid : k'.nextPid = k.nextPid

theorem switchTo_switched (k : Kernel) (next : Ptr) (frame : TaskFrame) :
    Switched k (k.switchTo next frame).2 next := by
  have hrow : ∀ t, (k.modifyTask k.current fun v => { v with frame := frame, archState := k.fpu }).row t = k.row t := by
    intro t
    by_cases h : t = k.current
    · subst h
      rw [row_modifyTask_self]
      rfl
    · exact row_modifyTask_of_ne _ h
  exact ⟨rfl, hrow, rfl, congrArg Row.space (hrow next), rfl⟩

inductive Yields (k k' : Kernel) : Prop
  | stays (hs : SameRows k k') (hn : k'.nextPid = k.nextPid) : Yields k k'
  | switches {next : Ptr} (hm : next ∈ k.taskList) (hr : (k.row next).state = .runnable)
      (hs : Switched k k' next) : Yields k k'

theorem taskYield_yields (hc : k.current ∈ k.taskList) (frame : TaskFrame) :
    Yields k (k.taskYield frame).2 := by
  unfold taskYield
  split
  · exact .stays (SameRows.refl k) rfl
  rename_i next hnext
  split
  · exact .stays (SameRows.refl k) rfl
  · obtain ⟨hm, hr⟩ := nextTask_some hc hnext
    exact .switches hm hr (switchTo_switched k next frame)

-- ---------------------------------------------------------------------------
-- Wait
-- ---------------------------------------------------------------------------

theorem isChild_iff {pid : Int} : k.isChild t u pid = true ↔ (k.row t).IsChild (k.row u) pid := by
  simp [isChild, Row.IsChild, row, Task.row]

inductive Waits (k k' : Kernel) (pid : Int) (status : Nat) (options : Int) : Option Int → Prop
  | refused (hbad : status ≠ 0 ∧ k.phys.vmmUserRangeOk (k.row k.current).space status 4 true = false)
      (hs : SameRows k k') (hn : k'.nextPid = k.nextPid) : Waits k k' pid status options (some (-1))
  | reaped {t : Ptr} (ht : t ∈ k.taskList) (hz : (k.row t).state = .zombie)
      (hc : (k.row t).IsChild (k.row k.current) pid) (hl : k'.taskList = k.taskList.erase t)
      (hr : ∀ u, k'.row u = k.row u) (hcur : k'.current = k.current) (hcr3 : k'.cr3 = k.cr3)
      (hn : k'.nextPid = k.nextPid) : Waits k k' pid status options (some (k.row t).pid)
  | childless (hnone : ∀ t ∈ k.taskList, ¬ (k.row t).IsChild (k.row k.current) pid)
      (hs : SameRows k k') (hn : k'.nextPid = k.nextPid) : Waits k k' pid status options (some (-1))
  | running {t : Ptr} (ht : t ∈ k.taskList) (hc : (k.row t).IsChild (k.row k.current) pid)
      (hz : ∀ u ∈ k.taskList, (k.row u).IsChild (k.row k.current) pid → (k.row u).state ≠ .zombie)
      (ho : options % 2 = 1) (hs : SameRows k k') (hn : k'.nextPid = k.nextPid) :
      Waits k k' pid status options (some 0)
  | stuck {t : Ptr} (ht : t ∈ k.taskList) (hc : (k.row t).IsChild (k.row k.current) pid)
      (hz : ∀ u ∈ k.taskList, (k.row u).IsChild (k.row k.current) pid → (k.row u).state ≠ .zombie)
      (hstuck : ∀ u ∈ k.taskList, u ≠ k.current → (k.row u).state ≠ .runnable)
      (hl : k'.taskList = k.taskList)
      (hr : ∀ u, k'.row u = if u = k.current then { (k.row u).block pid status with state := .runnable }
        else k.row u)
      (hcur : k'.current = k.current) (hcr3 : k'.cr3 = k.cr3) (hn : k'.nextPid = k.nextPid) :
      Waits k k' pid status options (some (-1))
  | suspended {t next : Ptr} (ht : t ∈ k.taskList) (hc : (k.row t).IsChild (k.row k.current) pid)
      (hz : ∀ u ∈ k.taskList, (k.row u).IsChild (k.row k.current) pid → (k.row u).state ≠ .zombie)
      (hm : next ∈ k.taskList) (hne : next ≠ k.current) (hrun : (k.row next).state = .runnable)
      (hl : k'.taskList = k.taskList)
      (hr : ∀ u, k'.row u = if u = k.current then (k.row u).block pid status else k.row u)
      (hcur : k'.current = next) (hcr3 : k'.cr3 = (k.row next).space)
      (hn : k'.nextPid = k.nextPid) : Waits k k' pid status options none

theorem taskWait_waits (hc : k.current ∈ k.taskList) (frame : TaskFrame) (pid : Int) (status : Nat)
    (options : Int) : Waits k (k.taskWait frame pid status options).2.2 pid status options
      (k.taskWait frame pid status options).1 := by
  unfold taskWait
  split
  · rename_i hbad
    exact .refused (by simpa [row, Task.row] using hbad) (SameRows.refl k) rfl
  split
  · rename_i child hfind
    have hp := List.find?_some hfind
    simp only [decide_eq_true_eq, isChild_iff] at hp
    exact .reaped (List.mem_of_find?_eq_some hfind) hp.2 hp.1 rfl (fun _ => rfl) rfl rfl rfl
  rename_i hnone
  have hz : ∀ u ∈ k.taskList, (k.row u).IsChild (k.row k.current) pid →
      (k.row u).state ≠ .zombie := by
    intro u hu hch hzu
    have := List.find?_eq_none.1 hnone u hu
    simp only [decide_eq_true_eq, isChild_iff] at this
    exact this ⟨hch, hzu⟩
  split
  · rename_i hany
    refine .childless (fun t ht hch => hany ?_) (SameRows.refl k) rfl
    exact List.any_eq_true.2 ⟨t, ht, isChild_iff.2 hch⟩
  rename_i hany
  obtain ⟨t, ht, hch⟩ := List.any_eq_true.1 (not_not.1 hany)
  rw [isChild_iff] at hch
  split
  · rename_i ho
    exact .running ht hch hz ho (SameRows.refl k) rfl
  simp only
  obtain ⟨k₁, hk₁⟩ : ∃ k₁, k₁ = k.modifyTask k.current fun v => { v with
      state := .blocked
      waitPid := pid
      waitStatus := status } := ⟨_, rfl⟩
  have hrows : ∀ u, k₁.row u = if u = k.current then (k.row u).block pid status else k.row u := by
    intro u
    by_cases h : u = k.current
    · subst h
      rw [hk₁, row_modifyTask_self, if_pos rfl]
      rfl
    · rw [hk₁, row_modifyTask_of_ne _ h, if_neg h]
  have hlist : k₁.taskList = k.taskList := by rw [hk₁]; rfl
  have hcur : k₁.current = k.current := by rw [hk₁]; rfl
  have hcr3 : k₁.cr3 = k.cr3 := by rw [hk₁]; rfl
  have hnp : k₁.nextPid = k.nextPid := by rw [hk₁]; rfl
  have hmem : k₁.current ∈ k₁.taskList := by rw [hcur, hlist]; exact hc
  rw [← hk₁]
  clear hk₁
  split
  · rename_i hnext
    refine .stuck ht hch hz (fun u hu hne => ?_) hlist (fun u => ?_) hcur hcr3 hnp
    · have hnr := nextTask_none hmem hnext (hlist.symm ▸ hu)
      rwa [hrows, if_neg hne] at hnr
    · by_cases h : u = k.current
      · subst h
        have hrow : ∀ r : Row, k₁.row k.current = r → (k₁.modifyTask k₁.current fun v =>
            { v with state := .runnable }).row k.current = { r with state := .runnable } := by
          rintro r rfl
          rw [hcur, row_modifyTask_self]
          rfl
        rw [hrow _ (hrows _), if_pos rfl, if_pos rfl]
      · rw [row_modifyTask_of_ne _ (by rwa [hcur]), hrows, if_neg h, if_neg h]
  · rename_i next hnext
    obtain ⟨hm, hrun⟩ := nextTask_some hmem hnext
    have hne : next ≠ k.current := by
      rintro rfl
      rw [hrows, if_pos rfl] at hrun
      cases hrun
    have hsw := switchTo_switched k₁ next frame
    rw [hrows, if_neg hne] at hrun
    refine .suspended ht hch hz (hlist ▸ hm) hne hrun (hsw.list.trans hlist)
      (fun u => (hsw.row u).trans (hrows u)) hsw.current ?_ (hsw.nextPid.trans hnp)
    rw [hsw.cr3, hrows, if_neg hne]

-- ---------------------------------------------------------------------------
-- Exit
-- ---------------------------------------------------------------------------

def exitRow (k : Kernel) (status : Int) (w : Option Ptr) (t : Ptr) : Row :=
  if t = k.current then
    { k.row t with
      state := .zombie
      exitStatus := (status % 256).toNat }
  else if w = some t then { k.row t with state := .runnable }
  else k.row t

theorem exitRow_pids (k : Kernel) (status : Int) (w : Option Ptr) (t : Ptr) :
    (k.exitRow status w t).pid = (k.row t).pid ∧ (k.exitRow status w t).ppid = (k.row t).ppid := by
  unfold exitRow
  split
  · exact ⟨rfl, rfl⟩
  · split <;> exact ⟨rfl, rfl⟩

/-- What an exit does when the task `next` runs after it. The space of the task
that exited is gone. -/
structure Exits (k k' : Kernel) (status : Int) (next : Ptr) : Prop where
  mem : next ∈ k.taskList
  runnable : (k.exitRow status (k.waiter k.current) next).state = .runnable
  list : k'.taskList = if (k.waiter k.current).isSome then k.taskList.erase k.current else k.taskList
  row : ∀ u ∈ k.taskList, u ≠ k.current → k'.row u = k.exitRow status (k.waiter k.current) u
  gone : ∃ space, k'.row k.current =
    { k.exitRow status (k.waiter k.current) k.current with space := space }
  current : k'.current = next
  cr3 : k'.cr3 = (k.row next).space
  nextPid : k'.nextPid = k.nextPid

theorem waiter_eq_some (h : k.waiter t = some u) : u ∈ k.taskList ∧
    (k.row u).pid = (k.row t).ppid ∧ (k.row u).state = .blocked ∧
    ((k.row u).waitPid = -1 ∨ (k.row u).waitPid = (k.row t).pid) := by
  obtain ⟨hf, hp⟩ := Option.filter_eq_some_iff.mp h
  have hp := of_decide_eq_true hp
  exact ⟨List.mem_of_find?_eq_some hf, by simpa [row, Task.row] using List.find?_some hf, hp.1, hp.2⟩

theorem markZombie_row (k : Kernel) (status : Int) (ht : t ∈ k.taskList) :
    (k.markZombie k.current status).row t = k.exitRow status none t := by
  have hclose := (closeAll_rows k k.current).row t ht
  unfold markZombie
  by_cases hc : t = k.current
  · subst hc
    rw [exitRow, if_pos rfl, ← hclose, row_modifyTask_self]
    rfl
  · rw [row_modifyTask_of_ne _ hc, hclose, exitRow, if_neg hc, if_neg (by simp)]

theorem markZombie_waiter (hc : k.current ∈ k.taskList) (hr : (k.row k.current).state ≠ .blocked)
    (status : Int) : (k.markZombie k.current status).waiter k.current = k.waiter k.current := by
  have hlist : (k.markZombie k.current status).taskList = k.taskList := (closeAll_rows k k.current).list
  have hrow := fun u hu => markZombie_row k status (t := u) hu
  have hpid : ∀ u ∈ k.taskList, ((k.markZombie k.current status).task u).pid = (k.task u).pid := by
    intro u hu
    have := congrArg Row.pid (hrow u hu)
    simp only [exitRow] at this
    split at this <;> simpa [row, Task.row] using this
  have hppid : ((k.markZombie k.current status).task k.current).ppid = (k.task k.current).ppid := by
    have := congrArg Row.ppid (hrow _ hc)
    simpa [exitRow, row, Task.row] using this
  have hfind : (k.markZombie k.current status).findTask (k.task k.current).ppid =
      k.findTask (k.task k.current).ppid := by
    unfold findTask
    rw [hlist]
    exact List.find?_congr fun u hu => by rw [hpid u hu]
  unfold waiter
  rw [hppid, hfind]
  cases hu : k.findTask (k.task k.current).ppid with
  | none => rfl
  | some u =>
    have hmem : u ∈ k.taskList := List.mem_of_find?_eq_some hu
    have hwait : ∀ {k' : Kernel} {r : Row}, k'.row u = r → ((k'.task u).state = .blocked ∧
        ((k'.task u).waitPid = -1 ∨ (k'.task u).waitPid = (k.task k.current).pid) ↔
        r.state = .blocked ∧ (r.waitPid = -1 ∨ r.waitPid = (k.task k.current).pid)) := by
      rintro k' r rfl
      rfl
    simp only [Option.filter_some, hpid _ hc, hwait (hrow u hmem)]
    by_cases h : u = k.current
    · subst h
      rw [if_neg (by simp [exitRow]), if_neg]
      simpa [row, Task.row] using fun h => absurd h hr
    · have hsame : k.exitRow status none u = k.row u := by rw [exitRow, if_neg h, if_neg (by simp)]
      simp only [hsame, ← hwait (rfl : k.row u = k.row u)]

theorem wakeParent_row {k₁ : Kernel} {status : Int} {w : Option Ptr} (hw : ∀ u, w = some u → u ≠ k.current)
    (h : k₁.row t = k.exitRow status none t) :
    (k₁.wakeParent k.current w).row t = k.exitRow status w t := by
  unfold wakeParent
  cases w with
  | none => exact h
  | some u =>
    by_cases hu : t = u
    · subst hu
      have hne := hw t rfl
      rw [exitRow, if_neg hne, if_neg (by simp)] at h
      rw [row_modifyTask_self, exitRow, if_neg hne, if_pos rfl, ← h]
      rfl
    · rw [row_modifyTask_of_ne _ hu]
      show k₁.row t = _
      rw [h, exitRow, exitRow]
      simp [Ne.symm hu]

theorem wakeParent_fields (k : Kernel) (old : Ptr) (w : Option Ptr) :
    (k.wakeParent old w).taskList = k.taskList ∧ (k.wakeParent old w).current = k.current ∧
      (k.wakeParent old w).nextPid = k.nextPid := by
  cases w <;> exact ⟨rfl, rfl, rfl⟩

/-- The table when `task_exit` looks for the next task. -/
theorem exit_woken (hc : k.current ∈ k.taskList) (hr : (k.row k.current).state = .runnable)
    (status : Int) : ∃ k₁, k₁ = (k.markZombie k.current status).wakeParent k.current
        ((k.markZombie k.current status).waiter k.current) ∧
      (k.markZombie k.current status).waiter k.current = k.waiter k.current ∧
      k₁.taskList = k.taskList ∧ k₁.current = k.current ∧ k₁.nextPid = k.nextPid ∧
      ∀ u ∈ k.taskList, k₁.row u = k.exitRow status (k.waiter k.current) u := by
  have hwaiter := markZombie_waiter hc (by simp [hr]) status
  have hself : ∀ u, k.waiter k.current = some u → u ≠ k.current := by
    rintro u hu rfl
    have hb := (waiter_eq_some hu).2.2.1
    simp [hr] at hb
  obtain ⟨hl, hcur, hn⟩ := wakeParent_fields (k.markZombie k.current status) k.current (k.waiter k.current)
  rw [hwaiter]
  refine ⟨_, rfl, rfl, hl.trans (closeAll_rows k k.current).list,
    hcur.trans (closeAll_rows k k.current).current, hn.trans (closeAll_nextPid k k.current),
    fun u hu => wakeParent_row hself (markZombie_row k status hu)⟩

theorem taskExit_exits (hc : k.current ∈ k.taskList) (hr : (k.row k.current).state = .runnable)
    {frame frame' : TaskFrame} {status : Int} (h : k.taskExit frame status = some (frame', k')) :
    ∃ next, Exits k k' status next := by
  obtain ⟨k₁, hk₁, hwaiter, hl, hcur, hn, hrow⟩ := exit_woken hc hr status
  unfold taskExit at h
  simp only at h
  rw [← hk₁, hwaiter] at h
  clear hk₁ hwaiter
  split at h
  · cases h
  rename_i next hnext
  obtain ⟨hm, hrun⟩ := nextTask_some (by rw [hcur, hl]; exact hc) hnext
  rw [hl] at hm
  have hsw := switchTo_switched k₁ next frame
  generalize k₁.switchTo next frame = sw at h hsw
  obtain ⟨frame₂, k₂⟩ := sw
  have hk' : k' = if (k.waiter k.current).isSome then (k₂.spaceDestroy k.current).taskFree k.current
      else k₂.spaceDestroy k.current := (congrArg Prod.snd (Option.some.inj h)).symm
  have hother : ∀ u, u ≠ k.current → (k₂.spaceDestroy k.current).row u = k₁.row u := by
    intro u hu
    unfold spaceDestroy
    rw [row_modifyTask_of_ne _ hu]
    exact hsw.row u
  have hgone : ∃ space, (k₂.spaceDestroy k.current).row k.current =
      { k₁.row k.current with space := space } := by
    unfold spaceDestroy
    rw [← hsw.row k.current]
    exact ⟨_, row_modifyTask_self _⟩
  have hspace : (k.exitRow status (k.waiter k.current) next).space = (k.row next).space := by
    unfold exitRow
    split
    · rfl
    · split <;> rfl
  have hrow' : ∀ u, k'.row u = (k₂.spaceDestroy k.current).row u := by
    intro u
    rw [hk']
    split <;> rfl
  refine ⟨next, hm, by rw [← hrow next hm]; exact hrun, ?_, fun u hu hne => ?_, ?_, ?_, ?_, ?_⟩
  · rw [hk', ← hl, ← hsw.list]
    split <;> rfl
  · rw [hrow', hother u hne, hrow u hu]
  · rw [hrow', ← hrow _ hc]
    exact hgone
  · rw [hk', ← hsw.current]
    split <;> rfl
  · rw [← hspace, ← hrow next hm, ← hsw.cr3, hk']
    split <;> rfl
  · rw [← hn, ← hsw.nextPid, hk']
    split <;> rfl

theorem taskExit_none (hc : k.current ∈ k.taskList) (hr : (k.row k.current).state = .runnable)
    {frame : TaskFrame} {status : Int} (h : k.taskExit frame status = none) (ht : t ∈ k.taskList) :
    (k.exitRow status (k.waiter k.current) t).state ≠ .runnable := by
  obtain ⟨k₁, hk₁, hwaiter, hl, hcur, hn, hrow⟩ := exit_woken hc hr status
  unfold taskExit at h
  simp only at h
  rw [← hk₁, hwaiter] at h
  clear hk₁
  split at h
  · rename_i hnext
    rw [← hrow t ht]
    exact nextTask_none (by rw [hcur, hl]; exact hc) hnext (hl.symm ▸ ht)
  · cases h

-- ---------------------------------------------------------------------------
-- Exec
-- ---------------------------------------------------------------------------

inductive Execs (k k' : Kernel) : Prop
  | fails (hs : SameRows k k') (hn : k'.nextPid = k.nextPid) : Execs k k'
  | replaces {space : Nat} (hl : k'.taskList = k.taskList)
      (hr : ∀ u, k'.row u = if u = k.current then { k.row u with space := space } else k.row u)
      (hcur : k'.current = k.current) (hcr3 : k'.cr3 = space) (hn : k'.nextPid = k.nextPid) :
      Execs k k'

theorem taskExec_row (k : Kernel) (space entry stack : Nat) (u : Ptr) :
    (k.taskExec space entry stack).2.row u =
      if u = k.current then { k.row u with space := space } else k.row u := by
  by_cases h : u = k.current
  · subst h
    simp [taskExec, initState, row, Task.row, modifyTask, setPhys]
  · simp [taskExec, initState, row, modifyTask, setPhys, h]

theorem userExec_execs (k : Kernel) (frame : TaskFrame) (path : CString) (argv envp : List CString) :
    Execs k (k.userExec frame path argv envp).2.2 := by
  unfold userExec
  split
  · exact .fails (setPhys_table k _).rows rfl
  · rename_i space phys hcreate
    split
    · exact .fails ⟨rfl, fun _ _ => rfl, rfl, rfl⟩ rfl
    · rename_i entry stack vfs hload
      exact .replaces rfl (taskExec_row { k with vfs := vfs } space entry stack) rfl rfl rfl

-- ---------------------------------------------------------------------------
-- Calls that make no task
-- ---------------------------------------------------------------------------

structure Shrinks (k k' : Kernel) : Prop where
  sub : ∀ t ∈ k'.taskList, t ∈ k.taskList
  pids : SamePids k.taskList k.row k'.row

theorem shrinks_of_list (hl : k'.taskList = k.taskList) (hp : SamePids k.taskList k.row k'.row) : Shrinks k k' :=
  ⟨fun _ ht => hl ▸ ht, hp⟩

theorem samePids_of_row {list : List Ptr} {row row' : Ptr → Row} (h : ∀ t ∈ list, row' t = row t) : SamePids list row row' :=
  fun t ht => by rw [h t ht]; exact ⟨rfl, rfl⟩

theorem SameRows.shrinks (h : SameRows k k') : Shrinks k k' := shrinks_of_list h.list (samePids_of_row h.row)

theorem Yields.shrinks (h : Yields k k') : Shrinks k k' := by
  cases h with
  | stays hs hn => exact hs.shrinks
  | switches hm hr hs => exact shrinks_of_list hs.list (samePids_of_row fun u _ => hs.row u)

theorem Waits.shrinks {pid : Int} {status : Nat} {options : Int} {result : Option Int}
    (h : Waits k k' pid status options result) : Shrinks k k' := by
  cases h with
  | refused hbad hs hn => exact hs.shrinks
  | reaped ht hz hc hl hr hcur hcr3 hn => exact ⟨fun _ hu => List.mem_of_mem_erase (hl ▸ hu), samePids_of_row fun u _ => hr u⟩
  | childless hnone hs hn => exact hs.shrinks
  | running ht hc hz ho hs hn => exact hs.shrinks
  | stuck ht hc hz hstuck hl hr hcur hcr3 hn =>
    refine shrinks_of_list hl fun u _ => ?_
    rw [hr]
    split <;> exact ⟨rfl, rfl⟩
  | suspended ht hc hz hm hne hrun hl hr hcur hcr3 hn =>
    refine shrinks_of_list hl fun u _ => ?_
    rw [hr]
    split <;> exact ⟨rfl, rfl⟩

theorem Exits.shrinks {status : Int} {next : Ptr} (h : Exits k k' status next) : Shrinks k k' := by
  refine ⟨fun t ht => ?_, fun t ht => ?_⟩
  · rw [h.list] at ht
    split at ht
    · exact List.mem_of_mem_erase ht
    · exact ht
  · by_cases htc : t = k.current
    · obtain ⟨space, hgone⟩ := h.gone
      rw [htc, hgone]
      exact exitRow_pids k status (k.waiter k.current) k.current
    · rw [h.row t ht htc]
      exact exitRow_pids k status (k.waiter k.current) t

theorem Execs.shrinks (h : Execs k k') : Shrinks k k' := by
  cases h with
  | fails hs hn => exact hs.shrinks
  | replaces hl hr hcur hcr3 hn =>
    refine shrinks_of_list hl fun u _ => ?_
    rw [hr]
    split <;> exact ⟨rfl, rfl⟩

end Kernel

end NarcOs
