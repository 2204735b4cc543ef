import NarcOs.Kernel.Pids
import NarcOs.Mm.Clone

/-!
# All of a fork or nothing

A fork that succeeds adds one task, with the descriptors, registers and memory of
its parent. One that fails leaves the tasks, the references and the spaces as they
were, and no frame is lost. The references are counted in an `int`, and a table
that names one file often enough runs over.
-/

namespace NarcOs

def IsInt (n : Int) : Prop := -2 ^ 31 ≤ n ∧ n ≤ int32Max

theorem wrapInt_eq_iff {n : Int} : wrapInt n = n ↔ IsInt n := by
  unfold wrapInt IsInt int32Max
  rw [Int.bmod_def]
  split <;> omega

theorem wrapInt_add (a b : Int) : wrapInt (wrapInt a + b) = wrapInt (a + b) := by
  unfold wrapInt
  exact Int.bmod_add_bmod

namespace Kernel

variable {k k' : Kernel} {t : Ptr} {frame : TaskFrame}

-- ---------------------------------------------------------------------------
-- References
-- ---------------------------------------------------------------------------

def withRefs (v : OpenFile) (n : Nat) : OpenFile :=
  { v with refs := if n = 0 then v.refs else wrapInt (v.refs + n) }

theorem withRefs_add (v : OpenFile) (n : Nat) :
    withRefs { v with refs := wrapInt (v.refs + 1) } n = withRefs v (n + 1) := by
  unfold withRefs
  rw [if_neg (Nat.succ_ne_zero n)]
  split
  · rename_i hn
    rw [hn]
    rfl
  · simp only
    rw [wrapInt_add, Nat.cast_add, Nat.cast_one, add_assoc, add_comm (1 : Int)]

theorem shareFds_eq (k : Kernel) (fds : List (Option Ptr)) : k.shareFds fds =
    { k with openFile := fun f => withRefs (k.openFile f) (fds.count (some f)) } := by
  unfold shareFds
  induction fds generalizing k with
  | nil => rfl
  | cons fd fds ih =>
    rw [List.foldl_cons, ih]
    cases fd with
    | none =>
      simp only [List.count_cons, Kernel.mk.injEq, true_and, and_true]
      funext f
      simp
    | some g =>
      simp only [addRef, List.count_cons, Kernel.mk.injEq, true_and, and_true]
      funext f
      by_cases hf : f = g
      · subst hf
        simp [withRefs_add]
      · simp [hf, Ne.symm hf]

def RefsFit (k : Kernel) : Prop :=
  ∀ f, some f ∈ (k.task k.current).fds →
    IsInt ((k.openFile f).refs + (k.task k.current).fds.count (some f))

theorem refsFit_iff : k.RefsFit ↔ ∀ f, withRefs (k.openFile f) ((k.task k.current).fds.count (some f)) =
    { k.openFile f with refs := (k.openFile f).refs + (k.task k.current).fds.count (some f) } := by
  refine forall_congr' fun f => ?_
  unfold withRefs
  by_cases hf : some f ∈ (k.task k.current).fds
  · have hne : (k.task k.current).fds.count (some f) ≠ 0 :=
      Nat.ne_of_gt (List.count_pos_iff.mpr hf)
    rw [if_neg hne, OpenFile.mk.injEq]
    simp only [hf, forall_true_left, and_true]
    exact wrapInt_eq_iff.symm
  · rw [List.count_eq_zero.mpr hf]
    simp [hf]

-- ---------------------------------------------------------------------------
-- The outcomes
-- ---------------------------------------------------------------------------

/-- The kernel is the same but for the tasks, the open files, memory and what the
allocators have counted. -/
structure SameRest (k k' : Kernel) : Prop where
  vfs : k'.vfs = { k.vfs with phys := k'.phys }
  cr3 : k'.cr3 = k.cr3
  current : k'.current = k.current
  files : k'.files = k.files
  pipes : k'.pipes = k.pipes
  pipe : k'.pipe = k.pipe
  fpu : k'.fpu = k.fpu

structure NoChild (k k' : Kernel) : Prop where
  rest : SameRest k k'
  list : k'.taskList = k.taskList
  task : ∀ u ∈ k.taskList, k'.task u = k.task u
  openFile : k'.openFile = k.openFile

structure Child (k k' : Kernel) (frame : TaskFrame) (t : Ptr) : Prop where
  rest : SameRest k k'
  fresh : t ∉ k.taskList
  list : k'.taskList = k.taskList ++ [t]
  pid : ∀ u ∈ k.taskList, (k.task u).pid ≠ (k'.task t).pid
  positive : 0 < (k'.task t).pid
  ppid : (k'.task t).ppid = (k.task k.current).pid
  state : (k'.task t).state = .runnable
  frame : (k'.task t).frame = archSyscallReturn2 frame 0 0
  fds : (k'.task t).fds = (k.task k.current).fds
  fsBase : (k'.task t).fsBase = (k.task k.current).fsBase
  mmapNext : (k'.task t).mmapNext = (k.task k.current).mmapNext
  archState : (k'.task t).archState = k.fpu
  others : ∀ u ∈ k.taskList,
    k'.task u = if u = k.current then { k.task u with archState := k.fpu } else k.task u

/-- `vmm_space_clone` as the fork calls it. -/
def forkSpace (k : Kernel) : Option Nat × Phys := k.phys.vmmSpaceClone k.cr3 (k.task k.current).space

def ForkRefused (k : Kernel) : Prop :=
  (k.kmalloc k.taskList).1 = none ∨ k.forkSpace.1 = none ∨ ((k.kmalloc k.taskList).2.kmalloc []).1 = none

inductive ForkUndone (k : Kernel) : Phys → Prop
  | task : ForkUndone k k.phys
  | space (h : k.forkSpace.1 = none) : ForkUndone k k.forkSpace.2
  | fds {root : Nat} (h : k.forkSpace.1 = some root) :
      ForkUndone k (k.forkSpace.2.vmmSpaceDestroy k.cr3 root).2

-- ---------------------------------------------------------------------------
-- Which outcome
-- ---------------------------------------------------------------------------

theorem SameRest.phys (k : Kernel) (p : Phys) : SameRest k (k.setPhys p) := ⟨rfl, rfl, rfl, rfl, rfl, rfl, rfl⟩

theorem SameRest.trans {k'' : Kernel} (h : SameRest k k') (h' : SameRest k' k'') : SameRest k k'' where
  vfs := by rw [h'.vfs, h.vfs]
  cr3 := h'.cr3.trans h.cr3
  current := h'.current.trans h.current
  files := h'.files.trans h.files
  pipes := h'.pipes.trans h.pipes
  pipe := h'.pipe.trans h.pipe
  fpu := h'.fpu.trans h.fpu

theorem SameRest.kmalloc (k : Kernel) (taken : List Ptr) : SameRest k (k.kmalloc taken).2 := by
  unfold Kernel.kmalloc
  split <;> exact ⟨rfl, rfl, rfl, rfl, rfl, rfl, rfl⟩

structure Grown (k k' : Kernel) (t : Ptr) : Prop where
  rest : SameRest k k'
  fresh : t ∉ k.taskList
  list : k'.taskList = k.taskList ++ [t]
  task : ∀ u ≠ t, k'.task u = k.task u
  openFile : k'.openFile = k.openFile

namespace Grown

theorem setPhys (h : Grown k k' t) (p : Phys) : Grown k (k'.setPhys p) t :=
  ⟨h.rest.trans (.phys k' p), h.fresh, h.list, h.task, h.openFile⟩

theorem modifyTask (h : Grown k k' t) (f : Task → Task) : Grown k (k'.modifyTask t f) t where
  rest := h.rest.trans ⟨rfl, rfl, rfl, rfl, rfl, rfl, rfl⟩
  fresh := h.fresh
  list := h.list
  task u hu := (Function.update_of_ne hu _ _).trans (h.task u hu)
  openFile := h.openFile

theorem kmalloc (h : Grown k k' t) (taken : List Ptr) : Grown k (k'.kmalloc taken).2 t := by
  refine ⟨h.rest.trans (.kmalloc k' taken), h.fresh, ?_, ?_, ?_⟩ <;> unfold Kernel.kmalloc <;> split
  · exact h.list
  · exact h.list
  · exact h.task
  · exact h.task
  · exact h.openFile
  · exact h.openFile

theorem spaceDestroy (h : Grown k k' t) : Grown k (k'.spaceDestroy t) t := by
  unfold Kernel.spaceDestroy
  exact (h.setPhys _).modifyTask _

theorem free (h : Grown k k' t) : NoChild k (k'.taskFree t) where
  rest := h.rest.trans ⟨rfl, rfl, rfl, rfl, rfl, rfl, rfl⟩
  list := by
    show k'.taskList.erase t = _
    rw [h.list, List.erase_append_right _ h.fresh, List.erase_cons_head, List.append_nil]
  task u hu := h.task u fun e => h.fresh (e ▸ hu)
  openFile := h.openFile

end Grown

/-- The second allocation of the fork, as `k` decides it. -/
theorem kmalloc_heap {k₁ k₂ : Kernel} (h : k₁.heap = k₂.heap) (taken : List Ptr) :
    (k₁.kmalloc taken).1 = (k₂.kmalloc taken).1 := by
  unfold Kernel.kmalloc
  rw [h]
  split <;> rfl

theorem taskAlloc_grown (h : k.taskAlloc = some (some t, k')) :
    Grown k k' t ∧ k'.phys = k.phys ∧ k'.heap = (k.kmalloc k.taskList).2.heap ∧
      (k.kmalloc k.taskList).1 = some t ∧ ∃ pid, TaskAdded k k' t pid := by
  obtain ⟨hnone, -⟩ | ⟨u, pid, hu, hadd⟩ := taskAlloc_added h
  · cases hnone
  cases hu
  have hrest : SameRest k k' ∧ k'.phys = k.phys ∧ k'.heap = (k.kmalloc k.taskList).2.heap ∧
      k'.openFile = k.openFile := by
    unfold taskAlloc at h
    have hk := SameRest.kmalloc k k.taskList
    have hopen : (k.kmalloc k.taskList).2.openFile = k.openFile ∧
        (k.kmalloc k.taskList).2.phys = k.phys := by
      unfold Kernel.kmalloc
      split <;> exact ⟨rfl, rfl⟩
    generalize k.kmalloc k.taskList = a at h hk hopen ⊢
    obtain ⟨_ | v, k₁⟩ := a
    · cases h
    · simp only at h
      split at h
      · cases h
      · cases h
        exact ⟨hk.trans ⟨rfl, rfl, rfl, rfl, rfl, rfl, rfl⟩, hopen.2, rfl, hopen.1⟩
  obtain ⟨hrest, hphys, hheap, hopen⟩ := hrest
  refine ⟨⟨hrest, hadd.fresh, hadd.list, fun u hu => ?_, hopen⟩, hphys, hheap, (taskAlloc_isSome h).symm, pid, hadd⟩
  rw [hadd.task, Function.update_of_ne hu]

theorem copyState_task (hc : k.current ≠ t) (u : Ptr) : (k.copyState t).task u =
    if u = t ∨ u = k.current then { k.task u with archState := k.fpu } else k.task u := by
  unfold copyState modifyTask
  by_cases hu : u = t
  · subst hu
    simp [Ne.symm hc]
  · by_cases huc : u = k.current
    · subst huc
      simp [hu]
    · simp [hu, huc]

/-- The fields that `task_fork` sets at its end. -/
def childTask (parent : Task) (frame : TaskFrame) (v : Task) : Task :=
  { v with
    fds := parent.fds
    ppid := parent.pid
    state := .runnable
    mmapNext := parent.mmapNext
    fsBase := parent.fsBase
    frame := archSyscallReturn2 frame 0 0 }

theorem Grown.child {p : Phys} (hc : k.current ≠ t) (h : Grown k k' t) (frame : TaskFrame)
    (hfresh : ∀ u ∈ k.taskList, (k.task u).pid ≠ (k'.task t).pid) (hpos : 1 ≤ (k'.task t).pid)
    (hphys : k'.phys = p) :
    let r := ((k'.shareFds (k.task k.current).fds).modifyTask t (childTask (k.task k.current) frame)).copyState t
    (r.task t).pid = (k'.task t).pid ∧ Child k r frame t ∧ (r.task t).space = (k'.task t).space ∧ r.phys = p ∧
      ∀ f, r.openFile f = withRefs (k.openFile f) ((k.task k.current).fds.count (some f)) := by
  intro r
  have hc' : k'.current ≠ t := h.rest.current ▸ hc
  have hr : r = ((k'.shareFds (k.task k.current).fds).modifyTask t (childTask (k.task k.current) frame)).copyState t := rfl
  rw [shareFds_eq] at hr
  have hnew : r.task t = { childTask (k.task k.current) frame (k'.task t) with archState := k.fpu } := by
    rw [hr, copyState_task (by exact hc'), if_pos (.inl rfl), ← h.rest.fpu]
    simp [Kernel.modifyTask]
  have hold : ∀ u ∈ k.taskList,
      r.task u = if u = k.current then { k.task u with archState := k.fpu } else k.task u := fun u hu => by
    have hut : u ≠ t := fun e => h.fresh (e ▸ hu)
    rw [hr, copyState_task (by exact hc')]
    simp [Kernel.modifyTask, hut, h.task u hut, h.rest.current, h.rest.fpu]
  have hrest : SameRest k r := h.rest.trans (by rw [hr]; exact ⟨rfl, rfl, rfl, rfl, rfl, rfl, rfl⟩)
  have hpid : (r.task t).pid = (k'.task t).pid := (congrArg Task.pid hnew).trans rfl
  refine ⟨hpid, ⟨hrest, h.fresh, ?_, hpid ▸ hfresh, hpid ▸ hpos, (congrArg Task.ppid hnew).trans rfl,
    (congrArg Task.state hnew).trans rfl, (congrArg Task.frame hnew).trans rfl, (congrArg Task.fds hnew).trans rfl, (congrArg Task.fsBase hnew).trans rfl,
    (congrArg Task.mmapNext hnew).trans rfl, (congrArg Task.archState hnew).trans rfl, hold⟩, (congrArg Task.space hnew).trans rfl, ?_, fun f => ?_⟩
  · rw [hr]
    exact h.list
  · rw [hr]
    exact hphys
  · rw [hr, ← h.openFile]
    rfl

/-- What a failed fork does to memory when it gives the child's space back. -/
theorem spaceDestroy_phys (k : Kernel) (t : Ptr) :
    (k.spaceDestroy t).phys = (k.phys.vmmSpaceDestroy k.cr3 (k.task t).space).2 := rfl

theorem forkInto_cases {k₁ : Kernel} {pid : Int} (hc : k.current ∈ k.taskList) (hn : 1 ≤ k.nextPid) (h : Grown k k₁ t)
    (hadd : TaskAdded k k₁ t pid) (frame : TaskFrame) :
    let r := k₁.forkInto t frame k.forkSpace
    (r.1 = -1 ∧ NoChild k r.2 ∧ ForkUndone k r.2.phys ∧ (k.forkSpace.1 = none ∨ (k₁.kmalloc []).1 = none)) ∨
      ∃ root, k.forkSpace.1 = some root ∧ (k₁.kmalloc []).1 ≠ none ∧ r.1 = pid ∧ (r.2.task t).pid = pid ∧
        Child k r.2 frame t ∧ (r.2.task t).space = root ∧ r.2.phys = k.forkSpace.2 ∧
        ∀ f, r.2.openFile f = withRefs (k.openFile f) ((k.task k.current).fds.count (some f)) := by
  have hne : k.current ≠ t := fun e => h.fresh (e ▸ hc)
  have hpid : (k₁.task t).pid = pid := by rw [hadd.task, Function.update_self]
  have hspace := @ForkUndone.space k
  have hfds := @ForkUndone.fds k
  unfold forkInto
  generalize hs : k.forkSpace = s at hspace hfds ⊢
  obtain ⟨_ | root, phys⟩ := s
  · exact .inl ⟨rfl, (h.setPhys phys).free, hspace rfl, .inl rfl⟩
  have hgrown := (h.setPhys phys).modifyTask fun v => { v with space := root }
  have hroot : (((k₁.setPhys phys).modifyTask t fun v => { v with space := root }).task t).space = root ∧
      (((k₁.setPhys phys).modifyTask t fun v => { v with space := root }).task t).pid = pid := by
    simp [Kernel.modifyTask, Kernel.setPhys, hpid]
  have hphys : ((k₁.setPhys phys).modifyTask t fun v => { v with space := root }).phys = phys := rfl
  have hheap : k₁.heap = ((k₁.setPhys phys).modifyTask t fun v => { v with space := root }).heap := rfl
  simp only
  generalize (k₁.setPhys phys).modifyTask t (fun v => { v with space := root }) = k₂ at hgrown hroot hphys hheap ⊢
  rw [kmalloc_heap hheap []]
  have htab := kmalloc_table k₂ []
  have hkphys : (k₂.kmalloc []).2.phys = phys := by
    rw [← hphys]
    unfold Kernel.kmalloc
    split <;> rfl
  have hgrown₃ := hgrown.kmalloc []
  generalize k₂.kmalloc [] = a at htab hkphys hgrown₃ ⊢
  obtain ⟨_ | _, k₃⟩ := a
  · replace htab : SameTable k₂ k₃ := htab
    replace hgrown₃ : Grown k k₃ t := hgrown₃
    refine .inl ⟨rfl, hgrown₃.spaceDestroy.free, ?_, .inr rfl⟩
    have hback : ((k₃.spaceDestroy t).taskFree t).phys = (phys.vmmSpaceDestroy k.cr3 root).2 := by
      show (k₃.spaceDestroy t).phys = _
      rw [spaceDestroy_phys, hgrown₃.rest.cr3, htab.task, hroot.1]
      rw [show k₃.phys = phys from hkphys]
    rw [hback]
    exact hfds rfl
  right
  replace htab : SameTable k₂ k₃ := htab
  replace hgrown₃ : Grown k k₃ t := hgrown₃
  have hparent : k₃.task k₃.current = k.task k.current := by
    rw [hgrown₃.rest.current, hgrown₃.task _ hne]
  have hpid₃ : (k₃.task t).pid = pid := by rw [htab.task, hroot.2]
  have hroot₃ : (k₃.task t).space = root := by rw [htab.task, hroot.1]
  have hmade := hgrown₃.child hne frame (hpid₃ ▸ hadd.unused) (hpid₃ ▸ (hadd.chosen hn).pos) hkphys
  simp only [hparent]
  rw [hpid₃, hroot₃] at hmade
  exact ⟨root, rfl, (by simp), hmade.1, hmade⟩

theorem taskFork_cases (hc : k.current ∈ k.taskList) (hn : 1 ≤ k.nextPid) {r : Int}
    (h : k.taskFork frame = some (r, k')) :
    (r = -1 ∧ k.ForkRefused ∧ NoChild k k' ∧ ForkUndone k k'.phys) ∨
      ∃ t root, ¬ k.ForkRefused ∧ k.forkSpace.1 = some root ∧ r = (k'.task t).pid ∧ Child k k' frame t ∧
        (k'.task t).space = root ∧ k'.phys = k.forkSpace.2 ∧
        ∀ f, k'.openFile f = withRefs (k.openFile f) ((k.task k.current).fds.count (some f)) := by
  unfold taskFork at h
  cases ha : k.taskAlloc with
  | none => simp [ha] at h
  | some a =>
    obtain ⟨_ | t, k₁⟩ := a
    · rw [ha] at h
      cases h
      have hnone : (k.kmalloc k.taskList).1 = none := (taskAlloc_isSome ha).symm
      have hk' : k' = (k.kmalloc k.taskList).2 := by
        unfold taskAlloc at ha
        generalize k.kmalloc k.taskList = a at ha hnone ⊢
        obtain ⟨_ | _, k₁⟩ := a
        · cases ha
          rfl
        · cases hnone
      have hsame := kmalloc_table k k.taskList
      have hopen : k'.openFile = k.openFile ∧ k'.phys = k.phys := by
        rw [hk']
        unfold Kernel.kmalloc
        split <;> exact ⟨rfl, rfl⟩
      rw [← hk'] at hsame
      refine .inl ⟨rfl, .inl hnone, ⟨hk' ▸ .kmalloc k k.taskList, hsame.list, fun u _ => ?_, hopen.1⟩, ?_⟩
      · rw [hsame.task]
      · rw [hopen.2]
        exact .task
    · rw [ha] at h
      obtain ⟨hgrown, hphys, hheap, hsome, pid, hadd⟩ := taskAlloc_grown ha
      have hne : k.current ≠ t := fun e => hgrown.fresh (e ▸ hc)
      have hclone : k₁.phys.vmmSpaceClone k₁.cr3 (k₁.task k₁.current).space = k.forkSpace := by
        rw [hphys, hgrown.rest.cr3, hgrown.rest.current, hgrown.task _ hne]
        rfl
      have hcases := forkInto_cases hc hn hgrown hadd frame
      simp only [hclone] at h
      have heq := Option.some.inj h
      rw [kmalloc_heap hheap] at hcases
      simp only [heq] at hcases
      rcases hcases with ⟨hr, hno, hundone, hfail⟩ | ⟨root, hroot, hfds, hr, hpid, hchild⟩
      · exact .inl ⟨hr, .inr hfail, hno, hundone⟩
      · refine .inr ⟨t, root, ?_, hroot, hr.trans hpid.symm, hchild⟩
        rintro (hnone | hnone | hnone)
        · rw [hsome] at hnone
          cases hnone
        · rw [hroot] at hnone
          cases hnone
        · exact hfds hnone

-- ---------------------------------------------------------------------------
-- A pid is found
-- ---------------------------------------------------------------------------

theorem taskFork_isSome (hn : 1 ≤ k.nextPid ∧ k.nextPid ≤ int32Max)
    (hlen : (k.taskList.length : Int) < int32Max) (frame : TaskFrame) : (k.taskFork frame).isSome := by
  obtain ⟨r, k₁, halloc, -⟩ := taskAlloc_ends hn hlen
  cases r <;> unfold taskFork <;> rw [halloc] <;> rfl

-- ---------------------------------------------------------------------------
-- Memory
-- ---------------------------------------------------------------------------

def vmState (k : Kernel) (held : Multiset Nat) : VmState where
  phys := k.phys
  active := k.cr3
  root t := if t ∈ k.taskList then (k.task t).space else 0
  held := held

def KeepsSpaces (k k' : Kernel) : Prop :=
  ∀ u ∈ k.taskList, (k.task u).space ≠ 0 → x86Layout.Keeps k.phys k'.phys (k.task u).space

def SameFree (k k' : Kernel) : Prop := ∀ A, k.phys.Avail A → k'.phys.Avail A

structure CopiedSpace (K : Set Nat) (k k' : Kernel) (t : Ptr) : Prop where
  copied : x86Layout.Duplicates k.phys k'.phys (k.task k.current).space (k'.task t).space
  fresh : ∃ A B own, k.phys.Avail A ∧ k'.phys.Avail B ∧ B + own = A ∧
    x86Layout.Owns K k'.phys (k'.task t).space own B

section
variable {K : Set Nat} {O A : Multiset Nat} {a : Spaces} {live : Finset Nat} {kids : Nat → Fin 512 → PTree}
  {held : Multiset Nat} {p : Phys}

theorem keepsSpaces_of_within (hO : x86Layout.Pool K O) (h : x86Layout.Owned K O (k.vmState held) a A live kids)
    (hw : Mem.Within A k.phys.mem k'.phys.mem) : KeepsSpaces k k' := by
  intro u hu hne
  have hroot : (k.vmState held).root u = (k.task u).space := if_pos hu
  have hlive : u ∈ live := h.live_iff.mpr (hroot ▸ hne)
  have hkeeps := h.keeps x86Layout_lawful hlive hw (hO.kernel_apart fun f hf => h.mem_of_free hf)
    (h.free_apart hO hlive)
  rwa [hroot] at hkeeps

theorem forkSpace_spec (hO : x86Layout.Pool K O) (h : x86Layout.Owned K O (k.vmState held) a A live kids)
    (hc : k.current ∈ k.taskList) (hlive : (k.task k.current).space ≠ 0) (ht : t ∉ k.taskList) :
    Mem.Within A k.phys.mem k.forkSpace.2.mem ∧
      ((k.forkSpace.1 = none ∧ k.forkSpace.2.Avail A) ∨
        ∃ root B new, k.forkSpace.1 = some root ∧ B + x86Layout.pte.frames root new = A ∧
          k.forkSpace.2.Avail B ∧ x86Layout.IsSpace K k.forkSpace.2.mem root new ∧
          x86Layout.Duplicates k.phys k.forkSpace.2 (k.task k.current).space root) := by
  have hroot : (k.vmState held).root k.current = (k.task k.current).space := if_pos hc
  have hs : k.current ∈ live := h.live_iff.mpr (hroot ▸ hlive)
  have hd : t ∉ live := fun hd => h.live_iff.mp hd (if_neg ht)
  have hcall : x86Layout.spaceClone k.phys k.cr3 (k.task k.current).space = k.forkSpace := by
    have := congrArg (fun V => V.spaceClone k.cr3 k.phys (k.task k.current).space) Machine.x86_64.vmm_eq
    exact this.symm
  obtain ⟨hw, hclone⟩ := h.spaceClone x86Layout_lawful hO hs hd
  rw [hroot] at hw hclone
  simp only [vmState, hcall] at hw hclone
  refine ⟨hw, ?_⟩
  rcases hclone with ⟨hnone, hown⟩ | ⟨root, B, new, hsome, hfr, hcopy, hown⟩
  · exact .inl ⟨hnone, hown.avail⟩
  · have hsp := hown.space t (Finset.mem_insert_self _ _)
    simp only [Function.update_self] at hsp
    refine .inr ⟨root, B, new, hsome, hfr, hown.avail, hsp, fun virt hv => ?_⟩
    have hspan : virt < x86Layout.span := Nat.lt_of_lt_of_le hv x86Layout_lawful.userEnd_le
    have hsrc : x86Layout.IsSpace K k.phys.mem (k.task k.current).space (kids k.current) := by
      have := h.space k.current hs
      rwa [hroot] at this
    rw [Layout.entryAt, Layout.entryAt, hsp.userPte hspan, hsrc.userPte hspan]
    exact PteFormat.copy_userLeaf x86Layout_lawful.pte hcopy

theorem forkSpace_destroy (hO : x86Layout.Pool K O) (h : x86Layout.Owned K O (k.vmState held) a A live kids)
    (hc : k.current ∈ k.taskList) (hlive : (k.task k.current).space ≠ 0) {root : Nat}
    (hroot : k.forkSpace.1 = some root) :
    let r := k.forkSpace.2.vmmSpaceDestroy k.cr3 root
    r.1 = 0 ∧ r.2.Avail A ∧ Mem.Within A k.phys.mem r.2.mem := by
  intro r
  obtain ⟨t, ht⟩ := Infinite.exists_notMem_finset k.taskList.toFinset
  obtain ⟨hw, ⟨hnone, -⟩ | ⟨root', B, new, hsome, hfr, hav, hsp, -⟩⟩ :=
    forkSpace_spec hO h hc hlive (fun hm => ht (List.mem_toFinset.mpr hm))
  · rw [hnone] at hroot
    cases hroot
  obtain rfl : root' = root := Option.some.inj (hsome.symm.trans hroot)
  have hframes : ∀ f ∈ x86Layout.pte.frames root' new, f ∈ A := fun f hf => hfr ▸ Multiset.mem_add.mpr (.inr hf)
  have hne : k.cr3 ≠ root' := by
    rintro rfl
    exact h.active_not_free hO (hframes _ (Multiset.mem_add.mpr (.inl (Multiset.mem_cons_self _ _))))
  have hcall : r = x86Layout.spaceDestroy k.forkSpace.2 k.cr3 root' :=
    congrArg (fun V => V.spaceDestroy k.cr3 k.forkSpace.2 root') Machine.x86_64.vmm_eq
  obtain ⟨hzero, hav', hw'⟩ := x86Layout_lawful.spaceDestroy hsp hav (hfr ▸ h.avail.nodup) hne
  rw [hfr] at hav'
  rw [hcall]
  exact ⟨hzero, hav', hw.trans (hw'.mono hframes)⟩

theorem ForkUndone.back (hO : x86Layout.Pool K O) (h : x86Layout.Owned K O (k.vmState held) a A live kids)
    (hc : k.current ∈ k.taskList) (hlive : (k.task k.current).space ≠ 0) (hu : ForkUndone k p) :
    p.Avail A ∧ Mem.Within A k.phys.mem p.mem := by
  cases hu with
  | task => exact ⟨h.avail, .refl _ _⟩
  | space hnone =>
    obtain ⟨t, ht⟩ := Infinite.exists_notMem_finset k.taskList.toFinset
    obtain ⟨hw, ⟨-, hav⟩ | ⟨_, _, _, hsome, -⟩⟩ :=
      forkSpace_spec hO h hc hlive (fun hm => ht (List.mem_toFinset.mpr hm))
    · exact ⟨hav, hw⟩
    · rw [hnone] at hsome
      cases hsome
  | fds hsome => exact (forkSpace_destroy hO h hc hlive hsome).2

end

def ForkRight (K : Set Nat) (k : Kernel) (frame : TaskFrame) (r : Int) (k' : Kernel) : Prop :=
  KeepsSpaces k k' ∧
    ((r = -1 ∧ NoChild k k' ∧ SameFree k k') ∨
      ∃ t, r = (k'.task t).pid ∧ Child k k' frame t ∧ CopiedSpace K k k' t ∧
        ∀ f, k'.openFile f = { k.openFile f with
          refs := (k.openFile f).refs + (k.task k.current).fds.count (some f) })

/-- A fork does all of it or nothing, as long as no count of references runs over. -/
theorem taskFork_right_iff {K : Set Nat} {st₀ : VmState} {held : Multiset Nat} (boot : Boot .x86_64 K st₀)
    (run : SpaceRun .x86_64 st₀ (k.vmState held)) (hc : k.current ∈ k.taskList)
    (hlive : (k.task k.current).space ≠ 0) (hn : 1 ≤ k.nextPid ∧ k.nextPid ≤ int32Max) (frame : TaskFrame) :
    ((k.taskList.length : Int) < int32Max → (k.taskFork frame).isSome) ∧
      ∀ r k', k.taskFork frame = some (r, k') →
        (k.ForkRight K frame r k' ↔ k.ForkRefused ∨ k.RefsFit) := by
  refine ⟨fun hlen => taskFork_isSome hn hlen frame, fun r k' h => ?_⟩
  obtain ⟨O, hO, hboot⟩ := boot.stands
  obtain ⟨a, A, live, kids, hown⟩ := run.stands hO hboot
  replace hown : x86Layout.Owned K O (k.vmState held) a A live kids := hown
  rcases taskFork_cases hc hn.1 h with ⟨hr, hrefused, hno, hundone⟩ |
    ⟨t, root, hgranted, hroot, hr, hchild, hspace, hphys, hopen⟩
  · obtain ⟨hav, hw⟩ := hundone.back hO hown hc hlive
    refine ⟨fun _ => .inl hrefused, fun _ => ⟨keepsSpaces_of_within hO hown hw, .inl ⟨hr, hno, fun B hB => ?_⟩⟩⟩
    rw [hB.unique hown.avail]
    exact hav
  obtain ⟨hw, hspec⟩ := forkSpace_spec hO hown hc hlive hchild.fresh
  rcases hspec with ⟨hnone, -⟩ | ⟨root', B, new, hsome, hfr, hav, hsp, hcopied⟩
  · rw [hnone] at hroot
    cases hroot
  obtain rfl : root' = root := Option.some.inj (hsome.symm.trans hroot)
  have hcopy : CopiedSpace K k k' t := by
    refine ⟨by rwa [hphys, hspace], A, B, _, hown.avail, by rwa [hphys], hfr, ⟨⟨new, ?_, ?_⟩, fun f hf hm => ?_⟩⟩
    · rwa [hphys, hspace]
    · rw [hspace]
    · exact not_mem_of_add (hfr ▸ hown.avail.nodup) hm hf
  constructor
  · rintro ⟨-, ⟨hminus, -⟩ | ⟨t', -, hchild', -, hrefs⟩⟩
    · have hpos := hchild.positive
      omega
    · exact .inr (refsFit_iff.mpr fun f => (hopen f).symm.trans (hrefs f))
  · rintro (hrefused | hfit)
    · exact absurd hrefused hgranted
    · refine ⟨keepsSpaces_of_within hO hown (by rwa [hphys]), .inr ⟨t, hr, hchild, hcopy, fun f => ?_⟩⟩
      rw [hopen f]
      exact refsFit_iff.mp hfit f

theorem NoChild.vmState (h : NoChild k k') (held : Multiset Nat) :
    k'.vmState held = { k.vmState held with phys := k'.phys } := by
  have hroot : (fun t => if t ∈ k.taskList then (k'.task t).space else 0) = (k.vmState held).root := by
    funext u
    show _ = if u ∈ k.taskList then (k.task u).space else 0
    split
    · rename_i hu
      rw [h.task u hu]
    · rfl
  rw [Kernel.vmState, h.rest.cr3, h.list, hroot]
  rfl

theorem Child.vmState (h : Child k k' frame t) (held : Multiset Nat) :
    k'.vmState held = { k.vmState held with
      phys := k'.phys
      root := Function.update (k.vmState held).root t (k'.task t).space } := by
  have hroot : (fun u => if u ∈ k.taskList ++ [t] then (k'.task u).space else 0) =
      Function.update (k.vmState held).root t (k'.task t).space := by
    funext u
    by_cases hut : u = t
    · subst hut
      rw [Function.update_self, if_pos (List.mem_append_right _ (List.mem_singleton_self u))]
    · rw [Function.update_of_ne hut]
      show _ = if u ∈ k.taskList then (k.task u).space else 0
      by_cases hu : u ∈ k.taskList
      · rw [if_pos (List.mem_append_left _ hu), if_pos hu, h.others u hu]
        split <;> rfl
      · rw [if_neg (by simp [hu, hut]), if_neg hu]
  rw [Kernel.vmState, h.rest.cr3, h.list, hroot]
  rfl

theorem forkSpace_run {st₀ : VmState} {held : Multiset Nat} (run : SpaceRun .x86_64 st₀ (k.vmState held))
    (hc : k.current ∈ k.taskList) (hlive : (k.task k.current).space ≠ 0) (ht : t ∉ k.taskList) :
    SpaceRun .x86_64 st₀ (match k.forkSpace with
      | (none, p) => { k.vmState held with phys := p }
      | (some root, p) => { k.vmState held with
          phys := p
          root := Function.update (k.vmState held).root t root }) := by
  have hroot : (k.vmState held).root k.current = (k.task k.current).space := if_pos hc
  have hfree : (k.vmState held).root t = 0 := if_neg ht
  have hsrc : (k.vmState held).root k.current ≠ 0 := by rwa [hroot]
  have hrun := SpaceRun.clone run hfree hsrc
  unfold Vmm.clone at hrun
  rw [hroot] at hrun
  exact hrun

/-- The memory after a fork is one that runs of the calls on spaces come to. -/
theorem taskFork_run {K : Set Nat} {st₀ : VmState} {held : Multiset Nat} (boot : Boot .x86_64 K st₀)
    (run : SpaceRun .x86_64 st₀ (k.vmState held)) (hc : k.current ∈ k.taskList)
    (hlive : (k.task k.current).space ≠ 0) (hn : 1 ≤ k.nextPid) {r : Int}
    (h : k.taskFork frame = some (r, k')) : SpaceRun .x86_64 st₀ (k'.vmState held) := by
  obtain ⟨O, hO, hboot⟩ := boot.stands
  obtain ⟨a, A, live, kids, hown⟩ := run.stands hO hboot
  replace hown : x86Layout.Owned K O (k.vmState held) a A live kids := hown
  rcases taskFork_cases hc hn h with ⟨-, -, hno, hundone⟩ | ⟨t, root, -, hsome, -, hchild, hspace, hphys, -⟩
  · rw [hno.vmState held]
    obtain ⟨t, ht⟩ := Infinite.exists_notMem_finset k.taskList.toFinset
    rw [List.mem_toFinset] at ht
    have hcloned := forkSpace_run run hc hlive ht
    generalize k'.phys = p at hundone
    cases hundone with
    | task => exact run
    | space hnone =>
      generalize k.forkSpace = s at hnone hcloned ⊢
      obtain ⟨_ | _, p⟩ := s
      · exact hcloned
      · cases hnone
    | @fds root hsome =>
      obtain ⟨hzero, -⟩ := forkSpace_destroy hO hown hc hlive hsome
      generalize k.forkSpace = s at hsome hcloned hzero ⊢
      obtain ⟨_ | _, p⟩ := s
      · cases hsome
      cases hsome
      have hrun := SpaceRun.calls hcloned (.call (.destroy t) trivial (.nil _))
      have hback : Function.update (Function.update (k.vmState held).root t root) t 0 = (k.vmState held).root := by
        rw [Function.update_idem]
        exact Function.update_eq_self_iff.mpr (if_neg ht).symm
      have hcall : (Machine.x86_64.vmm.call { k.vmState held with
          phys := p
          root := Function.update (k.vmState held).root t root } (.destroy t)).2 =
          { k.vmState held with phys := (p.vmmSpaceDestroy k.cr3 root).2 } := by
        show ({ k.vmState held with
          phys := (p.vmmSpaceDestroy k.cr3 (Function.update (k.vmState held).root t root t)).2
          root := Function.update (Function.update (k.vmState held).root t root) t
            (p.vmmSpaceDestroy k.cr3 (Function.update (k.vmState held).root t root t)).1 } : VmState) = _
        rw [Function.update_self, hzero, hback]
      rwa [hcall] at hrun
  · rw [hchild.vmState held, hspace, hphys]
    have hcloned := forkSpace_run run hc hlive hchild.fresh
    generalize k.forkSpace = s at hsome hcloned ⊢
    obtain ⟨_ | _, p⟩ := s
    · cases hsome
    · cases hsome
      exact hcloned

-- ---------------------------------------------------------------------------
-- A task without pages
-- ---------------------------------------------------------------------------

def parentCreated : VmState := (Machine.x86_64.vmm.call smallStart (.create 20)).2

def parentSpace : VmState := (Machine.x86_64.vmm.call parentCreated (.activate 20)).2

theorem parentSpace_root {t : Nat} (ht : t ≠ 20) : parentSpace.root t = 0 := by
  have hcreate : ∀ (V : Vmm) (st : VmState), (V.call st (.create 20)).2.root t = st.root t := fun V st => by
    simp only [Vmm.call]
    generalize V.spaceCreate st.active st.phys = r
    obtain ⟨_ | root, p⟩ := r
    · rfl
    · exact Function.update_of_ne ht _ _
  exact hcreate Machine.x86_64.vmm smallStart

theorem call_create_eq (st : VmState) (s : Nat) :
    Machine.x86_64.vmm.call st (.create s) = match st.phys.vmmSpaceCreate st.active with
      | (none, p) => (false, { st with phys := p })
      | (some root, p) => (true, { st with
          phys := p
          root := Function.update st.root s root }) := rfl

theorem call_create {st : VmState} {s root : Nat} (h : (st.phys.vmmSpaceCreate st.active).1 = some root) :
    (Machine.x86_64.vmm.call st (.create s)).2.phys = (st.phys.vmmSpaceCreate st.active).2 ∧
      (Machine.x86_64.vmm.call st (.create s)).2.root s = root := by
  rw [call_create_eq]
  generalize st.phys.vmmSpaceCreate st.active = r at h ⊢
  obtain ⟨_ | root, p⟩ := r
  · cases h
  · cases h
    exact ⟨rfl, by simp⟩

theorem parentSpace_clone : (parentSpace.phys.vmmSpaceClone parentSpace.active (parentSpace.root 20)).1 ≠ none := by
  have hav : smallStart.phys.Avail ↑(smallMap.flatMap MemmapEntry.frames) := Phys.avail_mmInit smallMap_ok
  have hnew : (parentSpace.phys.vmmSpaceCreate parentSpace.active).1 ≠ none := by decide +kernel
  rcases hav.vmmSpaceCreate smallStart.active with ⟨hnone, -⟩ | ⟨root, B, hsome, hAB, hB, hsp, -⟩
  · have hsome : (smallStart.phys.vmmSpaceCreate smallStart.active).1 ≠ none := by decide +kernel
    exact absurd hnone hsome
  obtain ⟨hphys, hroot⟩ := call_create (s := 20) hsome
  rw [← parentCreated] at hphys hroot
  have hfresh : root ∉ B := by
    have hnd := hav.nodup
    rw [hAB] at hnd
    exact (Multiset.nodup_cons.mp hnd).1
  have hclone := hsp.vmmSpaceClone_empty hB hfresh parentSpace.active
  have hactivate : ∀ (V : Vmm) (st : VmState), (V.call st (.activate 20)).2.phys = st.phys ∧
      (V.call st (.activate 20)).2.root = st.root := fun _ _ => ⟨rfl, rfl⟩
  obtain ⟨hsamePhys, hsameRoot⟩ := hactivate Machine.x86_64.vmm parentCreated
  rw [← parentSpace] at hsamePhys hsameRoot
  rw [hsamePhys, hphys] at hnew
  rwa [hsamePhys, hsameRoot, hphys, hroot, hclone]

attribute [local irreducible] parentCreated parentSpace

theorem parentSpace_run : SpaceRun .x86_64 smallStart parentSpace := by
  have hroot : parentCreated.root 20 ≠ 0 := by decide +kernel
  have hcreated : SpaceRun .x86_64 smallStart (Machine.x86_64.vmm.call smallStart (.create 20)).2 :=
    .calls .start (.call (.create 20) rfl (.nil _))
  rw [parentSpace]
  exact .calls (by rwa [parentCreated]) (.call (.activate 20) hroot (.nil _))

def parent (count : Nat) : Kernel where
  vfs := {
    tarData := fun _ => 0
    tarSize := 0
    nextInode := 1
    root := 0
    node := fun _ => {}
    live := ∅
    heap := []
    phys := parentSpace.phys }
  cr3 := parentSpace.active
  heap := [some 21, some 22]
  taskList := [20]
  task := fun _ => { pid := 1, state := .runnable, space := parentSpace.root 20, fds := List.replicate count (some 10) }
  nextPid := 2
  current := 20
  files := [10]
  openFile := fun _ => { refs := count }
  pipes := []
  pipe := fun _ => {}

theorem parent_run (count : Nat) : SpaceRun .x86_64 smallStart ((parent count).vmState parentSpace.held) := by
  have hroot : (fun t => if t ∈ (parent count).taskList then ((parent count).task t).space else 0) = parentSpace.root := by
    funext t
    show (if t ∈ [20] then parentSpace.root 20 else 0) = parentSpace.root t
    by_cases ht : t = 20
    · subst ht
      rw [if_pos (List.mem_singleton_self 20)]
    · rw [if_neg (by simpa using ht), parentSpace_root ht]
  have hstate : (parent count).vmState parentSpace.held = parentSpace := by
    rw [vmState, hroot]
    rfl
  rw [hstate]
  exact parentSpace_run

theorem parent_live (count : Nat) : ((parent count).task (parent count).current).space ≠ 0 := by
  show parentSpace.root 20 ≠ 0
  decide +kernel

theorem parent_granted (count : Nat) : ¬ (parent count).ForkRefused := by
  have hspace : (parent count).forkSpace.1 ≠ none := parentSpace_clone
  rintro (h | h | h)
  · cases h
  · exact hspace h
  · cases h

theorem parent_refsFit {count : Nat} (hc : count ≠ 0) : (parent count).RefsFit ↔ IsInt (count + count) := by
  have hcount : (List.replicate count (some 10)).count (some 10) = count := List.count_replicate_self
  constructor
  · intro h
    have hten : IsInt (count + ((List.replicate count (some 10)).count (some 10) : Nat)) :=
      h 10 (List.mem_replicate.mpr ⟨hc, rfl⟩)
    rwa [hcount] at hten
  · intro h f hf
    have hf : some f ∈ List.replicate count (some 10) := hf
    obtain rfl : f = 10 := Option.some.inj (List.mem_replicate.mp hf).2
    show IsInt (count + ((List.replicate count (some 10)).count (some 10) : Nat))
    rwa [hcount]

theorem taskFork_right_parent : ∃ r k', (parent 3).taskFork archTaskFrameInit = some (r, k') ∧
    (parent 3).ForkRight {0x1000} archTaskFrameInit r k' := by
  have hright := taskFork_right_iff smallStart_boot (parent_run 3) (List.mem_singleton_self 20) (parent_live 3)
    (show (1 : Int) ≤ 2 ∧ (2 : Int) ≤ int32Max by decide) archTaskFrameInit
  obtain ⟨⟨r, k'⟩, h⟩ := Option.isSome_iff_exists.mp (hright.1 (show ((1 : Nat) : Int) < int32Max by decide))
  refine ⟨r, k', h, (hright.2 r k' h).mpr (.inr ((parent_refsFit (by decide)).mpr ?_))⟩
  unfold IsInt int32Max
  decide

/-- A table full of descriptors for one file: the count of the file runs over. -/
theorem taskFork_right_fails : ¬ ∀ (K : Set Nat) (st₀ : VmState) (held : Multiset Nat) (k : Kernel),
    Boot .x86_64 K st₀ → SpaceRun .x86_64 st₀ (k.vmState held) → k.current ∈ k.taskList →
      (k.task k.current).space ≠ 0 → 1 ≤ k.nextPid ∧ k.nextPid ≤ int32Max → ∀ frame r k',
        k.taskFork frame = some (r, k') → k.ForkRight K frame r k' := by
  intro hall
  obtain ⟨count, hcount⟩ : ∃ count, count = 2 ^ 31 - 1 := ⟨_, rfl⟩
  have hn : 1 ≤ (parent count).nextPid ∧ (parent count).nextPid ≤ int32Max :=
    show (1 : Int) ≤ 2 ∧ (2 : Int) ≤ int32Max by decide
  have hmem : (parent count).current ∈ (parent count).taskList := List.mem_singleton_self 20
  have hright := taskFork_right_iff smallStart_boot (parent_run count) hmem (parent_live count) hn archTaskFrameInit
  have hlen : ((parent count).taskList.length : Int) < int32Max := show (1 : Int) < int32Max by decide
  obtain ⟨⟨r, k'⟩, hr⟩ := Option.isSome_iff_exists.mp (hright.1 hlen)
  have hforked := hall {0x1000} smallStart parentSpace.held (parent count) smallStart_boot (parent_run count) hmem
    (parent_live count) hn archTaskFrameInit r k' hr
  rcases (hright.2 r k' hr).mp hforked with hrefused | hfit
  · exact parent_granted count hrefused
  · have hint := (parent_refsFit (by omega)).mp hfit
    unfold IsInt int32Max at hint
    omega

end Kernel

end NarcOs
