import NarcOs.Kernel.RefCalls

/-!
# References over runs

Fork, exit and the scheduler keep the counts too, and so does every run in which no count is
taken past `INT32_MAX`.
-/

namespace NarcOs

namespace Kernel

variable {k k' k'' : Kernel} {t f p : Ptr} {frame : TaskFrame}

-- ---------------------------------------------------------------------------
-- Calls that leave the slots alone
-- ---------------------------------------------------------------------------

structure SameSlots (k k' : Kernel) : Prop where
  fds : ∀ u, (k'.task u).fds = (k.task u).fds
  files : SameFiles k k'
  nextPid : k'.nextPid = k.nextPid

theorem SameSlots.refl (k : Kernel) : SameSlots k k := ⟨fun _ => rfl, .refl k, rfl⟩

theorem SameSlots.trans (h : SameSlots k k') (h' : SameSlots k' k'') : SameSlots k k'' where
  fds u := (h'.fds u).trans (h.fds u)
  files := h.files.trans h'.files
  nextPid := h'.nextPid.trans h.nextPid

theorem modifyTask_slots (k : Kernel) (t : Ptr) {g : Task → Task} (hg : ∀ v, (g v).fds = v.fds) :
    SameSlots k (k.modifyTask t g) where
  fds u := by
    by_cases hu : u = t
    · subst hu
      show (Function.update k.task u _ u).fds = _
      rw [Function.update_self, hg]
    · exact congrArg Task.fds (Function.update_of_ne hu _ _)
  files := ⟨rfl, rfl, rfl, rfl⟩
  nextPid := rfl

theorem setPhys_slots (k : Kernel) (phys : Phys) : SameSlots k (k.setPhys phys) := ⟨fun _ => rfl, ⟨rfl, rfl, rfl, rfl⟩, rfl⟩

theorem taskFree_slots (k : Kernel) (t : Ptr) : SameSlots k (k.taskFree t) := ⟨fun _ => rfl, ⟨rfl, rfl, rfl, rfl⟩, rfl⟩

theorem switchTo_slots (k : Kernel) (next : Ptr) (frame : TaskFrame) : SameSlots k (k.switchTo next frame).2 := by
  have hsaved := modifyTask_slots k k.current (g := fun v => { v with frame := frame, archState := k.fpu }) fun _ => rfl
  exact ⟨hsaved.fds, ⟨rfl, rfl, rfl, rfl⟩, rfl⟩

theorem spaceDestroy_slots (k : Kernel) (t : Ptr) : SameSlots k (k.spaceDestroy t) := by
  unfold spaceDestroy
  exact (setPhys_slots k _).trans (modifyTask_slots _ t fun _ => rfl)

theorem wakeParent_slots (k : Kernel) (old : Ptr) (parent : Option Ptr) : SameSlots k (k.wakeParent old parent) := by
  cases parent with
  | none => exact .refl k
  | some u =>
    unfold wakeParent
    exact (setPhys_slots k _).trans (modifyTask_slots _ u fun _ => rfl)

theorem taskYield_slots (k : Kernel) (frame : TaskFrame) : SameSlots k (k.taskYield frame).2 := by
  unfold taskYield
  split
  · exact .refl k
  split
  · exact .refl k
  · exact switchTo_slots k _ frame

theorem taskWait_slots (k : Kernel) (frame : TaskFrame) (pid : Int) (status : Nat) (options : Int) :
    SameSlots k (k.taskWait frame pid status options).2.2 := by
  unfold taskWait
  split
  · exact .refl k
  split
  · exact (setPhys_slots k _).trans (taskFree_slots _ _)
  split
  · exact .refl k
  split
  · exact .refl k
  have hblocked := modifyTask_slots k k.current (g := fun v => { v with
    state := .blocked
    waitPid := pid
    waitStatus := status }) fun _ => rfl
  simp only
  split
  · exact hblocked.trans (modifyTask_slots _ _ (g := fun v => { v with state := .runnable }) fun _ => rfl)
  · exact hblocked.trans (switchTo_slots _ _ frame)

theorem taskExec_slots (k : Kernel) (space entry stack : Nat) : SameSlots k (k.taskExec space entry stack).2 := by
  have hreplaced := modifyTask_slots k.initState k.current (g := fun v => { v with
    space := space
    fsBase := 0
    mmapNext := userMmapBase
    archState := k.initState.fpu }) fun _ => rfl
  unfold taskExec
  exact ⟨hreplaced.fds, ⟨rfl, rfl, rfl, rfl⟩, rfl⟩

theorem userExec_slots (k : Kernel) (frame : TaskFrame) (path : CString) (argv envp : List CString) :
    SameSlots k (k.userExec frame path argv envp).2.2 := by
  unfold userExec
  split
  · exact setPhys_slots k _
  split
  · exact ⟨fun _ => rfl, ⟨rfl, rfl, rfl, rfl⟩, rfl⟩
  · rename_i vfs _
    have hvfs : SameSlots k { k with vfs := vfs } := ⟨fun _ => rfl, ⟨rfl, rfl, rfl, rfl⟩, rfl⟩
    exact hvfs.trans (taskExec_slots { k with vfs := vfs } _ _ _)

/-- The tasks may change but for their tables, and one without descriptors may go. -/
theorem Tallied.slots (h : Tallied k) (hs : SameSlots k k') (hz : ∀ u ∈ k.taskList, (k'.task u).state = .zombie →
      (k.task u).state = .zombie ∨ (k.task u).fds = [])
    (hl : k'.taskList = k.taskList ∨ ∃ t ∈ k.taskList, (k.task t).fds = [] ∧ k'.taskList = k.taskList.erase t) :
    Tallied k' := by
  have hsub : ∀ u ∈ k'.taskList, u ∈ k.taskList := fun u hu => by
    rcases hl with hl | ⟨t, -, -, hl⟩
    · exact hl ▸ hu
    · exact List.mem_of_mem_erase (hl ▸ hu)
  have hslots : k'.slots = k.slots := by
    rcases hl with hl | ⟨t, ht, hfds, hl⟩
    · exact slots_congr hl fun u _ => hs.fds u
    · exact slots_erase ht hfds hl hs.fds
  refine ⟨?_, fun u hu => ?_, fun u hu hstate => ?_, by rw [hs.nextPid]; exact h.nextPid, ?_⟩
  · rcases hl with hl | ⟨t, -, -, hl⟩
    · rw [hl]
      exact h.nodup
    · rw [hl]
      exact h.nodup.erase t
  · rw [hs.fds]
    exact h.length u (hsub u hu)
  · rw [hs.fds]
    exact (hz u (hsub u hu) hstate).elim (h.zombie u (hsub u hu)) id
  · rw [hslots]
    exact h.refs.same hs.files

theorem RefsOk.yield (h : RefsOk k) (frame : TaskFrame) : RefsOk (k.taskYield frame).2 := by
  have hslots := taskYield_slots k frame
  have hrunning := h.toRunning.taskYield frame
  have hy := taskYield_yields h.mem frame
  generalize (k.taskYield frame).2 = k' at hslots hrunning hy
  refine ⟨hrunning, ?_⟩
  cases hy with
  | stays hs hn => exact h.toTallied.slots hslots (fun u hu hz => .inl ((congrArg Row.state (hs.row u hu)).symm.trans hz)) (.inl hs.list)
  | switches hm hr hs => exact h.toTallied.slots hslots (fun u _ hz => .inl ((congrArg Row.state (hs.row u)).symm.trans hz)) (.inl hs.list)

theorem RefsOk.wait (h : RefsOk k) (frame : TaskFrame) (pid : Int) (status : Nat) (options : Int) :
    RefsOk (k.taskWait frame pid status options).2.2 := by
  have hslots := taskWait_slots k frame pid status options
  have hrunning := h.toRunning.taskWait frame pid status options
  have hw := taskWait_waits h.mem frame pid status options
  generalize (k.taskWait frame pid status options).2.2 = k' at hslots hrunning hw
  generalize (k.taskWait frame pid status options).1 = result at hw
  have hrows : ∀ {r : Row} {u : Ptr}, k'.row u = r → (k'.task u).state = .zombie → r.state = .zombie := by
    rintro r u rfl hz
    exact hz
  have hsame : SameRows k k' → Tallied k' := fun hs =>
    h.toTallied.slots hslots (fun u hu hz => .inl (hrows (hs.row u hu) hz)) (.inl hs.list)
  refine ⟨hrunning, ?_⟩
  cases hw with
  | refused hbad hs hn => exact hsame hs
  | @reaped t ht hz hc hl hr hcur hcr3 hn =>
    exact h.toTallied.slots hslots (fun u _ hzu => .inl (hrows (hr u) hzu)) (.inr ⟨t, ht, h.zombie t ht hz, hl⟩)
  | childless hnone hs hn => exact hsame hs
  | running ht hc hz ho hs hn => exact hsame hs
  | stuck ht hc hz hstuck hl hr hcur hcr3 hn =>
    refine h.toTallied.slots hslots (fun u _ hzu => .inl ?_) (.inl hl)
    have hstate := hrows (hr u) hzu
    split at hstate
    · cases hstate
    · exact hstate
  | suspended ht hc hz hm hne hrun hl hr hcur hcr3 hn =>
    refine h.toTallied.slots hslots (fun u _ hzu => .inl ?_) (.inl hl)
    have hstate := hrows (hr u) hzu
    split at hstate
    · cases hstate
    · exact hstate

theorem RefsOk.exec (h : RefsOk k) (frame : TaskFrame) (path : CString) (argv envp : List CString) :
    RefsOk (k.userExec frame path argv envp).2.2 := by
  have hslots := userExec_slots k frame path argv envp
  have he := userExec_execs k frame path argv envp
  have hrunning := h.toRunning.execs he
  generalize (k.userExec frame path argv envp).2.2 = k' at hslots hrunning he
  have hrows : ∀ {r : Row} {u : Ptr}, k'.row u = r → (k'.task u).state = .zombie → r.state = .zombie := by
    rintro r u rfl hz
    exact hz
  refine ⟨hrunning, ?_⟩
  cases he with
  | fails hs hn => exact h.toTallied.slots hslots (fun u hu hz => .inl (hrows (hs.row u hu) hz)) (.inl hs.list)
  | replaces hl hr hcur hcr3 hn =>
    refine h.toTallied.slots hslots (fun u _ hz => .inl ?_) (.inl hl)
    have hstate := hrows (hr u) hz
    split at hstate <;> exact hstate

-- ---------------------------------------------------------------------------
-- Exit
-- ---------------------------------------------------------------------------

theorem markZombie_fds (k : Kernel) (t : Ptr) (status : Int) (u : Ptr) :
    ((k.markZombie t status).task u).fds = if u = t then [] else (k.task u).fds := by
  have htable := filePuts_table (k.task t).fds k
  unfold Kernel.markZombie closeAll
  simp only [modifyTask]
  split
  · rename_i hu
    rw [hu, Function.update_self, Function.update_self]
  · rename_i hu
    rw [Function.update_of_ne hu, Function.update_of_ne hu, htable.task]

theorem Tallied.markZombie (h : Tallied k) (ht : t ∈ k.taskList) (status : Int) : Tallied (k.markZombie t status) := by
  have hfds := markZombie_fds k t status
  have hlist : (k.markZombie t status).taskList = k.taskList := (closeAll_rows k t).list
  have hslots := slots_change h.nodup ht hlist fun u _ hne => by rw [hfds, if_neg hne]
  rw [hfds, if_pos rfl] at hslots
  have hnone : named [] = 0 := rfl
  rw [hnone, zero_add] at hslots
  have hrefs := h.refs
  rw [← hslots] at hrefs
  have hclosed : SameFiles ((k.task t).fds.foldl filePut k) (k.markZombie t status) := ⟨rfl, rfl, rfl, rfl⟩
  refine ⟨hlist ▸ h.nodup, fun u hu => ?_, fun u hu hz => ?_, ?_, hrefs.filePuts.same hclosed⟩
  · rw [hfds]
    split
    · decide
    · exact h.length u (hlist ▸ hu)
  · rw [hfds]
    split
    · rfl
    · rename_i hne
      have hrow := (closeAll_rows k t).row u (hlist ▸ hu)
      have hstate : ((k.markZombie t status).row u).state = (k.row u).state := by
        rw [← hrow]
        unfold Kernel.markZombie
        rw [row_modifyTask_of_ne _ hne]
      exact h.zombie u (hlist ▸ hu) (hstate.symm.trans hz)
  · exact (closeAll_nextPid k t).symm ▸ h.nextPid

theorem taskExit_slots {status : Int} {r : TaskFrame × Kernel} (he : k.taskExit frame status = some r) :
    SameSlots (k.markZombie k.current status) r.2 := by
  unfold taskExit at he
  simp only at he
  generalize k.markZombie k.current status = zombie at he ⊢
  split at he
  · cases he
  rename_i next _
  have hwoken := wakeParent_slots zombie k.current (zombie.waiter k.current)
  have hdestroyed := (hwoken.trans (switchTo_slots _ next frame)).trans (spaceDestroy_slots _ k.current)
  cases he
  dsimp only
  split
  · exact hdestroyed.trans (taskFree_slots _ _)
  · exact hdestroyed

theorem RefsOk.exit (h : RefsOk k) {status : Int} {r : TaskFrame × Kernel} (he : k.taskExit frame status = some r) : RefsOk r.2 := by
  refine ⟨h.toRunning.taskExit he, ?_⟩
  obtain ⟨next, hx⟩ := taskExit_exits h.mem h.runnable he
  have hfds := markZombie_fds k k.current status
  have hlist : (k.markZombie k.current status).taskList = k.taskList := (closeAll_rows k k.current).list
  refine (h.toTallied.markZombie h.mem status).slots (taskExit_slots he) (fun u hu hz => .inr ?_) ?_
  · rw [hfds]
    split
    · rfl
    · rename_i hne
      have hrow := congrArg Row.state (hx.row u (hlist ▸ hu) hne)
      have hstate : (k.exitRow status (k.waiter k.current) u).state = .zombie := hrow.symm.trans hz
      rw [exitRow, if_neg hne] at hstate
      split at hstate
      · cases hstate
      · exact h.zombie u (hlist ▸ hu) hstate
  · rw [hx.list, hlist]
    split
    · exact .inr ⟨k.current, h.mem, by rw [hfds, if_pos rfl], rfl⟩
    · exact .inl rfl

-- ---------------------------------------------------------------------------
-- Fork
-- ---------------------------------------------------------------------------

theorem Forks.nextPid {allocated : Bool} {r : Int} (h : Forks k k' allocated r) (hn : 1 ≤ k.nextPid) : 1 ≤ k'.nextPid := by
  cases h with
  | refused hs hnext => exact hnext ▸ hn
  | undone hs hp => exact (hp hn).next_pos
  | forked ht hl hr hc hcur hcr3 hnew hp => exact (hp hn).next_pos

theorem NoChild.sameRefs (h : NoChild k k') : SameRefs k k' :=
  ((Drafted.refl k).same ⟨h.rest.files, h.openFile, h.rest.pipes, h.rest.pipe⟩).sameRefs h.list fun t ht _ => by rw [h.task t ht]

theorem RefsOk.fork (h : RefsOk k) (hfit : k.CountsFit .fork) {r : Int} (hf : k.taskFork frame = some (r, k')) :
    RefsOk k' ∧ (r < 0 → SameRefs k k') := by
  have hrunning := h.toRunning.taskFork hf
  have hnext := (taskFork_forks h.mem hf).nextPid h.nextPid
  rcases taskFork_cases h.mem h.nextPid hf with ⟨-, -, hno, -⟩ | ⟨t, root, hgranted, -, hr, hchild, -, -, hopen⟩
  · have hfds : ∀ u ∈ k.taskList, (k'.task u).fds = (k.task u).fds := fun u hu => by rw [hno.task u hu]
    refine ⟨⟨hrunning, hno.list ▸ h.nodup, fun u hu => ?_, fun u hu hz => ?_, hnext, ?_⟩, fun _ => hno.sameRefs⟩
    · rw [hno.list] at hu
      rw [hfds u hu]
      exact h.length u hu
    · rw [hno.list] at hu
      rw [hno.task u hu] at hz ⊢
      exact h.zombie u hu hz
    · rw [slots_congr hno.list hfds]
      exact h.refs.sameRefs hno.sameRefs
  · have hpositive := hchild.positive
    have hroom : k.RefsFit := hfit.resolve_left hgranted
    have hfits := refsFit_iff.mp hroom
    have hold : ∀ u ∈ k.taskList, (k'.task u).fds = (k.task u).fds ∧ (k'.task u).state = (k.task u).state := fun u hu => by
      rw [hchild.others u hu]
      split <;> exact ⟨rfl, rfl⟩
    have hmem : ∀ {u}, u ∈ k'.taskList ↔ u ∈ k.taskList ∨ u = t := by
      intro u
      rw [hchild.list, List.mem_append, List.mem_singleton]
    have hslots : k'.slots = named (k.task k.current).fds + k.slots := by
      rw [slots_append hchild.list fun u hu => (hold u hu).1, hchild.fds]
    have hrefs : ∀ g, (k'.openFile g).refs = (k.openFile g).refs + (named (k.task k.current).fds).count g := fun g => by
      rw [hopen g, hfits g, count_named]
    have hends : k'.ends = k.ends := ends_congr hchild.rest.files fun g _ => by rw [hopen g]; rfl
    refine ⟨⟨hrunning, ?_, fun u hu => ?_, fun u hu hz => ?_, hnext, ?_, ?_⟩, fun hneg => absurd hneg (by omega)⟩
    · rw [hchild.list, List.nodup_append]
      refine ⟨h.nodup, List.nodup_singleton t, fun u hu v hv => ?_⟩
      rintro rfl
      exact hchild.fresh (List.mem_singleton.mp hv ▸ hu)
    · rcases hmem.mp hu with hu | rfl
      · rw [(hold u hu).1]
        exact h.length u hu
      · rw [hchild.fds]
        exact h.length _ h.mem
    · rcases hmem.mp hu with hu | rfl
      · rw [(hold u hu).2] at hz
        rw [(hold u hu).1]
        exact h.zombie u hu hz
      · rw [hchild.state] at hz
        cases hz
    · rw [hslots, hchild.rest.files]
      refine h.refs.files.share (fun g hg => ?_) (fun g _ => hrefs g) fun g hg => ?_
      · exact (h.refs.files.mem g).mpr (Multiset.mem_bind.mpr ⟨k.current, h.mem, hg⟩)
      · rw [hrefs g]
        by_cases hn : some g ∈ (k.task k.current).fds
        · rw [count_named]
          exact (hroom g hn).2
        · rw [count_named, List.count_eq_zero.mpr hn, Nat.cast_zero, add_zero]
          exact h.refs.files.le g hg
    · rw [hends, hchild.rest.pipes, hchild.rest.pipe]
      exact h.refs.pipes

-- ---------------------------------------------------------------------------
-- The first task
-- ---------------------------------------------------------------------------

theorem Tallied.filled {k₁ k₂ : Kernel} {fd : Nat} (h : Tallied k) (ht : t ∈ k.taskList) (hz : (k.task t).state ≠ .zombie)
    (hs : SameTable k k₁) (hr : Refs k₁ (f ::ₘ k.slots)) (hf : Filled k₁ k₂ t f fd) : Tallied k₂ := by
  have hlist : k₂.taskList = k.taskList := hf.list.trans hs.list
  have hother : ∀ u, u ≠ t → k₂.task u = k.task u := fun u hu => by rw [hf.other u hu, hs.task]
  have hnamed : named (k₂.task t).fds = f ::ₘ named (k.task t).fds := by rw [hf.named, hs.task]
  have hslots := slots_change h.nodup ht hlist fun u _ hu => by rw [hother u hu]
  rw [hnamed, Multiset.cons_add, ← Multiset.add_cons] at hslots
  refine ⟨hlist ▸ h.nodup, fun u hu => ?_, fun u hu hzu => ?_, ?_, ?_⟩
  · by_cases hut : u = t
    · rw [hut]
      exact hf.fds_length
    · rw [hother u hut]
      exact h.length u (hlist ▸ hu)
  · by_cases hut : u = t
    · rw [hut, hf.own, hs.task] at hzu
      exact absurd hzu hz
    · rw [hother u hut] at hzu ⊢
      exact h.zombie u (hlist ▸ hu) hzu
  · rw [hf.nextPid, hs.nextPid]
    exact h.nextPid
  · rw [add_left_cancel hslots]
    exact hr.same hf.files

theorem Tallied.initFds {fds : List Nat} (h : Tallied k) (ht : t ∈ k.taskList) (hz : (k.task t).state ≠ .zombie)
    (hmax : ∀ fd ∈ fds, (fd : Int) ≤ int32Max) (hi : initFds t fds k = (true, k')) : Tallied k' := by
  induction fds generalizing k with
  | nil =>
    cases hi
    exact h
  | cons fd fds ih =>
    rw [Kernel.initFds] at hi
    cases hnew : k.fileNew .console with
    | mk o k₁ =>
    rw [hnew] at hi
    cases o with
    | none => cases hi
    | some f =>
      have hs := ((Drafted.refl k).fileNew hnew).2.2.2.2
      have hrefs := h.refs.fileNew hnew
      have hinstalls := fdInstall_installs (k := k₁) (by rw [hs.task]; exact h.length t ht) f (hmax fd List.mem_cons_self)
      simp only at hi
      generalize k₁.fdInstall t f fd = r at hinstalls hi
      cases hinstalls with
      | refused _ _ => cases hi
      | @filled k₂ fd' hfill =>
        simp only at hi
        split at hi
        · cases hi
        have hown : (k₂.task t).state = (k.task t).state := by rw [hfill.own, hs.task]
        refine ih (h.filled ht hz hs hrefs hfill) ?_ (by rw [hown]; exact hz) (fun fd hfd => hmax fd (List.mem_cons_of_mem _ hfd)) hi
        rw [hfill.list, hs.list]
        exact ht

theorem tallied_alone (hlist : k.taskList = [t]) (hfds : (k.task t).fds = []) (hfiles : k.files = []) (hpipes : k.pipes = [])
    (hnext : 1 ≤ k.nextPid) : Tallied k := by
  have hmem : ∀ u ∈ k.taskList, u = t := fun u hu => by
    rw [hlist] at hu
    exact List.mem_singleton.mp hu
  have hslots : k.slots = 0 := by
    rw [slots, hlist, Multiset.coe_singleton, Multiset.singleton_bind, hfds]
    rfl
  have hends : k.ends = 0 := by
    rw [ends, hfiles]
    rfl
  have hnone : ∀ {refs : Ptr → Int}, Counted int32Max 0 [] refs := fun {refs} =>
    ⟨List.nodup_nil, fun _ => iff_of_false List.not_mem_nil (Multiset.notMem_zero _), fun _ hm => absurd hm List.not_mem_nil,
      fun _ hm => absurd hm List.not_mem_nil⟩
  refine ⟨by rw [hlist]; exact List.nodup_singleton t, fun u hu => ?_, fun u hu _ => ?_, hnext, ?_⟩
  · rw [hmem u hu, hfds]
    show ((0 : Nat) : Int) ≤ int32Max
    decide
  · rw [hmem u hu, hfds]
  · rw [hslots]
    refine ⟨by rw [hfiles]; exact hnone, ?_⟩
    rw [hends, hpipes]
    exact hnone

theorem taskCreate_tallied (hl : k.taskList = []) (hn : k.nextPid = 1) (hf : k.files = []) (hp : k.pipes = [])
    (h : k.taskCreate = some (some t, k')) : Tallied k' := by
  unfold taskCreate at h
  cases ha : k.taskAlloc with
  | none => simp [ha] at h
  | some a =>
    obtain ⟨_ | u, k₁⟩ := a
    · simp [ha] at h
    rw [ha] at h
    obtain ⟨hgrown, -, -, -, pid, hadd⟩ := taskAlloc_grown ha
    simp only at h
    generalize k₁.phys.vmmSpaceCreate k₁.cr3 = c at h
    obtain ⟨_ | root, phys⟩ := c
    · simp at h
    simp only at h
    have hlist : k₁.taskList = [u] := by rw [hadd.list, hl]; rfl
    have htask : k₁.task u = { pid := pid } := by rw [hadd.task, Function.update_self]
    have hready : ∀ fpu, Tallied ((k₁.setPhys phys).initState.modifyTask u (readyTask root fpu)) := by
      intro fpu
      have htask' : ((k₁.setPhys phys).initState.modifyTask u (readyTask root fpu)).task u = readyTask root fpu { pid := pid } := by
        show Function.update k₁.task u _ u = _
        rw [Function.update_self]
        exact congrArg (readyTask root fpu) htask
      refine tallied_alone hlist ?_ (hgrown.rest.files.trans hf) (hgrown.rest.pipes.trans hp) (hadd.chosen (by rw [hn])).next_pos
      rw [htask']
      rfl
    have hrunnable : ∀ fpu, (((k₁.setPhys phys).initState.modifyTask u (readyTask root fpu)).task u).state ≠ .zombie := by
      intro fpu
      show (Function.update k₁.task u _ u).state ≠ .zombie
      rw [Function.update_self]
      exact fun hz => by cases hz
    cases hi : initFds u [0, 1, 2] ((k₁.setPhys phys).initState.modifyTask u (readyTask root (k₁.setPhys phys).initState.fpu)) with
    | mk done k₃ =>
    rw [hi] at h
    cases done with
    | false => simp at h
    | true =>
      simp only [Option.some.injEq, Prod.mk.injEq] at h
      obtain ⟨-, rfl⟩ := h
      have hmem : u ∈ ((k₁.setPhys phys).initState.modifyTask u (readyTask root (k₁.setPhys phys).initState.fpu)).taskList := by
        show u ∈ k₁.taskList
        rw [hlist]
        exact List.mem_singleton_self u
      exact (hready _).initFds hmem (hrunnable _) (by decide) hi

-- ---------------------------------------------------------------------------
-- Runs
-- ---------------------------------------------------------------------------

/-- Tables and counts are the same; positions, memory and the file system may be different. -/
structure SameCounts (k k' : Kernel) : Prop extends SameRows k k', SameRefs k k' where
  fds : ∀ u ∈ k.taskList, (k'.task u).fds = (k.task u).fds
  nextPid : k'.nextPid = k.nextPid

def RefsStarted (k : Kernel) : Prop :=
  ∃ (k₀ k₁ k₂ : Kernel) (t : Ptr) (frame : TaskFrame), (k₀.taskList = [] ∧ k₀.nextPid = 1 ∧ k₀.files = [] ∧ k₀.pipes = []) ∧
    k₀.taskCreate = some (some t, k₁) ∧ SameCounts k₁ k₂ ∧ k₂.taskStart = some (frame, k)

/-- The states of all runs in which each call meets `ok`. Other calls, and user code, leave the
tables and the counts alone. -/
inductive RefRun (ok : Kernel → RefCall → Prop) : Kernel → Prop
  | start {k : Kernel} : RefsStarted k → RefRun ok k
  | call {k k' : Kernel} {c : RefCall} {done : Bool} (frame : TaskFrame) :
      RefRun ok k → ok k c → k.refCall frame c = some (done, k') → RefRun ok k'
  | wait {k : Kernel} (frame : TaskFrame) (pid : Int) (status : Nat) (options : Int) :
      RefRun ok k → RefRun ok (k.taskWait frame pid status options).2.2
  | yield {k : Kernel} (frame : TaskFrame) : RefRun ok k → RefRun ok (k.taskYield frame).2
  | exec {k : Kernel} (frame : TaskFrame) (path : CString) (argv envp : List CString) :
      RefRun ok k → RefRun ok (k.userExec frame path argv envp).2.2
  | other {k k' : Kernel} : RefRun ok k → SameCounts k k' → RefRun ok k'

theorem userStart_refsStarted {k₀ : Kernel} (hl : k₀.taskList = []) (hn : k₀.nextPid = 1) (hf : k₀.files = [])
    (hp : k₀.pipes = []) (h : k₀.userStart = some (frame, k)) : RefsStarted k := by
  unfold userStart at h
  split at h
  · rename_i t k₁ hcreate
    split at h
    · cases h
    · rename_i entry stack vfs hload
      have hentry := modifyTask_slots { k₁ with vfs := vfs } t
        (g := fun v => { v with frame := archTaskSetEntry v.frame entry stack }) fun _ => rfl
      have hrows := modifyTask_rows (f := fun v => { v with frame := archTaskSetEntry v.frame entry stack })
        (fun _ => rfl) { k₁ with vfs := vfs } t
      refine ⟨k₀, k₁, _, t, frame, ⟨hl, hn, hf, hp⟩, hcreate, ?_, h⟩
      exact {
        list := rfl
        row := hrows.row
        current := rfl
        cr3 := rfl
        slot := fun u _ fd => by rw [hentry.fds u]
        files := rfl
        refs := fun _ _ => rfl
        pipe := fun _ _ => rfl
        pipes := rfl
        pipeRefs := fun _ _ => rfl
        fds := fun u _ => hentry.fds u
        nextPid := rfl }
  · cases h

theorem Tallied.same (h : Tallied k) (hs : SameCounts k k') : Tallied k' where
  nodup := by rw [hs.toSameRows.list]; exact h.nodup
  length u hu := by
    rw [hs.toSameRows.list] at hu
    rw [hs.fds u hu]
    exact h.length u hu
  zombie u hu hz := by
    rw [hs.toSameRows.list] at hu
    have hstate := congrArg Row.state (hs.row u hu)
    rw [hs.fds u hu]
    exact h.zombie u hu (hstate.symm.trans hz)
  nextPid := by rw [hs.nextPid]; exact h.nextPid
  refs := by
    rw [slots_congr hs.toSameRows.list hs.fds]
    exact h.refs.sameRefs hs.toSameRefs

theorem RefsStarted.started (h : RefsStarted k) : Started k := by
  obtain ⟨k₀, k₁, k₂, t, frame, ⟨hl, hn, -, -⟩, hcreate, hs, hstart⟩ := h
  exact ⟨k₀, k₁, k₂, t, frame, hl, hn, hcreate, hs.toSameRows, hs.nextPid, hstart⟩

theorem RefsStarted.refsOk (h : RefsStarted k) : RefsOk k := by
  have htable := h.started.scheduled.table
  refine ⟨⟨htable.mem, htable.running⟩, ?_⟩
  obtain ⟨k₀, k₁, k₂, t, frame, ⟨hl, hn, hf, hp⟩, hcreate, hs, hstart⟩ := h
  have htallied := (taskCreate_tallied hl hn hf hp hcreate).same hs
  unfold taskStart at hstart
  split at hstart
  · cases hstart
  · cases hstart
    exact ⟨htallied.nodup, htallied.length, htallied.zombie, htallied.nextPid, htallied.refs.same ⟨rfl, rfl, rfl, rfl⟩⟩

-- a call that fails takes no count further
theorem countsFit_dup {oldfd minimum : Int32} (h : (k.taskFdDup oldfd minimum).1 < 0) : k.CountsFit (.dup oldfd minimum) := by
  intro f hg hmin hsome
  unfold taskFdDup at h
  rw [hg] at h
  simp only [if_neg hmin] at h
  generalize k.fdInstall k.current f minimum.toInt.toNat = r at h hsome
  obtain ⟨_ | fd, k₁⟩ := r
  · cases hsome
  · exact absurd h (by simp)

theorem countsFit_dup2 {oldfd newfd : Int32} (h : (k.taskFdDup2 oldfd newfd).1 < 0) : k.CountsFit (.dup2 oldfd newfd) := by
  intro f hg hnew hne hroom
  unfold taskFdDup2 at h
  rw [hg] at h
  simp only [if_neg hnew, if_neg hne] at h
  generalize k.fdReserve k.current newfd.toInt.toNat = r at h hroom
  obtain ⟨_ | _, k₁⟩ := r
  · cases hroom
  · exact absurd (Int32.lt_iff_toInt_lt.mpr h) hnew

theorem RefsOk.countsFit_fork (h : RefsOk k) {r : Int} (hf : k.taskFork frame = some (r, k')) (hneg : r < 0) :
    k.CountsFit .fork := by
  rcases taskFork_cases h.mem h.nextPid hf with ⟨-, hrefused, -, -⟩ | ⟨t, root, -, -, hr, hchild, -, -, -⟩
  · exact .inl hrefused
  · have hpositive := hchild.positive
    omega

theorem RefsOk.call (h : RefsOk k) {c : RefCall} {done : Bool} (hc : k.refCall frame c = some (done, k')) :
    (k.CountsFit c → RefsOk k') ∧ (done = false → SameRefs k k') := by
  cases c with
  | «open» path flags =>
    cases hc
    obtain ⟨hok, hs⟩ := h.open path flags
    exact ⟨fun _ => hok, fun hd => hs (not_le.mp (of_decide_eq_false hd))⟩
  | close fd =>
    cases hc
    obtain ⟨hok, hs⟩ := h.close fd
    exact ⟨fun _ => hok, fun hd => hs (not_le.mp (of_decide_eq_false hd))⟩
  | dup oldfd minimum =>
    cases hc
    refine ⟨fun hfit => (h.dup hfit).1, fun hd => ?_⟩
    have hneg := not_le.mp (of_decide_eq_false hd)
    exact (h.dup (countsFit_dup hneg)).2 hneg
  | dup2 oldfd newfd =>
    cases hc
    refine ⟨fun hfit => (h.dup2 hfit).1, fun hd => ?_⟩
    have hneg := not_le.mp (of_decide_eq_false hd)
    exact (h.dup2 (countsFit_dup2 hneg)).2 hneg
  | pipe =>
    cases hc
    obtain ⟨hok, hs⟩ := h.pipe
    exact ⟨fun _ => hok, fun hd => hs (Option.not_isSome_iff_eq_none.mp (by rw [hd]; exact Bool.false_ne_true))⟩
  | fork =>
    obtain ⟨⟨r, k₁⟩, hf, heq⟩ := Option.map_eq_some_iff.mp hc
    cases heq
    refine ⟨fun hfit => (h.fork hfit hf).1, fun hd => ?_⟩
    have hneg := not_le.mp (of_decide_eq_false hd)
    exact (h.fork (h.countsFit_fork hf hneg) hf).2 hneg
  | exit status =>
    obtain ⟨r, he, heq⟩ := Option.map_eq_some_iff.mp hc
    cases heq
    exact ⟨fun _ => h.exit he, fun hd => by cases hd⟩

theorem RefRun.refsOk (h : RefRun CountsFit k) : RefsOk k := by
  induction h with
  | start hs => exact hs.refsOk
  | call frame _ hfit hc ih => exact (ih.call hc).1 hfit
  | wait frame pid status options _ ih => exact ih.wait frame pid status options
  | yield frame _ ih => exact ih.yield frame
  | exec frame path argv envp _ ih => exact ih.exec frame path argv envp
  | other _ hs ih => exact ⟨ih.toRunning.same hs.toSameRows, ih.toTallied.same hs⟩

/-- What is to hold of the references in a state, and of the calls made in it that fail. -/
structure RefsRight (k : Kernel) : Prop where
  fileRefs : ∀ f ∈ k.files, (k.openFile f).refs = ((k.taskList.map fun t => (k.task t).fds.count (some f)).sum : Nat)
  pipeRefs : ∀ p ∈ k.pipes, (k.pipe p).refs = (k.files.countP fun f => (k.openFile f).pipe = some p : Nat)
  fileLive : ∀ f, f ∈ k.files ↔ ∃ t ∈ k.taskList, some f ∈ (k.task t).fds
  pipeLive : ∀ p, p ∈ k.pipes ↔ ∃ f ∈ k.files, (k.openFile f).pipe = some p
  once : k.files.Nodup ∧ k.pipes.Nodup
  failed : ∀ frame c k', k.refCall frame c = some (false, k') → SameRefs k k'

theorem RefsOk.right (h : RefsOk k) : RefsRight k where
  fileRefs f hf := by
    rw [h.refs.files.count f hf, count_slots]
  pipeRefs p hp := by
    rw [h.refs.pipes.count p hp, count_ends]
  fileLive f := by
    rw [h.refs.files.mem f, slots, Multiset.mem_bind]
    refine exists_congr fun t => and_congr_right fun _ => ?_
    rw [← Multiset.count_pos, count_named, List.count_pos_iff]
  pipeLive p := by
    rw [h.refs.pipes.mem p, ends, Multiset.mem_coe, List.mem_filterMap]
  once := ⟨h.refs.files.nodup, h.refs.pipes.nodup⟩
  failed _ _ _ hc := (h.call hc).2 rfl

/-- In every run in which no count is taken past the end. -/
theorem RefRun.refs_right (h : RefRun CountsFit k) : RefsRight k := h.refsOk.right

theorem SameCounts.refl (k : Kernel) : SameCounts k k :=
  { SameRows.refl k, SameRefs.of_same (.refl k) (.refl k) with
    fds := fun _ _ => rfl
    nextPid := rfl }

theorem started_refsStarted : RefsStarted started :=
  ⟨emptyKernel, created, created, 1000, archTaskFrameInit, ⟨rfl, rfl, rfl, rfl⟩, created_eq, .refl created, started_eq⟩

def inputTwice : Kernel := ((started.taskFdDup 0 3).2.taskFdClose 2).2

theorem RefRun.refs_right_inputTwice : RefsRight inputTwice := by
  have hget : started.fdGet 0 = some 2001 := by decide +kernel
  have hrefs : (started.openFile 2001).refs < int32Max := by decide +kernel
  have hfit : started.CountsFit (.dup 0 3) := by
    intro f hf _ _
    rw [hget] at hf
    cases hf
    exact hrefs
  have hdup : RefRun CountsFit (started.taskFdDup 0 3).2 :=
    .call (c := .dup 0 3) archTaskFrameInit (.start started_refsStarted) hfit rfl
  have hclose : RefRun CountsFit inputTwice := .call (c := .close 2) archTaskFrameInit hdup trivial rfl
  exact RefRun.refs_right hclose

end Kernel

end NarcOs
