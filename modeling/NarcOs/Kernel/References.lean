import NarcOs.Kernel.Descriptors
import NarcOs.Kernel.Calls
import NarcOs.Lib.RefCount

/-!
# References

`refs` of a `struct open_file` counts the slots of all tasks that name it, and `refs` of a
`struct pipe` the open files that are its ends. `Refs` says this of the objects alone, for any
references `held`; what a call does to the slots is said beside it.
-/

namespace NarcOs

namespace Kernel

-- ---------------------------------------------------------------------------
-- Slots
-- ---------------------------------------------------------------------------

/-- The files that a table names, once for each of its slots. -/
def named (fds : List (Option Ptr)) : Multiset Ptr := (fds.filterMap id : List Ptr)

def slots (k : Kernel) : Multiset Ptr := (k.taskList : Multiset Ptr).bind fun t => named (k.task t).fds

def ends (k : Kernel) : Multiset Ptr := (k.files.filterMap fun f => (k.openFile f).pipe : List Ptr)

variable {k k' k'' : Kernel} {t f p : Ptr} {fd n : Nat} {fds fds' : List (Option Ptr)} {held : Multiset Ptr}

theorem named_cons (x : Option Ptr) (fds : List (Option Ptr)) : named (x :: fds) = (x.toList : Multiset Ptr) + named fds := by
  cases x with
  | none => rfl
  | some f => rfl

theorem count_named (fds : List (Option Ptr)) (f : Ptr) : (named fds).count f = fds.count (some f) := by
  induction fds with
  | nil => rfl
  | cons x fds ih =>
    rw [named_cons, Multiset.count_add, ih, List.count_cons, Nat.add_comm]
    cases x with
    | none => rfl
    | some g =>
      rw [Option.toList_some, Multiset.coe_singleton, Multiset.count_singleton]
      by_cases hg : f = g
      · simp [hg]
      · simp [hg, Ne.symm hg]

theorem count_slots (k : Kernel) (f : Ptr) :
    k.slots.count f = (k.taskList.map fun t => (k.task t).fds.count (some f)).sum := by
  rw [slots, Multiset.count_bind, Multiset.map_coe, Multiset.sum_coe]
  simp only [count_named]

theorem count_ends (k : Kernel) (p : Ptr) : k.ends.count p = k.files.countP fun f => (k.openFile f).pipe = some p := by
  rw [ends, Multiset.coe_count, List.count, List.countP_filterMap]
  refine List.countP_congr fun f _ => ?_
  cases (k.openFile f).pipe with
  | none => simp
  | some q => simp

theorem named_append_none (fds : List (Option Ptr)) (n : Nat) : named (fds ++ List.replicate n none) = named fds := by
  rw [named, List.filterMap_append, List.filterMap_replicate_of_none rfl, List.append_nil, named]

theorem named_set (h : fd < fds.length) (x : Option Ptr) :
    (fds[fd].toList : Multiset Ptr) + named (fds.set fd x) = (x.toList : Multiset Ptr) + named fds := by
  induction fds generalizing fd with
  | nil => cases h
  | cons y fds ih =>
    cases fd with
    | zero => rw [List.set_cons_zero, named_cons, named_cons, List.getElem_cons_zero, add_left_comm]
    | succ fd =>
      have hrest := ih (Nat.lt_of_succ_lt_succ h)
      rw [List.set_cons_succ, named_cons, named_cons, List.getElem_cons_succ, add_left_comm, hrest, add_left_comm]

theorem slots_append (hl : k'.taskList = k.taskList ++ [t]) (ho : ∀ u ∈ k.taskList, (k'.task u).fds = (k.task u).fds) :
    k'.slots = named (k'.task t).fds + k.slots := by
  have hold : (k.taskList : Multiset Ptr).bind (fun u => named (k'.task u).fds) = k.slots :=
    Multiset.bind_congr fun u hu => by rw [ho u hu]
  rw [slots, hl, ← Multiset.coe_add, Multiset.add_bind, hold, add_comm, Multiset.coe_singleton, Multiset.singleton_bind]

theorem slots_congr (hl : k'.taskList = k.taskList) (ho : ∀ u ∈ k.taskList, (k'.task u).fds = (k.task u).fds) :
    k'.slots = k.slots := by
  rw [slots, hl]
  exact Multiset.bind_congr fun u hu => by rw [ho u hu]

theorem slots_change (hn : k.taskList.Nodup) (ht : t ∈ k.taskList) (hl : k'.taskList = k.taskList)
    (ho : ∀ u ∈ k.taskList, u ≠ t → (k'.task u).fds = (k.task u).fds) :
    named (k.task t).fds + k'.slots = named (k'.task t).fds + k.slots := by
  have hlist : (k.taskList : Multiset Ptr) = t ::ₘ ((k.taskList.erase t : List Ptr) : Multiset Ptr) :=
    Multiset.coe_eq_coe.mpr (List.perm_cons_erase ht)
  have hrest : ((k.taskList.erase t : List Ptr) : Multiset Ptr).bind (fun u => named (k'.task u).fds) =
      ((k.taskList.erase t : List Ptr) : Multiset Ptr).bind fun u => named (k.task u).fds :=
    Multiset.bind_congr fun u hu => by
      obtain ⟨hne, hmem⟩ := hn.mem_erase_iff.mp hu
      rw [ho u hmem hne]
  rw [slots, slots, hl, hlist, Multiset.cons_bind, Multiset.cons_bind, hrest, add_left_comm]

theorem slots_erase (ht : t ∈ k.taskList) (hfds : (k.task t).fds = []) (hl : k'.taskList = k.taskList.erase t)
    (ho : ∀ u, (k'.task u).fds = (k.task u).fds) : k'.slots = k.slots := by
  have hlist : (k.taskList : Multiset Ptr) = t ::ₘ ((k.taskList.erase t : List Ptr) : Multiset Ptr) :=
    Multiset.coe_eq_coe.mpr (List.perm_cons_erase ht)
  have hempty : named (k.task t).fds = 0 := by rw [hfds]; rfl
  simp only [slots, hl, ho]
  rw [hlist, Multiset.cons_bind, hempty, zero_add]

-- ---------------------------------------------------------------------------
-- Objects
-- ---------------------------------------------------------------------------

/-- The references `held` are those that the open files count, and the ends of a pipe are those
that it counts. -/
structure Refs (k : Kernel) (held : Multiset Ptr) : Prop where
  files : Counted int32Max held k.files fun f => (k.openFile f).refs
  pipes : Counted int32Max k.ends k.pipes fun p => (k.pipe p).refs

structure SameFiles (k k' : Kernel) : Prop where
  files : k'.files = k.files
  openFile : k'.openFile = k.openFile
  pipes : k'.pipes = k.pipes
  pipe : k'.pipe = k.pipe

theorem SameFiles.refl (k : Kernel) : SameFiles k k := ⟨rfl, rfl, rfl, rfl⟩

theorem SameFiles.trans (h : SameFiles k k') (h' : SameFiles k' k'') : SameFiles k k'' where
  files := h'.files.trans h.files
  openFile := h'.openFile.trans h.openFile
  pipes := h'.pipes.trans h.pipes
  pipe := h'.pipe.trans h.pipe

theorem Refs.same (h : Refs k held) (hs : SameFiles k k') : Refs k' held := by
  have hends : k'.ends = k.ends := by rw [ends, hs.files, hs.openFile, ends]
  refine ⟨?_, ?_⟩
  · rw [hs.files, hs.openFile]
    exact h.files
  · rw [hends, hs.pipes, hs.pipe]
    exact h.pipes

theorem kmalloc_files (k : Kernel) (taken : List Ptr) : SameFiles k (k.kmalloc taken).2 := by
  unfold kmalloc
  split <;> exact ⟨rfl, rfl, rfl, rfl⟩

theorem fileNew_none {type : FdType} (h : k.fileNew type = (none, k')) : SameTable k k' ∧ SameFiles k k' := by
  have htable := fileNew_table k type
  rw [h] at htable
  refine ⟨htable, ?_⟩
  unfold Kernel.fileNew at h
  have hsame := kmalloc_files k k.files
  generalize k.kmalloc k.files = a at h hsame
  obtain ⟨_ | f, k₁⟩ := a
  · cases h
    exact hsame
  · cases h

theorem fileNew_some {type : FdType} (h : k.fileNew type = (some f, k')) : f ∉ k.files ∧ k'.files = f :: k.files ∧
    k'.pipes = k.pipes ∧ k'.pipe = k.pipe ∧ k'.openFile = Function.update k.openFile f { refs := 1, type := type } := by
  unfold Kernel.fileNew at h
  have hsame := kmalloc_files k k.files
  have hfresh := kmalloc_not_mem (k := k) (t := f) k.files
  generalize k.kmalloc k.files = a at h hsame hfresh
  obtain ⟨_ | g, k₁⟩ := a
  · cases h
  · cases h
    exact ⟨hfresh rfl, congrArg (List.cons f) hsame.files, hsame.pipes, hsame.pipe,
      congrArg (Function.update · f _) hsame.openFile⟩

theorem ends_congr (hl : k'.files = k.files) (ho : ∀ g ∈ k.files, (k'.openFile g).pipe = (k.openFile g).pipe) :
    k'.ends = k.ends := by
  rw [ends, hl, ends]
  exact congrArg _ (List.filterMap_congr ho)

theorem ends_erase (hf : f ∈ k.files) (hn : k.files.Nodup) (hl : k'.files = k.files.erase f)
    (ho : ∀ g ∈ k.files, g ≠ f → (k'.openFile g).pipe = (k.openFile g).pipe) :
    k.ends = ((k.openFile f).pipe.toList : Multiset Ptr) + k'.ends := by
  have hrest : (k.files.erase f).filterMap (fun g => (k'.openFile g).pipe) =
      (k.files.erase f).filterMap fun g => (k.openFile g).pipe :=
    List.filterMap_congr fun g hg => by
      obtain ⟨hne, hmem⟩ := hn.mem_erase_iff.mp hg
      exact ho g hmem hne
  have hperm := (List.perm_cons_erase hf).filterMap fun g => (k.openFile g).pipe
  rw [ends, ends, hl, hrest, Multiset.coe_eq_coe.mpr hperm, List.filterMap_cons]
  cases (k.openFile f).pipe with
  | none => simp
  | some p => simp

theorem Refs.fileNew (h : Refs k held) {type : FdType} (hf : k.fileNew type = (some f, k')) : Refs k' (f ::ₘ held) := by
  obtain ⟨hfresh, hfiles, hpipes, hpipe, hopen⟩ := fileNew_some hf
  have hself : k'.openFile f = { refs := 1, type := type } := by rw [hopen, Function.update_self]
  have hother : ∀ g ∈ k.files, k'.openFile g = k.openFile g := fun g hg => by
    rw [hopen, Function.update_of_ne (by rintro rfl; exact hfresh hg)]
  have hends : k'.ends = k.ends := by
    rw [ends, ends, hfiles, List.filterMap_cons, hself]
    exact congrArg _ (List.filterMap_congr fun g hg => by rw [hother g hg])
  refine ⟨?_, ?_⟩
  · rw [hfiles]
    exact h.files.new (n := 1) hfresh Nat.one_pos (by decide) (by rw [hself]; rfl) fun g hg => by rw [hother g hg]
  · rw [hends, hpipes, hpipe]
    exact h.pipes

theorem wrapInt_pred {x : Int} (h₁ : 1 ≤ x) (h₂ : x ≤ int32Max) : wrapInt (x - 1) = x - 1 :=
  wrapInt_eq_iff.mpr ⟨by omega, by omega⟩

theorem wrapInt_succ {x : Int} (h₁ : 0 ≤ x) (h₂ : x < int32Max) : wrapInt (x + 1) = x + 1 :=
  wrapInt_eq_iff.mpr ⟨by omega, by omega⟩

theorem pipePut_files (k : Kernel) (p : Ptr) : (k.pipePut p).files = k.files ∧ (k.pipePut p).openFile = k.openFile := by
  unfold pipePut
  simp only
  split <;> exact ⟨rfl, rfl⟩

theorem pipePut_counted {rest : Multiset Ptr} (h : Counted int32Max (p ::ₘ rest) k.pipes fun p => (k.pipe p).refs) :
    Counted int32Max rest (k.pipePut p).pipes fun q => ((k.pipePut p).pipe q).refs := by
  have hone : (1 : Int) ≤ (k.pipe p).refs := by
    have := h.refs_of_cons
    omega
  have hwrap := wrapInt_pred hone (h.le p h.live_of_cons)
  unfold pipePut
  simp only [hwrap]
  have hself : (Function.update k.pipe p { k.pipe p with refs := (k.pipe p).refs - 1 } p).refs = (k.pipe p).refs - 1 := by simp
  have hother : ∀ q ∈ k.pipes, q ≠ p →
      (Function.update k.pipe p { k.pipe p with refs := (k.pipe p).refs - 1 } q).refs = (k.pipe q).refs :=
    fun q _ hne => by rw [Function.update_of_ne hne]
  split
  · rename_i hne
    exact h.put_more hne hself hother
  · rename_i hzero
    exact h.put_last (not_not.mp hzero) hother

def lessRef (k : Kernel) (f : Ptr) : Kernel :=
  { k with openFile := Function.update k.openFile f { k.openFile f with refs := wrapInt ((k.openFile f).refs - 1) } }

theorem lessRef_other {g : Ptr} (hne : g ≠ f) : (k.lessRef f).openFile g = k.openFile g := Function.update_of_ne hne _ _

theorem lessRef_self : (k.lessRef f).openFile f = { k.openFile f with refs := wrapInt ((k.openFile f).refs - 1) } :=
  Function.update_self _ _ _

theorem lessRef_pipe (g : Ptr) : ((k.lessRef f).openFile g).pipe = (k.openFile g).pipe := by
  by_cases hg : g = f
  · rw [hg, lessRef_self]
  · rw [lessRef_other hg]

theorem filePut_more (h : ((k.lessRef f).openFile f).refs ≠ 0) : k.filePut (some f) = k.lessRef f := by
  rw [lessRef_self] at h
  unfold Kernel.filePut
  exact if_pos h

structure Freed (k k' : Kernel) (f : Ptr) : Prop where
  files : k'.files = k.files.erase f
  openFile : ∀ g, g ≠ f → k'.openFile g = k.openFile g
  noPipe : (k.openFile f).pipe = none → k'.pipes = k.pipes ∧ k'.pipe = k.pipe
  pipe : ∀ p, (k.openFile f).pipe = some p → k'.pipes = (k.pipePut p).pipes ∧ k'.pipe = (k.pipePut p).pipe

theorem pipePut_eq (k : Kernel) (p : Ptr) :
    (k.pipePut p).pipe = Function.update k.pipe p { k.pipe p with refs := wrapInt ((k.pipe p).refs - 1) } ∧
      (k.pipePut p).pipes = if wrapInt ((k.pipe p).refs - 1) ≠ 0 then k.pipes else k.pipes.erase p := by
  unfold pipePut
  simp only
  split <;> exact ⟨rfl, rfl⟩

def closedHandle (k : Kernel) (f : Ptr) : Kernel :=
  if (k.openFile f).type = .vfs then { k with vfs := (k.vfs.vfsClose (k.openFile f).file).2 } else k

def lessEnd (k : Kernel) : Option Ptr → Kernel
  | some p => k.pipePut p
  | none => k

theorem closedHandle_same (k : Kernel) (f : Ptr) : SameFiles k (k.closedHandle f) := by
  unfold closedHandle
  split <;> exact ⟨rfl, rfl, rfl, rfl⟩

theorem filePut_last (h : ((k.lessRef f).openFile f).refs = 0) :
    k.filePut (some f) =
      let k := (k.lessRef f).closedHandle f
      let k := k.lessEnd (k.openFile f).pipe
      { k with files := k.files.erase f } := by
  rw [lessRef_self] at h
  unfold Kernel.filePut
  exact if_neg (not_not.mpr h)

theorem filePut_freed (h : ((k.lessRef f).openFile f).refs = 0) : Freed k (k.filePut (some f)) f := by
  have hclose := (k.lessRef f).closedHandle_same f
  rw [filePut_last h]
  generalize (k.lessRef f).closedHandle f = k₁ at hclose
  simp only
  have hother : ∀ g, g ≠ f → k₁.openFile g = k.openFile g := fun g hg => by rw [hclose.openFile, lessRef_other hg]
  have hpipe : (k₁.openFile f).pipe = (k.openFile f).pipe := by rw [hclose.openFile, lessRef_pipe]
  have hpipes : k₁.pipes = k.pipes ∧ k₁.pipe = k.pipe := ⟨hclose.pipes, hclose.pipe⟩
  have hfiles : k₁.files.erase f = k.files.erase f := congrArg (List.erase · f) hclose.files
  rw [hpipe]
  cases hp : (k.openFile f).pipe with
  | none => exact ⟨hfiles, hother, fun _ => hpipes, fun p he => by rw [hp] at he; cases he⟩
  | some p =>
    obtain ⟨hf, ho⟩ := pipePut_files k₁ p
    refine ⟨(congrArg (List.erase · f) hf).trans hfiles, fun g hg => (congrFun ho g).trans (hother g hg),
      fun he => (by rw [hp] at he; cases he), fun q he => ?_⟩
    rw [hp] at he
    cases he
    show (k₁.pipePut p).pipes = _ ∧ (k₁.pipePut p).pipe = _
    rw [(pipePut_eq k₁ p).1, (pipePut_eq k₁ p).2, (pipePut_eq k p).1, (pipePut_eq k p).2, hpipes.1, hpipes.2]
    exact ⟨rfl, rfl⟩

theorem Refs.filePut (h : Refs k (f ::ₘ held)) : Refs (k.filePut (some f)) held := by
  have hone : (1 : Int) ≤ (k.openFile f).refs := by
    have := h.files.refs_of_cons
    omega
  have hself : ((k.lessRef f).openFile f).refs = (k.openFile f).refs - 1 := by
    rw [lessRef_self]
    exact wrapInt_pred hone (h.files.le f h.files.live_of_cons)
  have hother : ∀ g ∈ k.files, g ≠ f → ((k.lessRef f).openFile g).refs = (k.openFile g).refs := fun g _ hne => by
    rw [lessRef_other hne]
  by_cases hzero : (k.openFile f).refs - 1 = 0
  · have hfreed := filePut_freed (hself.trans hzero)
    generalize k.filePut (some f) = k' at hfreed
    have hfiles : Counted int32Max held (k.files.erase f) fun g => (k'.openFile g).refs :=
      h.files.put_last hzero fun g _ hg => by rw [hfreed.openFile g hg]
    have hends := ends_erase h.files.live_of_cons h.files.nodup hfreed.files fun g _ hg => by rw [hfreed.openFile g hg]
    have hpipes := h.pipes
    rw [← hfreed.files] at hfiles
    rw [hends] at hpipes
    refine ⟨hfiles, ?_⟩
    cases hp : (k.openFile f).pipe with
    | none =>
      obtain ⟨hl, hr⟩ := hfreed.noPipe hp
      rw [hp, Option.toList_none, Multiset.coe_nil, zero_add] at hpipes
      rw [hl, hr]
      exact hpipes
    | some p =>
      obtain ⟨hl, hr⟩ := hfreed.pipe p hp
      rw [hp, Option.toList_some, Multiset.coe_singleton, Multiset.singleton_add] at hpipes
      rw [hl, hr]
      exact pipePut_counted hpipes
  · have hends : (k.lessRef f).ends = k.ends := ends_congr rfl fun g _ => lessRef_pipe g
    rw [filePut_more (hself.trans_ne hzero)]
    refine ⟨h.files.put_more hzero hself hother, ?_⟩
    rw [hends]
    exact h.pipes

theorem Refs.filePutSlot {x : Option Ptr} (h : Refs k ((x.toList : Multiset Ptr) + held)) : Refs (k.filePut x) held := by
  cases x with
  | none => exact (zero_add held).subst (motive := Refs k) h
  | some f => exact Refs.filePut h

theorem Refs.filePuts (h : Refs k (named fds + held)) : Refs (fds.foldl Kernel.filePut k) held := by
  induction fds generalizing k with
  | nil => exact (zero_add held).subst (motive := Refs k) h
  | cons x fds ih =>
    rw [named_cons, add_assoc] at h
    rw [List.foldl_cons]
    exact ih h.filePutSlot

theorem Refs.addRef (h : Refs k held) (hf : f ∈ k.files) (hlt : (k.openFile f).refs < int32Max) :
    Refs (k.addRef f) (f ::ₘ held) := by
  have hzero : 0 ≤ (k.openFile f).refs := by
    rw [h.files.count f hf]
    exact Int.natCast_nonneg _
  have hself : (k.addRef f).openFile f = { k.openFile f with refs := wrapInt ((k.openFile f).refs + 1) } :=
    Function.update_self _ _ _
  have hother : ∀ g, g ≠ f → (k.addRef f).openFile g = k.openFile g := fun g hne => Function.update_of_ne hne _ _
  have hends : (k.addRef f).ends = k.ends := ends_congr rfl fun g _ => by
    by_cases hg : g = f
    · rw [hg, hself]
    · rw [hother g hg]
  refine ⟨h.files.take hf hlt ?_ fun g _ hne => by rw [hother g hne], ?_⟩
  · rw [hself]
    exact wrapInt_succ hzero hlt
  · rw [hends]
    exact h.pipes

-- ---------------------------------------------------------------------------
-- Tables
-- ---------------------------------------------------------------------------

open FdTable (reserved installed leastFree)

def withHeap (k : Kernel) (heap : List (Option Ptr)) : Kernel := { k with heap := heap }

theorem kmalloc_heap_eq (k : Kernel) (taken : List Ptr) : ∃ heap, (k.kmalloc taken).2 = k.withHeap heap := by
  unfold kmalloc
  split
  · exact ⟨k.heap, rfl⟩
  · exact ⟨_, rfl⟩

/-- The kernel after `fd_reserve`. -/
theorem fdReserve_cases (k : Kernel) (t : Ptr) (fd : Nat) : ∃ heap,
    k.fdReserve t fd = (false, k.withHeap heap) ∨
      (fd ≠ int32Max.toNat ∨ fd < (k.task t).fds.length) ∧
        k.fdReserve t fd = (true, (k.withHeap heap).modifyTask t fun v => { v with fds := reserved v.fds fd }) := by
  unfold fdReserve
  split
  · rename_i hroom
    refine ⟨k.heap, .inr ⟨.inr hroom, congrArg (Prod.mk true) ?_⟩⟩
    have htask : Function.update k.task t { k.task t with fds := reserved (k.task t).fds fd } = k.task := by
      rw [reserved, if_pos hroom]
      exact Function.update_eq_self t k.task
    exact congrArg (fun task => { k with task := task }) htask.symm
  rename_i hroom
  split
  · exact ⟨k.heap, .inl rfl⟩
  rename_i hmax
  obtain ⟨heap, hheap⟩ := kmalloc_heap_eq k []
  generalize k.kmalloc [] = a at hheap ⊢
  obtain ⟨_ | _, k₁⟩ := a
  · exact ⟨heap, .inl (congrArg (Prod.mk false) hheap)⟩
  · refine ⟨heap, .inr ⟨.inl hmax, ?_⟩⟩
    obtain rfl : k₁ = k.withHeap heap := hheap
    simp only [modifyTask, withHeap, reserved, hroom, if_false, FdTable.reservedCount]

/-- The kernel after `fd_install`. -/
theorem fdInstall_cases (k : Kernel) (t f : Ptr) (minimum : Nat) : ∃ heap,
    k.fdInstall t f minimum = (none, k.withHeap heap) ∨
      (leastFree (k.task t).fds minimum ≠ int32Max.toNat ∨ leastFree (k.task t).fds minimum < (k.task t).fds.length) ∧
        k.fdInstall t f minimum = (some (leastFree (k.task t).fds minimum),
          (k.withHeap heap).modifyTask t fun v => { v with fds := installed v.fds (leastFree v.fds minimum) f }) := by
  obtain ⟨heap, hcall | ⟨hroom, hcall⟩⟩ := fdReserve_cases k t (leastFree (k.task t).fds minimum)
  · refine ⟨heap, .inl ?_⟩
    unfold fdInstall
    rw [leastFree] at hcall
    simp only [hcall]
  · refine ⟨heap, .inr ⟨hroom, ?_⟩⟩
    unfold fdInstall
    rw [leastFree] at hcall
    simp only [hcall]
    simp only [modifyTask, withHeap, Function.update_self, Function.update_idem, installed, leastFree]

/-- There is room, and not for more descriptors than an `int` counts. -/
theorem reserved_length (hlen : (fds.length : Int) ≤ int32Max) (hfd : (fd : Int) ≤ int32Max)
    (hroom : fd ≠ int32Max.toNat ∨ fd < fds.length) :
    fd < (reserved fds fd).length ∧ ((reserved fds fd).length : Int) ≤ int32Max := by
  unfold reserved
  split
  · rename_i hlt
    exact ⟨hlt, hlen⟩
  rename_i hshort
  have hne : (fd : Int) ≠ int32Max := by
    unfold int32Max at *
    omega
  set count₀ : Nat := if fds.length = 0 then 8 else fds.length with hcount₀
  have hpos : 1 ≤ count₀ ∧ (count₀ : Int) ≤ int32Max ∧ fds.length ≤ count₀ := by
    unfold int32Max at *
    rw [hcount₀]
    split <;> omega
  have hfew : fd < count₀ * 2 ^ 31 := by
    unfold int32Max at *
    omega
  obtain ⟨c, -, hlt, hge, hmax, heq⟩ :=
    FdTable.growCount_ends (lt_of_le_of_ne hfd hne) hpos.2.1 hfew (show 31 < 32 by omega)
  have hc : FdTable.reservedCount fds fd = c := heq.symm
  rw [hc, List.length_append, List.length_replicate]
  omega

theorem named_reserved (fds : List (Option Ptr)) (fd : Nat) : named (reserved fds fd) = named fds := by
  unfold reserved
  split
  · rfl
  · exact named_append_none fds _

theorem getD_reserved (fds : List (Option Ptr)) (fd i : Nat) : (reserved fds fd).getD i none = fds.getD i none := by
  unfold reserved
  split
  · rfl
  · simp only [List.getD_eq_getElem?_getD, List.getElem?_append, List.getElem?_replicate]
    split
    · rfl
    · rename_i hi
      rw [List.getElem?_eq_none (not_lt.mp hi)]
      split <;> rfl

theorem getD_leastFree (fds : List (Option Ptr)) (minimum : Nat) : fds.getD (leastFree fds minimum) none = none := by
  rw [List.getD_eq_getElem?_getD]
  have hfree := (FdTable.isLeastFree fds minimum).free
  cases hslot : fds[leastFree fds minimum]? with
  | none => rfl
  | some x =>
    cases x with
    | none => rfl
    | some g => exact absurd hslot (hfree g)

end Kernel

end NarcOs
