import NarcOs.Kernel.References

/-!
# Calls that count

The calls on descriptors, with their failures: each keeps `RefsOk` while no count is at its end,
and one that fails changes no slot and no count.
-/

namespace NarcOs

namespace Kernel

open FdTable (reserved installed leastFree)

variable {k k' k'' : Kernel} {t f p : Ptr} {frame : TaskFrame} {held : Multiset Ptr}

-- ---------------------------------------------------------------------------
-- The calls
-- ---------------------------------------------------------------------------

inductive RefCall
  | open (path : CString) (flags : OpenFlags)
  | close (fd : Int32)
  | dup (oldfd minimum : Int32)
  | dup2 (oldfd newfd : Int32)
  | pipe
  | fork
  | exit (status : Int)

def refCall (k : Kernel) (frame : TaskFrame) : RefCall → Option (Bool × Kernel)
  | .open path flags => some (decide (0 ≤ (k.taskFdOpen path flags).1), (k.taskFdOpen path flags).2.2)
  | .close fd => some (decide (0 ≤ (k.taskFdClose fd).1), (k.taskFdClose fd).2)
  | .dup oldfd minimum => some (decide (0 ≤ (k.taskFdDup oldfd minimum).1), (k.taskFdDup oldfd minimum).2)
  | .dup2 oldfd newfd => some (decide (0 ≤ (k.taskFdDup2 oldfd newfd).1), (k.taskFdDup2 oldfd newfd).2)
  | .pipe => some (k.taskFdPipe.1.isSome, k.taskFdPipe.2)
  | .fork => (k.taskFork frame).map fun r => (decide (0 ≤ r.1), r.2)
  | .exit status => (k.taskExit frame status).map fun r => (true, r.2)

def CountsFit (k : Kernel) : RefCall → Prop
  | .dup oldfd minimum => ∀ f, k.fdGet oldfd = some f → ¬ minimum < 0 →
      (k.fdInstall k.current f minimum.toInt.toNat).1.isSome → (k.openFile f).refs < int32Max
  | .dup2 oldfd newfd => ∀ f, k.fdGet oldfd = some f → ¬ newfd < 0 → oldfd ≠ newfd →
      (k.fdReserve k.current newfd.toInt.toNat).1 = true → (k.openFile f).refs < int32Max
  | .fork => k.ForkRefused ∨ k.RefsFit
  | _ => True

-- ---------------------------------------------------------------------------
-- What is kept
-- ---------------------------------------------------------------------------

structure Tallied (k : Kernel) : Prop where
  nodup : k.taskList.Nodup
  length : ∀ t ∈ k.taskList, ((k.task t).fds.length : Int) ≤ int32Max
  zombie : ∀ t ∈ k.taskList, (k.task t).state = .zombie → (k.task t).fds = []
  nextPid : 1 ≤ k.nextPid
  refs : Refs k k.slots

structure RefsOk (k : Kernel) : Prop extends Running k, Tallied k

structure SameRefs (k k' : Kernel) : Prop where
  list : k'.taskList = k.taskList
  slot : ∀ t ∈ k.taskList, ∀ fd, (k'.task t).fds.getD fd none = (k.task t).fds.getD fd none
  files : k'.files = k.files
  refs : ∀ f ∈ k.files, (k'.openFile f).refs = (k.openFile f).refs
  pipe : ∀ f ∈ k.files, (k'.openFile f).pipe = (k.openFile f).pipe
  pipes : k'.pipes = k.pipes
  pipeRefs : ∀ p ∈ k.pipes, (k'.pipe p).refs = (k.pipe p).refs

/-- A call on descriptors changes the table of the current task, and counts what it names. -/
theorem RefsOk.serves (h : RefsOk k) (hs : Serves k k') (hn : k'.nextPid = k.nextPid)
    (hlen : ((k'.task k.current).fds.length : Int) ≤ int32Max) (hr : Refs k' k'.slots) : RefsOk k' where
  toRunning := h.toRunning.serves hs
  nodup := by rw [hs.list]; exact h.nodup
  length t ht := by
    rw [hs.list] at ht
    by_cases hne : t = k.current
    · rw [hne]
      exact hlen
    · rw [hs.other t hne]
      exact h.length t ht
  zombie t ht hz := by
    rw [hs.list] at ht
    have hne : t ≠ k.current := by
      rintro rfl
      obtain ⟨fds, mmapNext, hown⟩ := hs.own
      have hrun : (k.task k.current).state = .runnable := h.runnable
      rw [hown, hrun] at hz
      cases hz
    rw [hs.other t hne] at hz ⊢
    exact h.zombie t ht hz
  nextPid := hn ▸ h.nextPid
  refs := hr

theorem Serves.slots (hs : Serves k k') (h : RefsOk k) :
    named (k.task k.current).fds + k'.slots = named (k'.task k.current).fds + k.slots :=
  slots_change h.nodup h.mem hs.list fun u _ hne => by rw [hs.other u hne]

theorem Serves.slots_add (hs : Serves k k') (h : RefsOk k) {more : Multiset Ptr}
    (hf : named (k'.task k.current).fds = more + named (k.task k.current).fds) : k'.slots = more + k.slots := by
  have hslots := hs.slots h
  rw [hf, add_assoc, add_left_comm] at hslots
  exact add_left_cancel hslots

theorem Serves.slots_cons (hs : Serves k k') (h : RefsOk k)
    (hf : named (k'.task k.current).fds = f ::ₘ named (k.task k.current).fds) : k'.slots = f ::ₘ k.slots := by
  rw [← Multiset.singleton_add] at hf ⊢
  exact hs.slots_add h hf

theorem Serves.slots_same (hs : Serves k k') (h : RefsOk k)
    (hf : named (k'.task k.current).fds = named (k.task k.current).fds) : k'.slots = k.slots := by
  have hnone : named (k'.task k.current).fds = 0 + named (k.task k.current).fds := by rw [zero_add, hf]
  have hslots := hs.slots_add h hnone
  rwa [zero_add] at hslots

theorem RefsOk.fdGet (h : RefsOk k) {fd : Int32} (hg : k.fdGet fd = some f) :
    ∃ hlt : fd.toInt.toNat < (k.task k.current).fds.length,
      (k.task k.current).fds[fd.toInt.toNat] = some f ∧ f ∈ k.slots ∧ f ∈ k.files := by
  unfold Kernel.fdGet at hg
  split at hg
  · cases hg
  rw [List.getD_eq_getElem?_getD] at hg
  obtain ⟨hlt, hslot⟩ : ∃ hlt : fd.toInt.toNat < (k.task k.current).fds.length,
      (k.task k.current).fds[fd.toInt.toNat] = some f := by
    by_cases hlt : fd.toInt.toNat < (k.task k.current).fds.length
    · rw [List.getElem?_eq_getElem hlt, Option.getD_some] at hg
      exact ⟨hlt, hg⟩
    · rw [List.getElem?_eq_none (not_lt.mp hlt)] at hg
      cases hg
  have hmem : f ∈ k.slots := by
    rw [slots, Multiset.mem_bind]
    refine ⟨k.current, h.mem, Multiset.count_pos.mp ?_⟩
    rw [count_named]
    exact List.count_pos_iff.mpr (hslot ▸ List.getElem_mem hlt)
  exact ⟨hlt, hslot, hmem, (h.refs.files.mem f).mpr hmem⟩

-- ---------------------------------------------------------------------------
-- Tables
-- ---------------------------------------------------------------------------

structure Tabled (k k' : Kernel) (t : Ptr) (fds : List (Option Ptr)) : Prop where
  list : k'.taskList = k.taskList
  current : k'.current = k.current
  nextPid : k'.nextPid = k.nextPid
  other : ∀ u, u ≠ t → k'.task u = k.task u
  own : k'.task t = { k.task t with fds := fds }
  files : SameFiles k k'

theorem modifyFds_tabled (k : Kernel) (heap : List (Option Ptr)) (t : Ptr) (fds : List (Option Ptr)) :
    Tabled k ((k.withHeap heap).modifyTask t fun v => { v with fds := fds }) t fds where
  list := rfl
  current := rfl
  nextPid := rfl
  other _ hu := Function.update_of_ne hu _ _
  own := Function.update_self _ _ _
  files := ⟨rfl, rfl, rfl, rfl⟩

theorem Tabled.fds {fds : List (Option Ptr)} (h : Tabled k k' t fds) : (k'.task t).fds = fds := by rw [h.own]

theorem Tabled.serves {fds : List (Option Ptr)} (h : Tabled k k' k.current fds) : Serves k k' where
  list := h.list
  current := h.current
  other := h.other
  own := ⟨fds, (k.task k.current).mmapNext, h.own⟩

theorem withHeap_table (k : Kernel) (heap : List (Option Ptr)) : SameTable k (k.withHeap heap) := ⟨rfl, rfl, rfl, rfl, rfl⟩

theorem withHeap_files (k : Kernel) (heap : List (Option Ptr)) : SameFiles k (k.withHeap heap) := ⟨rfl, rfl, rfl, rfl⟩

structure Roomy (k k' : Kernel) (t : Ptr) (fd : Nat) : Prop extends Tabled k k' t (reserved (k.task t).fds fd) where
  lt : fd < (reserved (k.task t).fds fd).length
  length : ((reserved (k.task t).fds fd).length : Int) ≤ int32Max

inductive Reserves (k : Kernel) (t : Ptr) (fd : Nat) : Bool × Kernel → Prop
  | refused {k' : Kernel} : SameTable k k' → SameFiles k k' → Reserves k t fd (false, k')
  | roomy {k' : Kernel} : Roomy k k' t fd → Reserves k t fd (true, k')

theorem fdReserve_reserves (hlen : ((k.task t).fds.length : Int) ≤ int32Max) {fd : Nat} (hfd : (fd : Int) ≤ int32Max) :
    Reserves k t fd (k.fdReserve t fd) := by
  obtain ⟨heap, hcall | ⟨hroom, hcall⟩⟩ := fdReserve_cases k t fd
  · rw [hcall]
    exact .refused (withHeap_table k heap) (withHeap_files k heap)
  · obtain ⟨hlt, hmax⟩ := reserved_length hlen hfd hroom
    have htabled := modifyFds_tabled k heap t (reserved (k.task t).fds fd)
    rw [hcall]
    exact .roomy ⟨htabled, hlt, hmax⟩

structure Filled (k k' : Kernel) (t f : Ptr) (fd : Nat) : Prop
    extends Tabled k k' t ((reserved (k.task t).fds fd).set fd (some f)) where
  lt : fd < (reserved (k.task t).fds fd).length
  length : ((reserved (k.task t).fds fd).length : Int) ≤ int32Max
  empty : (k.task t).fds.getD fd none = none

inductive Installs (k : Kernel) (t f : Ptr) : Option Nat × Kernel → Prop
  | refused {k' : Kernel} : SameTable k k' → SameFiles k k' → Installs k t f (none, k')
  | filled {k' : Kernel} {fd : Nat} : Filled k k' t f fd → Installs k t f (some fd, k')

theorem fdInstall_installs (hlen : ((k.task t).fds.length : Int) ≤ int32Max) (f : Ptr) {minimum : Nat}
    (hmin : (minimum : Int) ≤ int32Max) : Installs k t f (k.fdInstall t f minimum) := by
  obtain ⟨heap, hcall | ⟨hroom, hcall⟩⟩ := fdInstall_cases k t f minimum
  · rw [hcall]
    exact .refused (withHeap_table k heap) (withHeap_files k heap)
  have hfd : ((leastFree (k.task t).fds minimum : Nat) : Int) ≤ int32Max := by
    have := FdTable.leastFree_le (k.task t).fds minimum
    omega
  obtain ⟨hlt, hmax⟩ := reserved_length hlen hfd hroom
  have htabled := modifyFds_tabled k heap t (installed (k.task t).fds (leastFree (k.task t).fds minimum) f)
  rw [hcall]
  exact .filled ⟨htabled, hlt, hmax, getD_leastFree _ _⟩

theorem Filled.named {fd : Nat} (h : Filled k k' t f fd) : named (k'.task t).fds = f ::ₘ named (k.task t).fds := by
  have hlt := h.lt
  have hset := named_set hlt (some f)
  have hempty : (reserved (k.task t).fds fd)[fd] = none := by
    rw [← List.getD_eq_getElem _ none hlt, getD_reserved, h.empty]
  rw [hempty, named_reserved] at hset
  rw [h.fds]
  simpa using hset

theorem Filled.fds_length {fd : Nat} (h : Filled k k' t f fd) : ((k'.task t).fds.length : Int) ≤ int32Max := by
  rw [h.fds, List.length_set]
  exact h.length

theorem Filled.getD {fd : Nat} (h : Filled k k' t f fd) (i : Nat) :
    (k'.task t).fds.getD i none = if i = fd then some f else (k.task t).fds.getD i none := by
  rw [h.fds, List.getD_eq_getElem?_getD]
  split
  · rename_i hi
    rw [hi, List.getElem?_set_self h.lt, Option.getD_some]
  · rename_i hi
    rw [List.getElem?_set_ne (Ne.symm hi), ← List.getD_eq_getElem?_getD, getD_reserved]

-- ---------------------------------------------------------------------------
-- New objects
-- ---------------------------------------------------------------------------

structure Drafted (k k' : Kernel) (newFiles newPipes : List Ptr) : Prop where
  files : k'.files = newFiles ++ k.files
  pipes : k'.pipes = newPipes ++ k.pipes
  fresh : ∀ f ∈ newFiles, f ∉ k.files
  freshPipes : ∀ p ∈ newPipes, p ∉ k.pipes
  openFile : ∀ f ∈ k.files, k'.openFile f = k.openFile f
  pipe : ∀ p ∈ k.pipes, k'.pipe p = k.pipe p

namespace Drafted

variable {files pipes : List Ptr}

theorem refl (k : Kernel) : Drafted k k [] [] where
  files := rfl
  pipes := rfl
  fresh _ hf := absurd hf List.not_mem_nil
  freshPipes _ hp := absurd hp List.not_mem_nil
  openFile _ _ := rfl
  pipe _ _ := rfl

theorem same (h : Drafted k k' files pipes) (hs : SameFiles k' k'') : Drafted k k'' files pipes where
  files := hs.files.trans h.files
  pipes := hs.pipes.trans h.pipes
  fresh := h.fresh
  freshPipes := h.freshPipes
  openFile f hf := (congrFun hs.openFile f).trans (h.openFile f hf)
  pipe p hp := (congrFun hs.pipe p).trans (h.pipe p hp)

theorem ne (h : Drafted k k' files pipes) {g : Ptr} (hf : f ∈ files) (hg : g ∈ k.files) : g ≠ f := by
  rintro rfl
  exact h.fresh g hf hg

theorem fileNew (h : Drafted k k' files pipes) {type : FdType} (hn : k'.fileNew type = (some f, k'')) :
    Drafted k k'' (f :: files) pipes ∧ k''.openFile f = { refs := 1, type := type } ∧
      (∀ g, g ≠ f → k''.openFile g = k'.openFile g) ∧ f ∉ files ∧ SameTable k' k'' := by
  have htable := fileNew_table k' type
  rw [hn] at htable
  obtain ⟨hfresh, hfiles, hpipes, hpipe, hopen⟩ := fileNew_some hn
  have hnot : f ∉ files ∧ f ∉ k.files := by
    rw [h.files, List.mem_append, not_or] at hfresh
    exact hfresh
  have hother : ∀ g, g ≠ f → k''.openFile g = k'.openFile g := fun g hne => by
    rw [hopen, Function.update_of_ne hne]
  refine ⟨⟨by rw [hfiles, h.files]; rfl, hpipes.trans h.pipes, fun g hg => ?_, h.freshPipes, fun g hg => ?_, fun p hp => ?_⟩,
    by rw [hopen, Function.update_self], hother, hnot.1, htable⟩
  · rcases List.mem_cons.mp hg with rfl | hg
    · exact hnot.2
    · exact h.fresh g hg
  · rw [hother g (by rintro rfl; exact hnot.2 hg), h.openFile g hg]
  · rw [hpipe, h.pipe p hp]

theorem free (h : Drafted k k' files pipes) (hf : f ∈ files) (hl : k''.files = k'.files.erase f)
    (ho : ∀ g, g ≠ f → k''.openFile g = k'.openFile g) (hp : k''.pipes = k'.pipes)
    (hq : ∀ p ∈ k.pipes, k''.pipe p = k'.pipe p) : Drafted k k'' (files.erase f) pipes where
  files := by rw [hl, h.files, List.erase_append_left _ hf]
  pipes := hp.trans h.pipes
  fresh g hg := h.fresh g (List.mem_of_mem_erase hg)
  freshPipes := h.freshPipes
  openFile g hg := (ho g (h.ne hf hg)).trans (h.openFile g hg)
  pipe p hp := (hq p hp).trans (h.pipe p hp)

theorem sameRefs (h : Drafted k k' [] []) (hl : k'.taskList = k.taskList)
    (hs : ∀ t ∈ k.taskList, ∀ fd, (k'.task t).fds.getD fd none = (k.task t).fds.getD fd none) : SameRefs k k' where
  list := hl
  slot := hs
  files := h.files
  refs f hf := by rw [h.openFile f hf]
  pipe f hf := by rw [h.openFile f hf]
  pipes := h.pipes
  pipeRefs p hp := by rw [h.pipe p hp]

end Drafted

theorem Drafted.put {files pipes : List Ptr} (h : Drafted k k' files pipes) (hf : f ∈ files) (h₁ : (k'.openFile f).refs = 1)
    (hp : (k'.openFile f).pipe = none) : Drafted k (k'.filePut (some f)) (files.erase f) pipes := by
  have hfreed : Freed k' (k'.filePut (some f)) f := filePut_freed (by rw [lessRef_self, h₁]; rfl)
  obtain ⟨hl, hr⟩ := hfreed.noPipe hp
  exact h.free hf hfreed.files hfreed.openFile hl fun p _ => by rw [hr]

theorem SameRefs.of_same (ht : SameTable k k') (hf : SameFiles k k') : SameRefs k k' :=
  ((Drafted.refl k).same hf).sameRefs ht.list fun t _ fd => by rw [ht.task]

theorem Refs.sameRefs (h : Refs k held) (hs : SameRefs k k') : Refs k' held := by
  have hends : k'.ends = k.ends := ends_congr hs.files hs.pipe
  refine ⟨?_, ?_⟩
  · rw [hs.files]
    exact h.files.congr hs.refs
  · rw [hends, hs.pipes]
    exact h.pipes.congr hs.pipeRefs

theorem RefsOk.sameRefs (h : RefsOk k) (hs : SameRefs k k') (hv : Serves k k') (hn : k'.nextPid = k.nextPid)
    (hlen : ((k'.task k.current).fds.length : Int) ≤ int32Max)
    (hf : named (k'.task k.current).fds = named (k.task k.current).fds) : RefsOk k' := by
  refine h.serves hv hn hlen ?_
  rw [hv.slots_same h hf]
  exact h.refs.sameRefs hs

theorem RefsOk.sameTable (h : RefsOk k) (ht : SameTable k k') (hs : SameRefs k k') : RefsOk k' := by
  have hfds : (k'.task k.current).fds = (k.task k.current).fds := by rw [ht.task]
  exact h.sameRefs hs ht.serves ht.nextPid (by rw [hfds]; exact h.length _ h.mem) (by rw [hfds])

theorem RefsOk.failed (h : RefsOk k) (ht : SameTable k k') (hd : Drafted k k' [] []) : RefsOk k' ∧ SameRefs k k' := by
  have hs := hd.sameRefs ht.list fun t _ fd => by rw [ht.task]
  exact ⟨h.sameTable ht hs, hs⟩

-- ---------------------------------------------------------------------------
-- Open
-- ---------------------------------------------------------------------------

theorem RefsOk.open (h : RefsOk k) (path : CString) (flags : OpenFlags) :
    RefsOk (k.taskFdOpen path flags).2.2 ∧
      ((k.taskFdOpen path flags).1 < 0 → SameRefs k (k.taskFdOpen path flags).2.2) := by
  unfold taskFdOpen
  cases hnew : k.fileNew .vfs with
  | mk o k₁ =>
  cases o with
  | none =>
    obtain ⟨ht, hf⟩ := fileNew_none hnew
    obtain ⟨hok, hs⟩ := h.failed ht ((Drafted.refl k).same hf)
    exact ⟨hok, fun _ => hs⟩
  | some f =>
    obtain ⟨hdraft, hself, -, -, ht⟩ := (Drafted.refl k).fileNew hnew
    have hrefs := h.refs.fileNew hnew
    simp only
    split
    · rename_i file vfs _
      obtain ⟨k₂, hk₂⟩ : ∃ k₂ : Kernel, k₂ = { k₁ with
          vfs := vfs
          openFile := Function.update k₁.openFile f { k₁.openFile f with file := file } } := ⟨_, rfl⟩
      have hcur₁ : k₁.current = k₂.current := hk₂ ▸ rfl
      rw [← hk₂, hcur₁]
      have ht₂ : SameTable k k₂ := ht.trans (hk₂ ▸ ⟨rfl, rfl, rfl, rfl, rfl⟩)
      have hself₂ : k₂.openFile f = { refs := 1, type := .vfs, file := file } := by
        rw [hk₂]
        show Function.update k₁.openFile f _ f = _
        rw [Function.update_self, hself]
      have hother₂ : ∀ g, g ≠ f → k₂.openFile g = k₁.openFile g := fun g hg => by
        rw [hk₂]
        exact Function.update_of_ne hg _ _
      have hdraft₂ : Drafted k k₂ [f] [] := ⟨by rw [hk₂]; exact hdraft.files, by rw [hk₂]; exact hdraft.pipes, hdraft.fresh,
        hdraft.freshPipes, fun g hg => (hother₂ g (hdraft.ne (List.mem_singleton_self f) hg)).trans (hdraft.openFile g hg),
        by rw [hk₂]; exact hdraft.pipe⟩
      have hcounts : ∀ g, (k₂.openFile g).refs = (k₁.openFile g).refs ∧ (k₂.openFile g).pipe = (k₁.openFile g).pipe := fun g => by
        by_cases hg : g = f
        · rw [hg, hself₂, hself]
          exact ⟨rfl, rfl⟩
        · rw [hother₂ g hg]
          exact ⟨rfl, rfl⟩
      have hrefs₂ : Refs k₂ (f ::ₘ k.slots) := hrefs.sameRefs {
        list := hk₂ ▸ rfl
        slot := fun _ _ _ => by rw [hk₂]
        files := hk₂ ▸ rfl
        refs := fun g _ => (hcounts g).1
        pipe := fun g _ => (hcounts g).2
        pipes := hk₂ ▸ rfl
        pipeRefs := fun _ _ => by rw [hk₂] }
      have hcur : k₂.current = k.current := ht₂.current
      have htask : k₂.task = k.task := ht₂.task
      have hinstalls := fdInstall_installs (k := k₂) (t := k₂.current) (by rw [hcur, htask]; exact h.length _ h.mem) f
        (show ((3 : Nat) : Int) ≤ int32Max by decide)
      generalize k₂.fdInstall k₂.current f 3 = r at hinstalls
      cases hinstalls with
      | @refused k₃ ht₃ hf₃ =>
        have hput := (hdraft₂.same hf₃).put (List.mem_singleton_self f) (by rw [hf₃.openFile, hself₂]) (by rw [hf₃.openFile, hself₂])
        rw [List.erase_cons_head] at hput
        obtain ⟨hok, hs⟩ := h.failed ((ht₂.trans ht₃).trans (filePut_table k₃ (some f))) hput
        exact ⟨hok, fun _ => hs⟩
      | @filled k₃ fd hfill =>
        have hserves := ht₂.serves.trans hfill.toTabled.serves
        have hslots : k₃.slots = f ::ₘ k.slots := hserves.slots_cons h (by rw [← hcur, hfill.named, htask])
        refine ⟨h.serves hserves (hfill.nextPid.trans ht₂.nextPid) (hcur ▸ hfill.fds_length) ?_, fun hneg => ?_⟩
        · rw [hslots]
          exact hrefs₂.same hfill.files
        · exact absurd hneg (by simp)
    · rename_i vfs _ _
      have ht₂ : SameTable k₁ { k₁ with
        vfs := vfs
        files := k₁.files.erase f } := ⟨rfl, rfl, rfl, rfl, rfl⟩
      have hfreed : Drafted k { k₁ with
          vfs := vfs
          files := k₁.files.erase f } ([f].erase f) [] :=
        hdraft.free (List.mem_singleton_self f) rfl (fun _ _ => rfl) rfl fun _ _ => rfl
      rw [List.erase_cons_head] at hfreed
      obtain ⟨hok, hs⟩ := h.failed (ht.trans ht₂) hfreed
      exact ⟨hok, fun _ => hs⟩

-- ---------------------------------------------------------------------------
-- Close, dup and dup2
-- ---------------------------------------------------------------------------

theorem toNat_le (fd : Int32) : (fd.toInt.toNat : Int) ≤ int32Max := by
  have := fd.toInt_lt
  unfold int32Max
  omega

theorem setFd_serves (k : Kernel) (fd : Nat) (x : Option Ptr) : Serves k (k.setFd fd x) :=
  modifyFds_serves k fun fds => fds.set fd x

theorem setFd_fds (k : Kernel) (fd : Nat) (x : Option Ptr) :
    ((k.setFd fd x).task k.current).fds = (k.task k.current).fds.set fd x := by
  show (Function.update k.task k.current _ k.current).fds = _
  rw [Function.update_self]

theorem filePut_slots (k : Kernel) (x : Option Ptr) : SameTable k (k.filePut x) ∧ (k.filePut x).slots = k.slots := by
  have ht := filePut_table k x
  exact ⟨ht, slots_congr ht.list fun u _ => by rw [ht.task]⟩

theorem RefsOk.close (h : RefsOk k) (fd : Int32) :
    RefsOk (k.taskFdClose fd).2 ∧ ((k.taskFdClose fd).1 < 0 → SameRefs k (k.taskFdClose fd).2) := by
  unfold taskFdClose
  cases hg : k.fdGet fd with
  | none => exact ⟨h, fun _ => .of_same (SameTable.refl k) (SameFiles.refl k)⟩
  | some f =>
    obtain ⟨hlt, hslot, -, -⟩ := h.fdGet hg
    refine ⟨?_, fun hneg => absurd hneg (by simp)⟩
    have hserves := setFd_serves k fd.toInt.toNat none
    have hfds := setFd_fds k fd.toInt.toNat none
    have hfiles : SameFiles k (k.setFd fd.toInt.toNat none) := ⟨rfl, rfl, rfl, rfl⟩
    have hnext : (k.setFd fd.toInt.toNat none).nextPid = k.nextPid := rfl
    simp only
    generalize k.setFd fd.toInt.toNat none = k₁ at hserves hfds hfiles hnext
    have hnamed := named_set hlt none
    rw [hslot, Option.toList_some, Option.toList_none, Multiset.coe_singleton, Multiset.coe_nil, zero_add,
      Multiset.singleton_add, ← hfds] at hnamed
    have hslots := hserves.slots h
    rw [← hnamed, Multiset.cons_add, ← Multiset.add_cons] at hslots
    have hrefs := (h.refs.same hfiles)
    rw [← add_left_cancel hslots] at hrefs
    obtain ⟨ht, hkept⟩ := filePut_slots k₁ (some f)
    refine h.serves (hserves.trans ht.serves) (ht.nextPid.trans hnext) ?_ ?_
    · rw [ht.task, hfds, List.length_set]
      exact h.length _ h.mem
    · rw [hkept]
      exact hrefs.filePut

theorem RefsOk.dup (h : RefsOk k) {oldfd minimum : Int32} (hfit : k.CountsFit (.dup oldfd minimum)) :
    RefsOk (k.taskFdDup oldfd minimum).2 ∧
      ((k.taskFdDup oldfd minimum).1 < 0 → SameRefs k (k.taskFdDup oldfd minimum).2) := by
  have hsame : RefsOk k ∧ SameRefs k k := ⟨h, .of_same (SameTable.refl k) (SameFiles.refl k)⟩
  unfold taskFdDup
  cases hg : k.fdGet oldfd with
  | none => exact ⟨hsame.1, fun _ => hsame.2⟩
  | some f =>
    obtain ⟨-, -, -, hlive⟩ := h.fdGet hg
    simp only
    split
    · exact ⟨hsame.1, fun _ => hsame.2⟩
    rename_i hmin
    have hlt := hfit f hg hmin
    have hinstalls := fdInstall_installs (h.length _ h.mem) f (toNat_le minimum)
    generalize k.fdInstall k.current f minimum.toInt.toNat = r at hinstalls hlt
    cases hinstalls with
    | refused ht hf =>
      have hs := SameRefs.of_same ht hf
      exact ⟨h.sameTable ht hs, fun _ => hs⟩
    | @filled k₁ fd hfill =>
      have hslots : k₁.slots = f ::ₘ k.slots := hfill.toTabled.serves.slots_cons h hfill.named
      have hadd : SameTable k₁ (k₁.addRef f) := ⟨rfl, rfl, rfl, rfl, rfl⟩
      have hkept : (k₁.addRef f).slots = k₁.slots := rfl
      refine ⟨h.serves (hfill.toTabled.serves.trans hadd.serves) hfill.nextPid hfill.fds_length ?_, fun hneg => absurd hneg (by simp)⟩
      rw [hkept, hslots]
      refine (h.refs.same hfill.files).addRef (hfill.files.files ▸ hlive) ?_
      rw [hfill.files.openFile]
      exact hlt rfl

theorem RefsOk.dup2 (h : RefsOk k) {oldfd newfd : Int32} (hfit : k.CountsFit (.dup2 oldfd newfd)) :
    RefsOk (k.taskFdDup2 oldfd newfd).2 ∧
      ((k.taskFdDup2 oldfd newfd).1 < 0 → SameRefs k (k.taskFdDup2 oldfd newfd).2) := by
  have hsame : RefsOk k ∧ SameRefs k k := ⟨h, .of_same (SameTable.refl k) (SameFiles.refl k)⟩
  unfold taskFdDup2
  cases hg : k.fdGet oldfd with
  | none => exact ⟨hsame.1, fun _ => hsame.2⟩
  | some f =>
    obtain ⟨-, -, -, hlive⟩ := h.fdGet hg
    simp only
    split
    · exact ⟨hsame.1, fun _ => hsame.2⟩
    rename_i hnew
    split
    · exact ⟨hsame.1, fun _ => hsame.2⟩
    rename_i hne
    have hlt := hfit f hg hnew hne
    have hreserves := fdReserve_reserves (h.length _ h.mem) (toNat_le newfd)
    generalize newfd.toInt.toNat = fd at hlt hreserves ⊢
    generalize k.fdReserve k.current fd = r at hlt hreserves ⊢
    cases hreserves with
    | refused ht hf =>
      obtain ⟨hok, hs⟩ := h.failed ht ((Drafted.refl k).same hf)
      exact ⟨hok, fun _ => hs⟩
    | @roomy k₁ hroom =>
      refine ⟨?_, fun hneg => absurd (Int32.lt_iff_toInt_lt.mpr hneg) hnew⟩
      have hrefs₂ : Refs (k₁.addRef f) (f ::ₘ k.slots) :=
        (h.refs.same hroom.files).addRef (hroom.files.files ▸ hlive) (by rw [hroom.files.openFile]; exact hlt rfl)
      -- the slot is read before it is written
      have hin := hroom.lt
      have hslot : ((k₁.addRef f).task (k₁.addRef f).current).fds.getD fd none =
          (reserved (k.task k.current).fds fd)[fd] := by
        show (k₁.task k₁.current).fds.getD fd none = _
        rw [hroom.current, hroom.fds, List.getD_eq_getElem _ none hin]
      have hnamed := named_set hroom.lt (some f)
      rw [named_reserved, Option.toList_some, Multiset.coe_singleton, Multiset.singleton_add] at hnamed
      simp only [hslot]
      generalize (reserved (k.task k.current).fds fd)[fd] = x at hnamed ⊢
      have hadd : SameTable k₁ (k₁.addRef f) := ⟨rfl, rfl, rfl, rfl, rfl⟩
      have ht₃ := hadd.trans (filePut_table (k₁.addRef f) x)
      have hput : ∀ {held : Multiset Ptr}, Refs (k₁.addRef f) ((x.toList : Multiset Ptr) + held) →
        Refs ((k₁.addRef f).filePut x) held := Refs.filePutSlot
      generalize (k₁.addRef f).filePut x = k₃ at ht₃ hput ⊢
      have hcur₃ : k₃.current = k.current := ht₃.current.trans hroom.current
      have hserves := (hroom.toTabled.serves.trans ht₃.serves).trans (setFd_serves k₃ fd (some f))
      have hfds : ((k₃.setFd fd (some f)).task k.current).fds = (reserved (k.task k.current).fds fd).set fd (some f) := by
        rw [← hcur₃, setFd_fds, ht₃.task, hcur₃, hroom.fds]
      have hslots := hserves.slots h
      rw [hfds] at hslots
      have hheld : (x.toList : Multiset Ptr) + (k₃.setFd fd (some f)).slots = f ::ₘ k.slots := by
        refine add_left_cancel (a := named (k.task k.current).fds) ?_
        rw [add_left_comm, hslots, ← add_assoc, hnamed, Multiset.cons_add, Multiset.add_cons]
      rw [← hheld] at hrefs₂
      refine h.serves hserves (ht₃.nextPid.trans hroom.nextPid) ?_ ((hput hrefs₂).same ⟨rfl, rfl, rfl, rfl⟩)
      rw [hfds, List.length_set]
      exact hroom.length

-- ---------------------------------------------------------------------------
-- Pipe
-- ---------------------------------------------------------------------------

theorem Drafted.fileNew_option {files pipes : List Ptr} (h : Drafted k k' files pipes) (type : FdType) :
    Drafted k (k'.fileNew type).2 ((k'.fileNew type).1.toList ++ files) pipes := by
  cases hn : k'.fileNew type with
  | mk o k'' =>
    cases o with
    | none => exact h.same (fileNew_none hn).2
    | some f => exact (h.fileNew hn).1

theorem Drafted.fileFree {files pipes : List Ptr} {x : Option Ptr} (h : Drafted k k' (x.toList ++ files) pipes) :
    Drafted k (k'.fileFree x) files pipes := by
  cases x with
  | none => exact h
  | some f =>
    have hfree : Drafted k (k'.fileFree (some f)) ((f :: files).erase f) pipes :=
      h.free List.mem_cons_self rfl (fun _ _ => rfl) rfl fun _ _ => rfl
    rwa [List.erase_cons_head] at hfree

theorem fileFree_comm (k : Kernel) (x y : Option Ptr) : (k.fileFree x).fileFree y = (k.fileFree y).fileFree x := by
  cases x with
  | none => rfl
  | some f =>
    cases y with
    | none => rfl
    | some g => simp [Kernel.fileFree, List.erase_comm]

theorem fileFree_table (k : Kernel) (x : Option Ptr) : SameTable k (k.fileFree x) := by
  cases x with
  | none => exact SameTable.refl k
  | some f => exact ⟨rfl, rfl, rfl, rfl, rfl⟩

theorem pipePage_same (k : Kernel) (x : Option Ptr) : SameTable k (k.pipePage x).2 ∧ SameFiles k (k.pipePage x).2 := by
  cases x with
  | none => exact ⟨SameTable.refl k, SameFiles.refl k⟩
  | some p => exact ⟨⟨rfl, rfl, rfl, rfl, rfl⟩, ⟨rfl, rfl, rfl, rfl⟩⟩

theorem Drafted.putEnd {files pipes : List Ptr} (h : Drafted k k' files pipes) (hf : f ∈ files) (h₁ : (k'.openFile f).refs = 1)
    (hp : (k'.openFile f).pipe = some p) (hm : p ∈ pipes) :
    Drafted k (k'.filePut (some f)) (files.erase f) (if wrapInt ((k'.pipe p).refs - 1) ≠ 0 then pipes else pipes.erase p) ∧
      (∀ g, g ≠ f → (k'.filePut (some f)).openFile g = k'.openFile g) ∧
      (k'.filePut (some f)).pipe p = { k'.pipe p with refs := wrapInt ((k'.pipe p).refs - 1) } := by
  have hfreed : Freed k' (k'.filePut (some f)) f := filePut_freed (by rw [lessRef_self, h₁]; rfl)
  generalize k'.filePut (some f) = k'' at hfreed
  obtain ⟨hpipes, hpipe⟩ := hfreed.pipe p hp
  rw [(pipePut_eq k' p).2] at hpipes
  rw [(pipePut_eq k' p).1] at hpipe
  refine ⟨⟨?_, ?_, fun g hg => h.fresh g (List.mem_of_mem_erase hg), fun q hq => ?_, fun g hg => ?_, fun q hq => ?_⟩,
    hfreed.openFile, by rw [hpipe, Function.update_self]⟩
  · rw [hfreed.files, h.files, List.erase_append_left _ hf]
  · rw [hpipes, h.pipes]
    split
    · rfl
    · exact List.erase_append_left _ hm
  · split at hq
    · exact h.freshPipes q hq
    · exact h.freshPipes q (List.mem_of_mem_erase hq)
  · rw [hfreed.openFile g (h.ne hf hg), h.openFile g hg]
  · have hne : q ≠ p := by
      rintro rfl
      exact h.freshPipes q hm hq
    rw [hpipe, Function.update_of_ne hne, h.pipe q hq]

structure Piped (k k' : Kernel) (r w p : Ptr) : Prop where
  drafted : Drafted k k' [w, r] [p]
  ne : w ≠ r
  read : (k'.openFile r).refs = 1 ∧ (k'.openFile r).pipe = some p
  write : (k'.openFile w).refs = 1 ∧ (k'.openFile w).pipe = some p
  refs : (k'.pipe p).refs = 2

theorem Piped.same {r w : Ptr} (h : Piped k k' r w p) (hs : SameFiles k' k'') : Piped k k'' r w p where
  drafted := h.drafted.same hs
  ne := h.ne
  read := by rw [hs.openFile]; exact h.read
  write := by rw [hs.openFile]; exact h.write
  refs := by rw [hs.pipe]; exact h.refs

theorem Piped.put {r w : Ptr} (h : Piped k k' r w p) :
    Drafted k ((k'.filePut (some r)).filePut (some w)) [] [] := by
  obtain ⟨hdraft, hother, hpipe⟩ := h.drafted.putEnd (f := r) (by simp) h.read.1 h.read.2 (List.mem_singleton_self p)
  have hwrap : wrapInt ((k'.pipe p).refs - 1) = 1 := by
    rw [h.refs]
    rfl
  rw [hwrap, if_pos (by decide)] at hdraft
  rw [hwrap] at hpipe
  generalize k'.filePut (some r) = k'' at hdraft hother hpipe ⊢
  have hwrite : (k''.openFile w).refs = 1 ∧ (k''.openFile w).pipe = some p := by
    rw [hother w h.ne]
    exact h.write
  have hrest : [w, r].erase r = [w] := by simp [h.ne]
  rw [hrest] at hdraft
  obtain ⟨hlast, -, -⟩ := hdraft.putEnd (List.mem_singleton_self w) hwrite.1 hwrite.2 (List.mem_singleton_self p)
  have hzero : wrapInt ((k''.pipe p).refs - 1) = 0 := by
    rw [hpipe]
    rfl
  rw [hzero, if_neg (by simp), List.erase_cons_head, List.erase_cons_head] at hlast
  exact hlast

def joinPipe (k : Kernel) (p r w : Ptr) (page : Nat) : Kernel :=
  { k with
    pipes := p :: k.pipes
    pipe := Function.update k.pipe p ⟨2, page⟩
    openFile := Function.update (Function.update k.openFile r
      { k.openFile r with pipe := some p }) w { k.openFile w with pipe := some p } }

section
variable {r w : Ptr} {page : Nat}

theorem joinPipe_read (hne : w ≠ r) : (k.joinPipe p r w page).openFile r = { k.openFile r with pipe := some p } := by
  show Function.update _ w _ r = _
  rw [Function.update_of_ne hne.symm, Function.update_self]

theorem joinPipe_write : (k.joinPipe p r w page).openFile w = { k.openFile w with pipe := some p } := Function.update_self _ _ _

theorem joinPipe_other {g : Ptr} (hr : g ≠ r) (hw : g ≠ w) : (k.joinPipe p r w page).openFile g = k.openFile g := by
  show Function.update _ w _ g = _
  rw [Function.update_of_ne hw, Function.update_of_ne hr]

theorem joinPipe_refs (g : Ptr) : ((k.joinPipe p r w page).openFile g).refs = (k.openFile g).refs := by
  by_cases hw : g = w
  · rw [hw, joinPipe_write]
  by_cases hr : g = r
  · rw [hr, joinPipe_read (by rintro rfl; exact hw hr)]
  · rw [joinPipe_other hr hw]

theorem Refs.joinPipe (h : Refs k held) {files : List Ptr} (hfiles : k.files = [w, r] ++ files) (hp : p ∉ k.pipes)
    (hr : (k.openFile r).pipe = none) (hw : (k.openFile w).pipe = none) : Refs (k.joinPipe p r w page) held := by
  have hnodup := h.files.nodup
  rw [hfiles] at hnodup
  have hne : w ≠ r := by
    rintro rfl
    simp at hnodup
  have hold : files.filterMap (fun g => ((k.joinPipe p r w page).openFile g).pipe) =
      files.filterMap fun g => (k.openFile g).pipe := List.filterMap_congr fun g hg => by
    rw [joinPipe_other (by rintro rfl; simp [hg] at hnodup) (by rintro rfl; simp [hg] at hnodup)]
  have hends : (k.joinPipe p r w page).ends = Multiset.replicate 2 p + k.ends := by
    have hfiles' : (k.joinPipe p r w page).files = [w, r] ++ files := hfiles
    rw [ends, ends, hfiles', hfiles, List.filterMap_append, List.filterMap_append, hold]
    simp [joinPipe_read hne, joinPipe_write, hr, hw]
  refine ⟨h.files.congr fun g _ => joinPipe_refs g, ?_⟩
  rw [hends]
  refine h.pipes.new hp Nat.two_pos (by decide) ?_ fun q hq => ?_
  · show (Function.update k.pipe p _ p).refs = _
    rw [Function.update_self]
    rfl
  · show (Function.update k.pipe p _ q).refs = _
    rw [Function.update_of_ne (by rintro rfl; exact hp hq)]

end

def installEnds (k : Kernel) (r w : Ptr) : Option (Nat × Nat) × Kernel :=
  match k.fdInstall k.current r 0 with
  | (none, k) => (none, (k.filePut (some r)).filePut (some w))
  | (some rfd, k) =>
    match k.fdInstall k.current w 0 with
    | (none, k) => (none, ((k.setFd rfd none).filePut (some r)).filePut (some w))
    | (some wfd, k) => (some (rfd, wfd), k)

theorem taskFdPipe_eq (k : Kernel) : k.taskFdPipe =
    let (pipe, k) := k.kmalloc k.pipes
    let (r, k) := k.fileNew .pipeR
    let (w, k) := k.fileNew .pipeW
    let (page, k) := k.pipePage pipe
    match pipe, r, w with
    | some p, some r, some w =>
      if page = 0 then (none, (k.fileFree (some r)).fileFree (some w)) else (k.joinPipe p r w page).installEnds r w
    | _, r, w =>
      let k := if page = 0 then k else k.setPhys (k.phys.pmmFreePage page)
      (none, (k.fileFree r).fileFree w) := rfl

theorem RefsOk.installEnds {k₁ : Kernel} {r w : Ptr} (h : RefsOk k) (ht : SameTable k k₁) (hp : Piped k k₁ r w p)
    (hrefs : Refs k₁ (w ::ₘ r ::ₘ k.slots)) :
    RefsOk (k₁.installEnds r w).2 ∧ ((k₁.installEnds r w).1 = none → SameRefs k (k₁.installEnds r w).2) := by
  have hcur : k₁.current = k.current := ht.current
  have htask : k₁.task = k.task := ht.task
  have hmin : ((0 : Nat) : Int) ≤ int32Max := by decide
  have hread := fdInstall_installs (k := k₁) (t := k₁.current) (by rw [hcur, htask]; exact h.length _ h.mem) r hmin
  unfold Kernel.installEnds
  generalize k₁.fdInstall k₁.current r 0 = a at hread
  cases hread with
  | @refused k₂ ht₂ hf₂ =>
    have ht₃ := (filePut_table k₂ (some r)).trans (filePut_table _ (some w))
    obtain ⟨hok, hs⟩ := h.failed ((ht.trans ht₂).trans ht₃) (hp.same hf₂).put
    exact ⟨hok, fun _ => hs⟩
  | @filled k₂ rfd hfill =>
    have hserves₂ := ht.serves.trans hfill.toTabled.serves
    have hwrite := fdInstall_installs (k := k₂) (t := k₂.current) (by rw [hfill.current]; exact hfill.fds_length) w hmin
    simp only
    generalize k₂.fdInstall k₂.current w 0 = b at hwrite
    cases hwrite with
    | @refused k₃ ht₃ hf₃ =>
      simp only
      have ht₅ := (filePut_table (k₃.setFd rfd none) (some r)).trans (filePut_table _ (some w))
      have hset : SameFiles k₃ (k₃.setFd rfd none) := ⟨rfl, rfl, rfl, rfl⟩
      have hdraft := (hp.same ((hfill.files.trans hf₃).trans hset)).put
      have hserves₄ := (hserves₂.trans ht₃.serves).trans (setFd_serves k₃ rfd none)
      -- the slot of the end that was read from is empty again
      have hfds : ((k₃.setFd rfd none).task k.current).fds = reserved (k.task k.current).fds rfd := by
        have hcur₃ : k₃.current = k.current := ht₃.current.trans (hfill.current.trans hcur)
        have hfds₂ := hfill.fds
        have hlt := hfill.lt
        have hempty := hfill.empty
        rw [hcur, htask] at hfds₂ hlt hempty
        have hslot : (reserved (k.task k.current).fds rfd)[rfd] = none := by
          rw [← List.getD_eq_getElem _ none hlt, getD_reserved, hempty]
        have hself := List.set_getElem_self hlt
        rw [hslot] at hself
        rw [← hcur₃, setFd_fds, hcur₃, ht₃.task, hfds₂, List.set_set, hself]
      have hfds₅ : (((((k₃.setFd rfd none).filePut (some r)).filePut (some w))).task k.current).fds =
          reserved (k.task k.current).fds rfd := by rw [ht₅.task, hfds]
      have hserves := hserves₄.trans ht₅.serves
      have hnext := ht₅.nextPid.trans (ht₃.nextPid.trans (hfill.nextPid.trans ht.nextPid))
      have hlen := hfill.length
      rw [hcur, htask] at hlen
      generalize ((k₃.setFd rfd none).filePut (some r)).filePut (some w) = k₅ at hdraft hserves hnext hfds₅ ⊢
      have hs : SameRefs k k₅ := hdraft.sameRefs hserves.list fun t _ i => by
        by_cases hc : t = k.current
        · rw [hc, hfds₅, getD_reserved]
        · rw [hserves.other t hc]
      exact ⟨h.sameRefs hs hserves hnext (by rw [hfds₅]; exact hlen) (by rw [hfds₅, named_reserved]), fun _ => hs⟩
    | @filled k₃ wfd hfill' =>
      have hserves := hserves₂.trans hfill'.toTabled.serves
      have hnamed : named (k₃.task k.current).fds = {w, r} + named (k.task k.current).fds := by
        have hw := hfill'.named
        rw [hfill.current, hfill.named, hcur, htask] at hw
        rw [hw, Multiset.insert_eq_cons, Multiset.cons_add, Multiset.singleton_add]
      have hslots := hserves.slots_add h hnamed
      refine ⟨h.serves hserves (hfill'.nextPid.trans (hfill.nextPid.trans ht.nextPid)) ?_ ?_, fun hnone => by cases hnone⟩
      · rw [← hcur, ← hfill.current]
        exact hfill'.fds_length
      · rw [hslots, Multiset.insert_eq_cons, Multiset.cons_add, Multiset.singleton_add]
        exact (hrefs.same hfill.files).same hfill'.files

theorem RefsOk.pipe (h : RefsOk k) :
    RefsOk k.taskFdPipe.2 ∧ (k.taskFdPipe.1 = none → SameRefs k k.taskFdPipe.2) := by
  rw [taskFdPipe_eq]
  have ht₁ := kmalloc_table k k.pipes
  have hf₁ := kmalloc_files k k.pipes
  have hfresh := fun p => kmalloc_not_mem (k := k) (t := p) k.pipes
  generalize k.kmalloc k.pipes = a at ht₁ hf₁ hfresh ⊢
  obtain ⟨o, k₁⟩ := a
  replace ht₁ : SameTable k k₁ := ht₁
  have hdraft₁ : Drafted k k₁ [] [] := (Drafted.refl k).same hf₁
  have ht₂ := ht₁.trans (fileNew_table k₁ .pipeR)
  have hdraft₂ := hdraft₁.fileNew_option .pipeR
  simp only
  cases hr : k₁.fileNew .pipeR with
  | mk r k₂ =>
  rw [hr] at ht₂ hdraft₂
  have ht₃ := ht₂.trans (fileNew_table k₂ .pipeW)
  have hdraft₃ := hdraft₂.fileNew_option .pipeW
  simp only
  cases hw : k₂.fileNew .pipeW with
  | mk w k₃ =>
  rw [hw] at ht₃ hdraft₃
  obtain ⟨ht₄, hf₄⟩ := pipePage_same k₃ o
  generalize k₃.pipePage o = b at ht₄ hf₄ ⊢
  obtain ⟨page, k₄⟩ := b
  replace ht₄ := ht₃.trans ht₄
  replace hf₄ : SameFiles k₃ k₄ := hf₄
  have hdraft₄ := hdraft₃.same hf₄
  simp only at hdraft₄ ⊢
  -- everything is given back
  have hundone : ∀ k₅, SameTable k₄ k₅ → SameFiles k₄ k₅ →
      RefsOk ((k₅.fileFree r).fileFree w) ∧ SameRefs k ((k₅.fileFree r).fileFree w) := by
    intro k₅ ht₅ hf₅
    rw [fileFree_comm]
    refine h.failed (((ht₄.trans ht₅).trans (fileFree_table _ w)).trans (fileFree_table _ r)) ?_
    refine Drafted.fileFree ?_
    exact Drafted.fileFree (hdraft₄.same hf₅)
  have hpage : SameTable k₄ (if page = 0 then k₄ else k₄.setPhys (k₄.phys.pmmFreePage page)) ∧
      SameFiles k₄ (if page = 0 then k₄ else k₄.setPhys (k₄.phys.pmmFreePage page)) := by
    split
    · exact ⟨SameTable.refl k₄, SameFiles.refl k₄⟩
    · exact ⟨⟨rfl, rfl, rfl, rfl, rfl⟩, ⟨rfl, rfl, rfl, rfl⟩⟩
  split
  · rename_i p r w
    split
    · obtain ⟨hok, hs⟩ := hundone k₄ (SameTable.refl k₄) (SameFiles.refl k₄)
      exact ⟨hok, fun _ => hs⟩
    have hp : p ∉ k.pipes := hfresh p rfl
    obtain ⟨-, hself₂, -, -, -⟩ := hdraft₁.fileNew hr
    obtain ⟨-, hself₃, hother₃, hne, -⟩ := hdraft₂.fileNew hw
    replace hne : w ≠ r := fun he => hne (he ▸ List.mem_singleton_self r)
    have hread : k₄.openFile r = { refs := 1, type := .pipeR } := by
      rw [hf₄.openFile, hother₃ r hne.symm, hself₂]
    have hwrite : k₄.openFile w = { refs := 1, type := .pipeW } := by rw [hf₄.openFile, hself₃]
    have hrefs₄ : Refs k₄ (w ::ₘ r ::ₘ k.slots) := (((h.refs.same hf₁).fileNew hr).fileNew hw).same hf₄
    have hpipes : p ∉ k₄.pipes := by
      rw [hdraft₄.pipes]
      exact hp
    have hdraft : Drafted k (k₄.joinPipe p r w page) [w, r] [p] := {
      files := hdraft₄.files
      pipes := congrArg (List.cons p) hdraft₄.pipes
      fresh := hdraft₄.fresh
      freshPipes := fun q hq => List.mem_singleton.mp hq ▸ hp
      openFile := fun g hg => by
        rw [joinPipe_other (hdraft₄.ne (by simp) hg) (hdraft₄.ne (by simp) hg), hdraft₄.openFile g hg]
      pipe := fun q hq => by
        have hqp : q ≠ p := by
          rintro rfl
          exact hp hq
        exact (Function.update_of_ne hqp _ _).trans (hdraft₄.pipe q hq) }
    refine h.installEnds (p := p) (ht₄.trans ⟨rfl, rfl, rfl, rfl, rfl⟩) ⟨hdraft, hne, ?_, ?_, ?_⟩ ?_
    · rw [joinPipe_read hne, hread]
      exact ⟨rfl, rfl⟩
    · rw [joinPipe_write, hwrite]
      exact ⟨rfl, rfl⟩
    · show (Function.update k₄.pipe p _ p).refs = 2
      rw [Function.update_self]
    · exact hrefs₄.joinPipe hdraft₄.files hpipes (by rw [hread]) (by rw [hwrite])
  · obtain ⟨hok, hs⟩ := hundone _ hpage.1 hpage.2
    exact ⟨hok, fun _ => hs⟩

end Kernel

end NarcOs
