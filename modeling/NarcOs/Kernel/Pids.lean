import NarcOs.Kernel.TaskLaws
import NarcOs.Libc.Stdio

/-!
# The search for a pid

`alloc_pid` with the increment of `next_pid` as a signed operation. It counts up from
`next_pid` and from `INT32_MAX` on to 1, and a list of tasks is too short to hold all the
numbers that it meets.
-/

namespace NarcOs

theorem exists_not_mem_of_injOn {α : Type*} [DecidableEq α] {f : Nat → α} (busy : List α)
    (hinj : ∀ i ≤ busy.length, ∀ j ≤ busy.length, f i = f j → i = j) : ∃ i ≤ busy.length, f i ∉ busy := by
  have himage : ((Finset.range (busy.length + 1)).image f).card = busy.length + 1 := by
    rw [Finset.card_image_of_injOn, Finset.card_range]
    intro i hi j hj
    simp only [Finset.coe_range, Set.mem_Iio] at hi hj
    exact hinj i (by omega) j (by omega)
  have hcard : busy.toFinset.card < ((Finset.range (busy.length + 1)).image f).card := by
    rw [himage]
    exact Nat.lt_succ_of_le (List.toFinset_card_le busy)
  obtain ⟨a, ha, hnot⟩ := Finset.exists_mem_notMem_of_card_lt_card hcard
  obtain ⟨i, hi, rfl⟩ := Finset.mem_image.mp ha
  exact ⟨i, Nat.lt_succ_iff.mp (Finset.mem_range.mp hi), fun h => hnot (List.mem_toFinset.mpr h)⟩

namespace Kernel

variable {k k' : Kernel} {next pid : Int} {i rounds : Nat}

/-- `next_pid == INT32_MAX ? 1 : next_pid + 1` -/
def followingPid (next : Int) : Option Int := if next = int32Max then some 1 else Libc.signed 32 (next + 1)

/-- `alloc_pid`, for as many rounds of its loop as it is given. -/
def allocPidChecked (k : Kernel) : Nat → Int → Option (Int × Int)
  | 0, _ => none
  | n + 1, next =>
    match followingPid next with
    | none => none
    | some following => if (k.findTask next).isSome then allocPidChecked k n following else some (next, following)

def pidAt (next : Int) (i : Nat) : Int := (next - 1 + i) % int32Max + 1

theorem pidAt_range (next : Int) (i : Nat) : 1 ≤ pidAt next i ∧ pidAt next i ≤ int32Max := by
  unfold pidAt int32Max
  omega

theorem pidAt_zero (hnext : 1 ≤ next ∧ next ≤ int32Max) : pidAt next 0 = next := by
  unfold pidAt int32Max at *
  omega

theorem followingPid_eq (hnext : 1 ≤ next ∧ next ≤ int32Max) : followingPid next = some (pidAt next 1) := by
  unfold followingPid pidAt Libc.signed
  unfold int32Max at *
  split
  · rename_i hmax
    rw [hmax]
    rfl
  · rw [if_pos (by omega)]
    congr 1
    omega

theorem pidAt_succ (next : Int) (i : Nat) : pidAt (pidAt next 1) i = pidAt next (i + 1) := by
  unfold pidAt int32Max
  omega

theorem pidAt_inj {j : Nat} (hi : (i : Int) < int32Max) (hj : (j : Int) < int32Max) (h : pidAt next i = pidAt next j) :
    i = j := by
  unfold pidAt int32Max at *
  omega

theorem allocPidChecked_first (hnext : 1 ≤ next ∧ next ≤ int32Max)
    (hbusy : ∀ j < i, (k.findTask (pidAt next j)).isSome) (hfree : k.findTask (pidAt next i) = none) (hr : i < rounds) :
    k.allocPidChecked rounds next = some (pidAt next i, pidAt next (i + 1)) := by
  induction i generalizing next rounds with
  | zero =>
    obtain ⟨n, rfl⟩ := Nat.exists_eq_succ_of_ne_zero (Nat.ne_of_gt hr)
    rw [pidAt_zero hnext] at hfree ⊢
    simp only [allocPidChecked, followingPid_eq hnext, hfree]
    rfl
  | succ i ih =>
    obtain ⟨n, rfl⟩ := Nat.exists_eq_succ_of_ne_zero (Nat.ne_of_gt (Nat.zero_lt_of_lt hr))
    have htaken := hbusy 0 (Nat.succ_pos i)
    rw [pidAt_zero hnext] at htaken
    simp only [allocPidChecked, followingPid_eq hnext, htaken, if_true]
    have hbusy' : ∀ j < i, (k.findTask (pidAt (pidAt next 1) j)).isSome := fun j hj => by
      rw [pidAt_succ]
      exact hbusy (j + 1) (by omega)
    rw [← pidAt_succ next i] at hfree
    rw [ih (pidAt_range next 1) hbusy' hfree (by omega), pidAt_succ, pidAt_succ]

theorem allocPidChecked_ends (hnext : 1 ≤ next ∧ next ≤ int32Max) {pids : List Int} (hlen : (pids.length : Int) < int32Max)
    (hpids : ∀ t ∈ k.taskList, 1 ≤ (k.task t).pid → (k.task t).pid ∈ pids) :
    ∃ i, k.findTask (pidAt next i) = none ∧
      ∀ rounds > pids.length, k.allocPidChecked rounds next = some (pidAt next i, pidAt next (i + 1)) := by
  obtain ⟨m, hm, hnot⟩ := exists_not_mem_of_injOn pids (f := pidAt next) fun i hi j hj => pidAt_inj (by omega) (by omega)
  have hfree : k.findTask (pidAt next m) = none := by
    refine List.find?_eq_none.mpr fun t ht htaken => hnot ?_
    rw [decide_eq_true_eq] at htaken
    rw [← htaken]
    exact hpids t ht (htaken ▸ (pidAt_range next m).1)
  have hex : ∃ i, k.findTask (pidAt next i) = none := ⟨m, hfree⟩
  have hfirst : Nat.find hex ≤ m := Nat.find_min' hex hfree
  refine ⟨Nat.find hex, Nat.find_spec hex, fun rounds hr => ?_⟩
  refine allocPidChecked_first hnext (fun j hj => ?_) (Nat.find_spec hex) (by omega)
  exact Option.isSome_iff_ne_none.mpr (Nat.find_min hex hj)

theorem allocPidChecked_eq (hnext : 1 ≤ next ∧ next ≤ int32Max) : k.allocPidChecked rounds next = k.allocPid rounds next := by
  induction rounds generalizing next with
  | zero => rfl
  | succ n ih =>
    have hfollowing : (if next = int32Max then 1 else next + 1) = pidAt next 1 := by
      unfold pidAt int32Max at *
      split <;> omega
    simp only [allocPidChecked, allocPid, followingPid_eq hnext, hfollowing, ih (pidAt_range next 1)]

structure PidFound (k : Kernel) (pid next : Int) : Prop where
  pos : 1 ≤ pid
  le : pid ≤ int32Max
  unused : ∀ t ∈ k.taskList, (k.task t).pid ≠ pid
  next_pos : 1 ≤ next
  next_le : next ≤ int32Max

theorem pidFound (hfree : k.findTask (pidAt next i) = none) : PidFound k (pidAt next i) (pidAt next (i + 1)) where
  pos := (pidAt_range next i).1
  le := (pidAt_range next i).2
  unused := findTask_none hfree
  next_pos := (pidAt_range next (i + 1)).1
  next_le := (pidAt_range next (i + 1)).2

/-- The new task of `task_alloc`, which is in the list already, has pid 0. -/
theorem taskAlloc_ends (hnext : 1 ≤ k.nextPid ∧ k.nextPid ≤ int32Max) (hlen : (k.taskList.length : Int) < int32Max) :
    ∃ r k', k.taskAlloc = some (r, k') ∧ ∀ t, r = some t → k'.taskList = k.taskList ++ [t] ∧
      1 ≤ (k'.task t).pid ∧ (k'.task t).pid ≤ int32Max ∧ (∀ u ∈ k.taskList, (k'.task u).pid ≠ (k'.task t).pid) ∧
      1 ≤ k'.nextPid ∧ k'.nextPid ≤ int32Max := by
  unfold taskAlloc
  have htab := kmalloc_table k k.taskList
  have hfresh := fun t => kmalloc_not_mem (k := k) (t := t) k.taskList
  generalize k.kmalloc k.taskList = a at htab hfresh ⊢
  obtain ⟨_ | t, k₁⟩ := a
  · exact ⟨none, k₁, rfl, fun t h => by cases h⟩
  replace htab : SameTable k k₁ := htab
  have hnew := hfresh t rfl
  have hne : ∀ u ∈ k.taskList, u ≠ t := fun u hu h => hnew (h ▸ hu)
  simp only
  set k₂ : Kernel := { k₁ with taskList := k₁.taskList ++ [t], task := Function.update k₁.task t {} } with hk₂
  have hpids : ∀ u ∈ k₂.taskList, 1 ≤ (k₂.task u).pid → (k₂.task u).pid ∈ k.taskList.map fun u => (k₂.task u).pid := by
    intro u hu hpos
    rcases List.mem_append.mp hu with hu | hu
    · exact List.mem_map_of_mem (htab.list ▸ hu)
    · obtain rfl := List.mem_singleton.mp hu
      have hzero : (k₂.task u).pid = 0 := congrArg Task.pid (Function.update_self u {} k₁.task)
      omega
  obtain ⟨i, hfree, hends⟩ := allocPidChecked_ends hnext (by rwa [List.length_map]) hpids
  have hfound := pidFound hfree
  have halloc : k₂.allocPid int32Max.toNat k₂.nextPid = some (pidAt k.nextPid i, pidAt k.nextPid (i + 1)) := by
    rw [show k₂.nextPid = k.nextPid from htab.nextPid, ← allocPidChecked_eq hnext]
    refine hends _ ?_
    rw [List.length_map]
    omega
  rw [halloc]
  refine ⟨some t, _, rfl, fun _ ht => ?_⟩
  cases ht
  have htask : ∀ u ∈ k.taskList, (Function.update k₂.task t { k₂.task t with pid := pidAt k.nextPid i }) u = k₂.task u :=
    fun u hu => Function.update_of_ne (hne u hu) _ _
  refine ⟨by rw [← htab.list]; rfl, ?_⟩
  simp only [modifyTask, Function.update_self]
  refine ⟨hfound.pos, hfound.le, fun u hu => ?_, hfound.next_pos, hfound.next_le⟩
  rw [htask u hu]
  exact hfound.unused u (List.mem_append_left _ (htab.list.symm ▸ hu))

theorem allocPid_total (k : Kernel) (hnext : 1 ≤ k.nextPid ∧ k.nextPid ≤ int32Max)
    (hlen : (k.taskList.length : Int) < int32Max) :
    (∃ pid next, PidFound k pid next ∧
      ∀ rounds > k.taskList.length, k.allocPidChecked rounds k.nextPid = some (pid, next)) ∧
    ∃ r k', k.taskAlloc = some (r, k') ∧ ∀ t, r = some t → k'.taskList = k.taskList ++ [t] ∧
      1 ≤ (k'.task t).pid ∧ (k'.task t).pid ≤ int32Max ∧ (∀ u ∈ k.taskList, (k'.task u).pid ≠ (k'.task t).pid) ∧
      1 ≤ k'.nextPid ∧ k'.nextPid ≤ int32Max := by
  refine ⟨?_, taskAlloc_ends hnext hlen⟩
  have hpids : ∀ t ∈ k.taskList, 1 ≤ (k.task t).pid → (k.task t).pid ∈ k.taskList.map fun t => (k.task t).pid :=
    fun t ht _ => List.mem_map_of_mem ht
  obtain ⟨i, hfree, hends⟩ := allocPidChecked_ends hnext (by rwa [List.length_map]) hpids
  rw [List.length_map] at hends
  exact ⟨_, _, pidFound hfree, hends⟩

def wrapping : Kernel := { emptyKernel with
  taskList := [2, 3]
  task := fun t => { pid := if t = 2 then int32Max else 1, state := .zombie }
  nextPid := int32Max }

theorem allocPid_total_wrapping :
    ∃ pid next, PidFound wrapping pid next ∧ wrapping.allocPidChecked 3 wrapping.nextPid = some (pid, next) := by
  obtain ⟨pid, next, hfound, hends⟩ := (allocPid_total wrapping (by decide) (by decide)).1
  exact ⟨pid, next, hfound, hends 3 (by decide)⟩

end Kernel
end NarcOs
