import NarcOs.Kernel.Task
import NarcOs.Lib.Blocks
import NarcOs.Libc.Stdio
import NarcOs.Mm.Heap

/-!
# The array of descriptors

`fd_reserve` and `fd_install` of `kernel/task.c` on the array itself, which `krealloc` of
`kernel/mm/heap.c` may leave where it is or move. A computation stops at `none` when an
`int` runs over, when a word is read or written that its block does not have, or when the
loop of `fd_reserve` does not end.
-/

namespace NarcOs

-- ---------------------------------------------------------------------------
-- Blocks of the heap
-- ---------------------------------------------------------------------------

/-- The blocks that hold slots. Not part of the source are `answers`, what the next calls of
`kmalloc` find: nothing, or a block at an address with what its words hold. -/
structure SlotHeap where
  block : Blocks Ptr (Option Ptr)
  answers : List (Option (Ptr × (Nat → Option Ptr))) := []

/-- `sizeof(struct open_file *)` -/
def slotSize : Nat := 8

/-- `usable_size` of the block that `kmalloc` gives for a size. -/
def usableSize (size : Nat) : Nat :=
  match classFor size with
  | some c => classSize.getD c 0
  | none => (size + heapHeader + pageSize - 1) / pageSize * pageSize - heapHeader

namespace SlotHeap

/-- An address that is taken is no answer. -/
def kmalloc (s : SlotHeap) (size : Nat) : Option Ptr × SlotHeap :=
  let size := if size = 0 then 1 else size
  match s.answers with
  | [] => (none, s)
  | none :: answers => (none, { s with answers := answers })
  | some (p, words) :: answers =>
    if s.block p = none ∧ size ≤ 2 ^ 64 - 1 - heapHeader - pageSize then
      (some p, {
        block := Function.update s.block p (some ((List.range (usableSize size / slotSize)).map words))
        answers := answers })
    else (none, { s with answers := answers })

def kfree (s : SlotHeap) (p : Ptr) : SlotHeap := { s with block := Function.update s.block p none }

/-- `krealloc` on a block of the heap, or on NULL. -/
def krealloc (s : SlotHeap) (ptr : Option Ptr) (size : Nat) : Option (Option Ptr × SlotHeap) :=
  match ptr with
  | none => some (s.kmalloc size)
  | some p =>
    (s.block p).bind fun words =>
      let old := words.length * slotSize
      if size ≤ old then some (some p, s)
      else
        match s.kmalloc size with
        | (none, s) => some (none, s)
        | (some next, s) =>
          (s.block.copy next p words.length).bind fun block => some (some next, { s with block := block }.kfree p)

end SlotHeap

-- ---------------------------------------------------------------------------
-- The functions of the source
-- ---------------------------------------------------------------------------

/-- The fields `fds` and `fd_count` of a task. -/
structure FdTable where
  fds : Option Ptr := none
  fdCount : Int := 0

/-- `(size_t)n` -/
def sizeT (n : Int) : Nat := (n % 2 ^ 64).toNat

namespace FdTable

/-- `task->fds[fd]` -/
def slot (t : FdTable) (s : SlotHeap) (fd : Int) : Option (Option Ptr) :=
  if fd < 0 then none else t.fds.bind fun p => s.block.load p fd.toNat

/-- `task->fds[fd] = file` -/
def setSlot (t : FdTable) (s : SlotHeap) (fd : Int) (file : Ptr) : Option SlotHeap :=
  if fd < 0 then none
  else t.fds.bind fun p => (s.block.store p fd.toNat (some file)).bind fun block => some { s with block := block }

/-- The loop of `fd_reserve`, for as many rounds as it is given. -/
def growCount (fd : Int) : Nat → Int → Option Int
  | 0, _ => none
  | n + 1, count =>
    if count ≤ fd then
      if count > int32Max / 2 then growCount fd n int32Max
      else (Libc.signed 32 (count * 2)).bind (growCount fd n)
    else some count

/-- `fd_reserve`, with `false` for -1. -/
def fdReserve (rounds : Nat) (s : SlotHeap) (t : FdTable) (fd : Int) : Option (Bool × SlotHeap × FdTable) :=
  if fd < t.fdCount then some (true, s, t)
  else if fd = int32Max then some (false, s, t)
  else do
    let count ← growCount fd rounds (if t.fdCount ≠ 0 then t.fdCount else 8)
    match ← s.krealloc t.fds (sizeT count * slotSize % 2 ^ 64) with
    | (none, s) => some (false, s, t)
    | (some fds, s) =>
      let fresh ← Libc.signed 32 (count - t.fdCount)
      let block ← s.block.fill fds (sizeT t.fdCount) none (sizeT fresh)
      some (true, { s with block := block }, ⟨some fds, count⟩)

/-- The loop of `fd_install`. -/
def firstFree (s : SlotHeap) (t : FdTable) (fd : Int) : Option Int :=
  if fd < t.fdCount then
    (t.slot s fd).bind fun file =>
      if file.isSome then
        match _h : Libc.signed 32 (fd + 1) with
        | none => none
        | some fd' => firstFree s t fd'
      else some fd
  else some fd
termination_by (t.fdCount - fd).toNat
decreasing_by
  obtain rfl : fd + 1 = fd' := by
    unfold Libc.signed at _h
    split at _h
    · exact Option.some.inj _h
    · cases _h
  omega

/-- `fd_install` -/
def fdInstall (rounds : Nat) (s : SlotHeap) (t : FdTable) (file : Ptr) (minimum : Int) :
    Option (Int × SlotHeap × FdTable) := do
  let fd ← firstFree s t minimum
  match ← fdReserve rounds s t fd with
  | (false, s, t) => some (-1, s, t)
  | (true, s, t) =>
    let s ← t.setSlot s fd file
    some (fd, s, t)

-- ---------------------------------------------------------------------------
-- The descriptor
-- ---------------------------------------------------------------------------

structure Slots (s : SlotHeap) (t : FdTable) (l : List (Option Ptr)) : Prop where
  count : t.fdCount = l.length
  le : (l.length : Int) ≤ int32Max
  null : t.fds = none → l = []
  block : ∀ p, t.fds = some p → ∃ behind, s.block p = some (l ++ behind)

def leastFree (l : List (Option Ptr)) (minimum : Nat) : Nat := minimum + ((l.drop minimum).takeWhile Option.isSome).length

variable {s s' : SlotHeap} {t t' : FdTable} {l : List (Option Ptr)} {file : Ptr} {n minimum rounds : Nat}

theorem signed_eq {x : Int} (hlo : -2 ^ 31 ≤ x) (hhi : x ≤ int32Max) : Libc.signed 32 x = some x := by
  unfold Libc.signed
  unfold int32Max at hhi
  exact if_pos (by omega)

theorem Slots.slot_eq (h : Slots s t l) (hn : n < l.length) : t.slot s n = some l[n] := by
  unfold slot
  rw [if_neg (by omega)]
  cases hfds : t.fds with
  | none =>
    rw [h.null hfds] at hn
    cases hn
  | some p =>
    obtain ⟨behind, hblock⟩ := h.block p hfds
    rw [Option.bind_some, Blocks.load_eq hblock, Int.toNat_natCast, List.getElem?_append_left hn,
      List.getElem?_eq_getElem hn]

theorem leastFree_of_le (hn : l.length ≤ n) : leastFree l n = n := by
  rw [leastFree, List.drop_eq_nil_of_le hn]
  rfl

theorem leastFree_empty (hn : n < l.length) (h : l[n] = none) : leastFree l n = n := by
  rw [leastFree, List.drop_eq_getElem_cons hn, h]
  rfl

theorem leastFree_taken (hn : n < l.length) (h : l[n].isSome) : leastFree l n = leastFree l (n + 1) := by
  rw [leastFree, leastFree, List.drop_eq_getElem_cons hn, List.takeWhile_cons_of_pos h, List.length_cons]
  omega

theorem Slots.firstFree_eq (h : Slots s t l) (n : Nat) : firstFree s t n = some (leastFree l n : Int) := by
  induction hd : l.length - n generalizing n with
  | zero =>
    rw [firstFree, if_neg (by rw [h.count]; omega), leastFree_of_le (by omega)]
  | succ d ih =>
    have hn : n < l.length := by omega
    have hle := h.le
    rw [firstFree, if_pos (by rw [h.count]; omega), h.slot_eq hn, Option.bind_some]
    cases hslot : l[n] with
    | none => rw [if_neg (by simp), leastFree_empty hn hslot]
    | some file =>
      have hsigned : Libc.signed 32 ((n : Int) + 1) = some ((n : Int) + 1) := signed_eq (by omega) (by omega)
      rw [if_pos (show (some file).isSome = true from rfl), leastFree_taken hn (by rw [hslot]; rfl)]
      split
      · rename_i hnone
        rw [hsigned] at hnone
        cases hnone
      · rename_i fd' hsome
        rw [hsigned] at hsome
        cases hsome
        exact ih (n + 1) (by omega)

structure IsLeastFree (l : List (Option Ptr)) (minimum fd : Nat) : Prop where
  ge : minimum ≤ fd
  taken : ∀ i, minimum ≤ i → i < fd → ∃ file, l[i]? = some (some file)
  free : ∀ file, l[fd]? ≠ some (some file)

theorem isLeastFree (l : List (Option Ptr)) (n : Nat) : IsLeastFree l n (leastFree l n) := by
  induction hd : l.length - n generalizing n with
  | zero =>
    have hn : l.length ≤ n := by omega
    rw [leastFree_of_le hn]
    refine ⟨le_rfl, fun i hi hlt => by omega, fun file h => ?_⟩
    rw [List.getElem?_eq_none hn] at h
    cases h
  | succ d ih =>
    have hn : n < l.length := by omega
    cases hslot : l[n] with
    | none =>
      rw [leastFree_empty hn hslot]
      refine ⟨le_rfl, fun i hi hlt => by omega, fun file h => ?_⟩
      rw [List.getElem?_eq_getElem hn, hslot] at h
      cases h
    | some file =>
      have hrest := ih (n + 1) (by omega)
      rw [leastFree_taken hn (by rw [hslot]; rfl)]
      refine ⟨(Nat.le_succ n).trans hrest.ge, fun i hi hlt => ?_, hrest.free⟩
      rcases Nat.eq_or_lt_of_le hi with rfl | hi
      · exact ⟨file, by rw [List.getElem?_eq_getElem hn, hslot]⟩
      · exact hrest.taken i hi hlt

-- ---------------------------------------------------------------------------
-- The length
-- ---------------------------------------------------------------------------

theorem growCount_stop {fd count : Int} (h : fd < count) (hr : 0 < rounds) : growCount fd rounds count = some count := by
  obtain ⟨r, rfl⟩ := Nat.exists_eq_succ_of_ne_zero hr.ne'
  rw [growCount, if_neg (not_le.mpr h)]

theorem growFds_stop {fd count : Nat} (h : fd < count) (n : Nat) : Kernel.growFds fd n count = count := by
  cases n with
  | zero => rfl
  | succ n => rw [Kernel.growFds, if_neg (not_le.mpr h)]

/-- The loop ends above the descriptor: each round doubles the length, or goes to `INT32_MAX`. -/
theorem growCount_ends {count fd : Nat} (hfd : (fd : Int) < int32Max) (hcount : (count : Int) ≤ int32Max)
    (hn : fd < count * 2 ^ n) (hr : n < rounds) :
    ∃ c : Nat, growCount fd rounds count = some (c : Int) ∧ fd < c ∧ count ≤ c ∧ (c : Int) ≤ int32Max ∧
      c = Kernel.growFds fd (n + 1) count := by
  have hmax : (int32Max.toNat : Int) = int32Max := rfl
  induction n generalizing count rounds with
  | zero =>
    rw [pow_zero, Nat.mul_one] at hn
    refine ⟨count, growCount_stop (by omega) (by omega), hn, le_rfl, hcount, ?_⟩
    rw [growFds_stop hn]
  | succ n ih =>
    obtain ⟨r, rfl⟩ := Nat.exists_eq_succ_of_ne_zero (Nat.ne_of_gt (Nat.zero_lt_of_lt hr))
    by_cases hle : count ≤ fd
    · rw [growCount, if_pos (by omega), Kernel.growFds, if_pos hle]
      by_cases hbig : count > int32Max.toNat / 2
      · rw [if_pos (by unfold int32Max at *; omega), if_pos hbig, growCount_stop hfd (by omega),
          growFds_stop (by omega)]
        exact ⟨int32Max.toNat, rfl, by omega, by omega, le_rfl, rfl⟩
      · have hsigned : Libc.signed 32 ((count : Int) * 2) = some ((count * 2 : Nat) : Int) := by
          rw [signed_eq (by omega) (by unfold int32Max at *; omega)]
          rfl
        rw [pow_succ', ← Nat.mul_assoc] at hn
        obtain ⟨c, hgrow, hlt, hge, hmax', heq⟩ :=
          @ih r (count * 2) (by unfold int32Max at *; omega) hn (by omega)
        rw [if_neg (by unfold int32Max at *; omega), if_neg hbig, hsigned, Option.bind_some]
        exact ⟨c, hgrow, hlt, by omega, hmax', heq⟩
    · refine ⟨count, growCount_stop (by omega) (by omega), by omega, le_rfl, hcount, ?_⟩
      rw [growFds_stop (by omega)]

-- ---------------------------------------------------------------------------
-- The block
-- ---------------------------------------------------------------------------

theorem classSize_slots : ∀ c < classSize.length, slotSize ∣ classSize.getD c 0 := by decide

theorem le_usableSize (size : Nat) : size ≤ usableSize size / slotSize * slotSize := by
  unfold usableSize
  cases hc : classFor size with
  | some c =>
    obtain ⟨hlt, hle, -⟩ := List.findIdx?_eq_some_iff_getElem.mp hc
    simp only
    rw [Nat.div_mul_cancel (classSize_slots c hlt), List.getD_eq_getElem _ _ hlt]
    exact of_decide_eq_true hle
  | none =>
    simp only [heapHeader, pageSize, slotSize]
    omega

theorem kmalloc_spec (s : SlotHeap) {size : Nat} (hsize : size ≠ 0) :
    ((s.kmalloc size).1 = none ∧ (s.kmalloc size).2.block = s.block) ∨
      ∃ p words, (s.kmalloc size).1 = some p ∧ s.block p = none ∧ size ≤ words.length * slotSize ∧
        (s.kmalloc size).2.block = Function.update s.block p (some words) := by
  unfold SlotHeap.kmalloc
  simp only [if_neg hsize]
  split
  · exact .inl ⟨rfl, rfl⟩
  · exact .inl ⟨rfl, rfl⟩
  · rename_i p words answers heq
    split
    · rename_i hfree
      refine .inr ⟨p, _, rfl, hfree.1, ?_, rfl⟩
      rw [List.length_map, List.length_range]
      exact le_usableSize size
    · exact .inl ⟨rfl, rfl⟩

structure Moved (s : SlotHeap) (t : FdTable) (l : List (Option Ptr)) (count : Nat) (r : Option Ptr) (s' : SlotHeap) :
    Prop where
  null : r = none → s'.block = s.block ∧ (s.kmalloc (count * slotSize)).1 = none
  block : ∀ p, r = some p → ∃ behind, s'.block p = some (l ++ behind) ∧ count ≤ (l ++ behind).length
  others : ∀ q words, t.fds ≠ some q → s.block q = some words → s'.block q = some words ∧ r ≠ some q

variable {count : Nat} {p : Ptr} {behind : List (Option Ptr)}

theorem le_of_slots_le {m : Nat} (h : count * slotSize ≤ m * slotSize) : count ≤ m :=
  Nat.le_of_mul_le_mul_right h (by decide)

theorem krealloc_null (s : SlotHeap) (hfds : t.fds = none) (hcount : count ≠ 0) :
    ∃ r s', s.krealloc t.fds (count * slotSize) = some (r, s') ∧ Moved s t [] count r s' := by
  have hsize : count * slotSize ≠ 0 := Nat.mul_ne_zero hcount (by decide)
  refine ⟨(s.kmalloc (count * slotSize)).1, (s.kmalloc (count * slotSize)).2, by rw [hfds]; rfl, ?_⟩
  rcases kmalloc_spec s hsize with ⟨hnull, hblock⟩ | ⟨p, words, hp, hfree, hroom, hblock⟩
  · rw [hnull]
    refine ⟨fun _ => ⟨hblock, hnull⟩, fun p hp => (by cases hp), fun q words _ hq => ⟨?_, by simp⟩⟩
    rw [hblock, hq]
  · rw [hp]
    refine ⟨fun hr => (by cases hr), fun p' hp' => ?_, fun q words' _ hq => ?_⟩
    · cases hp'
      exact ⟨words, by rw [hblock, Function.update_self, List.nil_append], le_of_slots_le hroom⟩
    · have hne : q ≠ p := by
        rintro rfl
        rw [hfree] at hq
        cases hq
      refine ⟨?_, fun hr => hne (Option.some.inj hr).symm⟩
      rw [hblock, Function.update_of_ne hne, hq]

theorem krealloc_stays (hfds : t.fds = some p) (hold : s.block p = some (l ++ behind))
    (hfits : count ≤ (l ++ behind).length) :
    ∃ r s', s.krealloc t.fds (count * slotSize) = some (r, s') ∧ Moved s t l count r s' := by
  refine ⟨some p, s, ?_, fun hr => (by cases hr), fun p' hp' => ?_, fun q words hq hwords => ⟨hwords, ?_⟩⟩
  · rw [hfds, SlotHeap.krealloc, hold, Option.bind_some]
    exact if_pos (Nat.mul_le_mul_right _ hfits)
  · cases hp'
    exact ⟨behind, hold, hfits⟩
  · exact hfds ▸ hq

theorem krealloc_moves (hfds : t.fds = some p) (hold : s.block p = some (l ++ behind))
    (hlong : (l ++ behind).length < count) :
    ∃ r s', s.krealloc t.fds (count * slotSize) = some (r, s') ∧ Moved s t l count r s' := by
  have hsize : count * slotSize ≠ 0 := Nat.mul_ne_zero (by omega) (by decide)
  have hcall : s.krealloc t.fds (count * slotSize) = match s.kmalloc (count * slotSize) with
      | (none, s) => some (none, s)
      | (some next, s) => (s.block.copy next p (l ++ behind).length).bind fun block =>
          some (some next, { s with block := block }.kfree p) := by
    rw [hfds, SlotHeap.krealloc, hold, Option.bind_some]
    exact if_neg fun h => absurd (le_of_slots_le h) (not_le.mpr hlong)
  rw [hcall]
  rcases kmalloc_spec s hsize with ⟨hnull, hblock⟩ | ⟨p', words, hp', hfree, hroom, hblock⟩
  · generalize hmalloc : s.kmalloc (count * slotSize) = call at hnull hblock
    obtain ⟨r, s'⟩ := call
    obtain rfl : r = none := hnull
    refine ⟨_, _, rfl, fun _ => ⟨hblock, by rw [hmalloc]⟩, fun p hp => (by cases hp), fun q words _ hq => ⟨?_, by simp⟩⟩
    rw [← hq]
    exact congrFun hblock q
  · generalize s.kmalloc (count * slotSize) = call at hp' hblock
    obtain ⟨r, s'⟩ := call
    obtain rfl : r = some p' := hp'
    replace hblock : s'.block = Function.update s.block p' (some words) := hblock
    have hne : p ≠ p' := by
      rintro rfl
      rw [hold] at hfree
      cases hfree
    have hlen : count ≤ words.length := le_of_slots_le hroom
    have hsource : s'.block p = some (l ++ behind) := by
      rw [hblock, Function.update_of_ne hne, hold]
    have htarget : s'.block p' = some words := by rw [hblock, Function.update_self]
    have hcopy := Blocks.copy_eq hsource htarget hne le_rfl (by omega)
    rw [List.take_length] at hcopy
    simp only [hcopy, Option.bind_some]
    refine ⟨_, _, rfl, fun hr => (by cases hr), fun q hq => ?_, fun q words' hq hwords => ?_⟩
    · cases hq
      refine ⟨behind ++ words.drop (l ++ behind).length, ?_, ?_⟩
      · simp only [SlotHeap.kfree]
        rw [Function.update_of_ne hne.symm, Function.update_self, List.append_assoc]
      · rw [← List.append_assoc, List.length_append, List.length_drop]
        omega
    · have hqp : q ≠ p := fun h => hq (h ▸ hfds)
      have hqp' : q ≠ p' := by
        rintro rfl
        rw [hfree] at hwords
        cases hwords
      refine ⟨?_, fun hr => hqp' (Option.some.inj hr).symm⟩
      simp only [SlotHeap.kfree]
      rw [Function.update_of_ne hqp, Function.update_of_ne hqp', hblock, Function.update_of_ne hqp', hwords]

theorem Slots.krealloc (h : Slots s t l) (hcount : l.length < count) :
    ∃ r s', s.krealloc t.fds (count * slotSize) = some (r, s') ∧ Moved s t l count r s' := by
  cases hfds : t.fds with
  | none =>
    obtain rfl := h.null hfds
    rw [← hfds]
    exact krealloc_null s hfds (Nat.ne_of_gt hcount)
  | some p =>
    obtain ⟨behind, hold⟩ := h.block p hfds
    rw [← hfds]
    rcases Nat.lt_or_ge (l ++ behind).length count with hlong | hfits
    · exact krealloc_moves hfds hold hlong
    · exact krealloc_stays hfds hold hfits

-- ---------------------------------------------------------------------------
-- The calls
-- ---------------------------------------------------------------------------

def reservedCount (l : List (Option Ptr)) (fd : Nat) : Nat := Kernel.growFds fd 32 (if l.length = 0 then 8 else l.length)

def reserved (l : List (Option Ptr)) (fd : Nat) : List (Option Ptr) :=
  if fd < l.length then l else l ++ List.replicate (reservedCount l fd - l.length) none

def OthersKept (s : SlotHeap) (t : FdTable) (s' : SlotHeap) (t' : FdTable) : Prop :=
  ∀ q words, t.fds ≠ some q → s.block q = some words → s'.block q = some words ∧ t'.fds ≠ some q

theorem sizeT_natCast (h : (n : Int) ≤ int32Max) : sizeT n = n := by
  unfold sizeT
  unfold int32Max at h
  omega

theorem Moved.fill (h : Moved s t l count (some p) s') (hlen : l.length ≤ count)
    (hcount : (count : Int) ≤ int32Max) :
    ∃ block, s'.block.fill p l.length none (count - l.length) = some block ∧
      Slots { s' with block := block } ⟨some p, count⟩ (l ++ List.replicate (count - l.length) none) ∧
      OthersKept s t { s' with block := block } ⟨some p, count⟩ := by
  obtain ⟨behind, hblock, hroom⟩ := h.block p rfl
  refine ⟨_, Blocks.fill_eq hblock (by omega), ⟨?_, ?_, fun hnull => (by cases hnull), fun q hq => ?_⟩, fun q words hq hwords => ?_⟩
  · rw [List.length_append, List.length_replicate]
    simp only
    omega
  · rw [List.length_append, List.length_replicate]
    omega
  · cases hq
    refine ⟨(l ++ behind).drop (l.length + (count - l.length)), ?_⟩
    simp only
    rw [Function.update_self, List.take_left, List.append_assoc]
  · obtain ⟨hkept, hne⟩ := h.others q words hq hwords
    refine ⟨?_, hne⟩
    simp only
    rw [Function.update_of_ne (fun heq => hne (congrArg some heq.symm)), hkept]

theorem Slots.fdReserve (h : Slots s t l) {fd : Nat} (hfd : (fd : Int) ≤ int32Max) (hr : 32 ≤ rounds) :
    ∃ ok s' t', fdReserve rounds s t fd = some (ok, s', t') ∧
      ((ok = false ∧ t' = t ∧ s'.block = s.block ∧ l.length ≤ fd ∧
          ((fd : Int) = int32Max ∨ (s.kmalloc (reservedCount l fd * slotSize)).1 = none)) ∨
        (ok = true ∧ Slots s' t' (reserved l fd) ∧ fd < (reserved l fd).length ∧ OthersKept s t s' t')) := by
  unfold FdTable.fdReserve
  by_cases hroom : fd < l.length
  · rw [if_pos (by rw [h.count]; omega)]
    refine ⟨true, s, t, rfl, .inr ⟨rfl, ?_⟩⟩
    rw [reserved, if_pos hroom]
    exact ⟨h, hroom, fun q words hq hwords => ⟨hwords, hq⟩⟩
  rw [if_neg (by rw [h.count]; omega)]
  by_cases hmax : (fd : Int) = int32Max
  · rw [if_pos hmax]
    exact ⟨false, s, t, rfl, .inl ⟨rfl, rfl, rfl, by omega, .inl hmax⟩⟩
  rw [if_neg hmax]
  set count₀ : Nat := if l.length = 0 then 8 else l.length with hcount₀
  have hstart : (if t.fdCount ≠ 0 then t.fdCount else 8) = (count₀ : Int) := by
    rw [h.count, hcount₀]
    by_cases hl : l.length = 0
    · simp [hl]
    · simp [hl]
  have hle := h.le
  have hpos : 1 ≤ count₀ ∧ (count₀ : Int) ≤ int32Max ∧ l.length ≤ count₀ := by
    unfold int32Max at *
    rw [hcount₀]
    split <;> omega
  have hshort : fd < count₀ * 2 ^ 31 := by
    unfold int32Max at *
    omega
  obtain ⟨c, hgrow, hlt, hge, hcmax, heq⟩ :=
    growCount_ends (lt_of_le_of_ne hfd hmax) hpos.2.1 hshort (show 31 < rounds by omega)
  have hsize : sizeT c * slotSize % 2 ^ 64 = c * slotSize := by
    rw [sizeT_natCast hcmax]
    unfold slotSize int32Max at *
    omega
  obtain ⟨r, s', hcall, hmoved⟩ := h.krealloc (show l.length < c by omega)
  rw [hstart, hgrow]
  simp only [Option.bind_eq_bind, Option.bind_some, hsize, hcall]
  cases r with
  | none =>
    obtain ⟨hblock, hnull⟩ := hmoved.null rfl
    rw [heq] at hnull
    exact ⟨false, s', t, rfl, .inl ⟨rfl, rfl, hblock, by omega, .inr hnull⟩⟩
  | some p =>
    have hfresh : Libc.signed 32 (c - t.fdCount) = some ((c - l.length : Nat) : Int) := by
      rw [h.count, signed_eq (by omega) (by unfold int32Max at *; omega)]
      congr 1
      omega
    obtain ⟨block, hfill, hslots, hothers⟩ := hmoved.fill (by omega) hcmax
    have hreserved : reserved l fd = l ++ List.replicate (c - l.length) none := by
      have hc : reservedCount l fd = c := heq.symm
      rw [reserved, if_neg hroom, hc]
    simp only [hfresh, Option.bind_some]
    rw [h.count, sizeT_natCast h.le, sizeT_natCast (by omega), hfill, hreserved]
    refine ⟨true, _, _, rfl, .inr ⟨rfl, hslots, ?_, hothers⟩⟩
    rw [List.length_append, List.length_replicate]
    omega

theorem leastFree_le (l : List (Option Ptr)) (n : Nat) : leastFree l n ≤ max n l.length := by
  have h := (List.takeWhile_sublist Option.isSome (l := l.drop n)).length_le
  rw [List.length_drop] at h
  unfold leastFree
  omega

theorem reserved_old {i fd : Nat} (hi : i < l.length) : (reserved l fd)[i]? = l[i]? := by
  unfold reserved
  split
  · rfl
  · exact List.getElem?_append_left hi

theorem reserved_new {i fd : Nat} (hi : l.length ≤ i) (hlt : i < (reserved l fd).length) : (reserved l fd)[i]? = some none := by
  unfold reserved at hlt ⊢
  split at hlt
  · omega
  · rename_i hroom
    rw [if_neg hroom, List.getElem?_append_right hi, List.getElem?_replicate, if_pos]
    rw [List.length_append, List.length_replicate] at hlt
    omega

theorem Slots.setSlot (h : Slots s t l) (hn : n < l.length) (file : Ptr) :
    ∃ s', t.setSlot s n file = some s' ∧ Slots s' t (l.set n (some file)) ∧ OthersKept s t s' t := by
  unfold FdTable.setSlot
  rw [if_neg (by omega), Int.toNat_natCast]
  cases hfds : t.fds with
  | none =>
    rw [h.null hfds] at hn
    cases hn
  | some p =>
    obtain ⟨behind, hblock⟩ := h.block p hfds
    have hlen : n < (l ++ behind).length := by
      rw [List.length_append]
      omega
    rw [Option.bind_some, Blocks.store_eq hblock hlen, Option.bind_some]
    refine ⟨_, rfl, ⟨?_, ?_, fun hnull => ?_, fun q hq => ?_⟩, fun q words hq hwords => ⟨?_, hq⟩⟩
    · rw [List.length_set, h.count]
    · rw [List.length_set]
      exact h.le
    · rw [hfds] at hnull
      cases hnull
    · rw [hfds] at hq
      cases hq
      exact ⟨behind, by simp only [Function.update_self]; rw [List.set_append_left _ _ hn]⟩
    · have hne : q ≠ p := fun heq => hq (heq ▸ hfds)
      simp only
      rw [Function.update_of_ne hne, hwords]

def installed (l : List (Option Ptr)) (fd : Nat) (file : Ptr) : List (Option Ptr) := (reserved l fd).set fd (some file)

theorem OthersKept.trans {s₁ s₂ s₃ : SlotHeap} {t₁ t₂ t₃ : FdTable} (h : OthersKept s₁ t₁ s₂ t₂)
    (h' : OthersKept s₂ t₂ s₃ t₃) : OthersKept s₁ t₁ s₃ t₃ := fun q words hq hwords =>
  h' q words (h q words hq hwords).2 (h q words hq hwords).1

theorem Slots.fdInstall (h : Slots s t l) (file : Ptr) (hmin : (minimum : Int) ≤ int32Max) (hr : 32 ≤ rounds) :
    ∃ result s' t', fdInstall rounds s t file minimum = some (result, s', t') ∧
      ((result = leastFree l minimum ∧ leastFree l minimum < (reserved l (leastFree l minimum)).length ∧
          Slots s' t' (installed l (leastFree l minimum) file) ∧ OthersKept s t s' t') ∨
        (result = -1 ∧ t' = t ∧ s'.block = s.block ∧
          ((leastFree l minimum : Int) = int32Max ∨
            (s.kmalloc (reservedCount l (leastFree l minimum) * slotSize)).1 = none))) := by
  have hle := h.le
  have hfd : (leastFree l minimum : Int) ≤ int32Max := by
    have := leastFree_le l minimum
    omega
  obtain ⟨ok, s', t', hcall, hcases⟩ := h.fdReserve hfd hr
  unfold FdTable.fdInstall
  rw [h.firstFree_eq]
  simp only [Option.bind_eq_bind, Option.bind_some, hcall]
  rcases hcases with ⟨rfl, rfl, hblock, -, hwhy⟩ | ⟨rfl, hslots, hlt, hothers⟩
  · exact ⟨-1, s', t', rfl, .inr ⟨rfl, rfl, hblock, hwhy⟩⟩
  · obtain ⟨s'', hset, hslots', hothers'⟩ := hslots.setSlot hlt file
    simp only [hset, Option.bind_some]
    exact ⟨_, s'', t', rfl, .inl ⟨rfl, hlt, hslots', hothers.trans hothers'⟩⟩

/-- `fd_install` of the calls, when the heap has room, leaves the same slots. -/
theorem kernel_fdInstall {k : Kernel} {u answer : Ptr} {answers : List (Option Ptr)} (hfds : (k.task u).fds = l)
    (hheap : k.heap = some answer :: answers) (hmax : (leastFree l minimum : Int) ≠ int32Max) :
    (k.fdInstall u file minimum).1 = some (leastFree l minimum) ∧
      ((k.fdInstall u file minimum).2.task u).fds = installed l (leastFree l minimum) file := by
  have hreserve : ∃ k', k.fdReserve u (leastFree l minimum) = (true, k') ∧
      (k'.task u).fds = reserved l (leastFree l minimum) := by
    unfold Kernel.fdReserve
    rw [hfds, reserved]
    by_cases hroom : leastFree l minimum < l.length
    · rw [if_pos hroom, if_pos hroom]
      exact ⟨k, rfl, hfds⟩
    · have hne : leastFree l minimum ≠ int32Max.toNat := fun heq => hmax (by rw [heq]; rfl)
      rw [if_neg hroom, if_neg hroom, if_neg hne, Kernel.kmalloc, hheap]
      refine ⟨_, rfl, ?_⟩
      simp [Kernel.modifyTask, hfds, reservedCount]
  obtain ⟨k', hcall, hslots⟩ := hreserve
  rw [leastFree] at hcall
  unfold Kernel.fdInstall
  rw [hfds]
  simp only [hcall]
  refine ⟨rfl, ?_⟩
  simp [Kernel.modifyTask, hslots, installed, leastFree]

theorem fdInstall_least (s : SlotHeap) (t : FdTable) (l : List (Option Ptr)) (h : Slots s t l) (file : Ptr) (minimum rounds : Nat)
    (hmin : (minimum : Int) ≤ int32Max) (hr : 32 ≤ rounds) :
    ∃ fd : Nat, IsLeastFree l minimum fd ∧ ∃ result s' t' l', fdInstall rounds s t file minimum = some (result, s', t') ∧
      Slots s' t' l' ∧
      ((result = fd ∧ OthersKept s t s' t' ∧ l'[fd]? = some (some file) ∧ (∀ i < l.length, i ≠ fd → l'[i]? = l[i]?) ∧
          ∀ i, l.length ≤ i → i < l'.length → i ≠ fd → l'[i]? = some none) ∨
        (result = -1 ∧ t' = t ∧ s'.block = s.block ∧ l' = l ∧
          ((fd : Int) = int32Max ∨ (s.kmalloc (reservedCount l fd * slotSize)).1 = none))) := by
  obtain ⟨result, s', t', hcall, hcases⟩ := h.fdInstall file hmin hr
  refine ⟨leastFree l minimum, isLeastFree l minimum, result, s', t', ?_⟩
  rcases hcases with ⟨rfl, hlt, hslots, hothers⟩ | ⟨rfl, rfl, hblock, hwhy⟩
  · refine ⟨installed l (leastFree l minimum) file, hcall, hslots, .inl ⟨rfl, hothers, ?_, fun i hi hne => ?_, fun i hi hlen hne => ?_⟩⟩
    · exact List.getElem?_set_self hlt
    · rw [installed, List.getElem?_set_ne hne.symm, reserved_old hi]
    · rw [installed, List.length_set] at hlen
      rw [installed, List.getElem?_set_ne hne.symm, reserved_new hi hlen]
  · have hslots : Slots s' t' l := ⟨h.count, h.le, h.null, fun p hp => hblock ▸ h.block p hp⟩
    exact ⟨l, hcall, hslots, .inr ⟨rfl, rfl, hblock, rfl, hwhy⟩⟩

/-- A block of 16 bytes for no descriptors, as a fork of a task without any leaves. -/
theorem fdInstall_least_moved :
    ∃ fd : Nat, IsLeastFree [] 3 fd ∧ ∃ result s' t', fdInstall 32
      ⟨fun p => if p = 1 then some [none, none] else none, [some (2, fun _ => some 9)]⟩ ⟨some 1, 0⟩ 7 3 =
        some (result, s', t') ∧ (result = fd ∨ result = -1) := by
  have hslots : Slots ⟨fun p => if p = 1 then some [none, none] else none, [some (2, fun _ => some 9)]⟩ ⟨some 1, 0⟩ [] := by
    refine ⟨rfl, by decide, fun h => (by cases h), fun p hp => ?_⟩
    cases hp
    exact ⟨[none, none], rfl⟩
  obtain ⟨fd, hfd, result, s', t', l', hcall, -, hcases⟩ := fdInstall_least _ _ [] hslots 7 3 32 (by decide) (by decide)
  exact ⟨fd, hfd, result, s', t', hcall, hcases.imp (fun h => h.1) fun h => h.1⟩

end FdTable

end NarcOs
