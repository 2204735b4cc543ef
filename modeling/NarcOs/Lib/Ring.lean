import Mathlib.Logic.Function.Basic
import Mathlib.Data.List.Basic
import Mathlib.Data.Nat.ModEq

/-!
# Ring buffers

A queue of `count` cells from `head` on in an array of `size` cells that is used
in a circle.
-/

namespace NarcOs

namespace Ring

variable {α : Type} {size head count : Nat} {data : Nat → α}

def queue (size : Nat) (data : Nat → α) (head count : Nat) : List α :=
  (List.range count).map fun i => data ((head + i) % size)

def pop (size : Nat) (data : Nat → α) : Nat → Nat → List α × Nat
  | 0, head => ([], head)
  | n + 1, head =>
    let (rest, last) := pop size data n ((head + 1) % size)
    (data head :: rest, last)

def push (size head : Nat) : Nat → List α → (Nat → α) → Nat → α
  | _, [], data => data
  | count, x :: rest, data => push size head (count + 1) rest (Function.update data ((head + count) % size) x)

@[simp] theorem length_queue : (queue size data head count).length = count := by simp [queue]

theorem queue_succ (hhead : head < size) :
    queue size data head (count + 1) = data head :: queue size data ((head + 1) % size) count := by
  unfold queue
  rw [List.range_succ_eq_map, List.map_cons, List.map_map, Nat.add_zero, Nat.mod_eq_of_lt hhead]
  refine congrArg _ (List.map_congr_left fun i _ => ?_)
  rw [Function.comp_apply, Nat.mod_add_mod, Nat.add_right_comm, Nat.add_assoc]

theorem queue_concat : queue size data head (count + 1) = queue size data head count ++ [data ((head + count) % size)] := by
  simp [queue, List.range_succ]

theorem queue_congr {data' : Nat → α} (hhead : head < size) (h : ∀ i < size, data' i = data i) :
    queue size data' head count = queue size data head count :=
  List.map_congr_left fun _ _ => h _ (Nat.mod_lt _ (Nat.zero_lt_of_lt hhead))

theorem pop_queue (n : Nat) (hhead : head < size) (hn : n ≤ count) :
    queue size data head count = (pop size data n head).1 ++ queue size data (pop size data n head).2 (count - n) ∧
      (pop size data n head).1.length = n ∧ (pop size data n head).2 < size := by
  induction n generalizing head count with
  | zero => exact ⟨rfl, rfl, hhead⟩
  | succ n ih =>
    obtain ⟨c, rfl⟩ := Nat.exists_eq_succ_of_ne_zero (Nat.ne_of_gt (Nat.zero_lt_of_lt hn))
    obtain ⟨hqueue, hlen, hlast⟩ := ih (Nat.mod_lt (head + 1) (Nat.zero_lt_of_lt hhead)) (Nat.le_of_succ_le_succ hn)
    simp only [pop, List.length_cons, hlen]
    rw [Nat.succ_eq_add_one, queue_succ hhead, hqueue, Nat.add_sub_add_right]
    exact ⟨rfl, trivial, hlast⟩

theorem cell_ne {i j : Nat} (hij : i < j) (hj : j < size) : (head + i) % size ≠ (head + j) % size := by
  intro h
  have hmod : Nat.ModEq size i j := Nat.ModEq.add_left_cancel' head h
  rw [Nat.ModEq, Nat.mod_eq_of_lt (by omega), Nat.mod_eq_of_lt hj] at hmod
  omega

theorem queue_push (xs : List α) (hcount : count + xs.length ≤ size) :
    queue size (push size head count xs data) head (count + xs.length) = queue size data head count ++ xs := by
  induction xs generalizing count data with
  | nil => exact (List.append_nil _).symm
  | cons x rest ih =>
    rw [List.length_cons] at hcount ⊢
    have hkept : queue size (Function.update data ((head + count) % size) x) head count = queue size data head count :=
      List.map_congr_left fun i hi =>
        Function.update_of_ne (cell_ne (List.mem_range.mp hi) (by omega)) _ _
    have hstep : queue size (Function.update data ((head + count) % size) x) head (count + 1) =
        queue size data head count ++ [x] := by
      rw [queue_concat, hkept, Function.update_self]
    rw [push, show count + (rest.length + 1) = count + 1 + rest.length by omega, ih (by omega), hstep,
      List.append_assoc, List.singleton_append]

end Ring

end NarcOs
