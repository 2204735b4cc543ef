import NarcOs.Mm.Pmm
import Mathlib.Logic.Function.Basic

/-!
# Address spaces as maps

What the functions of `kernel/mm.h` on address spaces are for, whatever the
tables look like: a space is a partial map from pages to frames, and each call
changes at most one entry of one map. The environment decides which calls find
memory; a call that finds none answers -1 and changes nothing.
-/

namespace NarcOs

def PageMap : Type := Nat → Option (Nat × Bool)

namespace PageMap

def empty : PageMap := fun _ => none

def set (M : PageMap) (virt : Nat) (entry : Option (Nat × Bool)) : PageMap :=
  Function.update M (virt / pageSize) entry

def get (M : PageMap) (virt : Nat) : Option (Nat × Bool) := M (virt / pageSize)

def phys (M : PageMap) (virt : Nat) : Nat :=
  match M.get virt with
  | none => 0
  | some (frame, _) => frame + virt % pageSize

def rangeOk (M : PageMap) (virt len : Nat) (write : Bool) : Prop :=
  len ≠ 0 → ∀ page, virt / pageSize ≤ page → page ≤ (virt + len - 1) / pageSize →
    ∃ frame w, M page = some (frame, w) ∧ (write = true → w = true)

end PageMap

-- ---------------------------------------------------------------------------
-- Calls
-- ---------------------------------------------------------------------------

inductive VmmCall
  | create (s : Nat)
  | activate (s : Nat)
  | map (s virt phys flags : Nat)
  | protect (s virt flags : Nat)
  | unmap (s virt : Nat)
  | destroy (s : Nat)

def VmmCall.space : VmmCall → Nat
  | create s | activate s | map s _ _ _ | protect s _ _ | unmap s _ | destroy s => s

structure Spaces where
  maps : Nat → Option PageMap
  active : Option Nat

namespace Spaces

def boot : Spaces := ⟨fun _ => none, none⟩

def setMap (a : Spaces) (s : Nat) (M : Option PageMap) : Spaces :=
  { a with maps := Function.update a.maps s M }

def edit (a : Spaces) (s : Nat) (change : PageMap → Option PageMap) : Bool × Spaces :=
  match (a.maps s).bind change with
  | some M => (true, a.setMap s (some M))
  | none => (false, a)

/-- A call that finds memory where it needs some, or does not: whether it
succeeds, and what it leaves. -/
def call (a : Spaces) (memory : Bool) : VmmCall → Bool × Spaces
  | .create s => if memory then (true, a.setMap s (some .empty)) else (false, a)
  | .activate s => (true, { a with active := some s })
  | .map s virt phys flags =>
    a.edit s fun M => if memory then some (M.set virt (some (phys, flags.testBit 1))) else none
  | .protect s virt flags =>
    a.edit s fun M => (M.get virt).map fun e => M.set virt (some (e.1, flags.testBit 1))
  | .unmap s virt => a.edit s fun M => (M.get virt).map fun _ => M.set virt none
  | .destroy s => (true, if a.active = some s then a else a.setMap s none)

def run (a : Spaces) : List (VmmCall × Bool) → List Bool × Spaces
  | [] => ([], a)
  | (c, memory) :: cs =>
    let (ok, a) := a.call memory c
    let (oks, a) := run a cs
    (ok :: oks, a)

variable {a : Spaces} {c : VmmCall} {memory : Bool} {s : Nat}

theorem setMap_maps_of_ne {M : Option PageMap} {s' : Nat} (h : s ≠ s') :
    (a.setMap s' M).maps s = a.maps s := Function.update_of_ne h _ _

theorem edit_other {change : PageMap → Option PageMap} {s' : Nat} (h : s ≠ s') :
    (a.edit s' change).2.maps s = a.maps s := by
  unfold edit
  split
  · exact setMap_maps_of_ne h
  · rfl

theorem edit_failed {change : PageMap → Option PageMap} (h : (a.edit s change).1 = false) :
    (a.edit s change).2 = a := by
  unfold edit at h ⊢
  split at h
  · cases h
  · rfl

theorem call_other (h : s ≠ c.space) : (a.call memory c).2.maps s = a.maps s := by
  cases c with
  | create s' =>
    cases memory with
    | true => exact setMap_maps_of_ne h
    | false => rfl
  | activate s' => rfl
  | map s' virt phys flags => exact edit_other h
  | protect s' virt flags => exact edit_other h
  | unmap s' virt => exact edit_other h
  | destroy s' =>
    simp only [call]
    split
    · rfl
    · exact setMap_maps_of_ne h

theorem call_failed (h : (a.call memory c).1 = false) : (a.call memory c).2 = a := by
  cases c with
  | create s' =>
    cases memory with
    | true => cases h
    | false => rfl
  | activate s' => cases h
  | map s' virt phys flags => exact edit_failed h
  | protect s' virt flags => exact edit_failed h
  | unmap s' virt => exact edit_failed h
  | destroy s' => cases h

end Spaces

end NarcOs
