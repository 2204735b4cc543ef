import Mathlib

/-!
# Allocated buffers

What `malloc`, `calloc`, `realloc` and `free` promise to a program: each pointer that
it owns has a buffer of the size it asked for, the buffers lie apart, and a byte that
is loaded is the one that was stored last. Where buffers lie, and what a new one
contains, is left open.
-/

namespace NarcOs

inductive HeapCall
  | malloc (size : Nat)
  | calloc (count size : Nat)
  | realloc (pointer size : Nat)
  | free (pointer : Nat)
  | load (pointer i : Nat)
  | store (pointer i : Nat) (byte : UInt8)
  deriving DecidableEq

inductive HeapAnswer
  | pointer (p : Nat)
  | byte (b : UInt8)
  | done
  deriving DecidableEq

abbrev HeapTrace := List (HeapCall × HeapAnswer)

def owned : HeapTrace → Nat → Option Nat
  | [] => fun _ => none
  | (.malloc size, .pointer p) :: tr => if p = 0 then owned tr else Function.update (owned tr) p (some size)
  | (.calloc count size, .pointer p) :: tr =>
    if p = 0 then owned tr else Function.update (owned tr) p (some (count * size))
  | (.realloc q size, .pointer p) :: tr =>
    if p = 0 then (if size = 0 then Function.update (owned tr) q none else owned tr)
    else Function.update (Function.update (owned tr) q none) p (some size)
  | (.free p, _) :: tr => Function.update (owned tr) p none
  | _ :: tr => owned tr

/-- What a program may call: it passes sizes that are a `size_t` and pointers that it
owns or, to `free` and `realloc`, NULL; and it stays in its buffers. -/
def MayCall (own : Nat → Option Nat) : HeapCall → Prop
  | .malloc size => size < 2 ^ 64
  | .calloc count size => count < 2 ^ 64 ∧ size < 2 ^ 64
  | .realloc pointer size => (pointer = 0 ∨ (own pointer).isSome = true) ∧ size < 2 ^ 64
  | .free pointer => pointer = 0 ∨ (own pointer).isSome = true
  | .load pointer i => ∃ n, own pointer = some n ∧ i < n
  | .store pointer i _ => ∃ n, own pointer = some n ∧ i < n

@[ext] structure Buffers where
  get : Nat → Option (List UInt8)
  null : get 0 = none
  apart : ∀ {p q bs cs}, get p = some bs → get q = some cs → p ≠ q → p + bs.length ≤ q ∨ q + cs.length ≤ p

namespace Buffers

variable {B B' : Buffers} {p q size : Nat} {bs cs : List UInt8} {c : HeapCall} {a : HeapAnswer} {tr : HeapTrace}

def empty : Buffers where
  get _ := none
  null := rfl
  apart h := by cases h

def drop (B : Buffers) (p : Nat) : Buffers where
  get := Function.update B.get p none
  null := by
    by_cases hp : p = 0
    · rw [hp, Function.update_self]
    · rw [Function.update_of_ne (Ne.symm hp), B.null]
  apart {q r bs cs} hq hr hne := by
    have hold : ∀ {x ds}, Function.update B.get p none x = some ds → B.get x = some ds := fun {x ds} h => by
      by_cases hx : x = p
      · rw [hx, Function.update_self] at h
        cases h
      · rwa [Function.update_of_ne hx] at h
    exact B.apart (hold hq) (hold hr) hne

def Fits (B : Buffers) (p : Nat) (bs : List UInt8) : Prop :=
  p ≠ 0 ∧ ∀ q cs, q ≠ p → B.get q = some cs → p + bs.length ≤ q ∨ q + cs.length ≤ p

def put (B : Buffers) (p : Nat) (bs : List UInt8) (h : B.Fits p bs) : Buffers where
  get := Function.update B.get p (some bs)
  null := by rw [Function.update_of_ne (Ne.symm h.1), B.null]
  apart {q r cs ds} hq hr hne := by
    by_cases hqp : q = p
    · have hrp : r ≠ p := fun hr => hne (hqp.trans hr.symm)
      rw [hqp, Function.update_self] at hq
      rw [Function.update_of_ne hrp] at hr
      cases hq
      rw [hqp]
      exact h.2 r ds hrp hr
    · rw [Function.update_of_ne hqp] at hq
      by_cases hrp : r = p
      · rw [hrp, Function.update_self] at hr
        cases hr
        rw [hrp]
        exact (h.2 q cs hqp hq).symm
      · rw [Function.update_of_ne hrp] at hr
        exact B.apart hq hr hne

theorem get_put_self (h : B.Fits p bs) : (B.put p bs h).get p = some bs := Function.update_self _ _ _

theorem get_put_of_ne (h : B.Fits p bs) (hq : q ≠ p) : (B.put p bs h).get q = B.get q := Function.update_of_ne hq _ _

theorem get_drop_self : (B.drop p).get p = none := Function.update_self _ _ _

theorem get_drop_of_ne (hq : q ≠ p) : (B.drop p).get q = B.get q := Function.update_of_ne hq _ _

theorem get_drop {cs : List UInt8} : (B.drop p).get q = some cs ↔ q ≠ p ∧ B.get q = some cs := by
  by_cases hq : q = p
  · rw [hq, get_drop_self]
    simp
  · rw [get_drop_of_ne hq]
    simp [hq]

theorem drop_null (B : Buffers) : B.drop 0 = B := by
  have hget : Function.update B.get 0 none = B.get := by
    rw [← B.null, Function.update_eq_self]
  exact Buffers.ext hget

theorem fits_drop : (B.drop p).Fits p bs ↔ B.Fits p bs := by
  unfold Fits
  refine and_congr_right fun _ => forall_congr' fun q => forall_congr' fun cs => forall_congr' fun hq => ?_
  rw [get_drop_of_ne hq]

theorem put_drop (h : (B.drop p).Fits p bs) : (B.drop p).put p bs h = B.put p bs (fits_drop.mp h) := by
  have hget : Function.update (Function.update B.get p none) p (some bs) = Function.update B.get p (some bs) :=
    Function.update_idem _ _ _
  exact Buffers.ext hget

inductive Step (B : Buffers) : HeapCall → HeapAnswer → Buffers → Prop
  | malloc {p : Nat} {bs : List UInt8} (hnew : B.get p = none) (hfits : B.Fits p bs) :
    Step B (.malloc bs.length) (.pointer p) (B.put p bs hfits)
  | mallocNull (size : Nat) : Step B (.malloc size) (.pointer 0) B
  | calloc {count size p : Nat} (hnew : B.get p = none) (hfits : B.Fits p (List.replicate (count * size) 0)) :
    Step B (.calloc count size) (.pointer p) (B.put p _ hfits)
  | callocNull (count size : Nat) : Step B (.calloc count size) (.pointer 0) B
  | reallocNew {p : Nat} {bs : List UInt8} (hnew : B.get p = none) (hfits : B.Fits p bs) :
    Step B (.realloc 0 bs.length) (.pointer p) (B.put p bs hfits)
  | reallocFree {p : Nat} {bs : List UInt8} (hold : B.get p = some bs) :
    Step B (.realloc p 0) (.pointer 0) (B.drop p)
  | realloc {p p' : Nat} {bs bs' : List UInt8} (hold : B.get p = some bs) (hpos : bs'.length ≠ 0)
    (hnew : p' = p ∨ B.get p' = none) (hkept : bs'.take bs.length = bs.take bs'.length) (hfits : (B.drop p).Fits p' bs') :
    Step B (.realloc p bs'.length) (.pointer p') ((B.drop p).put p' bs' hfits)
  | reallocNull {p size : Nat} (hpos : p = 0 ∨ size ≠ 0) : Step B (.realloc p size) (.pointer 0) B
  | free {p : Nat} {bs : List UInt8} (hold : B.get p = some bs) : Step B (.free p) .done (B.drop p)
  | freeNull : Step B (.free 0) .done B
  | load {p i : Nat} {bs : List UInt8} {b : UInt8} (hold : B.get p = some bs) (hb : bs[i]? = some b) :
    Step B (.load p i) (.byte b) B
  | store {p i : Nat} {bs : List UInt8} {b : UInt8} (hold : B.get p = some bs) (hfits : B.Fits p (bs.set i b)) :
    Step B (.store p i b) .done (B.put p (bs.set i b) hfits)

inductive Run : HeapTrace → Buffers → Prop
  | start : Run [] empty
  | call {tr : HeapTrace} {B B' : Buffers} {c : HeapCall} {a : HeapAnswer} (hrun : Run tr B) (hstep : B.Step c a B') :
    Run ((c, a) :: tr) B'

def sizes (B : Buffers) (p : Nat) : Option Nat := (B.get p).map List.length

theorem sizes_put (h : B.Fits p bs) : (B.put p bs h).sizes = Function.update B.sizes p (some bs.length) := by
  funext q
  unfold sizes
  by_cases hq : q = p
  · rw [hq, Function.update_self, get_put_self]
    rfl
  · rw [Function.update_of_ne hq, get_put_of_ne h hq]

theorem sizes_drop : (B.drop p).sizes = Function.update B.sizes p none := by
  funext q
  unfold sizes
  by_cases hq : q = p
  · rw [hq, Function.update_self, get_drop_self]
    rfl
  · rw [Function.update_of_ne hq, get_drop_of_ne hq]

theorem sizes_null (B : Buffers) : B.sizes 0 = none := by
  unfold sizes
  rw [B.null]
  rfl

theorem sizes_eq (h : B.get p = some bs) : B.sizes p = some bs.length := by
  unfold sizes
  rw [h]
  rfl

theorem Step.sizes (h : B.Step c a B') (htr : owned tr = B.sizes) : owned ((c, a) :: tr) = B'.sizes := by
  cases h with
  | malloc hnew hfits => rw [owned, if_neg hfits.1, htr, sizes_put]
  | mallocNull size => rw [owned, if_pos rfl, htr]
  | calloc hnew hfits => rw [owned, if_neg hfits.1, htr, sizes_put, List.length_replicate]
  | callocNull count size => rw [owned, if_pos rfl, htr]
  | reallocNew hnew hfits =>
    have hnull : Function.update B.sizes 0 none = B.sizes := by
      rw [← sizes_null B, Function.update_eq_self]
    rw [owned, if_neg hfits.1, htr, sizes_put, hnull]
  | reallocFree hold => rw [owned, if_pos rfl, if_pos rfl, htr, sizes_drop]
  | realloc hold hpos hnew hkept hfits => rw [owned, if_neg hfits.1, htr, sizes_put, sizes_drop]
  | @reallocNull p size hpos =>
    rw [owned, if_pos rfl, htr]
    split
    · rename_i hzero
      rw [hpos.resolve_right (not_not.mpr hzero), ← sizes_null B, Function.update_eq_self]
    · rfl
  | free hold => rw [owned, htr, sizes_drop]
  | freeNull => rw [owned, htr, ← sizes_null B, Function.update_eq_self]
  | load hold hb => exact htr
  | store hold hfits =>
    rw [sizes_put, List.length_set, ← sizes_eq hold, Function.update_eq_self]
    exact htr

theorem Run.sizes (h : Run tr B) : owned tr = B.sizes := by
  induction h with
  | start => rfl
  | call _ hstep ih => exact hstep.sizes ih

end Buffers

end NarcOs
