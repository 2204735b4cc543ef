import Mathlib

/-!
# Blocks of words

A memory of allocated blocks, each at an address of its own with a number of words. An
access to a word that its block does not have is `none`, so a loop over words that gives a
result has kept within its blocks.
-/

namespace NarcOs

abbrev Blocks (α β : Type*) := α → Option (List β)

namespace Blocks

variable {α β : Type*} [DecidableEq α]

def load (m : Blocks α β) (p : α) (i : Nat) : Option β := (m p).bind (·[i]?)

def store (m : Blocks α β) (p : α) (i : Nat) (v : β) : Option (Blocks α β) :=
  (m p).bind fun words => if i < words.length then some (Function.update m p (some (words.set i v))) else none

def copy (m : Blocks α β) (target source : α) : Nat → Option (Blocks α β)
  | 0 => some m
  | n + 1 =>
    (copy m target source n).bind fun m => (m.load source n).bind fun v => m.store target n v

def fill (m : Blocks α β) (p : α) (start : Nat) (v : β) : Nat → Option (Blocks α β)
  | 0 => some m
  | n + 1 => (fill m p start v n).bind fun m => m.store p (start + n) v

variable {m : Blocks α β} {p target source : α} {words from_ to_ : List β} {i n start : Nat} {v : β}

omit [DecidableEq α] in
theorem load_eq (h : m p = some words) (i : Nat) : m.load p i = words[i]? := by
  rw [load, h, Option.bind_some]

theorem store_eq (h : m p = some words) (hi : i < words.length) :
    m.store p i v = some (Function.update m p (some (words.set i v))) := by
  rw [store, h, Option.bind_some, if_pos hi]

omit [DecidableEq α] in
theorem set_after {before behind : List β} (hn : before.length = n) (old : β) :
    (before ++ old :: behind).set n v = before ++ v :: behind := by
  rw [List.set_append_right _ _ hn.le, hn, Nat.sub_self]
  rfl

theorem copy_eq (hs : m source = some from_) (ht : m target = some to_) (hne : source ≠ target)
    (hfrom : n ≤ from_.length) (hto : n ≤ to_.length) :
    m.copy target source n = some (Function.update m target (some (from_.take n ++ to_.drop n))) := by
  induction n with
  | zero =>
    rw [copy, List.take_zero, List.drop_zero, List.nil_append, ← ht, Function.update_eq_self]
  | succ n ih =>
    set m' : Blocks α β := Function.update m target (some (from_.take n ++ to_.drop n)) with hm'
    have htarget : m' target = some (from_.take n ++ to_.drop n) := Function.update_self _ _ _
    have hsource : m' source = some from_ := (Function.update_of_ne hne _ _).trans hs
    have hlen : (from_.take n).length = n := List.length_take_of_le (by omega)
    have hload : m'.load source n = some from_[n] := by
      rw [load_eq hsource, List.getElem?_eq_getElem]
    rw [List.drop_eq_getElem_cons (by omega)] at htarget
    rw [copy, ih (by omega) (by omega), Option.bind_some, hload, Option.bind_some, store_eq htarget, set_after hlen]
    · rw [hm', Function.update_idem, List.take_succ_eq_append_getElem (by omega), List.append_assoc, List.singleton_append]
    · rw [List.length_append, hlen, List.length_cons]
      omega

theorem fill_eq (h : m p = some words) (hn : start + n ≤ words.length) :
    m.fill p start v n =
      some (Function.update m p (some (words.take start ++ (List.replicate n v ++ words.drop (start + n))))) := by
  induction n with
  | zero =>
    rw [fill, List.replicate_zero, List.nil_append, Nat.add_zero, List.take_append_drop, ← h, Function.update_eq_self]
  | succ n ih =>
    set m' := Function.update m p (some (words.take start ++ (List.replicate n v ++ words.drop (start + n)))) with hm'
    have hblock : m' p = some ((words.take start ++ List.replicate n v) ++ words.drop (start + n)) := by
      rw [hm', Function.update_self, List.append_assoc]
    have hlen : (words.take start ++ List.replicate n v).length = start + n := by
      rw [List.length_append, List.length_take_of_le (by omega), List.length_replicate]
    rw [List.drop_eq_getElem_cons (by omega)] at hblock
    rw [fill, ih (by omega), Option.bind_some, store_eq hblock, set_after hlen]
    · rw [hm', Function.update_idem, List.replicate_succ', List.append_assoc, List.append_assoc, List.singleton_append,
        Nat.add_assoc]
    · rw [List.length_append, hlen, List.length_cons]
      omega

end Blocks

end NarcOs
