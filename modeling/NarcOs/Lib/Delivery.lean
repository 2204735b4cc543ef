import Mathlib.Data.List.Nodup
import Mathlib.Logic.Function.Basic

/-!
# Delivery

Items are sent once each, under keys, and stay pending until they are delivered.
A log lists what happened, the newest event first. What is pending can be told
from the log alone, and nothing is delivered twice or without having been sent.
-/

namespace NarcOs

inductive Delivery (κ ν : Type*)
  | sent (key : κ) (value : ν)
  | delivered (key : κ) (value : ν)

namespace Delivery

variable {κ ν : Type*} {k : κ} {v : ν} {log older newer : List (Delivery κ ν)} {pending : κ → Option ν}

def key : Delivery κ ν → κ
  | sent key _ => key
  | delivered key _ => key

def sentKey : Delivery κ ν → Option κ
  | sent key _ => some key
  | delivered _ _ => none

def deliveredKey : Delivery κ ν → Option κ
  | sent _ _ => none
  | delivered key _ => some key

inductive Run [DecidableEq κ] : List (Delivery κ ν) → (κ → Option ν) → Prop
  | nil : Run [] fun _ => none
  | sent {log : List (Delivery κ ν)} {pending : κ → Option ν} {key : κ} (value : ν) (h : Run log pending)
      (hnew : ∀ e ∈ log, e.key ≠ key) :
      Run (.sent key value :: log) (Function.update pending key (some value))
  | delivered {log : List (Delivery κ ν)} {pending : κ → Option ν} {key : κ} {value : ν}
      (h : Run log pending) (hp : pending key = some value) :
      Run (.delivered key value :: log) (Function.update pending key none)

theorem mem_sentKey : k ∈ log.filterMap sentKey ↔ ∃ v, sent k v ∈ log := by
  rw [List.mem_filterMap]
  constructor
  · rintro ⟨e, he, hk⟩
    cases e with
    | sent k v =>
      cases hk
      exact ⟨v, he⟩
    | delivered k v => cases hk
  · rintro ⟨v, hv⟩
    exact ⟨_, hv, rfl⟩

theorem mem_deliveredKey : k ∈ log.filterMap deliveredKey ↔ ∃ v, delivered k v ∈ log := by
  rw [List.mem_filterMap]
  constructor
  · rintro ⟨e, he, hk⟩
    cases e with
    | sent k v => cases hk
    | delivered k v =>
      cases hk
      exact ⟨v, he⟩
  · rintro ⟨v, hv⟩
    exact ⟨_, hv, rfl⟩

namespace Run

variable [DecidableEq κ]

theorem pending_iff (h : Run log pending) :
    pending k = some v ↔ Delivery.sent k v ∈ log ∧ ∀ w, Delivery.delivered k w ∉ log := by
  induction h with
  | nil => simp
  | @sent log pending key value h hnew ih =>
    by_cases hk : k = key
    · subst hk
      have hs : Delivery.sent k v ∉ log := fun hm => hnew _ hm rfl
      have hd : ∀ w, Delivery.delivered k w ∉ log := fun w hm => hnew _ hm rfl
      simp [hs, hd, eq_comm]
    · simp [hk, ih]
  | @delivered log pending key value h hp ih =>
    by_cases hk : k = key
    · subst hk
      simp only [Function.update_self, reduceCtorEq, false_iff, not_and, not_forall, not_not]
      exact fun _ => ⟨value, List.mem_cons_self⟩
    · simp [hk, ih]

theorem sent_nodup (h : Run log pending) : (log.filterMap sentKey).Nodup := by
  induction h with
  | nil => exact List.nodup_nil
  | @sent log pending k v h hnew ih =>
    rw [List.filterMap_cons_some (f := sentKey) (b := k) rfl, List.nodup_cons]
    refine ⟨fun hm => ?_, ih⟩
    obtain ⟨v, hv⟩ := mem_sentKey.1 hm
    exact hnew _ hv rfl
  | delivered h hp ih =>
    rw [List.filterMap_cons_none (f := sentKey) rfl]
    exact ih

theorem delivered_nodup (h : Run log pending) : (log.filterMap deliveredKey).Nodup := by
  induction h with
  | nil => exact List.nodup_nil
  | sent v h hnew ih =>
    rw [List.filterMap_cons_none (f := deliveredKey) rfl]
    exact ih
  | @delivered log pending k v h hp ih =>
    rw [List.filterMap_cons_some (f := deliveredKey) (b := k) rfl, List.nodup_cons]
    refine ⟨fun hm => ?_, ih⟩
    obtain ⟨v, hv⟩ := mem_deliveredKey.1 hm
    exact (h.pending_iff.1 hp).2 v hv

theorem sent_before (h : Run log pending) (hl : log = newer ++ Delivery.delivered k v :: older) :
    Delivery.sent k v ∈ older := by
  induction h generalizing newer with
  | nil => simp at hl
  | sent v h hnew ih =>
    cases newer with
    | nil => cases hl
    | cons e newer =>
      cases hl
      exact ih rfl
  | delivered h hp ih =>
    cases newer with
    | nil =>
      cases hl
      exact (h.pending_iff.1 hp).1
    | cons e newer =>
      cases hl
      exact ih rfl

end Run

end Delivery

end NarcOs
