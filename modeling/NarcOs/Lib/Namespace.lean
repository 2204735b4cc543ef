import Mathlib

/-!
# Name resolution in an edge-labelled tree

`edge p a` is the node below `p` under the label `a`. `resolve` follows a list
of labels. Two facts make the graph a tree as far as resolution goes: an edge
into a node determines where it starts and its label, and no edge enters the
root. Removing or adding one edge then changes resolution for exactly the
label lists that go through it.
-/

namespace NarcOs

variable {N L : Type*}

def resolve (edge : N → L → Option N) (p : N) : List L → Option N
  | [] => some p
  | a :: rest => (edge p a).bind fun q => resolve edge q rest

structure Treelike (edge : N → L → Option N) (root : N) : Prop where
  inj : ∀ {p q a b c}, edge p a = some c → edge q b = some c → p = q ∧ a = b
  root : ∀ p a, edge p a ≠ some root

variable {edge edge' : N → L → Option N} {root p q n d : N} {a l : L} {k t key : List L}

theorem resolve_append (edge : N → L → Option N) (p : N) (k t : List L) :
    resolve edge p (k ++ t) = (resolve edge p k).bind fun q => resolve edge q t := by
  induction k generalizing p with
  | nil => rfl
  | cons a k ih => simp [resolve, ih, Option.bind_assoc]

theorem resolve_snoc (edge : N → L → Option N) (p : N) (k : List L) (a : L) :
    resolve edge p (k ++ [a]) = (resolve edge p k).bind fun q => edge q a := by
  rw [resolve_append]
  simp [resolve]

theorem resolve_snoc_eq_some :
    resolve edge p (k ++ [a]) = some n ↔ ∃ q, resolve edge p k = some q ∧ edge q a = some n := by
  rw [resolve_snoc, Option.bind_eq_some_iff]

theorem Treelike.resolve_inj (h : Treelike edge root) (hk : resolve edge root k = some n)
    (ht : resolve edge root t = some n) : k = t := by
  induction k using List.reverseRecOn generalizing n t with
  | nil =>
    cases hk
    rcases List.eq_nil_or_concat t with rfl | ⟨t, a, rfl⟩
    · rfl
    · rw [List.concat_eq_append] at ht
      obtain ⟨q, -, hq⟩ := resolve_snoc_eq_some.mp ht
      exact absurd hq (h.root q a)
  | append_singleton k b ih =>
    obtain ⟨p, hp, hb⟩ := resolve_snoc_eq_some.mp hk
    rcases List.eq_nil_or_concat t with rfl | ⟨t, a, rfl⟩
    · cases ht
      exact absurd hb (h.root p b)
    · rw [List.concat_eq_append] at ht ⊢
      obtain ⟨q, hq, ha⟩ := resolve_snoc_eq_some.mp ht
      obtain ⟨rfl, rfl⟩ := h.inj hb ha
      rw [ih hp hq]

theorem Treelike.mono (h : Treelike edge root)
    (hle : ∀ p a c, edge' p a = some c → edge p a = some c) : Treelike edge' root where
  inj h₁ h₂ := h.inj (hle _ _ _ h₁) (hle _ _ _ h₂)
  root p a h₁ := h.root p a (hle _ _ _ h₁)

theorem resolve_congr (h : ∀ k q, resolve edge p k = some q → ∀ a, edge' q a = edge q a) :
    resolve edge' p k = resolve edge p k := by
  induction k using List.reverseRecOn with
  | nil => rfl
  | append_singleton k a ih =>
    rw [resolve_snoc, resolve_snoc, ih]
    cases hq : resolve edge p k with
    | none => rfl
    | some q => exact h k q hq a

theorem Treelike.resolve_cut (h : Treelike edge root) (hd : resolve edge root key = some d)
    (hcut : edge' d l = none) (hsame : ∀ p a, ¬ (p = d ∧ a = l) → edge' p a = edge p a) :
    (key ++ [l] <+: k → resolve edge' root k = none) ∧
      (¬ key ++ [l] <+: k → resolve edge' root k = resolve edge root k) := by
  induction k using List.reverseRecOn with
  | nil => exact ⟨fun hp => by simp at hp, fun _ => rfl⟩
  | append_singleton k a ih =>
    rw [List.prefix_concat_iff, resolve_snoc, resolve_snoc]
    by_cases hp : key ++ [l] <+: k
    · simp [ih.1 hp, hp]
    · rw [ih.2 hp]
      constructor
      · intro hk
        obtain ⟨rfl, hl⟩ := List.append_inj' (hk.resolve_right hp) rfl
        cases hl
        simp [hd, hcut]
      · intro hk
        cases hq : resolve edge root k with
        | none => rfl
        | some q =>
          refine hsame q a ?_
          rintro ⟨rfl, rfl⟩
          exact hk (.inl (by rw [h.resolve_inj hd hq]))

/-- Adding an edge to a node that was out of reach adds the label lists through
it, which continue as they did from that node, and no others. -/
theorem Treelike.resolve_graft (h : Treelike edge root) (hd : resolve edge root key = some d)
    (hnew : edge' d l = some n) (hsame : ∀ p a, ¬ (p = d ∧ a = l) → edge' p a = edge p a)
    (hbelow : ∀ k, resolve edge n k ≠ some d) :
    (resolve edge' root (key ++ [l] ++ t) = resolve edge n t) ∧
      (¬ key ++ [l] <+: k → resolve edge' root k = resolve edge root k) := by
  have houtside : ∀ k, ¬ key ++ [l] <+: k → resolve edge' root k = resolve edge root k := by
    intro k
    induction k using List.reverseRecOn with
    | nil => exact fun _ => rfl
    | append_singleton k a ih =>
      intro hp
      rw [List.prefix_concat_iff, not_or] at hp
      rw [resolve_snoc, resolve_snoc, ih hp.2]
      cases hq : resolve edge root k with
      | none => rfl
      | some q =>
        refine hsame q a ?_
        rintro ⟨rfl, rfl⟩
        exact hp.1 (by rw [h.resolve_inj hd hq])
  refine ⟨?_, houtside k⟩
  have hkey : resolve edge' root key = some d := by
    rw [houtside key, hd]
    intro hp
    have := hp.length_le
    simp at this
  have hinside : resolve edge' n t = resolve edge n t :=
    resolve_congr fun k q hq a => hsame q a fun e => hbelow k (e.1 ▸ hq)
  rw [resolve_append, resolve_snoc, hkey]
  simp [hnew, hinside]

end NarcOs
