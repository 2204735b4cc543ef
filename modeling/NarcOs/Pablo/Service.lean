import Mathlib.Data.Fintype.Card
import Mathlib.Data.Fintype.Pi
import Mathlib.Data.List.FinRange
import Mathlib.Logic.Relation
import Mathlib.Order.WellFounded
import NarcOs.Lib.CString

/-!
# Services of the init system

The data of `userland/pablo/include/pablo/service.h` and the checks of
`userland/pablo/src/service.c`. A configuration has any number of services; a
pointer into `services` is the index of the entry. `argument_count` and
`arguments` are read by the child alone, between `fork` and `execve`, and are
left out.
-/

namespace NarcOs
namespace Pablo

inductive Policy
  | once
  | respawn
  deriving DecidableEq

inductive ServiceState
  | stopped
  | running
  | backoff
  | complete
  | failed
  deriving DecidableEq

/-- `struct pablo_service`. -/
structure Service where
  name : CString
  path : CString
  after : CString
  policy : Policy := .once
  state : ServiceState := .stopped
  pid : Int := 0
  restartCount : UInt32 := 0
  readyTick : UInt64 := 0
  exitStatus : Int32 := 0

/-- `struct pablo_config`, with `service_count` as a parameter. -/
structure Config (n : Nat) where
  services : Fin n → Service
  restartLimit : UInt32
  restartDelay : UInt32

namespace Config

variable {n : Nat} (c : Config n)

def pabloServiceFind (name : CString) : Option (Fin n) :=
  (List.finRange n).find? fun i => (c.services i).name = name

def serviceIndex (name : CString) : Option (Fin n) := c.pabloServiceFind name

/-- The three values of `states`: 0, 1 and 2. -/
inductive Mark
  | unvisited
  | active
  | done
  deriving DecidableEq

abbrev Marks (n : Nat) := Fin n → Mark

def unvisitedCount (states : Marks n) : Nat :=
  (Finset.univ.filter fun i => states i = .unvisited).card

theorem unvisitedCount_update {states : Marks n} {i : Fin n} {m : Mark}
    (hi : states i = .unvisited) (hm : m ≠ .unvisited) :
    unvisitedCount (Function.update states i m) < unvisitedCount states := by
  apply Finset.card_lt_card
  rw [Finset.ssubset_iff_of_subset]
  · exact ⟨i, by simp [hi], by simp [hm]⟩
  · intro j hj
    by_cases h : j = i
    · subst h
      simpa using hi
    · simpa [Function.update_of_ne h] using hj

/-- The result with the marks left in `states`. -/
def visitDependency (index : Fin n) (states : Marks n) : Int × Marks n :=
  match h : states index with
  | .active => (-1, states)
  | .done => (0, states)
  | .unvisited =>
    let marked := Function.update states index .active
    if (c.services index).after.first ≠ 0 then
      match c.serviceIndex (c.services index).after with
      | none => (-1, marked)
      | some dependency =>
        let (result, visited) := visitDependency dependency marked
        if result ≠ 0 then (-1, visited)
        else (0, Function.update visited index .done)
    else (0, Function.update marked index .done)
termination_by unvisitedCount states
decreasing_by exact unvisitedCount_update h (by simp)

/-- The tests made on service `i` before the dependencies are followed. -/
def serviceOk (i : Fin n) : Bool :=
  if (c.services i).name.first = 0 ∨ (c.services i).path.first ≠ 47 then false
  else if ∃ j, i < j ∧ (c.services i).name = (c.services j).name then false
  else if (c.services i).after.first ≠ 0 ∧
      ((c.services i).after = (c.services i).name ∨
        c.pabloServiceFind (c.services i).after = none) then false
  else true

def visitAll : List (Fin n) → Marks n → Int
  | [], _ => 0
  | i :: rest, states =>
    let (result, visited) := c.visitDependency i states
    if result ≠ 0 then -1 else visitAll rest visited

def pabloServiceValidate : Int :=
  if (List.finRange n).all c.serviceOk then
    c.visitAll (List.finRange n) fun _ => .unvisited
  else -1

-- ---------------------------------------------------------------------------
-- The dependency relation
-- ---------------------------------------------------------------------------

def After (i j : Fin n) : Prop :=
  (c.services i).after ≠ .empty ∧ (c.services j).name = (c.services i).after

structure Valid : Prop where
  named : ∀ i, (c.services i).name ≠ .empty
  distinct : Function.Injective fun i => (c.services i).name
  rooted : ∀ i, (c.services i).path.bytes.head? = some 47
  known : ∀ i, (c.services i).after ≠ .empty → ∃ j, c.After i j
  acyclic : ∀ i, ¬ Relation.TransGen c.After i i

variable {c} {i j : Fin n} {name : CString} {states : Marks n}

theorem pabloServiceFind_name (h : c.pabloServiceFind name = some i) :
    (c.services i).name = name := by
  simpa using List.find?_some h

theorem pabloServiceFind_eq_none :
    c.pabloServiceFind name = none ↔ ∀ i, (c.services i).name ≠ name := by
  simp [pabloServiceFind]

/-- With distinct names the service that is found is the only one to match. -/
theorem pabloServiceFind_eq_some (hd : Function.Injective fun i => (c.services i).name) :
    c.pabloServiceFind name = some i ↔ (c.services i).name = name := by
  refine ⟨pabloServiceFind_name, fun h => ?_⟩
  cases hf : c.pabloServiceFind name with
  | none => exact absurd h (pabloServiceFind_eq_none.1 hf i)
  | some j => exact congrArg some (hd ((pabloServiceFind_name hf).trans h.symm))

theorem after_of_serviceIndex (ha : (c.services i).after.first ≠ 0)
    (h : c.serviceIndex (c.services i).after = some j) : c.After i j :=
  ⟨fun he => ha (CString.first_eq_zero.2 he), pabloServiceFind_name h⟩

theorem not_after (ha : (c.services i).after.first = 0) : ¬ c.After i j :=
  fun h => h.1 (CString.first_eq_zero.1 ha)

theorem serviceIndex_of_after (hd : Function.Injective fun i => (c.services i).name)
    (h : c.After i j) : c.serviceIndex (c.services i).after = some j :=
  (pabloServiceFind_eq_some hd).2 h.2

-- ---------------------------------------------------------------------------
-- What the marks mean
-- ---------------------------------------------------------------------------

def Grounded (c : Config n) (i : Fin n) : Prop := Acc (fun j i => c.After i j) i

theorem grounded_of_after (h : ∀ j, c.After i j → c.Grounded j) : c.Grounded i := Acc.intro i h

theorem Grounded.not_cycle (h : c.Grounded i) : ¬ Relation.TransGen c.After i i := by
  have hacc := Acc.transGen h
  clear h
  intro hc
  induction hacc with
  | intro k _ ih => exact ih k (Relation.transGen_swap.1 hc) hc

/-- The marks a visit may leave: what was done stays done, every service that
is done is grounded, and after a visit with result 0 the service itself is
done and the active ones are those there were. -/
structure Visited (c : Config n) (i : Fin n) (states : Marks n) (r : Int × Marks n) : Prop where
  keeps : ∀ k, states k = .done → r.2 k = .done
  grounded : ∀ k, r.2 k = .done → c.Grounded k
  result : r.1 = 0 → r.2 i = .done
  active : r.1 = 0 → ∀ k, r.2 k = .active ↔ states k = .active

theorem Visited.finish {visited : Marks n} (hi : states i = .unvisited)
    (ha : ∀ j, c.After i j → visited j = .done)
    (hk : ∀ k, states k = .done → visited k = .done)
    (hg : ∀ k, visited k = .done → c.Grounded k)
    (hact : ∀ k, visited k = .active ↔ k = i ∨ states k = .active) :
    Visited c i states (0, Function.update visited i .done) where
  keeps k hs := by
    by_cases h : k = i
    · simp [h]
    · simpa [Function.update_of_ne h] using hk k hs
  grounded k hs := by
    by_cases h : k = i
    · subst h
      exact grounded_of_after fun j hj => hg j (ha j hj)
    · exact hg k (by simpa [Function.update_of_ne h] using hs)
  result _ := by simp
  active _ k := by
    by_cases h : k = i
    · subst h
      simp [hi]
    · simpa [Function.update_of_ne h, h] using hact k

theorem mark_done {k : Fin n} (hi : states i = .unvisited) :
    Function.update states i .active k = .done ↔ states k = .done := by
  by_cases h : k = i
  · simp [h, hi]
  · simp [Function.update_of_ne h]

theorem mark_active {k : Fin n} :
    Function.update states i .active k = .active ↔ k = i ∨ states k = .active := by
  by_cases h : k = i
  · simp [h]
  · simp [h]

theorem visitDependency_visited (hd : Function.Injective fun i => (c.services i).name)
    (i : Fin n) (states : Marks n) (hg : ∀ k, states k = .done → c.Grounded k) :
    Visited c i states (c.visitDependency i states) := by
  fun_induction visitDependency c i states with
  | case1 index states hs =>
    exact ⟨fun _ h => h, hg, fun h => absurd h (by simp), fun h => absurd h (by simp)⟩
  | case2 index states hs => exact ⟨fun _ h => h, hg, fun _ => hs, fun _ _ => Iff.rfl⟩
  | case3 index states hs marked ha hn =>
    exact ⟨fun k h => (mark_done hs).2 h, fun k h => hg k ((mark_done hs).1 h),
      fun h => absurd h (by simp), fun h => absurd h (by simp)⟩
  | case4 index states hs marked ha dep hn result visited hv hr ih =>
    have hrec := ih fun k h => hg k ((mark_done hs).1 h)
    rw [hv] at hrec
    exact ⟨fun k h => hrec.keeps k ((mark_done hs).2 h), hrec.grounded,
      fun h => absurd h (by simp), fun h => absurd h (by simp)⟩
  | case5 index states hs marked ha dep hn result visited hv hr ih =>
    have hrec := ih fun k h => hg k ((mark_done hs).1 h)
    rw [hv] at hrec
    have hr : result = 0 := not_not.1 hr
    -- the only service that `index` comes after is the one just visited
    have hdep : ∀ j, c.After index j → visited j = .done := by
      intro j hj
      rw [serviceIndex_of_after hd hj] at hn
      cases hn
      exact hrec.result hr
    exact Visited.finish hs hdep (fun k h => hrec.keeps k ((mark_done hs).2 h)) hrec.grounded
      fun k => (hrec.active hr k).trans mark_active
  | case6 index states hs marked ha =>
    have ha : (c.services index).after.first = 0 := not_not.1 ha
    exact Visited.finish hs (fun j hj => absurd hj (not_after ha))
      (fun k h => (mark_done hs).2 h) (fun k h => hg k ((mark_done hs).1 h))
      fun k => mark_active

/-- Without a cycle a visit succeeds when the active services all lead to the
one it starts from. -/
theorem visitDependency_ok (hk : ∀ i, (c.services i).after ≠ .empty → ∃ j, c.After i j)
    (hc : ∀ i, ¬ Relation.TransGen c.After i i) (i : Fin n) (states : Marks n)
    (hact : ∀ k, states k = .active → Relation.TransGen c.After k i) :
    (c.visitDependency i states).1 = 0 := by
  fun_induction visitDependency c i states with
  | case1 index states hs => exact absurd (hact index hs) (hc index)
  | case2 index states hs => rfl
  | case3 index states hs marked ha hn =>
    obtain ⟨j, hj⟩ := hk index fun he => ha (CString.first_eq_zero.2 he)
    exact absurd hj.2 (pabloServiceFind_eq_none.1 hn j)
  | case4 index states hs marked ha dep hn result visited hv hr ih =>
    have hdep : c.After index dep := after_of_serviceIndex ha hn
    have hzero := ih fun k hm => by
      rcases mark_active.1 hm with rfl | hm
      · exact .single hdep
      · exact (hact k hm).tail hdep
    rw [hv] at hzero
    exact absurd hzero hr
  | case5 => rfl
  | case6 => rfl

-- ---------------------------------------------------------------------------
-- Validation
-- ---------------------------------------------------------------------------

theorem visitAll_grounded (hd : Function.Injective fun i => (c.services i).name)
    {l : List (Fin n)} (hg : ∀ k, states k = .done → c.Grounded k)
    (h : c.visitAll l states = 0) : ∀ i ∈ l, c.Grounded i := by
  induction l generalizing states with
  | nil => simp
  | cons a rest ih =>
    have hv := visitDependency_visited hd a states hg
    rw [visitAll] at h
    generalize c.visitDependency a states = r at h hv
    obtain ⟨result, visited⟩ := r
    by_cases hr : result = 0
    · simp only [hr, ne_eq, not_true_eq_false, if_false] at h
      intro i hi
      rcases List.mem_cons.1 hi with rfl | hi
      · exact hv.grounded i (hv.result hr)
      · exact ih hv.grounded h i hi
    · simp [hr] at h

theorem visitAll_ok (hd : Function.Injective fun i => (c.services i).name)
    (hk : ∀ i, (c.services i).after ≠ .empty → ∃ j, c.After i j)
    (hc : ∀ i, ¬ Relation.TransGen c.After i i) {l : List (Fin n)}
    (hg : ∀ k, states k = .done → c.Grounded k) (hact : ∀ k, states k ≠ .active) :
    c.visitAll l states = 0 := by
  induction l generalizing states with
  | nil => rfl
  | cons a rest ih =>
    have hv := visitDependency_visited hd a states hg
    have hr := visitDependency_ok hk hc a states fun k h => absurd h (hact k)
    rw [visitAll]
    generalize c.visitDependency a states = r at hr hv
    obtain ⟨result, visited⟩ := r
    have hr : result = 0 := hr
    simp only [hr, ne_eq, not_true_eq_false, if_false]
    exact ih hv.grounded fun k h => hact k ((hv.active hr k).1 h)

theorem serviceOk_iff : c.serviceOk i = true ↔
    (c.services i).name ≠ .empty ∧ (c.services i).path.bytes.head? = some 47 ∧
      (∀ j, i < j → (c.services i).name ≠ (c.services j).name) ∧
      ((c.services i).after ≠ .empty →
        (c.services i).after ≠ (c.services i).name ∧ ∃ j, c.After i j) := by
  have hname : (c.services i).name.first = 0 ↔ (c.services i).name = .empty :=
    CString.first_eq_zero
  have hafter : (c.services i).after.first = 0 ↔ (c.services i).after = .empty :=
    CString.first_eq_zero
  have hfind : (c.services i).after ≠ .empty →
      (c.pabloServiceFind (c.services i).after = none ↔ ¬ ∃ j, c.After i j) := by
    intro he
    simp [pabloServiceFind_eq_none, After, he]
  rw [serviceOk, ← CString.first_eq_slash]
  simp only [hname, ne_eq, hafter]
  by_cases h₀ : (c.services i).after = .empty
  · simp only [h₀, not_true_eq_false, false_and, if_false]
    split_ifs <;> grind
  · simp only [h₀, not_false_eq_true, true_and, hfind h₀]
    split_ifs <;> grind

theorem visits_unvisited (l : List (Fin n)) (hd : Function.Injective fun i => (c.services i).name)
    (hk : ∀ i, (c.services i).after ≠ .empty → ∃ j, c.After i j)
    (hc : ∀ i, ¬ Relation.TransGen c.After i i) : c.visitAll l (fun _ => .unvisited) = 0 :=
  visitAll_ok hd hk hc (fun _ h => absurd h (by simp)) fun _ h => absurd h (by simp)

theorem distinct_of_serviceOk (h : ∀ i, c.serviceOk i = true) :
    Function.Injective fun i => (c.services i).name := by
  intro i j hij
  rcases lt_trichotomy i j with hlt | heq | hgt
  · exact absurd hij ((serviceOk_iff.1 (h i)).2.2.1 j hlt)
  · exact heq
  · exact absurd hij.symm ((serviceOk_iff.1 (h j)).2.2.1 i hgt)

theorem Valid.serviceOk (h : c.Valid) (i : Fin n) : c.serviceOk i = true := by
  refine serviceOk_iff.2 ⟨h.named i, h.rooted i, fun j hlt hn => ?_, fun ha => ⟨fun hself => ?_,
    h.known i ha⟩⟩
  · exact absurd (h.distinct hn) hlt.ne
  · exact h.acyclic i (.single ⟨ha, hself.symm⟩)

/-- The configuration is accepted exactly when it is valid. -/
theorem pabloServiceValidate_eq_zero (c : Config n) : c.pabloServiceValidate = 0 ↔ c.Valid := by
  rw [pabloServiceValidate]
  constructor
  · intro h
    by_cases hall : (List.finRange n).all c.serviceOk
    · rw [if_pos hall] at h
      have hok : ∀ i, c.serviceOk i = true := by simpa using hall
      have hd := distinct_of_serviceOk hok
      have hg := visitAll_grounded hd (fun _ h => absurd h (by simp)) h
      exact {
        named := fun i => (serviceOk_iff.1 (hok i)).1
        distinct := hd
        rooted := fun i => (serviceOk_iff.1 (hok i)).2.1
        known := fun i ha => ((serviceOk_iff.1 (hok i)).2.2.2 ha).2
        acyclic := fun i => (hg i (List.mem_finRange i)).not_cycle
      }
    · rw [if_neg hall] at h
      exact absurd h (by decide)
  · intro h
    rw [if_pos (by simpa using h.serviceOk)]
    exact visits_unvisited _ h.distinct h.known h.acyclic

end Config
end Pablo
end NarcOs
