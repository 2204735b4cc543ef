import NarcOs.Lib.Spread
import NarcOs.Pablo.Discipline

/-!
# Failures reach every dependent service

`start_ready` looks at the services in the order of their names, not of their
dependencies, and reads states that it wrote earlier in the same pass. A pass
is a sequence of rounds, one for each service; what a round does to one service
gives what a pass does to all, and the passes spread the failures as
`Lib.Spread` says.
-/

namespace NarcOs
namespace Pablo

variable {n : Nat} {s s' s'' : Supervisor n} {i j k : Fin n} {pid : Int}

namespace Supervisor

/-- One round of the loop of `start_ready`, on the answer of `fork`. -/
def startRound (s : Supervisor n) (i : Fin n) (pid : Int) : Option (Supervisor n) :=
  match s.startTest i with
  | none => none
  | some (false, s') => some s'
  | some (true, s') => some (s'.startService i pid)

/-- `fork` is called at most once for a service. -/
def startReady (s : Supervisor n) (answers : Fin n → Int) : Option (Supervisor n) :=
  (List.finRange n).foldlM (fun s i => s.startRound i (answers i)) s

def passes (s : Supervisor n) (answers : Nat → Fin n → Int) : Nat → Option (Supervisor n)
  | 0 => some s
  | k + 1 => (s.passes answers k).bind fun s => s.startReady (answers k)

def Open (s : Supervisor n) (i : Fin n) : Prop :=
  (s.service i).state = .stopped ∨
    (s.service i).state = .backoff ∧ (s.service i).readyTick ≤ s.tick

def Failed (s : Supervisor n) (i : Fin n) : Prop := (s.service i).state = .failed

theorem Failed.not_open (h : s.Failed i) : ¬ s.Open i := by
  unfold Failed at h
  simp [Open, h]

theorem open_congr (hs : s'.service i = s.service i) (ht : s'.tick = s.tick) :
    s'.Open i ↔ s.Open i := by
  rw [Open, Open, hs, ht]

-- ---------------------------------------------------------------------------
-- A round
-- ---------------------------------------------------------------------------

structure SameGraph (s s' : Supervisor n) : Prop where
  name : ∀ k, (s'.service k).name = (s.service k).name
  after : ∀ k, (s'.service k).after = (s.service k).after
  path : ∀ k, (s'.service k).path = (s.service k).path

theorem SameGraph.refl (s : Supervisor n) : SameGraph s s :=
  ⟨fun _ => rfl, fun _ => rfl, fun _ => rfl⟩

theorem SameGraph.trans (h : SameGraph s s') (h' : SameGraph s' s'') : SameGraph s s'' :=
  ⟨fun k => (h'.name k).trans (h.name k), fun k => (h'.after k).trans (h.after k),
    fun k => (h'.path k).trans (h.path k)⟩

theorem SameGraph.after_iff (h : SameGraph s s') : s'.config.After i j ↔ s.config.After i j := by
  have hi := h.after i
  have hj := h.name j
  simp only [service] at hi hj
  rw [Config.After, Config.After, hi, hj]

theorem SameGraph.valid (h : SameGraph s s') (hv : s.config.Valid) : s'.config.Valid := by
  have hafter : s'.config.After = s.config.After := by
    funext i j
    exact propext h.after_iff
  refine ⟨fun i => ?_, fun i j hij => hv.distinct ?_, fun i => ?_, fun i hi => ?_, ?_⟩
  · exact h.name i ▸ hv.named i
  · exact (h.name i).symm.trans (hij.trans (h.name j))
  · exact h.path i ▸ hv.rooted i
  · rw [hafter]
    exact hv.known i (h.after i ▸ hi)
  · rw [hafter]
    exact hv.acyclic

theorem sameGraph_setService {x : Service} (hn : x.name = (s.service i).name)
    (ha : x.after = (s.service i).after) (hp : x.path = (s.service i).path) :
    SameGraph s (s.setService i x) := by
  refine ⟨fun k => ?_, fun k => ?_, fun k => ?_⟩ <;>
  · by_cases hk : k = i
    · subst hk
      simpa using by assumption
    · rw [setService_other _ _ hk]

structure Round (s : Supervisor n) (i : Fin n) (s' : Supervisor n) : Prop where
  graph : SameGraph s s'
  tick : s'.tick = s.tick
  rest : ∀ k ≠ i, s'.service k = s.service k
  closed : ¬ s.Open i → s'.service i = s.service i
  failed : s.Open i → (s'.Failed i ↔ ∃ j, s.config.After i j ∧ s.Failed j)
  stopped : (s'.service i).state = .stopped → (s.service i).state = .stopped

theorem startTest_open (h : s.Open i) : s.startTest i = s.dependencyReady i := by
  rw [startTest]
  rcases h with h | ⟨h, ht⟩
  · simp [h]
  · have hlt : ¬ s.tick < (s.service i).readyTick := UInt64.not_lt.2 ht
    simp [h, hlt]

theorem startTest_closed (h : ¬ s.Open i) : s.startTest i = some (false, s) := by
  rw [startTest]
  split_ifs with h₁ h₂
  · rfl
  · rfl
  · refine absurd ?_ h
    by_cases hs : (s.service i).state = .stopped
    · exact .inl hs
    · have hb : (s.service i).state = .backoff := not_not.1 fun hb => h₁ ⟨hs, hb⟩
      exact .inr ⟨hb, UInt64.not_lt.1 fun hlt => h₂ ⟨hb, hlt⟩⟩

theorem startService_state (s : Supervisor n) (i : Fin n) (pid : Int) :
    ((s.startService i pid).service i).state = .backoff ∨
      ((s.startService i pid).service i).state = .running := by
  by_cases hp : pid < 0
  · simp [startService, spawnService, hp]
  · simp [startService, spawnService, hp]

theorem startService_graph (s : Supervisor n) (i : Fin n) (pid : Int) :
    SameGraph s (s.startService i pid) := by
  by_cases hp : pid < 0
  · simp only [startService, spawnService, hp, if_true]
    exact sameGraph_setService rfl rfl rfl
  · simp only [startService, spawnService, hp, if_false, reduceCtorEq]
    exact sameGraph_setService rfl rfl rfl

theorem startService_rest (hk : k ≠ i) : (s.startService i pid).service k = s.service k := by
  simp only [startService]
  split_ifs
  · exact setService_other _ _ hk
  · exact setService_other _ _ hk

theorem startService_tick : (s.startService i pid).tick = s.tick := by
  simp only [startService]
  split_ifs
  · rfl
  · rfl

theorem Round.spared (hnot : ¬ ∃ j, s.config.After i j ∧ s.Failed j) {ready : Bool}
    (h : s.startTest i = some (ready, s)) (hopen : s.Open i) {pid : Int} :
    Round s i (if ready then s.startService i pid else s) := by
  cases ready with
  | false =>
    have hfail : ¬ s.Failed i := fun hf => hf.not_open hopen
    exact ⟨.refl s, rfl, fun _ _ => rfl, fun _ => rfl, fun _ => iff_of_false hfail hnot, id⟩
  | true =>
    have hstate := startService_state s i pid
    refine ⟨startService_graph s i pid, startService_tick, fun k hk => startService_rest hk,
      fun hc => absurd hopen hc, fun _ => iff_of_false (fun hf => ?_) hnot, fun hs => ?_⟩
    · have hf : ((s.startService i pid).service i).state = .failed := hf
      simp [hf] at hstate
    · have hs : ((s.startService i pid).service i).state = .stopped := hs
      simp [hs] at hstate

theorem startRound_round (hv : s.config.Valid) (i : Fin n) (pid : Int) :
    ∃ s', s.startRound i pid = some s' ∧ Round s i s' := by
  by_cases hopen : s.Open i
  swap
  · refine ⟨s, by simp [startRound, startTest_closed hopen], .refl s, rfl, fun _ _ => rfl,
      fun _ => rfl, fun h => absurd h hopen, id⟩
  have hspared : (¬ ∃ j, s.config.After i j ∧ s.Failed j) → ∀ {ready : Bool},
      s.startTest i = some (ready, s) → ∃ s', s.startRound i pid = some s' ∧ Round s i s' := by
    intro hnot ready h
    have hround := @Round.spared _ s i hnot ready h hopen pid
    cases ready with
    | false => exact ⟨s, by simp [startRound, h], hround⟩
    | true => exact ⟨s.startService i pid, by simp [startRound, h], hround⟩
  have htest := startTest_open hopen
  rw [dependencyReady] at htest
  by_cases ha : (s.service i).after.first = 0
  · rw [if_pos ha] at htest
    refine hspared ?_ htest
    rintro ⟨_, hj, -⟩
    exact Config.not_after ha hj
  rw [if_neg ha] at htest
  obtain ⟨d, hd⟩ := hv.known i fun he => ha (CString.first_eq_zero.2 he)
  have hfind : s.config.pabloServiceFind (s.service i).after = some d :=
    Config.serviceIndex_of_after hv.distinct hd
  have honly : ∀ j, s.config.After i j → j = d := fun j hj => hv.distinct (hj.2.trans hd.2.symm)
  simp only [hfind] at htest
  by_cases hfail : (s.service d).state = .failed
  swap
  · rw [if_neg hfail] at htest
    refine hspared ?_ htest
    rintro ⟨j, hj, hf⟩
    exact hfail (honly j hj ▸ hf)
  · rw [if_pos hfail] at htest
    refine ⟨s.setService i { s.service i with state := .failed }, by rw [startRound, htest],
      sameGraph_setService rfl rfl rfl, rfl,
      fun k hk => setService_other _ _ hk, fun hc => absurd hopen hc,
      fun _ => iff_of_true (by simp [Failed]) ⟨d, hd, hfail⟩, fun hs => ?_⟩
    simp at hs

-- ---------------------------------------------------------------------------
-- A pass
-- ---------------------------------------------------------------------------

structure Pass (s : Supervisor n) (l : List (Fin n)) (s' : Supervisor n) : Prop where
  graph : SameGraph s s'
  tick : s'.tick = s.tick
  rest : ∀ k ∉ l, s'.service k = s.service k
  closed : ∀ k, ¬ s.Open k → s'.service k = s.service k
  caught : ∀ k ∈ l, s.Open k → ∀ j, s.config.After k j → s.Failed j → s'.Failed k
  cause : ∀ k, s'.Failed k → ¬ s.Failed k → s.Open k ∧ ∃ j, s.config.After k j ∧ s'.Failed j
  stopped : ∀ k, (s'.service k).state = .stopped → (s.service k).state = .stopped

theorem Pass.keep {l : List (Fin n)} (h : Pass s l s') (hf : s.Failed k) : s'.Failed k := by
  rw [Failed, h.closed k hf.not_open]
  exact hf

theorem Pass.nil (s : Supervisor n) : Pass s [] s :=
  ⟨.refl s, rfl, fun _ _ => rfl, fun _ _ => rfl, fun _ h => absurd h (List.not_mem_nil),
    fun _ h hn => absurd h hn, fun _ h => h⟩

theorem Pass.cons {l : List (Fin n)} (hi : i ∉ l) (h : Round s i s') (hl : Pass s' l s'') :
    Pass s (i :: l) s'' := by
  have hsame : s''.service i = s'.service i := hl.rest i hi
  have hfailed : s''.Failed i ↔ s'.Failed i := by rw [Failed, Failed, hsame]
  have hopen : ∀ k ≠ i, s'.Open k ↔ s.Open k := fun k hk => open_congr (h.rest k hk) h.tick
  have hfail : ∀ k ≠ i, s'.Failed k ↔ s.Failed k := fun k hk => by rw [Failed, Failed, h.rest k hk]
  have hkeep : ∀ k, s.Failed k → s'.Failed k := by
    intro k hf
    by_cases hk : k = i
    · subst hk
      rw [Failed, h.closed hf.not_open]
      exact hf
    · exact (hfail k hk).2 hf
  refine ⟨h.graph.trans hl.graph, hl.tick.trans h.tick, fun k hk => ?_, fun k hc => ?_,
    fun k hk ho j ha hf => ?_, fun k hf hn => ?_, fun k hs => ?_⟩
  · have hki : k ≠ i := fun he => hk (he ▸ List.mem_cons_self)
    exact (hl.rest k fun hm => hk (List.mem_cons_of_mem i hm)).trans (h.rest k hki)
  · by_cases hk : k = i
    · subst hk
      exact hsame.trans (h.closed hc)
    · exact (hl.closed k fun ho => hc ((hopen k hk).1 ho)).trans (h.rest k hk)
  · by_cases hki : k = i
    · subst hki
      exact hfailed.2 ((h.failed ho).2 ⟨j, ha, hf⟩)
    · have hm : k ∈ l := (List.mem_cons.1 hk).resolve_left hki
      exact hl.caught k hm ((hopen k hki).2 ho) j (h.graph.after_iff.2 ha) (hkeep j hf)
  · by_cases hk : k = i
    · subst hk
      have hf' := hfailed.1 hf
      have ho : s.Open k := not_not.1 fun hc => hn (by rw [Failed, ← h.closed hc]; exact hf')
      obtain ⟨j, ha, hj⟩ := (h.failed ho).1 hf'
      exact ⟨ho, j, ha, hl.keep (hkeep j hj)⟩
    · obtain ⟨ho, j, ha, hj⟩ := hl.cause k hf fun hf' => hn ((hfail k hk).1 hf')
      exact ⟨(hopen k hk).1 ho, j, h.graph.after_iff.1 ha, hj⟩
  · by_cases hk : k = i
    · subst hk
      exact h.stopped (hsame ▸ hs)
    · exact h.rest k hk ▸ hl.stopped k hs

theorem rounds_pass {l : List (Fin n)} (hl : l.Nodup) (hv : s.config.Valid)
    (answers : Fin n → Int) :
    ∃ s', l.foldlM (fun s i => s.startRound i (answers i)) s = some s' ∧ Pass s l s' := by
  induction l generalizing s with
  | nil => exact ⟨s, rfl, .nil s⟩
  | cons i l ih =>
    rw [List.nodup_cons] at hl
    obtain ⟨s₁, h₁, hround⟩ := startRound_round hv i (answers i)
    obtain ⟨s', h', hpass⟩ := ih hl.2 (hround.graph.valid hv)
    refine ⟨s', ?_, .cons hl.1 hround hpass⟩
    rw [List.foldlM_cons, h₁]
    exact h'

theorem startReady_pass (hv : s.config.Valid) (answers : Fin n → Int) :
    ∃ s', s.startReady answers = some s' ∧ Pass s (List.finRange n) s' :=
  rounds_pass (List.nodup_finRange n) hv answers

theorem startReady_steps (answers : Fin n → Int) (ha : ∀ i, answers i ≠ 0)
    (h : s.startReady answers = some s') :
    Relation.ReflTransGen (fun m m' => ∃ e, Step m e m') (Machine.mk s (.startReady 0))
      (Machine.mk s' (.startReady n)) := by
  have hrounds : ∀ (l : List (Fin n)) (a : Nat) (s : Supervisor n),
      l = (List.finRange n).drop a → a ≤ n →
      l.foldlM (fun s i => s.startRound i (answers i)) s = some s' →
      Relation.ReflTransGen (fun m m' => ∃ e, Step m e m') (Machine.mk s (.startReady a))
        (Machine.mk s' (.startReady n)) := by
    intro l
    induction l with
    | nil =>
      intro a s hl ha h
      have hn : n ≤ a := by simpa using hl.symm
      obtain rfl : a = n := by omega
      obtain rfl : s = s' := by simpa using h
      exact .refl
    | cons i l ih =>
      intro a s hl hle h
      have hlt : a < (List.finRange n).length := by
        by_contra hge
        simp [List.drop_eq_nil_of_le (Nat.not_lt.1 hge)] at hl
      rw [List.drop_eq_getElem_cons hlt] at hl
      obtain ⟨rfl, rfl⟩ := List.cons.inj hl
      have hlt : a < n := by simpa using hlt
      rw [List.foldlM_cons, Option.bind_eq_bind, Option.bind_eq_some_iff] at h
      obtain ⟨s₁, h₁, h⟩ := h
      refine .head ?_ (ih (a + 1) s₁ rfl hlt h)
      simp only [List.getElem_finRange, Fin.cast_mk] at h₁
      rw [startRound] at h₁
      split at h₁
      · simp at h₁
      · rename_i s₂ htest
        obtain rfl : s₂ = s₁ := by simpa using h₁
        exact ⟨_, Step.passed htest⟩
      · rename_i s₂ htest
        obtain rfl : s₂.startService _ _ = s₁ := by simpa using h₁
        exact ⟨_, Step.fork htest (ha _)⟩
  exact hrounds _ 0 s rfl (Nat.zero_le n) h

-- ---------------------------------------------------------------------------
-- All passes
-- ---------------------------------------------------------------------------

theorem passes_some (hv : s.config.Valid) (answers : Nat → Fin n → Int) (k : Nat) :
    ∃ s', s.passes answers k = some s' ∧ SameGraph s s' := by
  induction k with
  | zero => exact ⟨s, rfl, .refl s⟩
  | succ k ih =>
    obtain ⟨s₁, h₁, hgraph⟩ := ih
    obtain ⟨s', h', hpass⟩ := startReady_pass (hgraph.valid hv) (answers k)
    exact ⟨s', by rw [passes, h₁]; exact h', hgraph.trans hpass.graph⟩

theorem passes_spread (hv : s.config.Valid) (answers : Nat → Fin n → Int)
    {at_ : Nat → Supervisor n} (hat : ∀ k, s.passes answers k = some (at_ k)) :
    Spread s.config.After (fun k => (at_ k).Failed) (fun k => (at_ k).Open) ∧
      ∀ k i, ((at_ (k + 1)).service i).state = .stopped →
        ((at_ k).service i).state = .stopped := by
  have hgraph : ∀ k, SameGraph s (at_ k) := fun k => by
    obtain ⟨s', h, hg⟩ := passes_some hv answers k
    obtain rfl := Option.some.inj ((hat k).symm.trans h)
    exact hg
  have hpass : ∀ k, Pass (at_ k) (List.finRange n) (at_ (k + 1)) := fun k => by
    obtain ⟨s', h, hp⟩ := startReady_pass ((hgraph k).valid hv) (answers k)
    have hnext := hat (k + 1)
    rw [passes, hat k, Option.bind_some, h] at hnext
    exact Option.some.inj hnext ▸ hp
  refine ⟨⟨fun hf => (hpass _).keep hf, fun {k i} hc ho => ?_, fun {k i j} ha hf ho => ?_,
    fun {k i} hf hn => ?_⟩, fun k i => (hpass k).stopped i⟩
  · exact hc ((open_congr ((hpass k).closed i hc) (hpass k).tick).1 ho)
  · exact (hpass k).caught i (List.mem_finRange i) ho j ((hgraph k).after_iff.2 ha) hf
  · obtain ⟨ho, j, ha, hj⟩ := (hpass k).cause i hf hn
    exact ⟨ho, j, (hgraph k).after_iff.1 ha, hj⟩

/-- After a pass for every service no stopped service waits for a failed one;
and a round fails no service but its own, and that for a failed dependency. -/
theorem failures_converge (s : Supervisor n) (answers : Nat → Fin n → Int)
    (hv : s.config.pabloServiceValidate = 0) :
    (∃ s', s.passes answers n = some s' ∧
      ∀ i j, s'.config.After i j → (s'.service i).state = .stopped →
        (s'.service j).state ≠ .failed) ∧
      ∀ t : Supervisor n, t.config.pabloServiceValidate = 0 → ∀ i pid t',
        t.startRound i pid = some t' → t'.config.pabloServiceValidate = 0 ∧
          ∀ k, (t'.service k).state = .failed → (t.service k).state ≠ .failed →
            k = i ∧ ∃ j, t.config.After i j ∧ (t.service j).state = .failed := by
  rw [Config.pabloServiceValidate_eq_zero] at hv
  constructor
  · choose at_ hat hgraph using passes_some hv answers
    obtain ⟨hspread, hstopped⟩ := passes_spread hv answers hat
    refine ⟨at_ n, hat n, fun i j ha hs hf => ?_⟩
    have hopen : (at_ n).Open i := .inl hs
    have hcard : Fintype.card (Fin n) = n := Fintype.card_fin n
    have hmarked := hspread.converged hv.acyclic ((hgraph n).after_iff.1 ha)
      (by rw [hcard]; exact hopen) (by rw [hcard]; exact hf)
    rw [hcard] at hmarked
    exact Failed.not_open hmarked hopen
  · intro t ht i pid t' h
    rw [Config.pabloServiceValidate_eq_zero] at ht ⊢
    obtain ⟨t₁, h₁, hround⟩ := startRound_round ht i pid
    obtain rfl := Option.some.inj (h.symm.trans h₁)
    refine ⟨hround.graph.valid ht, fun k hf hn => ?_⟩
    by_cases hk : k = i
    · subst hk
      have ho : t.Open k := not_not.1 fun hc => hn (hround.closed hc ▸ hf)
      exact ⟨rfl, (hround.failed ho).1 hf⟩
    · exact absurd (hround.rest k hk ▸ hf) hn

def waitingForFailed : Supervisor 2 :=
  pabloSupervisorInit {
    services := fun
      | 0 => {
        name := ⟨[97], CString.noNul_a⟩
        path := ⟨[47, 97], CString.noNul_slash_a⟩
        after := ⟨[98], CString.noNul_b⟩
      }
      | 1 => {
        name := ⟨[98], CString.noNul_b⟩
        path := ⟨[47, 98], CString.noNul_slash_b⟩
        after := .empty
        state := .failed
      }
    restartLimit := 5
    restartDelay := 64
  }

theorem waitingForFailed_after :
    ∀ i j, waitingForFailed.config.After i j → i = 0 ∧ j = 1 := by
  unfold Config.After
  decide

theorem waitingForFailed_valid : waitingForFailed.config.pabloServiceValidate = 0 := by
  refine (Config.pabloServiceValidate_eq_zero _).2 ⟨by decide, by decide, by decide, ?_, ?_⟩
  · unfold Config.After
    decide
  · intro i hc
    obtain ⟨j, hj, -⟩ := Relation.TransGen.head'_iff.1 hc
    obtain ⟨k, -, hk⟩ := Relation.TransGen.tail'_iff.1 hc
    have hzero := (waitingForFailed_after i j hj).1
    have hone := (waitingForFailed_after k i hk).2
    exact absurd (hzero.symm.trans hone) (by decide)

theorem failures_converge_waiting :
    ∃ s', waitingForFailed.passes (fun _ _ => 7) 2 = some s' ∧
      ∀ i j, s'.config.After i j → (s'.service i).state = .stopped →
        (s'.service j).state ≠ .failed :=
  (failures_converge waitingForFailed (fun _ _ => 7) waitingForFailed_valid).1

end Supervisor
end Pablo
end NarcOs
