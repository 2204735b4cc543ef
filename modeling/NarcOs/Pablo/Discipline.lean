import NarcOs.Pablo.Supervisor

/-!
# Spawn discipline

What the supervisor keeps over every run of its loop from a configuration that
was just loaded and accepted. `Inv` relates the services to the events of the
run; each step keeps it, and the discipline is read off from it.
-/

namespace NarcOs
namespace Pablo

variable {n : Nat} {c : Config n} {s s' : Supervisor n} {m m' : Machine n} {e : Event n}
  {trace : List (Event n)} {i j : Fin n} {pid : Int} {status : Int32}

-- ---------------------------------------------------------------------------
-- The supervisor's functions
-- ---------------------------------------------------------------------------

namespace Supervisor

@[simp] theorem setService_same (s : Supervisor n) (i : Fin n) (x : Service) :
    (s.setService i x).service i = x := by
  simp [setService, service]

theorem setService_other (s : Supervisor n) (x : Service) (h : j ≠ i) :
    (s.setService i x).service j = s.service j := by
  simp [setService, service, h]

@[simp] theorem setService_tick (s : Supervisor n) (i : Fin n) (x : Service) :
    (s.setService i x).tick = s.tick := rfl

@[simp] theorem setService_reported (s : Supervisor n) (i : Fin n) (x : Service) :
    (s.setService i x).quiescentReported = s.quiescentReported := rfl

theorem serviceByPid_eq_some (h : s.serviceByPid pid = some i) :
    (s.service i).state = .running ∧ (s.service i).pid = pid := by
  simpa using List.find?_some h

theorem serviceByPid_eq_none (h : s.serviceByPid pid = none) (hr : (s.service i).state = .running) :
    (s.service i).pid ≠ pid := by
  rw [serviceByPid, List.find?_eq_none] at h
  have := h i (List.mem_finRange i)
  simp only [decide_eq_true_eq] at this
  exact fun hp => this ⟨hr, hp⟩

theorem exitService_cases (s : Supervisor n) (x : Service) (status : Int32) :
    let x' := s.exitService x status
    (x'.name = x.name ∧ x'.after = x.after ∧ x'.policy = x.policy) ∧
      ((x.policy = .once ∨ s.config.restartLimit ≤ x.restartCount) ∧
          (x'.state = .complete ∨ x'.state = .failed) ∧ x'.restartCount = x.restartCount ∨
        x.policy = .respawn ∧ x.restartCount < s.config.restartLimit ∧ x'.state = .backoff ∧
          x'.restartCount = x.restartCount + 1 ∧
          x'.readyTick = s.tick + s.config.restartDelay.toUInt64) := by
  simp only [exitService]
  by_cases hp : x.policy = .once
  · by_cases hz : (if wIfExited status then wExitStatus status else 128) ≠ 0
    · simp [hp, hz]
    · simp [hp, hz]
  · have hp' : x.policy = .respawn := by cases h : x.policy <;> simp_all
    by_cases hl : s.config.restartLimit ≤ x.restartCount
    · simp [hp', hl]
    · simp [hp', hl, UInt32.not_le.1 hl]

/-- A service is spawned from `stopped` or a backoff that is over, with its
dependency up. -/
theorem startTest_eq_true (h : s.startTest i = some (true, s')) :
    s' = s ∧ ((s.service i).state = .stopped ∨
        (s.service i).state = .backoff ∧ (s.service i).readyTick ≤ s.tick) ∧
      ((s.service i).after = .empty ∨ ∃ d, s.config.pabloServiceFind (s.service i).after = some d ∧
        ((s.service d).state = .running ∨ (s.service d).state = .complete)) := by
  rw [startTest] at h
  split_ifs at h with h₁ h₂
  · simp at h
  · simp at h
  · have hstate : (s.service i).state = .stopped ∨
        (s.service i).state = .backoff ∧ (s.service i).readyTick ≤ s.tick := by
      by_cases hs : (s.service i).state = .stopped
      · exact .inl hs
      · have hb : (s.service i).state = .backoff := not_not.1 fun hb => h₁ ⟨hs, hb⟩
        exact .inr ⟨hb, UInt64.not_lt.1 fun hlt => h₂ ⟨hb, hlt⟩⟩
    rw [dependencyReady] at h
    split_ifs at h with ha
    · simp only [Option.some.injEq, Prod.mk.injEq, true_and] at h
      exact ⟨h.symm, hstate, .inl (CString.first_eq_zero.1 ha)⟩
    · cases hf : s.config.pabloServiceFind (s.service i).after with
      | none => simp [hf] at h
      | some d =>
        simp only [hf] at h
        split_ifs at h with hfail
        · simp at h
        · simp only [Option.some.injEq, Prod.mk.injEq, decide_eq_true_eq] at h
          exact ⟨h.2.symm, hstate, .inr ⟨d, rfl, h.1⟩⟩

/-- A service that is passed over is left alone, or failed with its dependency. -/
theorem startTest_eq_false (h : s.startTest i = some (false, s')) :
    s' = s ∨ ((s.service i).state = .stopped ∨ (s.service i).state = .backoff) ∧
      s' = s.setService i { s.service i with state := .failed } := by
  rw [startTest] at h
  split_ifs at h with h₁ h₂
  · exact .inl (by simpa using h.symm)
  · exact .inl (by simpa using h.symm)
  · have hstate : (s.service i).state = .stopped ∨ (s.service i).state = .backoff := by
      by_contra hn
      exact h₁ (not_or.1 hn)
    rw [dependencyReady] at h
    split_ifs at h with ha
    · simp at h
    · cases hf : s.config.pabloServiceFind (s.service i).after with
      | none => simp [hf] at h
      | some d =>
        simp only [hf] at h
        split_ifs at h with hfail
        · exact .inr ⟨hstate, by simpa using h.symm⟩
        · exact .inl (by simpa using (Prod.mk.inj (Option.some.inj h)).2.symm)

theorem startTest_ne_none
    (h : (s.service i).after ≠ .empty → s.config.pabloServiceFind (s.service i).after ≠ none) :
    s.startTest i ≠ none := by
  rw [startTest]
  split_ifs with h₁ h₂
  · simp
  · simp
  · rw [dependencyReady]
    split_ifs with ha
    · simp
    · cases hf : s.config.pabloServiceFind (s.service i).after with
      | none => exact absurd hf (h fun he => ha (CString.first_eq_zero.2 he))
      | some d =>
        simp only
        split_ifs <;> simp

theorem startService_failed (h : pid < 0) : s.startService i pid = s.setService i
    { s.service i with
      state := .backoff
      readyTick := s.tick + s.config.restartDelay.toUInt64 } := by
  simp [startService, spawnService, h]

theorem startService_forked (h : ¬ pid < 0) : s.startService i pid = s.setService i
    { s.service i with
      pid := pid
      state := .running } := by
  simp [startService, spawnService, h]

theorem terminal_iff : s.terminal = true ↔
    ∀ i, (s.service i).state = .complete ∨ (s.service i).state = .failed := by
  simp only [terminal, List.all_eq_true, List.mem_finRange, true_implies, decide_eq_true_eq]
  refine forall_congr' fun i => ?_
  cases (s.service i).state <;> simp

end Supervisor

-- ---------------------------------------------------------------------------
-- The invariant
-- ---------------------------------------------------------------------------

def Service.Final (x : Service) : Prop := x.state = .complete ∨ x.state = .failed

/-- Service `i`, with contents `x`, after `trace`. -/
structure ServiceInv (c : Config n) (trace : List (Event n)) (i : Fin n) (x : Service) : Prop where
  name : x.name = (c.services i).name
  after : x.after = (c.services i).after
  policy : x.policy = (c.services i).policy
  child : ∀ p, (p, i) ∈ children trace ↔ x.state = .running ∧ x.pid = p
  restarts : x.restartCount ≤ c.restartLimit
  once : x.policy = .once → x.restartCount = 0
  waiting : x.state = .stopped ∨ x.state = .backoff → forks i trace ≤ x.restartCount.toNat
  forked : forks i trace ≤ x.restartCount.toNat + 1
  delay : ∀ later pid status earlier, trace = later ++ .exited i pid status :: earlier →
    c.restartDelay.toNat ≤ ticks later ∨ x.Final ∨
      x.state = .backoff ∧ x.readyTick.toNat = ticks earlier % 2 ^ 64 + c.restartDelay.toNat

structure Inv (c : Config n) (trace : List (Event n)) (s : Supervisor n) : Prop where
  tick : s.tick.toNat = ticks trace % 2 ^ 64
  limit : s.config.restartLimit = c.restartLimit
  delay : s.config.restartDelay = c.restartDelay
  service : ∀ i, ServiceInv c trace i (s.service i)
  distinct : ∀ i j, (s.service i).state = .running → (s.service j).state = .running →
    (s.service i).pid = (s.service j).pid → i = j
  settled : s.quiescentReported = true → ∀ i, (s.service i).Final

theorem ticks_le_cons (e : Event n) (trace : List (Event n)) : ticks trace ≤ ticks (e :: trace) := by
  cases e <;> simp [ticks]

theorem ticks_append (later earlier : List (Event n)) :
    ticks (later ++ earlier) = ticks later + ticks earlier := by
  induction later with
  | nil => simp [ticks]
  | cons e later ih => cases e <;> simp [ticks, ih]; omega

/-- Events that say nothing about service `i`. -/
theorem ServiceInv.cons {x : Service} (h : ServiceInv c trace i x)
    (hc : ∀ p, (p, i) ∈ children (e :: trace) ↔ (p, i) ∈ children trace)
    (hf : forks i (e :: trace) = forks i trace)
    (he : ∀ pid status, e ≠ .exited i pid status) : ServiceInv c (e :: trace) i x where
  name := h.name
  after := h.after
  policy := h.policy
  child p := (hc p).trans (h.child p)
  restarts := h.restarts
  once := h.once
  waiting hw := by rw [hf]; exact h.waiting hw
  forked := by rw [hf]; exact h.forked
  delay later pid status earlier ht := by
    cases later with
    | nil => exact absurd (List.cons.inj ht).1 (he pid status)
    | cons e' later =>
      obtain ⟨-, ht⟩ := List.cons.inj ht
      exact (h.delay later pid status earlier ht).imp_left fun hd => hd.trans (ticks_le_cons e' later)

-- ---------------------------------------------------------------------------
-- Each step keeps it
-- ---------------------------------------------------------------------------

/-- An exit that leads to a restart is recorded at a tick from which the delay
does not run past the end of the counter. -/
def DelayFits (m : Machine n) : Event n → Prop
  | .exited i _ _ => (m.supervisor.service i).policy = .respawn →
      (m.supervisor.service i).restartCount < m.supervisor.config.restartLimit →
      m.supervisor.tick.toNat + m.supervisor.config.restartDelay.toNat < 2 ^ 64
  | _ => True

namespace Inv

variable {x : Service}

theorem quiet (h : Inv c trace s) (ht : ticks (e :: trace) = ticks trace)
    (hs : ∀ j, ServiceInv c (e :: trace) j (s.service j)) : Inv c (e :: trace) s where
  tick := by rw [ht]; exact h.tick
  limit := h.limit
  delay := h.delay
  service := hs
  distinct := h.distinct
  settled := h.settled

theorem setService (h : Inv c trace s) (ht : ticks (e :: trace) = ticks trace)
    (hi : ServiceInv c (e :: trace) i x)
    (ho : ∀ j, j ≠ i → ServiceInv c (e :: trace) j (s.service j))
    (hd : x.state = .running → ∀ j, j ≠ i → (s.service j).state = .running →
      (s.service j).pid ≠ x.pid)
    (hf : (s.service i).Final → x.Final) : Inv c (e :: trace) (s.setService i x) where
  tick := by rw [ht]; exact h.tick
  limit := h.limit
  delay := h.delay
  service j := by
    by_cases hj : j = i
    · subst hj
      rw [s.setService_same]
      exact hi
    · rw [s.setService_other x hj]
      exact ho j hj
  distinct j k hj hk hp := by
    by_cases hji : j = i <;> by_cases hki : k = i
    · rw [hji, hki]
    · subst hji
      rw [s.setService_same] at hj hp
      rw [s.setService_other x hki] at hk hp
      exact absurd hp.symm (hd hj k hki hk)
    · subst hki
      rw [s.setService_same] at hk hp
      rw [s.setService_other x hji] at hj hp
      exact absurd hp (hd hk j hji hj)
    · rw [s.setService_other x hji] at hj hp
      rw [s.setService_other x hki] at hk hp
      exact h.distinct j k hj hk hp
  settled hq j := by
    by_cases hj : j = i
    · subst hj
      rw [s.setService_same]
      exact hf (h.settled hq j)
    · rw [s.setService_other x hj]
      exact h.settled hq j

theorem delay_over (h : Inv c trace s)
    (hdue : (s.service i).state = .stopped ∨
      (s.service i).state = .backoff ∧ (s.service i).readyTick ≤ s.tick)
    {later earlier} (ht : trace = later ++ .exited i pid status :: earlier) :
    c.restartDelay.toNat ≤ ticks later := by
  rcases (h.service i).delay later pid status earlier ht with hd | hfin | ⟨hb, hr⟩
  · exact hd
  · rcases hdue with hs | ⟨hs, -⟩ <;> simp [Service.Final, hs] at hfin
  · rcases hdue with hs | ⟨-, hle⟩
    · simp [hs] at hb
    · have htick : s.tick.toNat = (ticks later + ticks earlier) % 2 ^ 64 := by
        rw [h.tick, ht, ticks_append]
        rfl
      have hle : (s.service i).readyTick.toNat ≤ s.tick.toNat := UInt64.le_iff_toNat_le.1 hle
      have hlt := (s.service i).readyTick.toNat_lt
      omega

theorem waited (h : Inv c trace s) : Inv c (.waited :: trace) s :=
  h.quiet rfl fun j => (h.service j).cons (fun _ => Iff.rfl) rfl (by simp)

theorem passed (h : Inv c trace s) (ht : s.startTest i = some (false, s')) :
    Inv c (.passed i :: trace) s' := by
  have hcons : ∀ j, ServiceInv c (.passed i :: trace) j (s.service j) := fun j =>
    (h.service j).cons (fun _ => Iff.rfl) rfl (by simp)
  rcases Supervisor.startTest_eq_false ht with rfl | ⟨hs, rfl⟩
  · exact h.quiet rfl hcons
  · have hi := hcons i
    have hnr : (s.service i).state ≠ .running := by rcases hs with hs | hs <;> simp [hs]
    refine h.setService rfl ?_ (fun j _ => hcons j) (by simp) fun _ => .inr rfl
    exact {
      name := hi.name
      after := hi.after
      policy := hi.policy
      child := fun p => by
        rw [hi.child p]
        simp [hnr]
      restarts := hi.restarts
      once := hi.once
      waiting := by simp
      forked := hi.forked
      delay := fun _ _ _ _ _ => .inr (.inl (.inr rfl))
    }

theorem fork_failed (h : Inv c trace s) (ht : s.startTest i = some (true, s')) (hp : pid < 0) :
    Inv c (.fork i pid :: trace) (s'.startService i pid) := by
  have hnp : ¬ 0 < pid := by omega
  have hcons : ∀ j, ServiceInv c (.fork i pid :: trace) j (s.service j) := fun j =>
    (h.service j).cons (fun _ => by simp [children, hnp]) (by simp [forks, hnp]) (by simp)
  obtain ⟨rfl, hdue, -⟩ := Supervisor.startTest_eq_true ht
  have hi := hcons i
  have hs : (s'.service i).state = .stopped ∨ (s'.service i).state = .backoff :=
    hdue.imp_right And.left
  have hnr : (s'.service i).state ≠ .running := by rcases hs with hs | hs <;> simp [hs]
  rw [Supervisor.startService_failed hp]
  refine h.setService rfl ?_ (fun j _ => hcons j) (by simp) fun hfin => ?_
  · exact {
      name := hi.name
      after := hi.after
      policy := hi.policy
      child := fun p => by
        rw [hi.child p]
        simp [hnr]
      restarts := hi.restarts
      once := hi.once
      waiting := fun _ => hi.waiting hs
      forked := hi.forked
      delay := fun later pid' status earlier htr => by
        cases later with
        | nil => simp at htr
        | cons e' later =>
          obtain ⟨-, htr⟩ := List.cons.inj htr
          exact .inl ((h.delay_over hdue htr).trans (ticks_le_cons e' later))
    }
  · rcases hs with hs | hs <;> simp [Service.Final, hs] at hfin

theorem fork_started (h : Inv c trace s) (ht : s.startTest i = some (true, s')) (hp : 0 < pid)
    (ha : ∀ j, (pid, j) ∉ children trace) :
    Inv c (.fork i pid :: trace) (s'.startService i pid) := by
  obtain ⟨rfl, hdue, -⟩ := Supervisor.startTest_eq_true ht
  have hi := h.service i
  have hs : (s'.service i).state = .stopped ∨ (s'.service i).state = .backoff :=
    hdue.imp_right And.left
  have hnr : (s'.service i).state ≠ .running := by rcases hs with hs | hs <;> simp [hs]
  rw [Supervisor.startService_forked (by omega)]
  refine h.setService rfl ?_ (fun j hj => ?_) (fun _ j _ hr he => ?_) fun hfin => ?_
  · exact {
      name := hi.name
      after := hi.after
      policy := hi.policy
      child := fun p => by
        simp only [children, hp, if_true, List.mem_cons, Prod.mk.injEq, and_true, hi.child p, hnr,
          false_and, or_false, true_and]
        exact eq_comm
      restarts := hi.restarts
      once := hi.once
      waiting := by simp
      forked := by
        simp only [forks, hp, and_self, if_true]
        exact Nat.succ_le_succ (hi.waiting hs)
      delay := fun later pid' status earlier htr => by
        cases later with
        | nil => simp at htr
        | cons e' later =>
          obtain ⟨-, htr⟩ := List.cons.inj htr
          exact .inl ((h.delay_over hdue htr).trans (ticks_le_cons e' later))
    }
  · refine (h.service j).cons (fun p => ?_) ?_ (by simp)
    · simp [children, hp, hj]
    · simp [forks, Ne.symm hj]
  · exact ha j (((h.service j).child pid).2 ⟨hr, he⟩)
  · rcases hs with hs | hs <;> simp [Service.Final, hs] at hfin

theorem orphan (h : Inv c trace s) (hi : s.serviceByPid pid = none) :
    Inv c (.orphan pid status :: trace) s := by
  refine h.quiet rfl fun j => (h.service j).cons (fun p => ?_) rfl (by simp)
  simp only [children, List.mem_filter, decide_eq_true_eq, and_iff_left_iff_imp]
  intro hm
  obtain ⟨hr, rfl⟩ := ((h.service j).child p).1 hm
  exact Supervisor.serviceByPid_eq_none hi hr

theorem exited_service (h : Inv c trace s) (status : Int32) (hi : s.serviceByPid pid = some i)
    (hfit : (s.service i).policy = .respawn →
      (s.service i).restartCount < s.config.restartLimit →
      s.tick.toNat + s.config.restartDelay.toNat < 2 ^ 64) :
    ServiceInv c (.exited i pid status :: trace) i (s.exitService (s.service i) status) := by
  have hx := h.service i
  obtain ⟨hrun, hpid⟩ := Supervisor.serviceByPid_eq_some hi
  obtain ⟨⟨hname, hafter, hpolicy⟩, hcases⟩ := s.exitService_cases (s.service i) status
  generalize s.exitService (s.service i) status = x at hname hafter hpolicy hcases
  have hchild : x.state ≠ .running → ∀ p, (p, i) ∈ children (.exited i pid status :: trace) ↔
      x.state = .running ∧ x.pid = p := by
    intro hstate p
    simp only [children, List.mem_filter, hx.child p, hrun, true_and, hpid, decide_eq_true_eq,
      hstate, false_and, iff_false]
    rintro ⟨rfl, hne⟩
    exact hne rfl
  -- the delays of earlier exits were over when the service was last forked
  have hearlier : ∀ later pid' status' earlier, trace = later ++ .exited i pid' status' :: earlier →
      c.restartDelay.toNat ≤ ticks later := by
    intro later pid' status' earlier htr
    rcases hx.delay later pid' status' earlier htr with hd | hfin | ⟨hb, -⟩
    · exact hd
    · simp [Service.Final, hrun] at hfin
    · simp [hrun] at hb
  rcases hcases with ⟨-, hfinal, hcount⟩ | ⟨hpol, hlt, hb, hcount, hready⟩
  · have hfinal : x.Final := hfinal
    refine ⟨hname.trans hx.name, hafter.trans hx.after, hpolicy.trans hx.policy, hchild ?_, ?_, ?_,
      ?_, ?_, fun _ _ _ _ _ => .inr (.inl hfinal)⟩
    · rcases hfinal with hf | hf <;> simp [hf]
    · rw [hcount]; exact hx.restarts
    · rw [hcount, hpolicy]; exact hx.once
    · rcases hfinal with hf | hf <;> simp [hf]
    · rw [hcount]; exact hx.forked
  · have hlt := UInt32.lt_iff_toNat_lt.1 hlt
    have hmax := s.config.restartLimit.toNat_lt
    have hcount : x.restartCount.toNat = (s.service i).restartCount.toNat + 1 := by
      rw [hcount, UInt32.toNat_add]
      exact Nat.mod_eq_of_lt (by simp; omega)
    have hforks : forks i (.exited i pid status :: trace) ≤ x.restartCount.toNat := by
      rw [hcount]
      exact hx.forked
    refine ⟨hname.trans hx.name, hafter.trans hx.after, hpolicy.trans hx.policy,
      hchild (by simp [hb]), ?_, fun ho => ?_, fun _ => hforks, hforks.trans (Nat.le_succ _),
      fun later pid' status' earlier htr => ?_⟩
    · rw [UInt32.le_iff_toNat_le, hcount, ← h.limit]
      exact hlt
    · rw [hpolicy, hpol] at ho
      cases ho
    · cases later with
      | nil =>
        obtain ⟨-, rfl⟩ := List.cons.inj htr
        refine .inr (.inr ⟨hb, ?_⟩)
        have hfit := hfit hpol (UInt32.lt_iff_toNat_lt.2 hlt)
        rw [hready, UInt64.toNat_add, UInt32.toNat_toUInt64, Nat.mod_eq_of_lt hfit, h.tick, h.delay]
      | cons e' later =>
        obtain ⟨-, htr⟩ := List.cons.inj htr
        exact .inl ((hearlier later pid' status' earlier htr).trans (ticks_le_cons e' later))

theorem exited (h : Inv c trace s) (hi : s.serviceByPid pid = some i)
    (hfit : (s.service i).policy = .respawn →
      (s.service i).restartCount < s.config.restartLimit →
      s.tick.toNat + s.config.restartDelay.toNat < 2 ^ 64) :
    Inv c (.exited i pid status :: trace) (s.recordExit pid status) := by
  obtain ⟨hrun, hpid⟩ := Supervisor.serviceByPid_eq_some hi
  have hx := h.exited_service status hi hfit
  have hstate : (s.exitService (s.service i) status).state ≠ .running := by
    obtain ⟨-, ⟨-, hf | hf, -⟩ | ⟨-, -, hb, -⟩⟩ := s.exitService_cases (s.service i) status
    · simp [hf]
    · simp [hf]
    · simp [hb]
  rw [Supervisor.recordExit, hi]
  refine h.setService rfl hx (fun j hj => ?_) (fun hr => absurd hr hstate) fun hfin => ?_
  · refine (h.service j).cons (fun p => ?_) rfl (by simp [Ne.symm hj])
    simp only [children, List.mem_filter, decide_eq_true_eq, and_iff_left_iff_imp]
    rintro hm rfl
    obtain ⟨hr, hp⟩ := ((h.service j).child p).1 hm
    exact hj (h.distinct j i hr hrun (hp.trans hpid.symm))
  · simp [Service.Final, hrun] at hfin

theorem closeRound (h : Inv c trace s) : Inv c (.tick :: trace) s.closeRound where
  tick := by
    have hadd : (s.tick + 1).toNat = (s.tick.toNat + 1) % 2 ^ 64 := UInt64.toNat_add _ _
    have ht := h.tick
    simp only [Supervisor.closeRound, ticks, hadd]
    omega
  limit := h.limit
  delay := h.delay
  service j := (h.service j).cons (fun _ => Iff.rfl) rfl (by simp)
  distinct := h.distinct
  settled hq := by
    rcases Bool.or_eq_true_iff.1 hq with hq | hq
    · exact h.settled hq
    · exact Supervisor.terminal_iff.1 hq

theorem step (h : Inv c trace m.supervisor) (ha : Answerable trace e) (hfit : DelayFits m e)
    (hs : Step m e m') : Inv c (e :: trace) m'.supervisor := by
  cases hs with
  | exited hp hi => exact h.exited hi hfit
  | @orphan s pid status hp hi =>
    have heq : s.recordExit pid status = s := by rw [Supervisor.recordExit, hi]
    rw [heq]
    exact h.orphan hi
  | waited => exact h.waited
  | passed ht => exact h.passed ht
  | @fork s s' i pid ht hp =>
    by_cases hneg : pid < 0
    · exact h.fork_failed ht hneg
    · exact h.fork_started ht (by omega) (ha.resolve_left hneg)
  | fault ht => exact h.quiet rfl fun j => (h.service j).cons (fun _ => Iff.rfl) rfl (by simp)
  | tick => exact h.closeRound

end Inv

/-- A configuration as `pablo_config_load` leaves it: the runtime fields of its
services are those of a cleared `struct pablo_service`. -/
def Config.Loaded (c : Config n) : Prop :=
  ∀ i, (c.services i).state = .stopped ∧ (c.services i).restartCount = 0

theorem Config.Loaded.inv (hl : c.Loaded) : Inv c [] (pabloSupervisorInit c) where
  tick := rfl
  limit := rfl
  delay := rfl
  service i := by
    have hs : ((pabloSupervisorInit c).service i).state = .stopped := (hl i).1
    have hr : ((pabloSupervisorInit c).service i).restartCount = 0 := (hl i).2
    exact {
      name := rfl
      after := rfl
      policy := rfl
      child := by simp [children, hs]
      restarts := by rw [hr]; exact UInt32.zero_le
      once := fun _ => hr
      waiting := by simp [forks]
      forked := by simp [forks]
      delay := by simp
    }
  distinct i j hi := by
    have hs : ((pabloSupervisorInit c).service i).state = .stopped := (hl i).1
    rw [hs] at hi
    cases hi
  settled hq := by cases hq

theorem Run.inv (hl : c.Loaded) (hr : Run DelayFits c trace m) : Inv c trace m.supervisor := by
  induction hr with
  | start => exact hl.inv
  | step _ ha hok hs ih => exact ih.step ha hok hs

-- ---------------------------------------------------------------------------
-- The discipline
-- ---------------------------------------------------------------------------

structure Disciplined (c : Config n) (trace : List (Event n)) (m : Machine n) : Prop where
  childless : ∀ i pid m', Step m (.fork i pid) m' → ∀ p, (p, i) ∉ children trace
  ready : ∀ i pid m', Step m (.fork i pid) m' → ∀ j, c.After i j →
    (m.supervisor.service j).state = .running ∨ (m.supervisor.service j).state = .complete
  distinct : ∀ i j, (m.supervisor.service i).state = .running →
    (m.supervisor.service j).state = .running →
    (m.supervisor.service i).pid = (m.supervisor.service j).pid → i = j
  once : ∀ i, (c.services i).policy = .once → forks i trace ≤ 1
  respawn : ∀ i, (c.services i).policy = .respawn → forks i trace ≤ c.restartLimit.toNat + 1
  delay : ∀ i pid m' later pid' status earlier, Step m (.fork i pid) m' →
    trace = later ++ .exited i pid' status :: earlier → c.restartDelay.toNat ≤ ticks later
  final : ∀ e m' i, Step m e m' →
    ((m.supervisor.service i).state = .complete → (m'.supervisor.service i).state = .complete) ∧
      ((m.supervisor.service i).state = .failed → (m'.supervisor.service i).state = .failed)
  found : ∀ i m', ¬ Step m (.fault i) m'
  settled : ∀ e m', Step m e m' → m.supervisor.quiescentReported = true →
    m'.supervisor.quiescentReported = true ∧ ∀ i pid, e ≠ .fork i pid

theorem Step.fork_startTest (h : Step m (.fork i pid) m') :
    ∃ s', m.supervisor.startTest i = some (true, s') := by
  cases h with
  | fork ht hp => exact ⟨_, ht⟩

theorem Inv.after_iff (h : Inv c trace s) : s.config.After i j ↔ c.After i j := by
  have ha : (s.config.services i).after = (c.services i).after := (h.service i).after
  have hn : (s.config.services j).name = (c.services j).name := (h.service j).name
  rw [Config.After, Config.After, ha, hn]

theorem Inv.names (h : Inv c trace s) (hv : c.Valid) :
    Function.Injective fun i => (s.config.services i).name := by
  have hn : ∀ i, (s.config.services i).name = (c.services i).name := fun i => (h.service i).name
  intro i j hij
  exact hv.distinct ((hn i).symm.trans (hij.trans (hn j)))

theorem Step.writes (h : Step m e m') :
    m'.supervisor = m.supervisor ∨ m'.supervisor = m.supervisor.closeRound ∨
      ∃ i x, ¬ (m.supervisor.service i).Final ∧ m'.supervisor = m.supervisor.setService i x := by
  cases h with
  | @exited s i pid status hp hi =>
    refine .inr (.inr ⟨i, s.exitService (s.service i) status, ?_, ?_⟩)
    · simp [Service.Final, (Supervisor.serviceByPid_eq_some hi).1]
    · simp only [Supervisor.recordExit, hi]
  | @orphan s pid status hp hi => exact .inl (by simp only [Supervisor.recordExit, hi])
  | waited => exact .inl rfl
  | @passed s s' i ht =>
    rcases Supervisor.startTest_eq_false ht with rfl | ⟨hs, rfl⟩
    · exact .inl rfl
    · refine .inr (.inr ⟨i, _, ?_, rfl⟩)
      rcases hs with hs | hs <;> simp [Service.Final, hs]
  | @fork s s' i pid ht hp =>
    obtain ⟨rfl, hdue, -⟩ := Supervisor.startTest_eq_true ht
    have hnot : ¬ (s'.service i).Final := by
      rcases hdue with hs | ⟨hs, -⟩ <;> simp [Service.Final, hs]
    by_cases hneg : pid < 0
    · exact .inr (.inr ⟨i, _, hnot, Supervisor.startService_failed hneg⟩)
    · exact .inr (.inr ⟨i, _, hnot, Supervisor.startService_forked hneg⟩)
  | fault ht => exact .inl rfl
  | tick => exact .inr (.inl rfl)

theorem Step.final (h : Step m e m') (hi : (m.supervisor.service i).Final) :
    m'.supervisor.service i = m.supervisor.service i := by
  rcases h.writes with heq | heq | ⟨j, x, hj, heq⟩
  · rw [heq]
  · rw [heq]
    rfl
  · have hne : i ≠ j := by rintro rfl; exact hj hi
    rw [heq, Supervisor.setService_other _ x hne]

theorem Step.reported (h : Step m e m') (hq : m.supervisor.quiescentReported = true) :
    m'.supervisor.quiescentReported = true := by
  rcases h.writes with heq | heq | ⟨j, x, -, heq⟩
  · rw [heq]
    exact hq
  · rw [heq, Supervisor.closeRound, hq]
    rfl
  · rw [heq]
    exact hq

theorem Run.disciplined (c : Config n) (hv : c.pabloServiceValidate = 0) (hl : c.Loaded)
    (hr : Run DelayFits c trace m) : Disciplined c trace m := by
  have hinv := hr.inv hl
  have hv := (Config.pabloServiceValidate_eq_zero c).1 hv
  have hlimit : ∀ i, (m.supervisor.service i).restartCount.toNat ≤ c.restartLimit.toNat :=
    fun i => UInt32.le_iff_toNat_le.1 (hinv.service i).restarts
  exact {
    childless := fun i pid m' hs p hp => by
      obtain ⟨s', ht⟩ := hs.fork_startTest
      obtain ⟨-, hdue, -⟩ := Supervisor.startTest_eq_true ht
      have hrun := (((hinv.service i).child p).1 hp).1
      rcases hdue with hd | ⟨hd, -⟩ <;> simp [hrun] at hd
    ready := fun i pid m' hs j hj => by
      obtain ⟨s', ht⟩ := hs.fork_startTest
      obtain ⟨-, -, hdep⟩ := Supervisor.startTest_eq_true ht
      have hj := hinv.after_iff.2 hj
      rcases hdep with he | ⟨d, hd, hstate⟩
      · exact absurd he hj.1
      · have hfind : m.supervisor.config.pabloServiceFind (m.supervisor.service i).after = some j :=
          Config.serviceIndex_of_after (hinv.names hv) hj
        cases hd.symm.trans hfind
        exact hstate
    distinct := hinv.distinct
    once := fun i hp => by
      have hx := hinv.service i
      have hzero := hx.once (hx.policy.trans hp)
      have hforks := hx.forked
      rw [hzero] at hforks
      exact hforks
    respawn := fun i _ => (hinv.service i).forked.trans (Nat.succ_le_succ (hlimit i))
    delay := fun i pid m' later pid' status earlier hs htr => by
      obtain ⟨s', ht⟩ := hs.fork_startTest
      exact hinv.delay_over (Supervisor.startTest_eq_true ht).2.1 htr
    final := fun e m' i hs => ⟨fun hi => by rw [hs.final (.inl hi)]; exact hi,
      fun hi => by rw [hs.final (.inr hi)]; exact hi⟩
    found := fun i m' hs => by
      cases hs with
      | @fault s i ht =>
        refine Supervisor.startTest_ne_none (fun ha hnone => ?_) ht
        have hafter : (s.service i).after = (c.services i).after := (hinv.service i).after
        obtain ⟨j, hj⟩ := hv.known i (hafter ▸ ha)
        exact Config.pabloServiceFind_eq_none.1 hnone j (hinv.after_iff.2 hj).2
    settled := fun e m' hs hq => ⟨hs.reported hq, fun i pid he => by
      subst he
      obtain ⟨s', ht⟩ := hs.fork_startTest
      obtain ⟨-, hdue, -⟩ := Supervisor.startTest_eq_true ht
      have hfin := hinv.settled hq i
      rcases hdue with hd | ⟨hd, -⟩ <;> simp [Service.Final, hd] at hfin⟩
  }

-- ---------------------------------------------------------------------------
-- A service that exits when the tick counter is about to wrap
-- ---------------------------------------------------------------------------

def loneService : Config 1 where
  services _ := {
    name := ⟨[97], CString.noNul_a⟩
    path := ⟨[47, 97], CString.noNul_slash_a⟩
    after := .empty
    policy := .respawn
  }
  restartLimit := 5
  restartDelay := 64

theorem loneService_loaded : loneService.Loaded := fun _ => ⟨rfl, rfl⟩

theorem loneService_valid : loneService.pabloServiceValidate = 0 := by
  refine (Config.pabloServiceValidate_eq_zero _).2 ⟨by decide, fun i j _ => Subsingleton.elim i j,
    fun _ => rfl, fun _ h => absurd rfl h, fun i hc => ?_⟩
  obtain ⟨j, hj, -⟩ := Relation.TransGen.head'_iff.1 hc
  exact hj.1 rfl

def loneRunning (k : UInt64) : Supervisor 1 :=
  { (pabloSupervisorInit loneService).startService 0 2 with tick := k }

/-- The first round, up to the exit of the service. -/
theorem Run.disciplined_lone : Disciplined loneService [.exited 0 2 0, .tick, .fork 0 2, .waited]
    ⟨(loneRunning 1).recordExit 2 0, .reapChildren⟩ := by
  refine Run.disciplined loneService loneService_valid loneService_loaded ?_
  refine .step (.step (.step (.step .start trivial trivial .waited) ?_ trivial
    (.fork (i := 0) rfl (by decide))) trivial trivial .tick) trivial ?_ (.exited (by decide) rfl)
  · exact .inr (by simp [children])
  · intro _ _
    decide

theorem loneService_run (ok : Machine 1 → Event 1 → Prop)
    (hok : ∀ m e, (∀ i pid status, e ≠ .exited i pid status) → ok m e) (k : Nat) :
    ∃ trace, Run ok loneService trace ⟨loneRunning (.ofNat (k + 1)), .reapChildren⟩ := by
  induction k with
  | zero =>
    refine ⟨[.tick, .fork 0 2, .waited], ?_⟩
    refine .step (.step (.step .start trivial (hok _ _ (by simp)) .waited) ?_ (hok _ _ (by simp))
      (.fork (i := 0) rfl (by decide))) trivial (hok _ _ (by simp)) .tick
    exact .inr (by simp [children])
  | succ k ih =>
    obtain ⟨trace, hr⟩ := ih
    refine ⟨.tick :: .passed 0 :: .waited :: trace, ?_⟩
    have hclose : loneRunning (.ofNat (k + 1 + 1)) = (loneRunning (.ofNat (k + 1))).closeRound := by
      rw [UInt64.ofNat_add]
      rfl
    rw [hclose]
    exact .step (.step (.step hr trivial (hok _ _ (by simp)) .waited) trivial (hok _ _ (by simp))
      (.passed (i := 0) rfl)) trivial (hok _ _ (by simp)) .tick

/-- The delay is not kept when the tick counter wraps. -/
theorem runs_undisciplined : ¬ ∀ (c : Config 1) (trace : List (Event 1)) (m : Machine 1),
    c.pabloServiceValidate = 0 → c.Loaded → Run (fun _ _ => True) c trace m →
      Disciplined c trace m := by
  intro hall
  obtain ⟨trace, hr⟩ := loneService_run (fun _ _ => True) (fun _ _ _ => trivial) (2 ^ 64 - 2)
  have hexit : Run (fun _ _ => True) loneService (.exited 0 2 0 :: trace)
      ⟨(loneRunning (.ofNat (2 ^ 64 - 1))).recordExit 2 0, .reapChildren⟩ :=
    .step hr trivial trivial (.exited (by decide) rfl)
  have hwait : Run (fun _ _ => True) loneService (.waited :: .exited 0 2 0 :: trace)
      ⟨(loneRunning (.ofNat (2 ^ 64 - 1))).recordExit 2 0, .startReady (0 : Fin 1)⟩ :=
    .step hexit trivial trivial .waited
  have hdelay := (hall _ _ _ loneService_valid loneService_loaded hwait).delay 0 3 _
    [.waited] 2 0 trace (.fork rfl (by decide)) rfl
  exact absurd hdelay (by decide)

end Pablo
end NarcOs
