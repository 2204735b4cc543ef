import NarcOs.Pablo.Service

/-!
# The supervisor's loop

`userland/pablo/src/supervisor.c`. The functions are those of the source; where
the loop calls `fork` or `waitpid` it takes a step on the kernel's answer, so a
run is a sequence of such answers. Logging has no effect on the state and is
left out.
-/

namespace NarcOs
namespace Pablo

/-- `struct pablo_supervisor`. -/
structure Supervisor (n : Nat) where
  config : Config n
  tick : UInt64
  quiescentReported : Bool

def pabloSupervisorInit {n : Nat} (c : Config n) : Supervisor n := ⟨c, 0, false⟩

/-- The macros `WIFEXITED` and `WEXITSTATUS` of `sys/wait.h`. -/
def wIfExited (status : Int32) : Bool := status &&& 0x7f = 0
def wExitStatus (status : Int32) : Int32 := (status >>> 8) &&& 0xff

namespace Supervisor

variable {n : Nat} (s : Supervisor n)

def service (i : Fin n) : Service := s.config.services i

def setService (i : Fin n) (service : Service) : Supervisor n :=
  { s with config := { s.config with services := Function.update s.config.services i service } }

/-- `none` is the access through a dependency that was not found. -/
def dependencyReady (i : Fin n) : Option (Bool × Supervisor n) :=
  if (s.service i).after.first = 0 then some (true, s)
  else
    match s.config.pabloServiceFind (s.service i).after with
    | none => none
    | some dependency =>
      if (s.service dependency).state = .failed then
        some (false, s.setService i { s.service i with state := .failed })
      else
        some ((s.service dependency).state = .running ∨
          (s.service dependency).state = .complete, s)

/-- The parent's side of `spawn_service`, on the answer of `fork`. -/
def spawnService (service : Service) (pid : Int) : Service :=
  if pid < 0 then { service with state := .backoff }
  else
    { service with
      pid := pid
      state := .running }

def serviceByPid (pid : Int) : Option (Fin n) :=
  (List.finRange n).find? fun i => (s.service i).state = .running ∧ (s.service i).pid = pid

/-- What `record_exit` writes to the service it found. -/
def exitService (service : Service) (status : Int32) : Service :=
  let service := { service with
    pid := 0
    exitStatus := if wIfExited status then wExitStatus status else 128 }
  if service.policy = .once then
    { service with state := if service.exitStatus ≠ 0 then .failed else .complete }
  else if s.config.restartLimit ≤ service.restartCount then { service with state := .failed }
  else
    { service with
      restartCount := service.restartCount + 1
      readyTick := s.tick + s.config.restartDelay.toUInt64
      state := .backoff }

def recordExit (pid : Int) (status : Int32) : Supervisor n :=
  match s.serviceByPid pid with
  | none => s
  | some i => s.setService i (s.exitService (s.service i) status)

def terminal : Bool :=
  (List.finRange n).all fun i =>
    ¬ ((s.service i).state = .running ∨ (s.service i).state = .stopped ∨
      (s.service i).state = .backoff)

/-- The tests `start_ready` makes on a service before it spawns it. -/
def startTest (i : Fin n) : Option (Bool × Supervisor n) :=
  if (s.service i).state ≠ .stopped ∧ (s.service i).state ≠ .backoff then some (false, s)
  else if (s.service i).state = .backoff ∧ (s.service i).readyTick > s.tick then some (false, s)
  else s.dependencyReady i

/-- The rest of the round of `start_ready` for a service that is spawned. -/
def startService (i : Fin n) (pid : Int) : Supervisor n :=
  let service := spawnService (s.service i) pid
  if service.state = .backoff then
    s.setService i { service with readyTick := s.tick + s.config.restartDelay.toUInt64 }
  else s.setService i service

/-- The end of a round of `pablo_supervisor_run`. -/
def closeRound : Supervisor n :=
  { s with
    quiescentReported := s.quiescentReported || s.terminal
    tick := s.tick + 1 }

end Supervisor

-- ---------------------------------------------------------------------------
-- Runs
-- ---------------------------------------------------------------------------

/-- Where the loop of `pablo_supervisor_run` stands: before a call of `waitpid`,
at a service of `start_ready`'s loop, or behind a faulting access. -/
inductive Phase
  | reapChildren
  | startReady (index : Nat)
  | faulted

structure Machine (n : Nat) where
  supervisor : Supervisor n
  phase : Phase

inductive Event (n : Nat)
  | exited (i : Fin n) (pid : Int) (status : Int32)
  | orphan (pid : Int) (status : Int32)
  | waited
  | passed (i : Fin n)
  | fork (i : Fin n) (pid : Int)
  | fault (i : Fin n)
  | tick

variable {n : Nat}

/-- One pass of the innermost loop, with the answer of `waitpid` or `fork`. -/
inductive Step : Machine n → Event n → Machine n → Prop
  | exited {s : Supervisor n} {i pid status} (hp : 0 < pid) (hi : s.serviceByPid pid = some i) :
      Step ⟨s, .reapChildren⟩ (.exited i pid status) ⟨s.recordExit pid status, .reapChildren⟩
  | orphan {s : Supervisor n} {pid status} (hp : 0 < pid) (hi : s.serviceByPid pid = none) :
      Step ⟨s, .reapChildren⟩ (.orphan pid status) ⟨s.recordExit pid status, .reapChildren⟩
  | waited {s : Supervisor n} : Step ⟨s, .reapChildren⟩ .waited ⟨s, .startReady 0⟩
  | passed {s s' : Supervisor n} {i : Fin n} (ht : s.startTest i = some (false, s')) :
      Step ⟨s, .startReady i⟩ (.passed i) ⟨s', .startReady (i + 1)⟩
  | fork {s s' : Supervisor n} {i : Fin n} {pid} (ht : s.startTest i = some (true, s'))
      (hp : pid ≠ 0) :
      Step ⟨s, .startReady i⟩ (.fork i pid) ⟨s'.startService i pid, .startReady (i + 1)⟩
  | fault {s : Supervisor n} {i : Fin n} (ht : s.startTest i = none) :
      Step ⟨s, .startReady i⟩ (.fault i) ⟨s, .faulted⟩
  | tick {s : Supervisor n} : Step ⟨s, .startReady n⟩ .tick ⟨s.closeRound, .reapChildren⟩

/-- The unreaped children after a trace, newest event first, each with the
service it was forked for. -/
def children : List (Event n) → List (Int × Fin n)
  | [] => []
  | .fork i pid :: trace => if 0 < pid then (pid, i) :: children trace else children trace
  | .exited _ pid _ :: trace => (children trace).filter (·.1 ≠ pid)
  | .orphan pid _ :: trace => (children trace).filter (·.1 ≠ pid)
  | _ :: trace => children trace

/-- `fork` gives no pid that an unreaped child has. -/
def Answerable (trace : List (Event n)) : Event n → Prop
  | .fork _ pid => pid < 0 ∨ ∀ i, (pid, i) ∉ children trace
  | _ => True

/-- The runs from a configuration whose steps all meet `ok`. -/
inductive Run (ok : Machine n → Event n → Prop) (c : Config n) : List (Event n) → Machine n → Prop
  | start : Run ok c [] ⟨pabloSupervisorInit c, .reapChildren⟩
  | step {trace m e m'} (hr : Run ok c trace m) (ha : Answerable trace e) (hok : ok m e)
      (hs : Step m e m') : Run ok c (e :: trace) m'

def ticks : List (Event n) → Nat
  | [] => 0
  | .tick :: trace => ticks trace + 1
  | _ :: trace => ticks trace

def forks (i : Fin n) : List (Event n) → Nat
  | [] => 0
  | .fork j pid :: trace => if j = i ∧ 0 < pid then forks i trace + 1 else forks i trace
  | _ :: trace => forks i trace

end Pablo
end NarcOs
