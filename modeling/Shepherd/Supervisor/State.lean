import Shepherd.Conc.Prog
import Shepherd.Registry
import Shepherd.Waiters

/-!
# Supervisor State

The shared state of a `ProcessSupervisor`: the fields of `Inner` in `supervisor.rs`, the
objects they point to, and a **history** of what happened.

An object behind an `Arc` is named by the scope it belongs to: the operation lock of a
scope is `operations scope` and its cleanup channel is `cleanup scope`, while the maps
`scopeOperations` and `scopeResults` only say whether an entry is there. This way an
operation object outlives its entry, as it does for callers queued on the lock.

The history lists, newest first, the observable events with the task that caused them. The
code never reads it; it is what the theorems about runs speak of.
-/

open Std

namespace Shepherd

open Conc

/-! ### Values -/

/-- How a process or a scope is terminated. -/
structure TerminateOptions where
  grace : Duration
  forceTimeout : Option Duration
  deriving DecidableEq, Repr

/-- Five seconds of grace, ten seconds after force. -/
def TerminateOptions.default : TerminateOptions where
  grace := 5000000000
  forceTimeout := some 10000000000

/-- The aggregated result of terminating a scope. -/
structure ScopeTerminationReport where
  scope : ProcessScopeId
  outcomes : List (ProcessId × TerminationOutcome)
  deriving DecidableEq, Repr

/-- Whether every process reached a verified terminal outcome. -/
def ScopeTerminationReport.allVerified (r : ScopeTerminationReport) : Bool :=
  r.outcomes.all fun po => po.2.isVerified

/-- The outcomes of a retained report, without an allocation for up to one process. -/
inductive RetainedScopeOutcomes where
  | empty
  | one (outcome : ProcessId × TerminationOutcome)
  | many (outcomes : List (ProcessId × TerminationOutcome))
  deriving DecidableEq, Repr

/-- A report in the bounded report history. -/
structure RetainedScopeReport where
  scope : ProcessScopeId
  outcomes : RetainedScopeOutcomes
  deriving DecidableEq, Repr

namespace RetainedScopeReport

/-- The retained form of a report. -/
def retain (report : ScopeTerminationReport) : RetainedScopeReport where
  scope := report.scope
  outcomes := match report.outcomes with
    | [] => .empty
    | [outcome] => .one outcome
    | outcomes => .many outcomes

/-- The report a retained form stands for. -/
def report (r : RetainedScopeReport) : ScopeTerminationReport where
  scope := r.scope
  outcomes := match r.outcomes with
    | .empty => []
    | .one outcome => [outcome]
    | .many outcomes => outcomes

/-- Retention loses nothing. -/
@[simp] theorem report_retain (r : ScopeTerminationReport) : (retain r).report = r := by
  obtain ⟨scope, outcomes⟩ := r
  match outcomes with
  | [] => rfl
  | [_] => rfl
  | _ :: _ :: _ => rfl

end RetainedScopeReport

/-- Error admitting a new scope. -/
inductive ScopeCreationError where
  | supervisorClosed
  deriving DecidableEq, Repr

/-- Error creating a process. -/
inductive SpawnError where
  | unknownScope (scope : ProcessScopeId)
  | scopeClosed (scope : ProcessScopeId)
  | os (message : String)
  | domain (error : DomainError)
  deriving DecidableEq, Repr

/-- Error terminating a process or a scope. -/
inductive TerminateError where
  | unknownProcess (pid : ProcessId)
  | unknownScope (scope : ProcessScopeId)
  | signal (message : String)
  | domain (error : DomainError)
  deriving DecidableEq, Repr

/-- Error waiting for a process. -/
inductive WaitError where
  | unknownProcess (pid : ProcessId)
  | backend (message : String)
  deriving DecidableEq, Repr

/-- Error of a shutdown. -/
inductive ShutdownError where
  | unverified (scopes : ℕ)
  deriving DecidableEq, Repr

/-- The value of a scope's cleanup channel. -/
abbrev CleanupResult := Except TerminateError ScopeTerminationReport

/-- A capture observer, by the number the backend gives it. -/
abbrev ProcessOutput := ℕ

/-- A moment of the injected clock. -/
abbrev Instant := ℕ

/-- The result of one sampling of a process, by number. -/
abbrev Sample := ℕ

/-- How many committed scopes a history retains. -/
@[irreducible] def SCOPE_REPORT_HISTORY_BOUND : ℕ := 256

/-- How many attached OS identities are remembered. -/
@[irreducible] def OS_PID_HISTORY_BOUND : ℕ := 256

/-- How many unclaimed captures of completed processes are retained. -/
@[irreducible] def OUTPUT_HISTORY_BOUND : ℕ := 256

/-- The last attached OS identities. -/
structure OsPidHistory where
  byPid : ExtTreeMap ProcessId ℕ
  order : List ProcessId

namespace OsPidHistory

/-- An empty history. -/
def empty : OsPidHistory := ⟨∅, []⟩

/-- Remembers an OS pid and evicts the oldest beyond the bound. -/
def remember (h : OsPidHistory) (pid : ProcessId) (osPid : ℕ) : OsPidHistory :=
  if h.byPid.contains pid then ⟨h.byPid.insert pid osPid, h.order⟩
  else
    let kept := retain OS_PID_HISTORY_BOUND h.order pid
    ⟨eraseAll (h.byPid.insert pid osPid) kept.2, kept.1⟩

end OsPidHistory

/-- What a call or a task returned. -/
inductive Ret where
  | created (result : Except ScopeCreationError ProcessScopeId)
  | spawned (scope : ProcessScopeId) (result : Except SpawnError ProcessId)
  | waited (pid : ProcessId) (result : Except WaitError ProcessExit)
  | terminated (pid : ProcessId) (result : Except TerminateError ProcessExit)
  | scopeTerminated (scope : ProcessScopeId) (result : CleanupResult)
  | finished (scope : ProcessScopeId) (result : CleanupResult)
  | cleanupWaited (scope : ProcessScopeId) (result : CleanupResult)
  | shutdown (result : Except ShutdownError (List ScopeTerminationReport))
  | tookOutput (pid : ProcessId) (output : Option ProcessOutput)
  | worker (scope : ProcessScopeId) (pid : ProcessId)
      (result : Except TerminateError ProcessExit)
  | workerFailed
  | done
  deriving DecidableEq

/-! ### History -/

/-- What can be observed of a run. -/
inductive Event where
  /-- A scope was created; with an observing owner, or without. -/
  | scopeCreated (scope : ProcessScopeId) (observed : Bool)
  /-- A scope was looked up in the reports or in the operation map. -/
  | lookedUp (scope : ProcessScopeId)
  /-- The operation lock of a scope was taken. -/
  | acquired (scope : ProcessScopeId)
  /-- The operation lock of a scope was released. -/
  | released (scope : ProcessScopeId)
  /-- A dropped future released all its guards. -/
  | guardsDropped
  /-- The flag `shutting_down` was set. -/
  | shutdownStarted
  /-- The flag `owners_dropped` was set. -/
  | ownersDropped
  /-- `backend.spawn` began. -/
  | spawnCalled (scope : ProcessScopeId)
  /-- `backend.spawn` returned. -/
  | spawnReturned (scope : ProcessScopeId) (result : Except SpawnError OsIdentity)
  /-- A spawned process was attached to its scope. -/
  | attached (scope : ProcessScopeId) (pid : ProcessId) (os : OsIdentity)
  /-- A spawned process could not be attached. -/
  | attachFailed (scope : ProcessScopeId) (os : OsIdentity)
  /-- The monitor of a process was started. -/
  | monitorStarted (scope : ProcessScopeId) (pid : ProcessId) (monitor : Tid)
  /-- The sampler mutex was busy when the sampler registered itself. -/
  | samplerBusy
  /-- A shutdown snapshot met a registered scope without an operation lock. -/
  | operationMissing
  /-- `backend.signal` returned. -/
  | signalSent (os : OsIdentity) (signal : Signal)
  /-- `backend.wait` began. -/
  | waitCalled (os : OsIdentity)
  /-- `backend.wait` returned: a raw exit, or an error. -/
  | waitReturned (os : OsIdentity) (result : Option RawExit)
  /-- `backend.hard_kill_all` was called. -/
  | hardKilledAll
  /-- `backend.hard_kill_scope` was called. -/
  | hardKilledScope (scope : ProcessScopeId)
  /-- `backend.cleanup_scope` returned. -/
  | swept (scope : ProcessScopeId) (result : Except TerminateError Unit)
  /-- The monitor recorded an exit in the registry. -/
  | reaped (scope : ProcessScopeId) (pid : ProcessId) (exit : ProcessExit)
  /-- A retry recorded a verified exit over unverified evidence. -/
  | recovered (scope : ProcessScopeId) (pid : ProcessId) (exit : ProcessExit)
  /-- An exit was signalled to the waiters. -/
  | exitSignalled (pid : ProcessId) (exit : ProcessExit)
  /-- A terminating call settled for an unverified exit. -/
  | gaveUp (pid : ProcessId)
  /-- A domain event was handed to the integration translator. -/
  | translated (event : DomainEvent)
  /-- A domain event reached the dispatcher's first handler. -/
  | dispatched (event : DomainEvent)
  /-- A scope went from open to draining, tracking the given processes. -/
  | drained (scope : ProcessScopeId) (tracked : List ProcessId)
  /-- A termination worker was started. -/
  | workerStarted (scope : ProcessScopeId) (pid : ProcessId) (worker : Tid)
  /-- The outcome of a termination worker entered the pending outcomes. -/
  | pended (scope : ProcessScopeId) (pid : ProcessId)
  /-- A commit began: the verified report was stored behind the operation lock. -/
  | committed (scope : ProcessScopeId) (report : ScopeTerminationReport)
  /-- A result changed the value of a cleanup channel. -/
  | published (scope : ProcessScopeId) (result : CleanupResult)
  /-- The scope entered the history of observed scopes. -/
  | resultRetained (scope : ProcessScopeId)
  /-- The report entered the report map. -/
  | reportRetained (scope : ProcessScopeId)
  /-- The scope left the registry; `lost` were still tracked, with no exit signalled. -/
  | scopeRemoved (scope : ProcessScopeId) (lost : List ProcessId)
  /-- The operation lock left its map. -/
  | operationRetired (scope : ProcessScopeId)
  /-- The pending outcomes were dropped. -/
  | pendingCleared (scope : ProcessScopeId)
  /-- The scope entered the report history; the commit is complete. -/
  | scopeCompleted (scope : ProcessScopeId)
  /-- `ScopeClosed` was handed to the dispatcher, in a task of its own. -/
  | closedHanded (scope : ProcessScopeId) (task : Tid)
  /-- A call or a task returned. -/
  | returned (value : Ret)
  deriving DecidableEq

/-- The scope whose operation lock an event needs. -/
def Event.guard : Event → Option ProcessScopeId
  | .spawnCalled c | .attached c _ _ | .monitorStarted c _ _ | .drained c _
  | .pended c _ | .committed c _ | .resultRetained c | .reportRetained c
  | .scopeRemoved c _ | .operationRetired c | .pendingCleared c | .scopeCompleted c
  | .closedHanded c _ => some c
  | _ => none

/-- Events with the tasks that caused them, newest first. -/
abbrev History := List (Tid × Event)

/-! ### State -/

/-- The object behind an operation lock: who holds it, and the committed report. -/
structure ScopeOperation where
  holder : Option Tid
  serial : Option ScopeTerminationReport

/-- What a joined termination worker left. -/
inductive WorkerResult where
  | ended (pid : ProcessId) (result : Except TerminateError ProcessExit)
  | failed

/-- The shared state. -/
structure Inner where
  registry : ScopeRegistry
  waiters : InMemoryWaiters
  spawnTimes : ExtTreeMap ProcessId Instant
  shuttingDown : Bool
  ownersDropped : Bool
  scopeOperations : ExtTreeMap ProcessScopeId Unit
  operations : ProcessScopeId → ScopeOperation
  samples : ExtTreeMap ProcessId Sample
  samplerStarted : Bool
  samplerTask : Bool
  samplerHolder : Option Tid
  outputs : ExtTreeMap ProcessId ProcessOutput
  scopeResults : ExtTreeMap ProcessScopeId Unit
  cleanup : ProcessScopeId → Option CleanupResult
  completedScopeResults : List ProcessScopeId
  completed : List ProcessId
  reports : ExtTreeMap ProcessScopeId RetainedScopeReport
  pendingOutcomes : ExtTreeMap ProcessScopeId (ExtTreeMap ProcessId TerminationOutcome)
  completedScopes : List ProcessScopeId
  shutdownHolder : Option Tid
  osPids : OsPidHistory
  /-- Observed scopes whose owner is neither consumed nor dropped. -/
  owners : ExtTreeMap ProcessScopeId Unit
  /-- Results of termination workers that ended. -/
  joined : Tid → Option WorkerResult
  nextTask : Tid
  history : History

namespace Inner

/-- A supervisor that was just constructed. -/
def new : Inner where
  registry := .new
  waiters := .new
  spawnTimes := ∅
  shuttingDown := false
  ownersDropped := false
  scopeOperations := ∅
  operations := fun _ => ⟨none, none⟩
  samples := ∅
  samplerStarted := false
  samplerTask := false
  samplerHolder := none
  outputs := ∅
  scopeResults := ∅
  cleanup := fun _ => none
  completedScopeResults := []
  completed := []
  reports := ∅
  pendingOutcomes := ∅
  completedScopes := []
  shutdownHolder := none
  osPids := .empty
  owners := ∅
  joined := fun _ => none
  nextTask := 0
  history := []

/-- Records an event. -/
def log (s : Inner) (t : Tid) (ev : Event) : Inner :=
  { s with history := (t, ev) :: s.history }

/-- A logged event is the newest. -/
@[simp] theorem log_history (s : Inner) (t : Tid) (ev : Event) :
    (s.log t ev).history = (t, ev) :: s.history := rfl

/-- Logging moves no operation lock. -/
@[simp] theorem log_operations (s : Inner) (t : Tid) (ev : Event) :
    (s.log t ev).operations = s.operations := rfl

/-- The pending outcome of a process in a scope. -/
def pending (s : Inner) (scope : ProcessScopeId) (pid : ProcessId) :
    Option TerminationOutcome :=
  (s.pendingOutcomes[scope]?).bind fun m => m[pid]?

/-- All pending outcomes of a scope. -/
def pendingOf (s : Inner) (scope : ProcessScopeId) : List (ProcessId × TerminationOutcome) :=
  match s.pendingOutcomes[scope]? with
  | some m => m.toList
  | none => []

end Inner

end Shepherd
