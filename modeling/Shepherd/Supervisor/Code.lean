import Mathlib.Data.List.Sort
import Shepherd.Supervisor.Ops

/-!
# Supervisor Code

The asynchronous functions of `supervisor.rs` and `dispatch.rs` as programs over the atomic
operations, in the order the source performs them.

A guard of an operation lock is dropped when the function that took it returns; here the
function is split into its serialised body and a wrapper that takes and releases the lock.
The shared parts are `dispatch`, which hands each event to the three handlers in turn, and
the two combinators `race` and `within`, which put an exit observer or a timeout beside
every await of a program.
-/

namespace Shepherd

open Conc

/-- A program of the supervisor. -/
abbrev Code := Prog Res

/-- A single operation. -/
def act (o : Op) : Code (Res o) := Prog.call o

/-- `EventDispatcher::dispatch`: each event to every handler, in order. -/
def dispatch : List DomainEvent → Code Unit
  | [] => pure ()
  | ev :: rest => do
      act (.notify ev)
      act (.prune ev)
      act (.translate ev)
      dispatch rest

/-- `tokio::select!` with an exit observer, polled beside a termination. A verified exit
settles the race; an unverified one leaves the termination to itself. -/
def race (observer : WaitFuture) :
    Code (Except TerminateError ProcessExit) → Code (Except TerminateError ProcessExit)
  | .pure result => .pure result
  | .op o k =>
      if o.awaits then
        .op (.orObserve observer o) fun
          | .inl exit => if exit.outcome.isVerified then .pure (.ok exit) else .op o k
          | .inr r => race observer (k r)
      else .op o fun r => race observer (k r)

/-- `tokio::time::timeout` around a program. -/
def within {α : Type} : Code α → Code (Option α)
  | .pure a => .pure (some a)
  | .op o k =>
      if o.awaits then
        .op (.orElapsed o) fun
          | none => .pure none
          | some r => within (k r)
      else .op o fun r => within (k r)

/-! ### Spawning -/

/-- Kills and reaps a process that was spawned too late. -/
def killOrphan (os : OsIdentity) : Code Unit := do
  act (.signal os .kill)
  act (.waitCall os)
  let _ ← act (.waitReturn os)

/-- Starts the sampler once; `false` when the sampler mutex was busy. -/
def startSampler : Code Bool := do
  if ← act .startSampler then return true
  else act .registerSampler

/-- `spawn_owned` after a process was attached. -/
def superviseSpawned (c : ProcessScopeId) (pid : ProcessId) (os : OsIdentity)
    (events : List DomainEvent) (admission : Bool) : Code (Except SpawnError ProcessId) := do
  act (.insertSpawnTime pid)
  act (.rememberOsPid pid os)
  act (.keepOutput pid admission)
  act (.startMonitor c pid os)
  if ← startSampler then
    dispatch events
    return .ok pid
  else return .error (.os "spawn worker failed")

/-- `spawn_owned` from the backend call on. -/
def spawnProcess (c : ProcessScopeId) (spec : ProcessSpec) (admission : Bool) :
    Code (Except SpawnError ProcessId) := do
  act (.spawnCall c spec)
  match ← act (.spawnReturn c) with
  | .error e => return .error e
  | .ok os =>
      if ← act .loadOwnersDropped then
        act .hardKillAll
        killOrphan os
        return .error (.scopeClosed c)
      else
        match ← act (.attach c os spec) with
        | .ok pid events => superviseSpawned c pid os events admission
        | .closed =>
            killOrphan os
            return .error (.scopeClosed c)
        | .unknown =>
            killOrphan os
            return .error (.unknownScope c)

/-- `spawn_owned` under the operation lock: the admission checks, then the spawn. -/
def spawnSerialized (c : ProcessScopeId) (spec : ProcessSpec) (admission : Bool) :
    Code (Except SpawnError ProcessId) := do
  if ← act .loadShuttingDown then return .error (.scopeClosed c)
  else
    match ← act (.reportOf c) with
    | some _ => return .error (.scopeClosed c)
    | none =>
        match ← act (.admitsProcesses c) with
        | none => return .error (.unknownScope c)
        | some false => return .error (.scopeClosed c)
        | some true => spawnProcess c spec admission

/-- `spawn_owned`. -/
def spawnOwned (c : ProcessScopeId) (spec : ProcessSpec) (admission : Bool) :
    Code (Except SpawnError ProcessId) := do
  if ← act (.scopeOperation c) then
    match ← act (.lockOperation c) with
    | some _ =>
        act (.unlockOperation c)
        return .error (.scopeClosed c)
    | none =>
        let result ← spawnSerialized c spec admission
        act (.unlockOperation c)
        return result
  else
    match ← act (.reportOf c) with
    | some _ => return .error (.scopeClosed c)
    | none => return .error (.unknownScope c)

/-- The monitor task of a process. -/
def monitor (c : ProcessScopeId) (pid : ProcessId) (os : OsIdentity) : Code Unit := do
  act (.waitCall os)
  let waitResult ← act (.waitReturn os)
  match ← act (.recordMonitored c pid waitResult) with
  | none => return
  | some events =>
      act (.removeSample pid)
      if waitResult.isSome then act (.retainCompletedOutput pid) else pure ()
      dispatch events
      act (.removeSpawnTime pid)

/-! ### Waiting for and terminating a process -/

/-- `wait`. -/
def wait (pid : ProcessId) : Code (Except WaitError ProcessExit) := do
  match ← act (.tryGet pid) with
  | some exit => return .ok exit
  | none =>
      match ← act (.registerWait pid) with
      | .unowned (some exit) => return .ok exit
      | .unowned none => return .error (.unknownProcess pid)
      | .exited exit => return .ok exit
      | .registered exitFuture =>
          let exit ← act (.awaitExit exitFuture)
          return .ok exit

/-- `record_recovered_exit`. -/
def recordRecoveredExit (c : ProcessScopeId) (pid : ProcessId) (raw : RawExit) :
    Code (Except TerminateError ProcessExit) := do
  match ← act (.recordRecovered c pid raw) with
  | .error e => return .error (.domain e)
  | .ok (exit, events) =>
      dispatch events
      return .ok exit

/-- `retry_quarantined` from its last observation on. -/
def retryForced (c : ProcessScopeId) (pid : ProcessId) (os : OsIdentity)
    (opts : TerminateOptions) : Code (Except TerminateError ProcessExit) := do
  match ← act (.retryWait pid os opts.forceTimeout) with
  | some (some raw) => recordRecoveredExit c pid raw
  | some none => return .ok (unverifiedExit pid .reapFailed)
  | none =>
      return .ok (unverifiedExit pid (.waitTimedOut (opts.forceTimeout.getD 0)))

/-- `retry_quarantined`: at most two fresh wait attempts. -/
def retryQuarantined (c : ProcessScopeId) (pid : ProcessId) (os : OsIdentity)
    (graceful : Signal) (opts : TerminateOptions) :
    Code (Except TerminateError ProcessExit) := do
  act (.signal os graceful)
  act (.waitCall os)
  match ← act (.waitOrElapsed os) with
  | some (some raw) => recordRecoveredExit c pid raw
  | some none =>
      act .sleep
      act (.signal os .kill)
      act (.waitCall os)
      retryForced c pid os opts
  | none =>
      act (.signal os .kill)
      retryForced c pid os opts

/-- `terminate` from the graceful signal on. -/
def terminateSignalled (c : ProcessScopeId) (pid : ProcessId) (os : OsIdentity)
    (graceful : Signal) (exitFuture : WaitFuture) (opts : TerminateOptions) :
    Code (Except TerminateError ProcessExit) := do
  act (.signal os graceful)
  match ← act (.exitOrElapsed pid exitFuture) with
  | some exit => return .ok exit
  | none =>
      act (.escalate c pid)
      act (.signal os .kill)
      match ← act (.exitOrGiveUp pid exitFuture opts.forceTimeout) with
      | some exit => return .ok exit
      | none =>
          return .ok (unverifiedExit pid (.waitTimedOut (opts.forceTimeout.getD 0)))

/-- `terminate`. -/
def terminate (pid : ProcessId) (opts : TerminateOptions) :
    Code (Except TerminateError ProcessExit) := do
  match (← act (.tryGet pid)).filter fun e => e.outcome.isVerified with
  | some exit => return .ok exit
  | none =>
      match ← act (.beginTermination pid) with
      | .unowned (some exit) => return .ok exit
      | .unowned none => return .error (.unknownProcess pid)
      | .verified exit => return .ok exit
      | .refused e => return .error (.domain e)
      | .requested c os graceful events quarantined exitFuture =>
          if quarantined then retryQuarantined c pid os graceful opts
          else
            dispatch events
            match ← act (.tryGet pid) with
            | some exit =>
                if exit.outcome.isVerified then return .ok exit
                else retryQuarantined c pid os graceful opts
            | none => terminateSignalled c pid os graceful exitFuture opts

/-! ### Terminating a scope -/

/-- A termination worker: the observer captured at the draining boundary is polled first. -/
def worker (pid : ProcessId) (observer : WaitFuture) (opts : TerminateOptions) :
    Code (Except TerminateError ProcessExit) := do
  match ← act (.poll observer) with
  | some exit => if exit.outcome.isVerified then return .ok exit else terminate pid opts
  | none => race observer (terminate pid opts)

/-- Starts a worker for every process. -/
def startWorkers (c : ProcessScopeId) (opts : TerminateOptions) :
    List (ProcessId × WaitFuture) → Code (List Tid)
  | [] => pure []
  | (pid, observer) :: rest => do
      let w ← act (.startWorker c pid observer opts)
      let ws ← startWorkers c opts rest
      return w :: ws

/-- Joins the workers as they end, entering their outcomes; `false` when one failed. -/
def joinWorkers (c : ProcessScopeId) : ℕ → List Tid → Code Bool
  | 0, _ => pure true
  | n + 1, workers => do
      let (w, result) ← act (.joinNext workers)
      match result with
      | .ended pid (.ok exit) =>
          act (.pend c pid exit.outcome)
          joinWorkers c n (workers.erase w)
      | .ended pid (.error _) =>
          act (.pend c pid (.cleanupUnverified .processDisappeared))
          joinWorkers c n (workers.erase w)
      | .failed => return false

/-- Waits for one process again, within the force timeout if there is one. -/
def reobserveOne (opts : TerminateOptions) (pid : ProcessId) :
    Code (Option (Except WaitError ProcessExit)) :=
  match opts.forceTimeout with
  | some _ => within (wait pid)
  | none => do return some (← wait pid)

/-- Re-observes the processes without a verified outcome. -/
def reobserve (opts : TerminateOptions) :
    List (ProcessId × TerminationOutcome) → Code (List (ProcessId × TerminationOutcome))
  | [] => pure []
  | (pid, outcome) :: rest => do
      if outcome.isVerified then
        let rest ← reobserve opts rest
        return (pid, outcome) :: rest
      else
        match ← reobserveOne opts pid with
        | some (.ok exit) =>
            let rest ← reobserve opts rest
            return (pid, exit.outcome) :: rest
        | _ =>
            let rest ← reobserve opts rest
            return (pid, outcome) :: rest

/-- Outcomes in the order of their process identifiers. -/
def sortByPid (outcomes : List (ProcessId × TerminationOutcome)) :
    List (ProcessId × TerminationOutcome) :=
  outcomes.insertionSort fun a b => a.1 ≤ b.1

/-- The second half of a commit: the report replaces the scope in the stores, one lock at
a time. -/
def retireScope (c : ProcessScopeId) (report : ScopeTerminationReport) : Code Unit := do
  act (.retainReport c report)
  act (.removeScope c)
  act (.retireOperation c)
  act (.clearPending c)
  act (.completeScope c)
  act (.handScopeClosed c)

/-- The commit of a verified report: an observed scope gets its result first. -/
def commit (c : ProcessScopeId) (report : ScopeTerminationReport) : Code Unit := do
  act (.setSerial c report)
  if ← act (.resultSender c) then
    act (.publish c (.ok report))
    act (.retainResult c)
    retireScope c report
  else retireScope c report

/-- `terminate_scope_operation` from the containment sweep on. -/
def concludeScope (c : ProcessScopeId) (opts : TerminateOptions) : Code CleanupResult := do
  match ← act (.cleanupScope c) with
  | .error e => return .error e
  | .ok () =>
      let outcomes ← act (.readPending c)
      let outcomes ← reobserve opts outcomes
      let outcomes ← act (.mergePending c outcomes)
      let report : ScopeTerminationReport := ⟨c, sortByPid outcomes⟩
      if report.allVerified then
        commit c report
        return .ok report
      else return .ok report

/-- `terminate_scope_operation` under the operation lock. -/
def terminateScopeSerialized (c : ProcessScopeId) (opts : TerminateOptions) :
    Code CleanupResult := do
  match ← act (.reportOf c) with
  | some report => return .ok report
  | none =>
      match ← act (.drain c) with
      | none => return .error (.unknownScope c)
      | some (events, live) =>
          dispatch events
          let workers ← startWorkers c opts live
          if ← joinWorkers c workers.length workers then concludeScope c opts
          else return .error (.signal "termination worker failed")

/-- `terminate_scope_operation`. -/
def terminateScopeOperation (c : ProcessScopeId) (opts : TerminateOptions) :
    Code CleanupResult := do
  match ← act (.lockOperation c) with
  | some report =>
      act (.unlockOperation c)
      return .ok report
  | none =>
      let result ← terminateScopeSerialized c opts
      act (.unlockOperation c)
      return result

/-- `terminate_scope`. -/
def terminateScope (c : ProcessScopeId) (opts : TerminateOptions) : Code CleanupResult := do
  match ← act (.reportOf c) with
  | some report => return .ok report
  | none =>
      if ← act (.scopeOperation c) then terminateScopeOperation c opts
      else
        match ← act (.reportOf c) with
        | some report => return .ok report
        | none => return .error (.unknownScope c)

/-! ### Observed scopes -/

/-- `finish_scope_cleanup` after the termination: the verified report of the channel, if
there is one, or the termination's own result behind a hard kill. -/
def completeCleanup (c : ProcessScopeId) (result : CleanupResult) : Code CleanupResult := do
  match ← act (.verifiedReport c) with
  | some report =>
      act (.publish c (.ok report))
      return .ok report
  | none =>
      if Inner.isVerifiedResult (some result) then
        act (.publish c result)
        return result
      else
        act (.hardKillScope c)
        act (.publish c result)
        return result

/-- `finish_scope_cleanup`. -/
def finishScopeCleanup (c : ProcessScopeId) (opts : TerminateOptions) :
    Code CleanupResult := do
  match ← act (.verifiedReport c) with
  | some report => completeCleanup c (.ok report)
  | none =>
      let result ← terminateScope c opts
      completeCleanup c result

/-- The drop of an armed `ScopeCleanupBackstop`. -/
def dropBackstop (c : ProcessScopeId) : Code Unit := do
  match ← act (.verifiedReport c) with
  | some _ => return
  | none =>
      act (.hardKillScope c)
      act (.publish c (.error (.signal
        "scope cleanup interrupted or unverified; synchronous backstop issued")))

/-- The publication of a `with_scope` block whose cleanup worker failed. -/
def publishWorkerError (c : ProcessScopeId) (withScope : Bool) : Code Unit :=
  if withScope then act (.publish c (.error (.signal "scope cleanup worker failed")))
  else pure ()

/-- `wait_scope_cleanup`. -/
def waitScopeCleanup (c : ProcessScopeId) : Code CleanupResult := do
  if ← act (.subscribeCleanup c) then act (.awaitCleanup c)
  else return .error (.unknownScope c)

/-! ### Shutdown -/

/-- Terminates the scopes of a shutdown snapshot: the reports, and how many scopes could
not be verified. -/
def shutdownScopes : List ProcessScopeId → Code (List ScopeTerminationReport × ℕ)
  | [] => pure ([], 0)
  | c :: rest => do
      match ← terminateScopeOperation c .default with
      | .ok report =>
          let (reports, unverified) ← shutdownScopes rest
          return (report :: reports, if report.allVerified then unverified else unverified + 1)
      | .error _ =>
          let (reports, unverified) ← shutdownScopes rest
          return (reports, unverified + 1)

/-- The end of a shutdown: stops and joins the sampler. -/
def joinSampler : Code Unit := do
  if ← act .lockSampler then
    act .joinSampler
    act .clearSampler
    act .unlockSampler
  else act .unlockSampler

/-- `shutdown`; a failed `expect` unwinds without a result. -/
def shutdown : Code Ret := do
  act .storeShuttingDown
  act .lockShutdown
  match ← act .snapshot with
  | none =>
      act .unlockShutdown
      return .done
  | some scopes =>
      let (reports, unverified) ← shutdownScopes scopes
      if unverified > 0 then
        act .unlockShutdown
        return .shutdown (.error (.unverified unverified))
      else
        joinSampler
        act .unlockShutdown
        return .shutdown (.ok reports)

/-- The drop of the last user-facing handle. -/
def dropCleanupGuard : Code Unit := do
  act .storeOwnersDropped
  act .storeShuttingDown
  act .hardKillAll

end Shepherd
