import Shepherd.Supervisor.State

/-!
# Critical Sections

The parts of `supervisor.rs` and `dispatch.rs` that run under one outermost mutex, each as
a function on the shared state. Inner mutexes that a section takes while it holds the outer
one are part of the section. Between two sections of one task any other task can run.

Every section records what it did in the history, under the task `t` that runs it.
-/

open Std

namespace Shepherd

open Conc

/-- The `retain` that keeps `ScopeClosed` from the dispatcher. -/
def withoutScopeClosed (events : List DomainEvent) : List DomainEvent :=
  events.filter fun ev => !ev.isScopeClosed

/-! ### Outcomes by scope -/

/-- The pending outcomes of one scope. -/
abbrev Outcomes := ExtTreeMap ProcessId TerminationOutcome

/-- `entry(scope).or_default()`, changed in place. -/
def pendingEntry (m : ExtTreeMap ProcessScopeId Outcomes) (scope : ProcessScopeId)
    (f : Outcomes → Outcomes) : ExtTreeMap ProcessScopeId Outcomes :=
  m.insert scope (f (m[scope]?.getD ∅))

/-- Inserts an outcome unless a verified one is there. -/
def Outcomes.keepVerified (m : Outcomes) (pid : ProcessId) (outcome : TerminationOutcome) :
    Outcomes :=
  match m[pid]? with
  | some previous => if previous.isVerified then m else m.insert pid outcome
  | none => m.insert pid outcome

/-- Inserts a list of outcomes, one after the other. -/
def Outcomes.keepAll (m : Outcomes) (outcomes : List (ProcessId × TerminationOutcome)) :
    Outcomes :=
  outcomes.foldl (fun m po => Outcomes.keepVerified m po.1 po.2) m

/-! ### Exits as they are derived -/

/-- The exit the monitor records: what `wait` observed, by the state of the process. -/
def monitoredExit (process : Process) (pid : ProcessId) (waitResult : Option RawExit) :
    ProcessExit :=
  let raw := waitResult.getD ⟨none, none, false⟩
  let killed := raw.signal = some .kill
  { pid := pid
    code := raw.code
    signal := raw.signal
    outcome :=
      if waitResult = none then .cleanupUnverified .reapFailed
      else if !process.state.isTerminating then .exitedNaturally
      else if killed then .forcedRequired
      else .gracefulSuccess
    forced := killed }

/-- The exit a retry records. -/
def recoveredExit (pid : ProcessId) (raw : RawExit) : ProcessExit :=
  let killed := raw.signal = some .kill
  { pid := pid
    code := raw.code
    signal := raw.signal
    outcome := if killed then .forcedRequired else .gracefulSuccess
    forced := killed }

/-- The exit of a call that gave up on a process. -/
def unverifiedExit (pid : ProcessId) (reason : UnverifiedReason) : ProcessExit where
  pid := pid
  code := none
  signal := none
  outcome := .cleanupUnverified reason
  forced := true

/-- `record_exit` followed by `record_reaped`, as the monitor calls them. -/
def ProcessScope.recordMonitored (sc : ProcessScope) (pid : ProcessId) (exit : ProcessExit) :
    List DomainEvent × ProcessScope :=
  let exited := sc.recordExit pid
  let reaped := exited.2.recordReaped pid exit
  (exited.1.toOption.getD [] ++ reaped.1.toOption.getD [], reaped.2)

/-- What came of attaching a spawned process. -/
inductive Attach where
  | ok (pid : ProcessId) (events : List DomainEvent)
  | closed
  | unknown

/-- What `terminate` found under the registry lock. -/
inductive TerminateLookup where
  /-- No scope owns the process; the waiters' answer. -/
  | unowned (exit : Option ProcessExit)
  /-- A verified exit is recorded. -/
  | verified (exit : ProcessExit)
  /-- The domain refused the request. -/
  | refused (error : DomainError)
  /-- Termination was requested. -/
  | requested (scope : ProcessScopeId) (os : OsIdentity) (graceful : Signal)
      (events : List DomainEvent) (quarantined : Bool) (exitFuture : WaitFuture)

/-- What `wait` found under the registry lock. -/
inductive WaitLookup where
  | unowned (exit : Option ProcessExit)
  | exited (exit : ProcessExit)
  | registered (exitFuture : WaitFuture)

/-- The process whose exit an event signals. -/
def Event.signals : Event → Option ProcessId
  | .exitSignalled pid _ => some pid
  | _ => none

/-- The processes whose exits were signalled, newest first. -/
def signalLog (h : History) : List ProcessId :=
  h.filterMap fun x => x.2.signals

namespace Inner

/-! ### Scopes -/

/-- `try_create_scope_before_publish`, under the registry lock; an observed scope gets its
cleanup channel before it is published. -/
def createScope (s : Inner) (t : Tid) (observed : Bool) :
    Except ScopeCreationError ProcessScopeId × Inner :=
  if s.shuttingDown then (.error .supervisorClosed, s)
  else
    let c := s.registry.createScope.1
    (.ok c, { s with
      registry := s.registry.createScope.2
      scopeResults := if observed then s.scopeResults.insert c () else s.scopeResults
      cleanup := if observed then Function.update s.cleanup c none else s.cleanup
      owners := if observed then s.owners.insert c () else s.owners
      scopeOperations := s.scopeOperations.insert c ()
      operations := Function.update s.operations c ⟨none, none⟩ }.log t
        (.scopeCreated c observed))

/-- The retained report of a scope. -/
def reportOf (s : Inner) (c : ProcessScopeId) : Option ScopeTerminationReport :=
  (s.reports[c]?).map RetainedScopeReport.report

/-- Takes the operation lock. -/
def lockOperation (s : Inner) (t : Tid) (c : ProcessScopeId) : Inner :=
  { s with
    operations := Function.update s.operations c
      { s.operations c with holder := some t } }.log t (.acquired c)

/-- Releases the operation lock. -/
def unlockOperation (s : Inner) (t : Tid) (c : ProcessScopeId) : Inner :=
  { s with
    operations := Function.update s.operations c
      { s.operations c with holder := none } }.log t (.released c)

/-- Releases every guard of a task. -/
def dropGuards (s : Inner) (t : Tid) : Inner :=
  { s with
    operations := fun c =>
      if (s.operations c).holder = some t then { s.operations c with holder := none }
      else s.operations c
    shutdownHolder := if s.shutdownHolder = some t then none else s.shutdownHolder
    samplerHolder := if s.samplerHolder = some t then none else s.samplerHolder }.log t
      .guardsDropped

/-! ### Spawning -/

/-- Attaches a spawned process under a fresh identifier. -/
def attach (s : Inner) (t : Tid) (c : ProcessScopeId) (os : OsIdentity) (spec : ProcessSpec) :
    Attach × Inner :=
  let pid := s.registry.nextProcessId.1
  let registry := s.registry.nextProcessId.2
  match registry.get c with
  | none => (.unknown, { s with registry := registry }.log t (.attachFailed c os))
  | some sc =>
      match (sc.attachSpawned pid os spec).1 with
      | .ok event =>
          (.ok pid [event], { s with
            registry := registry.modify c (fun sc => (sc.attachSpawned pid os spec).2)
              fun sc => sc.attachSpawned_id pid os spec }.log t (.attached c pid os))
      | .error _ => (.closed, { s with registry := registry }.log t (.attachFailed c os))

/-- Transfers the capture and exit observers to the admitted caller, or keeps the capture
for `take_output`. -/
def keepOutput (s : Inner) (pid : ProcessId) (output : Option ProcessOutput)
    (admission : Bool) : Inner :=
  if admission then { s with waiters := (s.waiters.wait pid).2 }
  else
    match output with
    | some output => { s with outputs := s.outputs.insert pid output }
    | none => s

/-- `retain_completed_output`: a claimed or uncaptured process leaves no trace. -/
def retainCompletedOutput (s : Inner) (pid : ProcessId) : Inner :=
  if s.outputs.contains pid && !s.completed.contains pid then
    { s with
      completed := (Conc.retain OUTPUT_HISTORY_BOUND s.completed pid).1
      outputs := eraseAll s.outputs (Conc.retain OUTPUT_HISTORY_BOUND s.completed pid).2 }
  else s

/-- `take_output`: the capture leaves the map, and its slot the queue. -/
def takeOutput (s : Inner) (pid : ProcessId) : Option ProcessOutput × Inner :=
  (s.outputs[pid]?, { s with
    outputs := s.outputs.erase pid
    completed := s.completed.filter fun retained => retained != pid })

/-! ### Evidence -/

/-- The monitor's record of a finished wait, under the registry lock; `none` when the
scope or the process is gone. -/
def recordMonitored (s : Inner) (t : Tid) (c : ProcessScopeId) (pid : ProcessId)
    (waitResult : Option RawExit) : Option (List DomainEvent) × Inner :=
  match s.registry.get c with
  | none => (none, s)
  | some sc =>
      match sc.get pid with
      | none => (none, s)
      | some process =>
          let exit := monitoredExit process pid waitResult
          (some (withoutScopeClosed (sc.recordMonitored pid exit).1), { s with
            registry := s.registry.modify c (fun sc => (sc.recordMonitored pid exit).2)
              fun sc => by simp [ProcessScope.recordMonitored]
            pendingOutcomes :=
              if (sc.recordMonitored pid exit).2.isOpen then s.pendingOutcomes
              else pendingEntry s.pendingOutcomes c fun m => m.insert pid exit.outcome }.log t
                (.reaped c pid exit))

/-- Publishes an exit to the waiters. -/
def signalExit (s : Inner) (t : Tid) (pid : ProcessId) (exit : ProcessExit) : Inner :=
  { s with waiters := s.waiters.signalExit pid exit }.log t (.exitSignalled pid exit)

/-- The record of a recovered exit in the registry: the verified exit that is there
already, or the new one with the events of its reap. -/
def storeRecovered (s : Inner) (t : Tid) (c : ProcessScopeId) (pid : ProcessId)
    (exit : ProcessExit) : Except DomainError (ProcessExit × List DomainEvent) × Inner :=
  match s.registry.get c with
  | none => (.ok (exit, []), s)
  | some sc =>
      match (sc.exitOf pid).filter fun e => e.outcome.isVerified with
      | some previous => (.ok (previous, []), s)
      | none =>
          if sc.contains pid then
            match (sc.recordReaped pid exit).1 with
            | .error e => (.error e, s)
            | .ok events =>
                (.ok (exit, events), { s with
                  registry := s.registry.modify c (fun sc => (sc.recordReaped pid exit).2)
                    fun sc => sc.recordReaped_id pid exit
                  pendingOutcomes :=
                    if (sc.recordReaped pid exit).2.isOpen then s.pendingOutcomes
                    else pendingEntry s.pendingOutcomes c fun m =>
                      m.insert pid exit.outcome }.log t (.recovered c pid exit))
          else (.ok (exit, []), s)

/-- `record_recovered_exit` up to its dispatch, under the registry lock. -/
def recordRecovered (s : Inner) (t : Tid) (c : ProcessScopeId) (pid : ProcessId)
    (raw : RawExit) : Except DomainError (ProcessExit × List DomainEvent) × Inner :=
  let stored := s.storeRecovered t c pid (recoveredExit pid raw)
  match stored.1 with
  | .error e => (.error e, stored.2)
  | .ok (exit, events) =>
      (.ok (exit, withoutScopeClosed events),
        (stored.2.retainCompletedOutput pid).signalExit t pid exit)

/-- `WaitNotifierHandler::handle`: an unverified exit is signalled only while the registry
still holds unverified evidence. -/
def notify (s : Inner) (t : Tid) (ev : DomainEvent) : Inner :=
  match ev with
  | .processReaped c pid exit =>
      if exit.outcome.isVerified then (s.log t (.dispatched ev)).signalExit t pid exit
      else if (s.registry.get c).any fun sc =>
          (sc.exitOf pid).any fun current => !current.outcome.isVerified then
        (s.log t (.dispatched ev)).signalExit t pid exit
      else s.log t (.dispatched ev)
  | ev => s.log t (.dispatched ev)

/-- `RegistryPruneHandler::handle`. -/
def prune (s : Inner) (ev : DomainEvent) : Inner :=
  match ev with
  | .processReaped c pid exit =>
      if exit.outcome.isVerified then
        { s with
          registry := s.registry.modify c (fun sc => sc.prune pid)
            fun sc => sc.prune_id pid }
      else s
  | _ => s

/-! ### Terminating a process -/

/-- The registry section of `terminate`. The owner that `scope_of` found is there and
tracks the process, so the two inner lookups succeed. -/
def beginTermination (s : Inner) (pid : ProcessId) : TerminateLookup × Inner :=
  match s.registry.scopeOf pid with
  | none => (.unowned (s.waiters.tryGet pid), s)
  | some c =>
      match s.registry.get c with
      | none => (.unowned none, s)
      | some sc =>
          match sc.get pid with
          | none => (.unowned none, s)
          | some process =>
              match process.exit.filter fun e => e.outcome.isVerified with
              | some exit => (.verified exit, s)
              | none =>
                  match (sc.requestTermination pid).1 with
                  | .error e => (.refused e, s)
                  | .ok events =>
                      (.requested c process.os process.spec.gracefulSignal events
                        process.exit.isSome (s.waiters.wait pid).1, { s with
                          registry := s.registry.modify c
                            (fun sc => (sc.requestTermination pid).2)
                            fun sc => sc.requestTermination_id pid
                          waiters := (s.waiters.wait pid).2 })

/-- The registry section of the force phase. -/
def escalate (s : Inner) (c : ProcessScopeId) (pid : ProcessId) : Inner :=
  { s with
    registry := s.registry.modify c (fun sc => (sc.escalateTermination pid).2)
      fun sc => sc.escalateTermination_id pid }

/-- The registry section of `wait`. -/
def registerWait (s : Inner) (pid : ProcessId) : WaitLookup × Inner :=
  match (s.registry.scopeOf pid).bind s.registry.get with
  | none => (.unowned (s.waiters.tryGet pid), s)
  | some sc =>
      match sc.exitOf pid with
      | some exit => (.exited exit, s)
      | none =>
          (.registered (s.waiters.wait pid).1, { s with waiters := (s.waiters.wait pid).2 })

/-! ### Terminating a scope -/

/-- The observers of the processes of a scope: the exit that is recorded, or a future. -/
def observers (sc : ProcessScope) : List ProcessId → InMemoryWaiters →
    List (ProcessId × WaitFuture) × InMemoryWaiters
  | [], w => ([], w)
  | pid :: rest, w =>
      match sc.exitOf pid with
      | some exit =>
          ((pid, .ready exit) :: (observers sc rest w).1, (observers sc rest w).2)
      | none =>
          ((pid, (w.wait pid).1) :: (observers sc rest (w.wait pid).2).1,
            (observers sc rest (w.wait pid).2).2)

/-- The recorded exits of a scope. -/
def recordedExits (sc : ProcessScope) : List (ProcessId × TerminationOutcome) :=
  sc.processIds.filterMap fun pid => (sc.exitOf pid).map fun exit => (pid, exit.outcome)

/-- The registry section of `terminate_scope_operation`: to draining, with the exits
recorded so far captured at the same lock boundary. -/
def drain (s : Inner) (t : Tid) (c : ProcessScopeId) :
    Option (List DomainEvent × List (ProcessId × WaitFuture)) × Inner :=
  match s.registry.get c with
  | none => (none, s)
  | some sc =>
      let sc' := sc.beginScopeTermination.2
      let exits := recordedExits sc'
      let live := observers sc' sc'.processIds s.waiters
      let s' := { s with
        registry := s.registry.modify c (fun sc => sc.beginScopeTermination.2)
          fun sc => sc.beginScopeTermination_id
        waiters := live.2
        pendingOutcomes :=
          if exits.isEmpty then s.pendingOutcomes
          else pendingEntry s.pendingOutcomes c fun m =>
            exits.foldl (fun m po => m.insertIfNew po.1 po.2) m }
      (some (withoutScopeClosed sc.beginScopeTermination.1, live.1),
        if sc.isOpen then s'.log t (.drained c sc'.processIds) else s')

/-- Enters the outcome of a joined worker. -/
def pend (s : Inner) (t : Tid) (c : ProcessScopeId) (pid : ProcessId)
    (outcome : TerminationOutcome) : Inner :=
  { s with
    pendingOutcomes := pendingEntry s.pendingOutcomes c fun m =>
      Outcomes.keepVerified m pid outcome }.log t (.pended c pid)

/-- Enters the re-observed outcomes and reads them all back. -/
def mergePending (s : Inner) (c : ProcessScopeId)
    (outcomes : List (ProcessId × TerminationOutcome)) :
    List (ProcessId × TerminationOutcome) × Inner :=
  let s' := { s with
    pendingOutcomes := pendingEntry s.pendingOutcomes c fun m =>
      Outcomes.keepAll m outcomes }
  (s'.pendingOf c, s')

/-! ### The commit -/

/-- `*serial = Some(report)`. -/
def setSerial (s : Inner) (t : Tid) (c : ProcessScopeId) (report : ScopeTerminationReport) :
    Inner :=
  { s with
    operations := Function.update s.operations c
      { s.operations c with serial := some report } }.log t (.committed c report)

/-- Whether a cleanup result is a verified report. -/
def isVerifiedResult : Option CleanupResult → Bool
  | some (.ok report) => report.allVerified
  | _ => false

/-- `publish_scope_cleanup_result`: a verified report is final. -/
def publish (s : Inner) (t : Tid) (c : ProcessScopeId) (result : CleanupResult) : Inner :=
  if isVerifiedResult (s.cleanup c) then s
  else { s with cleanup := Function.update s.cleanup c (some result) }.log t
    (.published c result)

/-- The verified report on a cleanup channel. -/
def verifiedReport (s : Inner) (c : ProcessScopeId) : Option ScopeTerminationReport :=
  match s.cleanup c with
  | some (.ok report) => if report.allVerified then some report else none
  | _ => none

/-- Enters an observed scope into its bounded history. -/
def retainResult (s : Inner) (t : Tid) (c : ProcessScopeId) : Inner :=
  let kept := Conc.retain SCOPE_REPORT_HISTORY_BOUND s.completedScopeResults c
  { s with
    completedScopeResults := kept.1
    scopeResults := eraseAll s.scopeResults kept.2 }.log t (.resultRetained c)

/-- Enters the report into the report map. -/
def retainReport (s : Inner) (t : Tid) (c : ProcessScopeId)
    (report : ScopeTerminationReport) : Inner :=
  { s with reports := s.reports.insert c (.retain report) }.log t (.reportRetained c)

/-- The processes a scope still tracks without any exit signalled to the waiters. -/
def unsignalled (s : Inner) (c : ProcessScopeId) : List ProcessId :=
  match s.registry.get c with
  | some sc => sc.processIds.filter fun pid => !(signalLog s.history).contains pid
  | none => []

/-- Removes the scope from the registry. -/
def removeScope (s : Inner) (t : Tid) (c : ProcessScopeId) : Inner :=
  { s with registry := s.registry.remove c }.log t (.scopeRemoved c (s.unsignalled c))

/-- Removes the operation lock from its map. -/
def retireOperation (s : Inner) (t : Tid) (c : ProcessScopeId) : Inner :=
  { s with scopeOperations := s.scopeOperations.erase c }.log t (.operationRetired c)

/-- Drops the pending outcomes. -/
def clearPending (s : Inner) (t : Tid) (c : ProcessScopeId) : Inner :=
  { s with pendingOutcomes := s.pendingOutcomes.erase c }.log t (.pendingCleared c)

/-- Enters the scope into the bounded report history. -/
def completeScope (s : Inner) (t : Tid) (c : ProcessScopeId) : Inner :=
  let kept := Conc.retain SCOPE_REPORT_HISTORY_BOUND s.completedScopes c
  { s with
    completedScopes := kept.1
    reports := eraseAll s.reports kept.2 }.log t (.scopeCompleted c)

/-! ### Shutdown -/

/-- The scopes to shut down; `none` when a registered scope has no operation lock. -/
def snapshot (s : Inner) : Option (List ProcessScopeId) :=
  if s.registry.scopeIds.all fun c => s.scopeOperations.contains c then
    some s.registry.scopeIds
  else none

/-- The sampler's store of an observation, checked under the registry lock. -/
def storeSample (s : Inner) (pid : ProcessId) (sample : Sample) : Inner :=
  if ((s.registry.scopeOf pid).bind s.registry.get).any fun sc =>
      (sc.get pid).any fun p => p.state.isLive then
    { s with samples := s.samples.insert pid sample }
  else s

/-- The return of a task: its value, and the result a joiner will find. -/
def finish (s : Inner) (t : Tid) (v : Ret) : Inner :=
  { s with
    joined := match v with
      | .worker _ pid result => Function.update s.joined t (some (.ended pid result))
      | .workerFailed => Function.update s.joined t (some .failed)
      | _ => s.joined }.log t (.returned v)

/-! ### What a recovery leaves alone -/

/-- What storing a recovered exit changes: the registry, the pending outcomes and the history. -/
theorem storeRecovered_frame (s : Inner) (t : Tid) (c : ProcessScopeId) (pid : ProcessId)
    (exit : ProcessExit) : ∃ registry pendingOutcomes history,
      (s.storeRecovered t c pid exit).2 = { s with registry, pendingOutcomes, history } := by
  rw [storeRecovered]
  repeat' split
  all_goals exact ⟨_, _, _, rfl⟩

/-- What retaining a capture changes: the captures and their history. -/
theorem retainCompletedOutput_frame (s : Inner) (pid : ProcessId) : ∃ completed outputs,
    s.retainCompletedOutput pid = { s with completed, outputs } := by
  rw [retainCompletedOutput]
  split
  all_goals exact ⟨_, _, rfl⟩

/-- A recovered exit changes the registry, the captures, the pending outcomes and the waiters. -/
theorem recordRecovered_frame (s : Inner) (t : Tid) (c : ProcessScopeId) (pid : ProcessId)
    (raw : RawExit) : ∃ registry pendingOutcomes completed outputs waiters history,
      (s.recordRecovered t c pid raw).2 =
        { s with registry, pendingOutcomes, completed, outputs, waiters, history } := by
  obtain ⟨_, _, _, hstored⟩ := s.storeRecovered_frame t c pid (recoveredExit pid raw)
  rw [recordRecovered, hstored]
  split
  · exact ⟨_, _, _, _, _, _, rfl⟩
  · obtain ⟨_, _, hretained⟩ := retainCompletedOutput_frame _ pid
    dsimp only
    rw [hretained]
    exact ⟨_, _, _, _, _, _, rfl⟩

end Inner

end Shepherd
