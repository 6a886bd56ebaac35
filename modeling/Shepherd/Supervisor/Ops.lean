import Shepherd.Supervisor.Steps

/-!
# Operations

The atomic operations of the supervisor's tasks: a critical section, an access to an
atomic flag, one side of a call to a port, or a synchronisation with another task. `Res`
gives the result of an operation and `exec` its effect.

What the code does not decide is in the `Answer`: results of the backend, which branch of
a `select!` is ready, the order in which a hash map is iterated, which worker is joined
next. An operation is blocked (`none`) while it has to wait, and for an answer that it
cannot get.

The two wrappers `orObserve` and `orElapsed` are a `select!` with an exit observer, and a
timeout, around an operation that awaits.

Identifiers are minted from 64-bit counters. A run mints fewer than 2^64 of either kind:
the two minting operations are blocked when a counter is at its end.
-/

open Std

namespace Shepherd

open Conc

/-- What the environment decides at an operation. -/
inductive Answer where
  | go
  | elapsed
  | observed
  | closed
  | raced
  | timedOut
  | spawned (result : Except SpawnError OsIdentity)
  | waited (result : Option RawExit)
  | output (output : Option ProcessOutput)
  | instant (now : Instant)
  | cleaned (result : Except TerminateError Unit)
  | order (outcomes : List (ProcessId × TerminationOutcome))
  | joined (worker : Tid)

/-- The atomic operations. -/
inductive Op where
  | createScope (observed : Bool)
  | scopeOperation (scope : ProcessScopeId)
  | reportOf (scope : ProcessScopeId)
  | lockOperation (scope : ProcessScopeId)
  | unlockOperation (scope : ProcessScopeId)
  | dropGuards
  | loadShuttingDown
  | storeShuttingDown
  | loadOwnersDropped
  | storeOwnersDropped
  | admitsProcesses (scope : ProcessScopeId)
  | spawnCall (scope : ProcessScopeId) (spec : ProcessSpec)
  | spawnReturn (scope : ProcessScopeId)
  | attach (scope : ProcessScopeId) (os : OsIdentity) (spec : ProcessSpec)
  | insertSpawnTime (pid : ProcessId)
  | rememberOsPid (pid : ProcessId) (os : OsIdentity)
  | keepOutput (pid : ProcessId) (admission : Bool)
  | startMonitor (scope : ProcessScopeId) (pid : ProcessId) (os : OsIdentity)
  | startSampler
  | registerSampler
  | signal (os : OsIdentity) (signal : Signal)
  | waitCall (os : OsIdentity)
  | waitReturn (os : OsIdentity)
  | waitOrElapsed (os : OsIdentity)
  | retryWait (pid : ProcessId) (os : OsIdentity) (timeout : Option Duration)
  | sleep
  | hardKillAll
  | hardKillScope (scope : ProcessScopeId)
  | cleanupScope (scope : ProcessScopeId)
  | recordMonitored (scope : ProcessScopeId) (pid : ProcessId) (waitResult : Option RawExit)
  | removeSample (pid : ProcessId)
  | retainCompletedOutput (pid : ProcessId)
  | removeSpawnTime (pid : ProcessId)
  | notify (event : DomainEvent)
  | prune (event : DomainEvent)
  | translate (event : DomainEvent)
  | tryGet (pid : ProcessId)
  | beginTermination (pid : ProcessId)
  | exitOrElapsed (pid : ProcessId) (exitFuture : WaitFuture)
  | escalate (scope : ProcessScopeId) (pid : ProcessId)
  | exitOrGiveUp (pid : ProcessId) (exitFuture : WaitFuture) (timeout : Option Duration)
  | recordRecovered (scope : ProcessScopeId) (pid : ProcessId) (raw : RawExit)
  | registerWait (pid : ProcessId)
  | awaitExit (exitFuture : WaitFuture)
  | poll (exitFuture : WaitFuture)
  | drain (scope : ProcessScopeId)
  | startWorker (scope : ProcessScopeId) (pid : ProcessId) (observer : WaitFuture)
      (opts : TerminateOptions)
  | joinNext (workers : List Tid)
  | pend (scope : ProcessScopeId) (pid : ProcessId) (outcome : TerminationOutcome)
  | readPending (scope : ProcessScopeId)
  | mergePending (scope : ProcessScopeId) (outcomes : List (ProcessId × TerminationOutcome))
  | setSerial (scope : ProcessScopeId) (report : ScopeTerminationReport)
  | resultSender (scope : ProcessScopeId)
  | publish (scope : ProcessScopeId) (result : CleanupResult)
  | retainResult (scope : ProcessScopeId)
  | retainReport (scope : ProcessScopeId) (report : ScopeTerminationReport)
  | removeScope (scope : ProcessScopeId)
  | retireOperation (scope : ProcessScopeId)
  | clearPending (scope : ProcessScopeId)
  | completeScope (scope : ProcessScopeId)
  | handScopeClosed (scope : ProcessScopeId)
  | verifiedReport (scope : ProcessScopeId)
  | takeOwner (scope : ProcessScopeId)
  | lockShutdown
  | unlockShutdown
  | snapshot
  | lockSampler
  | joinSampler
  | clearSampler
  | unlockSampler
  | subscribeCleanup (scope : ProcessScopeId)
  | awaitCleanup (scope : ProcessScopeId)
  | storeSample (pid : ProcessId) (sample : Sample)
  | takeOutput (pid : ProcessId)
  | orObserve (observer : WaitFuture) (op : Op)
  | orElapsed (op : Op)

/-- The result of an operation. -/
@[reducible] def Res : Op → Type
  | .createScope _ => Except ScopeCreationError ProcessScopeId
  | .scopeOperation _ | .loadShuttingDown | .loadOwnersDropped => Bool
  | .reportOf _ | .lockOperation _ | .verifiedReport _ => Option ScopeTerminationReport
  | .admitsProcesses _ => Option Bool
  | .spawnReturn _ => Except SpawnError OsIdentity
  | .attach _ _ _ => Attach
  | .startSampler | .registerSampler => Bool
  | .waitReturn _ => Option RawExit
  | .waitOrElapsed _ | .retryWait _ _ _ => Option (Option RawExit)
  | .cleanupScope _ => Except TerminateError Unit
  | .recordMonitored _ _ _ => Option (List DomainEvent)
  | .tryGet _ | .exitOrElapsed _ _ | .exitOrGiveUp _ _ _ | .poll _ => Option ProcessExit
  | .beginTermination _ => TerminateLookup
  | .recordRecovered _ _ _ => Except DomainError (ProcessExit × List DomainEvent)
  | .registerWait _ => WaitLookup
  | .awaitExit _ => ProcessExit
  | .drain _ => Option (List DomainEvent × List (ProcessId × WaitFuture))
  | .startWorker _ _ _ _ => Tid
  | .joinNext _ => Tid × WorkerResult
  | .readPending _ | .mergePending _ _ => List (ProcessId × TerminationOutcome)
  | .resultSender _ | .lockSampler | .subscribeCleanup _ => Bool
  | .snapshot => Option (List ProcessScopeId)
  | .awaitCleanup _ => CleanupResult
  | .takeOutput _ => Option ProcessOutput
  | .orObserve _ op => ProcessExit ⊕ Res op
  | .orElapsed op => Option (Res op)
  | _ => Unit

/-- Whether a task suspends at an operation, so that its future can be dropped there. -/
def Op.awaits : Op → Bool
  | .lockOperation _ | .spawnReturn _ | .signal _ _ | .waitReturn _ | .waitOrElapsed _
  | .retryWait _ _ _ | .sleep | .cleanupScope _ | .notify _ | .prune _ | .translate _
  | .exitOrElapsed _ _ | .exitOrGiveUp _ _ _ | .awaitExit _ | .joinNext _ | .lockShutdown
  | .lockSampler | .joinSampler | .awaitCleanup _ => true
  | .orObserve _ op | .orElapsed op => op.awaits
  | _ => false

/-- The report of a call that settled for an unverified exit. -/
def Inner.settleFor (s : Inner) (t : Tid) (pid : ProcessId) (exit : Option ProcessExit) :
    Inner :=
  if exit.any fun e => e.outcome.isVerified then s else s.log t (.gaveUp pid)

/-- The effect of an operation run by `t`. -/
def exec (t : Tid) (o : Op) (a : Answer) (s : Inner) : Option (Res o × Inner) :=
  match o with
  | .createScope observed =>
      if s.registry.nextScope + 1 < 2 ^ 64 then some (s.createScope t observed) else none
  | .scopeOperation c => some (s.scopeOperations.contains c, s.log t (.lookedUp c))
  | .reportOf c => some (s.reportOf c, s.log t (.lookedUp c))
  | .lockOperation c =>
      if (s.operations c).holder = none then
        some ((s.operations c).serial, s.lockOperation t c)
      else none
  | .unlockOperation c => some ((), s.unlockOperation t c)
  | .dropGuards => some ((), s.dropGuards t)
  | .loadShuttingDown => some (s.shuttingDown, s)
  | .storeShuttingDown => some ((), { s with shuttingDown := true }.log t .shutdownStarted)
  | .loadOwnersDropped => some (s.ownersDropped, s)
  | .storeOwnersDropped => some ((), { s with ownersDropped := true }.log t .ownersDropped)
  | .admitsProcesses c => some ((s.registry.get c).map fun sc => sc.isOpen, s)
  | .spawnCall c _ => some ((), s.log t (.spawnCalled c))
  | .spawnReturn c =>
      match a with
      | .spawned result => some (result, s.log t (.spawnReturned c result))
      | _ => none
  | .attach c os spec =>
      if s.registry.nextProcess + 1 < 2 ^ 64 then some (s.attach t c os spec) else none
  | .insertSpawnTime pid =>
      match a with
      | .instant now => some ((), { s with spawnTimes := s.spawnTimes.insert pid now })
      | _ => none
  | .rememberOsPid pid os => some ((), { s with osPids := s.osPids.remember pid os.pid })
  | .keepOutput pid admission =>
      match a with
      | .output output => some ((), s.keepOutput pid output admission)
      | _ => none
  | .startMonitor c pid _ =>
      some ((), { s with nextTask := s.nextTask + 1 }.log t (.monitorStarted c pid s.nextTask))
  | .startSampler => some (s.samplerStarted, { s with samplerStarted := true })
  | .registerSampler =>
      if s.samplerHolder = none then some (true, { s with samplerTask := true })
      else some (false, s.log t .samplerBusy)
  | .signal os sig => some ((), s.log t (.signalSent os sig))
  | .waitCall os => some ((), s.log t (.waitCalled os))
  | .waitReturn os =>
      match a with
      | .waited result => some (result, s.log t (.waitReturned os result))
      | _ => none
  | .waitOrElapsed os =>
      match a with
      | .waited result => some (some result, s.log t (.waitReturned os result))
      | .elapsed => some (none, s)
      | _ => none
  | .retryWait pid os timeout =>
      match a with
      | .waited (some raw) =>
          some (some (some raw), s.log t (.waitReturned os (some raw)))
      | .waited none => some (some none, (s.log t (.waitReturned os none)).log t (.gaveUp pid))
      | .elapsed => if timeout.isSome then some (none, s.log t (.gaveUp pid)) else none
      | _ => none
  | .sleep => some ((), s)
  | .hardKillAll => some ((), s.log t .hardKilledAll)
  | .hardKillScope c => some ((), s.log t (.hardKilledScope c))
  | .cleanupScope c =>
      match a with
      | .cleaned result => some (result, s.log t (.swept c result))
      | _ => none
  | .recordMonitored c pid result => some (s.recordMonitored t c pid result)
  | .removeSample pid => some ((), { s with samples := s.samples.erase pid })
  | .retainCompletedOutput pid => some ((), s.retainCompletedOutput pid)
  | .removeSpawnTime pid => some ((), { s with spawnTimes := s.spawnTimes.erase pid })
  | .notify ev => some ((), s.notify t ev)
  | .prune ev => some ((), s.prune ev)
  | .translate ev => some ((), s.log t (.translated ev))
  | .tryGet pid => some (s.waiters.tryGet pid, s)
  | .beginTermination pid => some (s.beginTermination pid)
  | .exitOrElapsed pid f =>
      match a with
      | .observed => (s.waiters.poll f).map fun e => (some e, s.settleFor t pid (some e))
      | .elapsed => some (none, s)
      | _ => none
  | .escalate c pid => some ((), s.escalate c pid)
  | .exitOrGiveUp pid f timeout =>
      match a with
      | .observed => (s.waiters.poll f).map fun e => (some e, s.settleFor t pid (some e))
      | .elapsed => if timeout.isSome then some (none, s.settleFor t pid none) else none
      | _ => none
  | .recordRecovered c pid raw => some (s.recordRecovered t c pid raw)
  | .registerWait pid => some (s.registerWait pid)
  | .awaitExit f => (s.waiters.poll f).map fun e => (e, s)
  | .poll f => some (s.waiters.poll f, s)
  | .drain c => some (s.drain t c)
  | .startWorker c pid _ _ =>
      some (s.nextTask,
        { s with nextTask := s.nextTask + 1 }.log t (.workerStarted c pid s.nextTask))
  | .joinNext workers =>
      match a with
      | .joined w =>
          if w ∈ workers then (s.joined w).map fun result => ((w, result), s) else none
      | _ => none
  | .pend c pid outcome => some ((), s.pend t c pid outcome)
  | .readPending c =>
      match a with
      | .order outcomes =>
          if outcomes.isPerm (s.pendingOf c) then some (outcomes, s) else none
      | _ => none
  | .mergePending c observed =>
      match a with
      | .order outcomes =>
          if outcomes.isPerm (s.mergePending c observed).1 then
            some (outcomes, (s.mergePending c observed).2)
          else none
      | _ => none
  | .setSerial c report => some ((), s.setSerial t c report)
  | .resultSender c => some (s.scopeResults.contains c, s)
  | .publish c result => some ((), s.publish t c result)
  | .retainResult c => some ((), s.retainResult t c)
  | .retainReport c report => some ((), s.retainReport t c report)
  | .removeScope c => some ((), s.removeScope t c)
  | .retireOperation c => some ((), s.retireOperation t c)
  | .clearPending c => some ((), s.clearPending t c)
  | .completeScope c => some ((), s.completeScope t c)
  | .handScopeClosed c =>
      some ((), { s with nextTask := s.nextTask + 1 }.log t (.closedHanded c s.nextTask))
  | .verifiedReport c => some (s.verifiedReport c, s)
  | .takeOwner c =>
      if s.owners.contains c then some ((), { s with owners := s.owners.erase c }) else none
  | .lockShutdown =>
      if s.shutdownHolder = none then some ((), { s with shutdownHolder := some t }) else none
  | .unlockShutdown => some ((), { s with shutdownHolder := none })
  | .snapshot =>
      match s.snapshot with
      | some scopes => some (some scopes, s)
      | none => some (none, s.log t .operationMissing)
  | .lockSampler =>
      if s.samplerHolder = none then
        some (s.samplerTask, { s with samplerHolder := some t })
      else none
  | .joinSampler => some ((), s)
  | .clearSampler => some ((), { s with samplerTask := false })
  | .unlockSampler => some ((), { s with samplerHolder := none })
  | .subscribeCleanup c => some (s.scopeResults.contains c, s)
  | .awaitCleanup c =>
      match a with
      | .observed => (s.cleanup c).map fun result => (result, s)
      | .closed =>
          -- a closed channel still yields a value that the receiver has not seen
          if (s.cleanup c).isNone then
            some (.error (.signal "scope cleanup worker stopped"), s)
          else none
      | _ => none
  | .storeSample pid sample => some ((), s.storeSample pid sample)
  | .takeOutput pid => some (s.takeOutput pid)
  | .orObserve f o =>
      match a with
      | .raced => (s.waiters.poll f).map fun e => (.inl e, s)
      | a => (exec t o a s).map fun rs => (.inr rs.1, rs.2)
  | .orElapsed o =>
      match a with
      | .timedOut => some (none, s)
      | a => (exec t o a s).map fun rs => (some rs.1, rs.2)

/-- A race ends with the exit that is observed, or as its operation does. -/
theorem exec_orObserve {t : Tid} {f : WaitFuture} {o : Op} {a : Answer} {s s' : Inner}
    {r : ProcessExit ⊕ Res o} (he : exec t (.orObserve f o) a s = some (r, s')) :
    (∃ e, r = .inl e ∧ s' = s) ∨ ∃ r', r = .inr r' ∧ exec t o a s = some (r', s') := by
  simp only [exec] at he
  split at he
  · obtain ⟨e, -, heq⟩ := Option.map_eq_some_iff.mp he
    obtain ⟨rfl, rfl⟩ := Prod.mk.inj heq
    exact .inl ⟨e, rfl, rfl⟩
  · obtain ⟨⟨r', s''⟩, hrs, heq⟩ := Option.map_eq_some_iff.mp he
    obtain ⟨rfl, rfl⟩ := Prod.mk.inj heq
    exact .inr ⟨r', rfl, hrs⟩

/-- An operation with a timeout times out, or ends as without it. -/
theorem exec_orElapsed {t : Tid} {o : Op} {a : Answer} {s s' : Inner} {r : Option (Res o)}
    (he : exec t (.orElapsed o) a s = some (r, s')) :
    (r = none ∧ s' = s) ∨ ∃ r', r = some r' ∧ exec t o a s = some (r', s') := by
  simp only [exec] at he
  split at he
  · obtain ⟨rfl, rfl⟩ := Prod.mk.inj (Option.some.inj he)
    exact .inl ⟨rfl, rfl⟩
  · obtain ⟨⟨r', s''⟩, hrs, heq⟩ := Option.map_eq_some_iff.mp he
    obtain ⟨rfl, rfl⟩ := Prod.mk.inj heq
    exact .inr ⟨r', rfl, hrs⟩

/-- What holds of the state an operation returned. -/
theorem of_some {α : Type} {P : Inner → Prop} {x : α × Inner} {r : α} {s' : Inner}
    (he : some x = some (r, s')) (hx : P x.2) : P s' := by
  obtain rfl := Option.some.inj he
  exact hx

/-- What holds of every `f y` holds after an operation that returned some `f y`. -/
theorem of_map {α β : Type} {P : Inner → Prop} {v : Option β} {f : β → α × Inner} {r : α}
    {s' : Inner} (he : v.map f = some (r, s')) (hx : ∀ y, P (f y).2) : P s' := by
  obtain ⟨y, -, hy⟩ := Option.map_eq_some_iff.mp he
  exact of_some (congrArg some hy) (hx y)

end Shepherd
