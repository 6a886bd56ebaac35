import Shepherd.Background.Capture
import Shepherd.Conc.Track
import Shepherd.Supervisor.Evidence

/-!
# Background Tasks

A `BackgroundTask` runs one command in an observed scope of its own. Its worker spawns the
command, waits until it exits or the task is stopped, lets the owner of the scope finish it,
recovers what the spawn may still hold, collects the output, and publishes one result.

The state of a task sits on top of a configuration of the supervisor: the worker's spawn and
its `finish` are tasks there, and everybody else's calls go on beside them. One step is a
step of the supervisor, a step of the worker between two accesses to something shared, or
one of the task's observers. What the injected clock and the capture do, panics included, is
in the `Effect` of a worker's step.

Three fields are history: what the worker found when it first ran, what the spawn handed
over, and the supervisor's history when the worker looked for the exit.
-/

open Std

namespace Shepherd

open Conc

/-! ### Values -/

/-- Bounds for one background command. -/
structure BackgroundTaskOptions where
  timeout : Duration
  outputBytes : ℕ
  termination : TerminateOptions

/-- Why a task stopped waiting. -/
inductive BackgroundTaskCause where
  | exited
  | cancelled
  | timedOut
  | spawnFailed (error : SpawnError)
  | workerFailed
  deriving DecidableEq, Repr

/-- What an attached process leaves to the caller that spawned it. -/
structure SpawnObservation where
  pid : ProcessId
  output : Option ProcessOutput
  exit : WaitFuture
  deriving DecidableEq, Repr

/-- Settled execution, cleanup and output of a task. -/
structure BackgroundTaskResult where
  scope : ProcessScopeId
  process : Option ProcessId
  osPid : Option ℕ
  cause : BackgroundTaskCause
  exit : Option ProcessExit
  cleanup : CleanupResult
  output : BackgroundTaskOutput
  deriving DecidableEq

/-- Whether the owning scope confirmed cleanup. -/
def BackgroundTaskResult.cleanupVerified (r : BackgroundTaskResult) : Bool :=
  match r.cleanup with
  | .ok report => report.allVerified
  | .error _ => false

/-- An observation of a task. -/
inductive BackgroundTaskStatus where
  | starting
  | running (process : ProcessId) (osPid : Option ℕ)
  | finished (result : BackgroundTaskResult)
  deriving DecidableEq

/-- The OS pid of a managed process: from the registry, or from the bounded history. -/
def Inner.osPid (s : Inner) (pid : ProcessId) : Option ℕ :=
  match ((s.registry.scopeOf pid).bind s.registry.get).bind fun sc => sc.get pid with
  | some process => some process.os.pid
  | none => s.osPids.byPid[pid]?

/-- The value a supervisor task has returned. -/
def returnOf (h : History) (t : Tid) : Option Ret :=
  h.findSome? fun x => match x with
    | (t', .returned v) => if t' = t then some v else none
    | _ => none

/-- `spawn_owned` hands an admitted process over through the one-shot channel. -/
def transfer (o : Op) (a : Answer) (s : Inner) (sent : Option SpawnObservation) :
    Option SpawnObservation :=
  match o, a with
  | .keepOutput pid true, .output output => some ⟨pid, output, (s.waiters.wait pid).1⟩
  | _, _ => sent

/-- The last observation is frozen and the capture let go of; a failed collection leaves an
error behind. -/
def Output.freeze (o : Output) (failed : Bool) : Output where
  source := false
  drained := o.drained
  current :=
    if failed then
      { o.current with
        errors := o.current.errors ++ ["background output collection failed"] }
    else o.current

/-! ### State -/

/-- What the worker knows once the owner has finished. -/
structure Ending where
  cause : BackgroundTaskCause
  cleanup : CleanupResult

/-- Where the worker is. While it takes an observation over, `ending` says whether that is
part of the activity or of the finalization. -/
inductive WorkerAt where
  | idle
  | timing
  | arming
  | spawning
  | completing
  | naming (attached : SpawnObservation) (ending : Option Ending)
  | installing (attached : SpawnObservation) (ending : Option Ending)
  | looking (attached : SpawnObservation) (ending : Option Ending)
  | announcing (attached : SpawnObservation) (osPid : Option ℕ) (ending : Option Ending)
  | running
  | finishing (cause : BackgroundTaskCause)
  | cleaning (cause : BackgroundTaskCause)
  | recovering (ending : Ending)
  | observing (ending : Ending)
  | closing (ending : Ending)
  | collecting (ending : Ending) (again : Bool)
  | checking (ending : Ending) (output : BackgroundTaskOutput)
  | polling (ending : Ending) (output : BackgroundTaskOutput)
  | freezing (ending : Ending) (failed : Bool)
  | publishing (ending : Ending) (output : BackgroundTaskOutput)
  | done

/-- Where a call of `wait` is; `awaiting` has seen that many statuses. -/
inductive WaitAt where
  | looking
  | awaiting (seen : ℕ)
  | returned (result : BackgroundTaskResult)
  deriving DecidableEq

/-- A task on top of the supervisor it runs in. -/
structure TaskState where
  cfg : Config Res Ret Inner
  scope : ProcessScopeId
  spec : ProcessSpec
  options : BackgroundTaskOptions
  admittedAt : Instant
  now : Instant
  stop : Bool
  output : Output
  poisoned : Bool
  worker : WorkerAt
  spawn : Option Tid
  finish : Option Tid
  taken : Bool
  observation : Option SpawnObservation
  exit : Option ProcessExit
  osPid : Option ℕ
  statuses : List BackgroundTaskStatus
  waits : ℕ → Option WaitAt
  /-- The stop flag and the clock when the worker first ran. -/
  firstRan : Option (Bool × Instant)
  /-- What the spawn handed over. -/
  sent : Option SpawnObservation
  /-- The history when the worker looked for the exit. -/
  lookedAt : Option History

/-- What the clock and the capture do, and which branch of a `select!` is taken. -/
inductive Effect where
  | go
  | panic
  | stopped
  | elapsed
  | completed
  | ended
  | slept
  | read (snapshot : OutputSnapshot)
  deriving DecidableEq

/-- What can happen next. -/
inductive TaskAction where
  | supervisor (label : Label Answer Call)
  | finishPanics
  | worker (effect : Effect)
  | tick (duration : Duration)
  | cancel
  | observe (snapshot : OutputSnapshot)
  | observePanics
  | wait (w : ℕ)
  | runWait (w : ℕ)
  | dropWait (w : ℕ)

namespace TaskState

/-- `BackgroundTask::start`: an observed scope is created, and the worker with it. -/
def start (cfg : Config Res Ret Inner) (now : Instant) (spec : ProcessSpec)
    (options : BackgroundTaskOptions) : Option TaskState :=
  match supervisor.follow cfg [.start (.createScope true), .run cfg.shared.nextTask .go] with
  | none => none
  | some cfg' =>
      match returnOf cfg'.shared.history cfg.shared.nextTask with
      | some (.created (.ok scope)) =>
          some { cfg := cfg', scope, spec, options, admittedAt := now, now, stop := false
                 output := ⟨false, 0, .empty⟩, poisoned := false, worker := .idle, spawn := none
                 finish := none, taken := false, observation := none, exit := none
                 osPid := none, statuses := [.starting], waits := fun _ => none
                 firstRan := none, sent := none, lookedAt := none }
      | _ => none

/-! ### The worker -/

/-- The observation that `take_admission` would get. -/
def admission (s : TaskState) : Option SpawnObservation :=
  if s.taken then none else s.sent

/-- The activity ends with a cause. -/
def stopFor (s : TaskState) (cause : BackgroundTaskCause) : TaskState :=
  { s with worker := .finishing cause }

/-- A supervisor call of the worker. -/
def call (s : TaskState) (call : Call) : Option (Config Res Ret Inner) :=
  supervisor.step s.cfg (.start call)

/-- `ObservedSpawn::complete`, once the spawn worker has returned. -/
def complete (s : TaskState) : Option TaskState :=
  match s.spawn.bind (returnOf s.cfg.shared.history) with
  | some (.spawned _ (.ok _)) =>
      match s.admission with
      | some attached => some { s with worker := .naming attached none, taken := true }
      | none => some (s.stopFor (.spawnFailed
          (.os "observed spawn admission already consumed or unavailable")))
  | some (.spawned _ (.error e)) => some (s.stopFor (.spawnFailed e))
  | _ => none

/-- The end of `owner.finish`: it returned, or its unwinding is over. -/
def cleaned (s : TaskState) : Option CleanupResult :=
  match s.finish.bind (returnOf s.cfg.shared.history) with
  | some (.finished _ result) => some result
  | some .done => some (.error (.signal "background cleanup worker panicked"))
  | _ => none

/-- The result that is published. -/
def result (s : TaskState) (e : Ending) (output : BackgroundTaskOutput) :
    BackgroundTaskResult where
  scope := s.scope
  process := s.observation.map fun observed => observed.pid
  osPid := s.osPid
  cause := e.cause
  exit := s.exit
  cleanup := e.cleanup
  output := output

/-- A worker's step. A panic of the clock ends the activity as `workerFailed`, and the
finalization as a failed collection. -/
def work (s : TaskState) (effect : Effect) : Option TaskState :=
  match s.worker, effect with
  | .idle, .go =>
      let s := { s with firstRan := some (s.stop, s.now) }
      if s.stop then some (s.stopFor .cancelled) else some { s with worker := .timing }
  | .timing, .go =>
      if s.options.timeout - (s.now - s.admittedAt) = 0 then some (s.stopFor .timedOut)
      else some { s with worker := .arming }
  | .arming, .go => some { s with worker := .spawning }
  | .spawning, .go =>
      let bytes := s.options.outputBytes
      (s.call (.spawn s.scope { s.spec with output := .capture bytes bytes } true)).map
        fun cfg =>
          { s with cfg, spawn := some s.cfg.shared.nextTask, worker := .completing }
  | .completing, .completed => s.complete
  | .completing, .stopped => if s.stop then some (s.stopFor .cancelled) else none
  | .completing, .elapsed => some (s.stopFor .timedOut)
  | .naming attached e, .go =>
      some { s with osPid := s.cfg.shared.osPid attached.pid, worker := .installing attached e }
  | .installing attached e, .go =>
      if s.poisoned then
        match e with
        | none => some (s.stopFor .workerFailed)
        | some e => some { s with worker := .freezing e true }
      else
        some { s with
          output := { s.output with source := attached.output.isSome }
          worker := .looking { attached with output := none } e }
  | .looking attached e, .go =>
      some { s with worker := .announcing attached (s.cfg.shared.osPid attached.pid) e }
  | .announcing attached osPid e, .go =>
      some { s with
        statuses := .running attached.pid osPid :: s.statuses
        observation := some attached
        worker := match e with
          | none => .running
          | some e => .observing e }
  -- the three are polled in this order, but the exit may come between two polls
  | .running, .ended =>
      (s.observation.bind fun observed => s.cfg.shared.waiters.poll observed.exit).map
        fun exit => { s with exit := some exit, worker := .finishing .exited }
  | .running, .stopped => if s.stop then some (s.stopFor .cancelled) else none
  | .running, .elapsed => some (s.stopFor .timedOut)
  | .timing, .panic | .arming, .panic | .completing, .panic | .running, .panic =>
      some (s.stopFor .workerFailed)
  | .finishing cause, .go =>
      (s.call (.finish s.scope s.options.termination false)).map fun cfg =>
        { s with cfg, finish := some s.cfg.shared.nextTask, worker := .cleaning cause }
  | .cleaning cause, .go =>
      s.cleaned.map fun cleanup => { s with worker := .recovering ⟨cause, cleanup⟩ }
  | .recovering e, .go =>
      match s.observation, s.admission with
      | none, some recovered =>
          some { s with worker := .naming recovered (some e), taken := true }
      | _, _ => some { s with worker := .observing e }
  | .observing e, .go =>
      some { s with
        exit := s.exit <|>
          s.observation.bind fun observed => s.cfg.shared.waiters.poll observed.exit
        lookedAt := some s.cfg.shared.history
        worker := .closing e }
  | .closing e, .go => some { s with worker := .collecting e false }
  | .collecting e again, .read snapshot =>
      if s.output.source then
        let output := s.output.observe snapshot
        some { s with
          output
          worker := if again then .polling e output.current else .checking e output.current }
      else none
  | .collecting e again, .go =>
      if s.output.source then none
      else
        some { s with
          worker := if again then .polling e s.output.current
            else .checking e s.output.current }
  | .collecting e _, .panic =>
      if s.output.source then some { s with poisoned := true, worker := .freezing e true }
      else none
  | .checking e output, .go =>
      some { s with worker := if s.output.source then .polling e output else .freezing e false }
  | .polling e output, .go =>
      if output.stdoutClosed && output.stderrClosed then
        some { s with worker := .freezing e false }
      else none
  | .polling e _, .elapsed => some { s with worker := .freezing e false }
  | .polling e _, .slept => some { s with worker := .collecting e true }
  | .closing e, .panic | .polling e _, .panic => some { s with worker := .freezing e true }
  | .freezing e failed, .go =>
      let output := s.output.freeze failed
      some { s with output, worker := .publishing e output.current }
  | .publishing e output, .go =>
      some { s with
        statuses := .finished (s.result e output) :: s.statuses
        worker := .done }
  | _, _ => none

/-! ### The others -/

/-- The owner of the scope is with the worker: nobody else can take it. -/
def leavesOwner (s : TaskState) (l : Label Answer Call) : Bool :=
  match l with
  | .run t _ =>
      match s.cfg.tasks t with
      | some ⟨.op (.takeOwner c) _, _⟩ => c ≠ s.scope || s.finish == some t
      | _ => true
  | .drop t => s.finish ≠ some t
  | .start _ => true

/-- A step of the supervisor. The future of `finish` is not dropped, and what the worker's
spawn hands over is remembered. -/
def supervise (s : TaskState) (l : Label Answer Call) : Option TaskState :=
  if s.leavesOwner l then
    (supervisor.step s.cfg l).map fun cfg =>
      { s with
        cfg
        sent := match s.spawn with
          | some t => s.cfg.record transfer t l s.sent
          | none => s.sent }
  else none

/-- The cleanup panics, in a handler or in the backend; taking the operation lock does not
panic. -/
def panicFinish (s : TaskState) : Option TaskState :=
  match s.finish with
  | none => none
  | some t =>
      match s.cfg.tasks t with
      | some ⟨.op (.lockOperation _) _, _⟩ => none
      | _ => (supervisor.step s.cfg (.drop t)).map fun cfg => { s with cfg }

/-- A step of a call of `wait`. -/
def lookFor (s : TaskState) : WaitAt → Option WaitAt
  | .looking =>
      match s.statuses with
      | .finished result :: _ => some (.returned result)
      | _ => some (.awaiting s.statuses.length)
  | .awaiting seen => if s.statuses.length = seen then none else some .looking
  | .returned _ => none

/-- Where a call of `wait` is from now on. -/
def setWait (s : TaskState) (w : ℕ) (at' : Option WaitAt) : TaskState :=
  { s with waits := Function.update s.waits w at' }

/-- One step. -/
def step (s : TaskState) : TaskAction → Option TaskState
  | .supervisor l => s.supervise l
  | .finishPanics => s.panicFinish
  | .worker effect => s.work effect
  | .tick duration => some { s with now := s.now + duration }
  | .cancel => some { s with stop := true }
  | .observe snapshot =>
      if s.output.source then some { s with output := s.output.observe snapshot } else some s
  | .observePanics => if s.output.source then some { s with poisoned := true } else none
  | .wait w => if (s.waits w).isNone then some (s.setWait w (some .looking)) else none
  | .runWait w => (s.waits w).bind fun at' => (s.lookFor at').map fun at' => s.setWait w (some at')
  | .dropWait w => some (s.setWait w none)

end TaskState

end Shepherd
