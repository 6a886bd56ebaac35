import Shepherd.Background.Task
import Shepherd.Output.Pipes

/-!
# Blocking Runs

`BlockingSupervisor::run` runs one command with a deadline, from a thread that is not in an
async context. The run creates a scope of its own, spawns the command, and waits until it exits
or the deadline has passed; then it terminates the scope, whatever happened, and drains the
output that the spawn handed over. A deadline that expires before the spawn has returned does not
lose the process: the termination waits for the spawn worker, and the run takes what the spawn
handed over.

As with a background task, the state of a run sits on top of a configuration of the supervisor,
where its spawn and its `terminate_scope` are tasks beside everybody else's. The thread drives the
run to its end, so that the future of its cleanup is not dropped. One field is history: what the
spawn handed over.
-/

namespace Shepherd

open Conc

/-! ### Values -/

/-- Options of a run. -/
structure RunOptions where
  deadline : Duration
  terminate : TerminateOptions
  outputDrain : Duration

/-- The result of a run. -/
inductive BlockingRun where
  | completed (exit : ProcessExit) (output : Option OutputSnapshot)
      (termination : ScopeTerminationReport)
  | timedOut (output : Option OutputSnapshot) (termination : ScopeTerminationReport)

/-- The failure of a run. -/
inductive BlockingRunError where
  | scope (error : ScopeCreationError)
  | spawn (error : SpawnError)
  | wait (error : WaitError)
  | terminate (error : TerminateError)
  | unverified (run : Option BlockingRunError) (termination : ScopeTerminationReport)

namespace BlockingRun

/-- The cleanup report of the scope. -/
def termination : BlockingRun → ScopeTerminationReport
  | .completed _ _ termination | .timedOut _ termination => termination

/-- The captured output. -/
def output : BlockingRun → Option OutputSnapshot
  | .completed _ output _ | .timedOut output _ => output

/-- Every recorded outcome is a verified reap, the exit of the wait included. -/
def allVerified : BlockingRun → Bool
  | .completed exit _ termination => exit.outcome.isVerified && termination.allVerified
  | .timedOut _ termination => termination.allVerified

/-- An unverified cleanup is an error. -/
def intoVerified (r : BlockingRun) : Except BlockingRunError BlockingRun :=
  if r.allVerified then .ok r else .error (.unverified none r.termination)

end BlockingRun

/-! ### State -/

/-- How the attempt under the deadline ended. -/
inductive Attempt where
  | exited (exit : ProcessExit)
  | failed (error : BlockingRunError)
  | elapsed

/-- Where a run is. While it drains, `exit` is the exit of a run that completed. -/
inductive RunAt where
  | spawning
  | completing
  | waiting
  | finishing (attempt : Attempt)
  | cleaning (attempt : Attempt)
  | draining (exit : Option ProcessExit) (termination : ScopeTerminationReport) (at' : DrainAt)
  | returned (result : Except BlockingRunError BlockingRun)

/-- A run on top of the supervisor it runs in. -/
structure RunState where
  cfg : Config Res Ret Inner
  scope : ProcessScopeId
  spec : ProcessSpec
  options : RunOptions
  now : Instant
  deadline : Instant
  drainDeadline : Instant
  caller : RunAt
  spawn : Option Tid
  cleanup : Option Tid
  taken : Bool
  observation : Option SpawnObservation
  /-- What the spawn handed over. -/
  sent : Option SpawnObservation

/-- What can happen next. -/
inductive RunAction where
  | supervisor (label : Label Answer Call)
  | caller (effect : Effect)
  | tick (duration : Duration)

namespace RunState

/-- The beginning of `run_async`: a scope is created, or the run is over. -/
def start (cfg : Config Res Ret Inner) (now : Instant) (spec : ProcessSpec)
    (options : RunOptions) : Option (Except BlockingRunError RunState) :=
  match supervisor.follow cfg [.start (.createScope false), .run cfg.shared.nextTask .go] with
  | none => none
  | some cfg' =>
      match returnOf cfg'.shared.history cfg.shared.nextTask with
      | some (.created (.ok scope)) =>
          some (.ok { cfg := cfg', scope, spec, options, now, deadline := now
                      drainDeadline := now, caller := .spawning, spawn := none
                      cleanup := none, taken := false, observation := none, sent := none })
      | some (.created (.error e)) => some (.error (.scope e))
      | _ => none

/-- The observation that `take_admission` would get. -/
def admission (s : RunState) : Option SpawnObservation :=
  if s.taken then none else s.sent

/-- A supervisor call of the run. -/
def call (s : RunState) (call : Call) : Option (Config Res Ret Inner) :=
  supervisor.step s.cfg (.start call)

/-- The attempt is over. -/
def finish (s : RunState) (attempt : Attempt) : RunState :=
  { s with caller := .finishing attempt }

/-- The run returns. -/
def returns (s : RunState) (result : Except BlockingRunError BlockingRun) : RunState :=
  { s with caller := .returned result }

/-- `ObservedSpawn::complete`, once the spawn worker has returned. -/
def complete (s : RunState) : Option RunState :=
  match s.spawn.bind (returnOf s.cfg.shared.history) with
  | some (.spawned _ (.ok _)) =>
      match s.admission with
      | some attached =>
          some { s with observation := some attached, taken := true, caller := .waiting }
      | none => some (s.finish (.failed (.spawn
          (.os "observed spawn admission already consumed or unavailable"))))
  | some (.spawned _ (.error e)) => some (s.finish (.failed (.spawn e)))
  | _ => none

/-- What the termination of the scope returned. -/
def cleaned (s : RunState) : Option CleanupResult :=
  match s.cleanup.bind (returnOf s.cfg.shared.history) with
  | some (.scopeTerminated _ result) => some result
  | _ => none

/-- The value of a run that comes to its end. -/
def settle (exit : Option ProcessExit) (output : Option OutputSnapshot)
    (termination : ScopeTerminationReport) : BlockingRun :=
  match exit with
  | some exit => .completed exit output termination
  | none => .timedOut output termination

/-- `drain_output` is called with the capture of the observation; without one there is nothing
to drain. -/
def drainOutput (s : RunState) (exit : Option ProcessExit)
    (termination : ScopeTerminationReport) : RunState :=
  match s.observation.bind fun observed => observed.output with
  | some _ =>
      { s with
        drainDeadline := s.now + s.options.outputDrain
        caller := .draining exit termination (.reading []) }
  | none => s.returns (.ok (settle exit none termination))

/-- A run whose deadline expired takes the observation that it does not have. -/
def recover (s : RunState) : RunState :=
  match s.observation with
  | some _ => s
  | none => { s with observation := s.admission, taken := s.taken || s.admission.isSome }

/-- `run_async` after the termination of its scope, and `finish_scope_after_error`. -/
def conclude (s : RunState) (attempt : Attempt) (result : CleanupResult) : RunState :=
  match result with
  | .error e => s.returns (.error (.terminate e))
  | .ok termination =>
      match attempt with
      | .exited exit => s.drainOutput (some exit) termination
      | .failed error =>
          if termination.allVerified then s.returns (.error error)
          else s.returns (.error (.unverified (some error) termination))
      | .elapsed => s.recover.drainOutput none termination

/-- A step of the thread. -/
def run (s : RunState) (effect : Effect) : Option RunState :=
  match s.caller, effect with
  | .spawning, .go =>
      (s.call (.spawn s.scope s.spec true)).map fun cfg =>
        { s with
          cfg
          spawn := some s.cfg.shared.nextTask
          deadline := s.now + s.options.deadline
          caller := .completing }
  | .completing, .completed => s.complete
  | .waiting, .ended =>
      (s.observation.bind fun observed => s.cfg.shared.waiters.poll observed.exit).map
        fun exit => s.finish (.exited exit)
  | .completing, .elapsed | .waiting, .elapsed =>
      if s.deadline ≤ s.now then some (s.finish .elapsed) else none
  | .finishing attempt, .go =>
      (s.call (.terminateScope s.scope s.options.terminate)).map fun cfg =>
        { s with cfg, cleanup := some s.cfg.shared.nextTask, caller := .cleaning attempt }
  | .cleaning attempt, .go => s.cleaned.map (s.conclude attempt)
  | .draining exit termination (.reading chunks), .read snapshot =>
      some { s with caller := .draining exit termination (.read chunks snapshot) }
  | .draining exit termination (.checking chunks snapshot), .go =>
      some { s with
        caller := .draining exit termination (.check s.now s.drainDeadline chunks snapshot) }
  | .draining exit termination (.sleeping chunks), .slept =>
      some { s with caller := .draining exit termination (.reading chunks) }
  | .draining exit termination (.returned snapshot), .go =>
      some (s.returns (.ok (settle exit (some snapshot) termination)))
  | _, _ => none

/-- The future of the cleanup is with the thread: nobody drops it. -/
def leavesCleanup (s : RunState) (l : Label Answer Call) : Bool :=
  match l with
  | .drop t => s.cleanup ≠ some t
  | _ => true

/-- A step of the supervisor; what the spawn of the run hands over is remembered. -/
def supervise (s : RunState) (l : Label Answer Call) : Option RunState :=
  if s.leavesCleanup l then
    (supervisor.step s.cfg l).map fun cfg =>
      { s with
        cfg
        sent := match s.spawn with
          | some t => s.cfg.record transfer t l s.sent
          | none => s.sent }
  else none

/-- One step. -/
def step (s : RunState) : RunAction → Option RunState
  | .supervisor l => s.supervise l
  | .caller effect => s.run effect
  | .tick duration => some { s with now := s.now + duration }

end RunState

end Shepherd
