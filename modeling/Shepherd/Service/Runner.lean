import Shepherd.Conc.Chronicle
import Shepherd.Conc.Steps
import Shepherd.Service.Status

/-!
# The Worker of a Service

`Runner::run`, one step for each moment its task goes on. The caller's `Service`, the
supervisor, the kept store and the clock are the environment: a step takes the answer the
task was waiting for. Between two awaits the task is not seen.

`or_stop` looks for a stop first, so its work goes on only while no stop is pending, and a
dropped handle is a request to leave. A panic in the caller's code ends the task where it is,
and so does a runtime that drops it.

`round` and `history` are ghosts. `round` counts the attempts without a bound, and the
history lists what the worker did with the attempt it did it in, newest first.
-/

namespace Shepherd

variable {T : Type}

/-! ### Stages and events -/

/-- Why a run is being ended. -/
inductive EndReason where
  /-- It did not become ready. -/
  | notReady (failure : RunFailure)
  /-- It exited on its own, which was seen `stayed` after it was ready. -/
  | exited (exit : String) (readyAt : Instant) (stayed : Duration)
  /-- A stop was requested. -/
  | stopping
  deriving DecidableEq, Repr

/-- Where the task is. -/
inductive RunnerStage where
  /-- Spawned, and not polled yet. -/
  | spawned
  | backingOff (delay : Duration)
  | launching
  | creating (launch : ServiceLaunch)
  | spawning (scope : ProcessScopeId) (launch : ServiceLaunch)
  /-- Terminating the scope of a failed spawn. -/
  | sweeping (scope : ProcessScopeId) (error : SpawnError)
  | adopting (launch : ServiceLaunch)
  /-- Terminating an earlier run. -/
  | replacing (launch : ServiceLaunch) (previous : KeptProcess)
  | keeping (launch : ServiceLaunch)
  /-- The run was started or adopted; its readiness is looked at unless a stop is pending. -/
  | established (run : ServiceRun) (inst : ServiceInstance)
  /-- In the readiness check of the run. -/
  | checking (run : ServiceRun) (inst : ServiceInstance) (deadline : Instant)
  /-- Between two readiness checks. -/
  | pausing (run : ServiceRun) (inst : ServiceInstance) (deadline : Instant)
  | ready (run : ServiceRun) (readyAt : Instant)
  | ending (run : ServiceRun) (reason : EndReason)
  | returned (result : ServiceStopped)
  | panicked
  | dropped
  deriving DecidableEq, Repr

namespace RunnerStage

/-- The run the task waits on while a stop can still interrupt it. -/
def waitsOn : RunnerStage → Option ServiceRun
  | .established run _ | .checking run _ _ | .pausing run _ _ | .ready run _ => some run
  | _ => none

/-- The run that is not ended yet. -/
def held : RunnerStage → Option ServiceRun
  | .replacing _ previous => some ⟨.kept previous, .tookOver⟩
  | .established run _ | .checking run _ _ | .pausing run _ _ | .ready run _
  | .ending run _ => some run
  | _ => none

/-- Whether the attempt can fail here without a run. -/
def starting : RunnerStage → Bool
  | .launching | .creating _ | .sweeping _ _ | .adopting _ | .keeping _ => true
  | _ => false

/-- Whether the run is not ready yet. -/
def unready : RunnerStage → Option ServiceRun
  | .checking run _ _ | .pausing run _ _ => some run
  | _ => none

/-- Whether the task is in the caller's code. -/
def inService : RunnerStage → Bool
  | .launching | .checking _ _ _ => true
  | _ => false

/-- Whether the task is over. -/
def isOver : RunnerStage → Bool
  | .returned _ | .panicked | .dropped => true
  | _ => false

/-- Whether the task waits, so that its runtime can drop it. -/
def awaits : RunnerStage → Bool
  | .creating _ | .established _ _ | .returned _ | .panicked | .dropped => false
  | _ => true

end RunnerStage

/-- What the worker did. -/
inductive RunnerEvent (T : Type) where
  | published (status : ServiceStatus T)
  | launched (launch : ServiceLaunch)
  /-- `kept.adopt` found no earlier run. -/
  | adoptedNone
  | obtained (run : ServiceRun)
  /-- `kept.start` was called. -/
  | keptStart
  /-- The readiness check was given the instance. -/
  | checked (inst : ServiceInstance)
  /-- The termination of the run returned. -/
  | ended (run : ServiceRun) (ending : RunEnding)
  | released (run : ServiceRun)
  /-- A run failed, after it had been ready for `stayed`. -/
  | failed (failure : RunFailure) (stayed : Option Duration)

/-- What the task is told. -/
inductive RunnerInput (T : Type) where
  | clock (now : Instant)
  /-- A stop request, or the drop of the handle, which is one to leave. -/
  | request (how : ServiceStop)
  | dropped
  /-- The caller's code panics. -/
  | panic
  | polled
  | stop
  | slept
  | launched (result : Except String ServiceLaunch)
  | created (result : Except ScopeCreationError ProcessScopeId)
  | spawned (result : Except SpawnError (ProcessId × Option ℕ × Option ProcessOutput))
  | swept
  | adopted (result : Except KeptError (Option KeptProcess))
  | terminated (outcome : TerminationOutcome)
  | started (result : Except KeptError KeptProcess)
  | checked (result : Except String (Option T))
  /-- The process exited: in words for a kept one, as the supervisor says for a scoped one. -/
  | exited (exit : Except WaitError (Option Int × Option Signal))
  /-- The sleep of `ready_within` is over. -/
  | elapsed
  | ended (ending : RunEnding)

/-- Whether the input is the answer to a call of the task. -/
def RunnerInput.isAnswer : RunnerInput T → Bool
  | .clock _ | .request _ | .dropped | .panic | .polled | .stop => false
  | _ => true

/-- What `terminate` returns of a run: an outcome for a kept process, a report or an error
for a scope. -/
def RunEnding.isOf : RunEnding → Running → Bool
  | .kept _, .kept _ | .scoped _, .scoped _ _ => true
  | _, _ => false

/-- The outcome `end` reports of a terminated run. -/
def RunEnding.outcome : RunEnding → Running → Option TerminationOutcome
  | .scoped (.ok report), .scoped _ pid =>
      some (((report.outcomes.find? fun o => o.1 == pid).map Prod.snd).getD .exitedNaturally)
  | .kept outcome, _ => some outcome
  | _, _ => none

/-- The text `exited` describes an exit with. -/
def exitText : Except WaitError (Option Int × Option Signal) → String
  | .ok (code, signal) => describe code signal
  | .error error => "wait failed: " ++ error.display

/-- A kept process is seen to exit; the wait for a scoped one can fail. -/
def exitIsOf : Except WaitError (Option Int × Option Signal) → Running → Bool
  | .error _, .kept _ => false
  | _, _ => true

/-! ### The state -/

/-- The task of a service, with what it has published. -/
structure Runner (T : Type) where
  options : ServiceOptions
  /-- The largest instant of the platform. -/
  instantMax : Instant
  stage : RunnerStage
  now : Instant
  stop : Option ServiceStop
  failures : ℕ
  attempt : ℕ
  last : RunFailure
  mayAdopt : Bool
  status : ServiceStatus T
  summary : ServiceState
  round : ℕ
  history : List (ℕ × RunnerEvent T)

namespace Runner

/-- The task `start` spawns. -/
def new (options : ServiceOptions) (instantMax now : Instant) : Runner T where
  options := options
  instantMax := instantMax
  stage := .spawned
  now := now
  stop := none
  failures := 0
  attempt := 0
  last := ⟨.start, ""⟩
  mayAdopt := true
  status := .starting 1
  summary := .starting 1
  round := 0
  history := []

/-- Writes into the history. -/
def record (r : Runner T) (ev : RunnerEvent T) : Runner T :=
  { r with history := (r.round, ev) :: r.history }

/-- Waits at the stage. -/
def goto (r : Runner T) (stage : RunnerStage) : Runner T :=
  { r with stage }

/-- `publish`. -/
def publish (r : Runner T) (status : ServiceStatus T) : Runner T :=
  { r with status, summary := status.summary }.record (.published status)

/-- `stopped`. -/
def stopped (outcome : Option TerminationOutcome) (leftRunning : Option ℕ) : ServiceStopped :=
  { outcome, leftRunning }

/-- The attempt begins: the next number is published and `launch` is called. -/
def beginAttempt (r : Runner T) : Runner T :=
  let attempt := U32.saturatingAdd r.attempt 1
  ({ r with attempt, round := r.round + 1 }.publish (.starting attempt)).goto .launching

/-- The head of the loop. -/
def loopHead (r : Runner T) : Runner T :=
  if 0 < r.failures then
    if r.options.restart.givesUp r.failures then
      (r.publish (.failed r.last.kind r.last.reason)).goto (.returned (stopped none none))
    else
      let delay := r.options.restart.delay r.failures
      (r.publish (.backoff r.failures delay r.last.kind r.last.reason)).goto (.backingOff delay)
  else r.beginAttempt

/-- `failed`, and on to the next round of the loop. -/
def fail (r : Runner T) (failure : RunFailure) (stayed : Option Duration) : Runner T :=
  { r.record (.failed failure stayed) with
    failures := U32.saturatingAdd r.failures 1, last := failure }.loopHead

/-- A run was started or adopted. -/
def establish (r : Runner T) (run : ServiceRun) (inst : ServiceInstance) : Runner T :=
  ({ r with mayAdopt := false }.record (.obtained run)).goto (.established run inst)

/-- The readiness check is called. -/
def check (r : Runner T) (run : ServiceRun) (inst : ServiceInstance) (deadline : Instant) :
    Runner T :=
  (r.record (.checked inst)).goto (.checking run inst deadline)

/-- `until_ready` begins. Adding the time a run may take panics where the platform has no
such instant. -/
def untilReady (r : Runner T) (run : ServiceRun) (inst : ServiceInstance) : Runner T :=
  if r.now + r.options.readyWithin ≤ r.instantMax then
    r.check run inst (r.now + r.options.readyWithin)
  else r.goto .panicked

/-- Calls `kept.start`. -/
def startKept (r : Runner T) (launch : ServiceLaunch) : Runner T :=
  (r.record .keptStart).goto (.keeping launch)

/-- `finish`: only a kept run can be left. -/
def finish (r : Runner T) (run : Option ServiceRun) (how : ServiceStop) : Runner T :=
  let r := r.publish .stopping
  match run with
  | none => (r.publish .stopped).goto (.returned (stopped none none))
  | some run =>
      match run.running, how with
      | .kept process, .leave =>
          ((r.record (.released run)).publish (.released process.osPid)).goto
            (.returned (stopped none (some process.osPid)))
      | _, _ => r.goto (.ending run .stopping)

/-- The run was ended. -/
def ended (r : Runner T) (run : ServiceRun) (ending : RunEnding) : EndReason → Runner T
  | .notReady failure => (r.record (.ended run ending)).fail failure none
  | .exited exit readyAt stayed =>
      -- the interval is measured now, after the sweep
      let failures := if r.options.restart.healthyDuration ≤ r.now - readyAt then 0 else r.failures
      { r.record (.ended run ending) with failures }.fail ⟨.exited, exit⟩ (some stayed)
  | .stopping =>
      ((r.record (.ended run ending)).publish .stopped).goto
        (.returned (stopped (ending.outcome run.running) none))

/-- The instance of a kept run. -/
def keptInstance (process : KeptProcess) (adopted : Bool) : ServiceInstance where
  osPid := process.osPid
  adopted := adopted
  output := none
  record := some process

/-- `not ready in time`. -/
def late : RunFailure := ⟨.notReadyInTime, "not ready in time"⟩

/-- Whether no stop is pending, so that the work under `or_stop` goes on. -/
def unstopped (r : Runner T) : Bool :=
  r.stop.isNone

/-- A step of the task, or of what it is told. -/
def step (r : Runner T) (input : RunnerInput T) : Option (Runner T) :=
  match input with
  | .clock now => some { r with now }
  | .request how => if r.stop = none then some { r with stop := some how } else none
  | .dropped => if r.stage.awaits then some (r.goto .dropped) else none
  | .panic => if r.stage.inService && r.unstopped then some (r.goto .panicked) else none
  | .polled =>
      match r.stage, r.unstopped with
      | .spawned, _ => some r.loopHead
      | .established run inst, true => some (r.untilReady run inst)
      | _, _ => none
  | .stop =>
      match r.stop, r.stage with
      | some _, .backingOff _ =>
          some ((r.publish .stopped).goto (.returned (stopped none none)))
      | some how, .launching => some (r.finish none how)
      | some how, stage => stage.waitsOn.map fun run => r.finish (some run) how
      | none, _ => none
  | .slept =>
      match r.stage, r.unstopped with
      | .backingOff _, true => some r.beginAttempt
      | .pausing run inst deadline, true => some (r.check run inst deadline)
      | _, _ => none
  | .launched result =>
      match r.stage, r.unstopped, result with
      | .launching, true, .ok launch =>
          some ((r.record (.launched launch)).goto
            (if r.options.kept then .adopting launch else .creating launch))
      | .launching, true, .error message =>
          some (r.fail ⟨.launch, "launch: " ++ message⟩ none)
      | _, _, _ => none
  | .created result =>
      match r.stage, result with
      | .creating launch, .ok scope => some (r.goto (.spawning scope launch))
      | .creating _, .error error => some (r.fail ⟨.start, error.display⟩ none)
      | _, _ => none
  | .spawned result =>
      match r.stage, result with
      | .spawning scope _, .ok (pid, osPid, output) =>
          some (r.establish ⟨.scoped scope pid, .started⟩
            ⟨osPid.getD 0, false, output, none⟩)
      | .spawning scope _, .error error => some (r.goto (.sweeping scope error))
      | _, _ => none
  | .swept =>
      match r.stage with
      | .sweeping _ error => some (r.fail ⟨.start, "spawn: " ++ error.display⟩ none)
      | _ => none
  | .adopted result =>
      match r.stage, result with
      | .adopting launch, .ok none => some ((r.record .adoptedNone).startKept launch)
      | .adopting launch, .ok (some previous) =>
          if r.mayAdopt && previous.fingerprint == launch.fingerprint then
            some (r.establish ⟨.kept previous, .adopted⟩ (keptInstance previous true))
          else
            some ((r.record (.obtained ⟨.kept previous, .tookOver⟩)).goto
              (.replacing launch previous))
      | .adopting _, .error error => some (r.fail ⟨.start, "kept: " ++ error.display⟩ none)
      | _, _ => none
  | .terminated outcome =>
      match r.stage with
      | .replacing launch previous =>
          let r := r.record (.ended ⟨.kept previous, .tookOver⟩ (.kept outcome))
          if outcome.isVerified then some (r.startKept launch)
          else
            some (r.fail ⟨.start, "previous run did not stop: " ++ outcome.debug⟩ none)
      | _ => none
  | .started result =>
      match r.stage, result with
      | .keeping _, .ok process =>
          some (r.establish ⟨.kept process, .started⟩ (keptInstance process false))
      | .keeping _, .error error => some (r.fail ⟨.start, "kept: " ++ error.display⟩ none)
      | _, _ => none
  | .checked result =>
      match r.stage, r.unstopped, result with
      | .checking run inst _, true, .ok (some value) =>
          some ((r.publish (.ready value inst.osPid inst.adopted)).goto (.ready run r.now))
      | .checking run inst deadline, true, .ok none =>
          if deadline ≤ r.now then some (r.goto (.ending run (.notReady late)))
          else some (r.goto (.pausing run inst deadline))
      | .checking run _ _, true, .error message =>
          some (r.goto (.ending run (.notReady ⟨.readyCheck, "not ready: " ++ message⟩)))
      | _, _, _ => none
  | .exited exit =>
      match r.stage, r.unstopped with
      | .checking run _ _, true | .pausing run _ _, true =>
          if exitIsOf exit run.running then
            some (r.goto (.ending run (.notReady
              ⟨.exitedBeforeReady, "exited before ready: " ++ exitText exit⟩)))
          else none
      | .ready run readyAt, true =>
          if exitIsOf exit run.running then
            some (r.goto (.ending run (.exited (exitText exit) readyAt (r.now - readyAt))))
          else none
      | _, _ => none
  | .elapsed =>
      match r.stage, r.unstopped with
      | .checking run _ _, true | .pausing run _ _, true =>
          some (r.goto (.ending run (.notReady late)))
      | _, _ => none
  | .ended ending =>
      match r.stage with
      | .ending run reason =>
          if ending.isOf run.running then some (r.ended run ending reason) else none
      | _ => none

/-! ### What a step can do -/

/-- A runner that is starting has not returned. -/
theorem not_returned_of_starting {r : Runner T} (hs : r.stage.starting = true)
    (result : ServiceStopped) : r.stage ≠ .returned result := by
  intro hr
  rw [hr] at hs
  cases hs

/-- A runner that waits on a run has not returned. -/
theorem not_returned_of_waitsOn {r : Runner T} {run : ServiceRun}
    (hs : r.stage.waitsOn = some run) (result : ServiceStopped) : r.stage ≠ .returned result := by
  intro hr
  rw [hr] at hs
  cases hs

/-- What the steps come to. -/
inductive Moves (r : Runner T) : RunnerInput T → Runner T → Prop
  | clock (now : Instant) : Moves r (.clock now) { r with now }
  | request (how : ServiceStop) (hn : r.stop = none) :
      Moves r (.request how) { r with stop := some how }
  | dropped (ha : r.stage.awaits = true) : Moves r .dropped (r.goto .dropped)
  | panic (hs : r.stage.inService = true) : Moves r .panic (r.goto .panicked)
  | polled (hs : r.stage = .spawned) : Moves r .polled r.loopHead
  | untilReady {run : ServiceRun} {inst : ServiceInstance}
      (hs : r.stage = .established run inst) (hu : r.unstopped = true) :
      Moves r .polled (r.untilReady run inst)
  | stopBackingOff {delay : Duration} (hs : r.stage = .backingOff delay) :
      Moves r .stop ((r.publish .stopped).goto (.returned (stopped none none)))
  | stopLaunching (how : ServiceStop) (hs : r.stage = .launching) :
      Moves r .stop (r.finish none how)
  | stopWaiting {run : ServiceRun} (how : ServiceStop) (hs : r.stage.waitsOn = some run) :
      Moves r .stop (r.finish (some run) how)
  | slept {delay : Duration} (hs : r.stage = .backingOff delay) : Moves r .slept r.beginAttempt
  | checkAgain {run : ServiceRun} {inst : ServiceInstance} {deadline : Instant}
      (hs : r.stage = .pausing run inst deadline) : Moves r .slept (r.check run inst deadline)
  | launched (launch : ServiceLaunch) (hs : r.stage = .launching) :
      Moves r (.launched (.ok launch)) ((r.record (.launched launch)).goto
        (if r.options.kept then .adopting launch else .creating launch))
  | failed {input : RunnerInput T} (hi : input.isAnswer = true) (failure : RunFailure)
      (hs : r.stage.starting = true) :
      Moves r input (r.fail failure none)
  | created {launch : ServiceLaunch} (scope : ProcessScopeId)
      (hs : r.stage = .creating launch) :
      Moves r (.created (.ok scope)) (r.goto (.spawning scope launch))
  | spawned {scope : ProcessScopeId} {launch : ServiceLaunch} (pid : ProcessId)
      (osPid : Option ℕ) (output : Option ProcessOutput) (hs : r.stage = .spawning scope launch) :
      Moves r (.spawned (.ok (pid, osPid, output)))
        (r.establish ⟨.scoped scope pid, .started⟩ ⟨osPid.getD 0, false, output, none⟩)
  | sweeps {scope : ProcessScopeId} {launch : ServiceLaunch} (error : SpawnError)
      (hs : r.stage = .spawning scope launch) :
      Moves r (.spawned (.error error)) (r.goto (.sweeping scope error))
  | adoptedNone {launch : ServiceLaunch} (hs : r.stage = .adopting launch) :
      Moves r (.adopted (.ok none)) ((r.record .adoptedNone).startKept launch)
  | adopted {launch : ServiceLaunch} (previous : KeptProcess) (hs : r.stage = .adopting launch)
      (hm : r.mayAdopt = true) (hf : previous.fingerprint = launch.fingerprint) :
      Moves r (.adopted (.ok (some previous)))
        (r.establish ⟨.kept previous, .adopted⟩ (keptInstance previous true))
  | tookOver {launch : ServiceLaunch} (previous : KeptProcess) (hs : r.stage = .adopting launch)
      (hn : r.mayAdopt = true → previous.fingerprint ≠ launch.fingerprint) :
      Moves r (.adopted (.ok (some previous)))
        ((r.record (.obtained ⟨.kept previous, .tookOver⟩)).goto (.replacing launch previous))
  | replaced {launch : ServiceLaunch} {previous : KeptProcess} (outcome : TerminationOutcome)
      (hs : r.stage = .replacing launch previous) (hv : outcome.isVerified = true) :
      Moves r (.terminated outcome)
        ((r.record (.ended ⟨.kept previous, .tookOver⟩ (.kept outcome))).startKept launch)
  | notReplaced {launch : ServiceLaunch} {previous : KeptProcess} (outcome : TerminationOutcome)
      (failure : RunFailure) (hs : r.stage = .replacing launch previous)
      (hv : outcome.isVerified = false) :
      Moves r (.terminated outcome)
        ((r.record (.ended ⟨.kept previous, .tookOver⟩ (.kept outcome))).fail failure none)
  | started {launch : ServiceLaunch} (process : KeptProcess) (hs : r.stage = .keeping launch) :
      Moves r (.started (.ok process))
        (r.establish ⟨.kept process, .started⟩ (keptInstance process false))
  | isReady {run : ServiceRun} {inst : ServiceInstance} {deadline : Instant} (value : T)
      (hs : r.stage = .checking run inst deadline) :
      Moves r (.checked (.ok (some value)))
        ((r.publish (.ready value inst.osPid inst.adopted)).goto (.ready run r.now))
  | notYet {run : ServiceRun} {inst : ServiceInstance} {deadline : Instant}
      (hs : r.stage = .checking run inst deadline) :
      Moves r (.checked (.ok none)) (r.goto (.pausing run inst deadline))
  | notReady {run : ServiceRun} {input : RunnerInput T} (hi : input.isAnswer = true)
      (failure : RunFailure) (hs : r.stage.unready = some run) :
      Moves r input (r.goto (.ending run (.notReady failure)))
  | exited {run : ServiceRun} {readyAt : Instant} {exit : Except WaitError _}
      (hs : r.stage = .ready run readyAt) :
      Moves r (.exited exit)
        (r.goto (.ending run (.exited (exitText exit) readyAt (r.now - readyAt))))
  | ended {run : ServiceRun} {reason : EndReason} (ending : RunEnding)
      (hs : r.stage = .ending run reason) (ho : ending.isOf run.running = true) :
      Moves r (.ended ending) (r.ended run ending reason)

/-- **Every step of the runner is one of its moves.** -/
theorem step_moves {r r' : Runner T} {input : RunnerInput T} (h : r.step input = some r') :
    r.Moves input r' := by
  cases input with
  | clock now =>
      obtain rfl := Option.some.inj h
      exact .clock now
  | request how =>
      simp only [step, Option.ite_none_right_eq_some, Option.some.injEq] at h
      obtain ⟨hn, rfl⟩ := h
      exact .request how hn
  | dropped =>
      simp only [step, Option.ite_none_right_eq_some, Option.some.injEq] at h
      obtain ⟨ha, rfl⟩ := h
      exact .dropped ha
  | panic =>
      simp only [step, Option.ite_none_right_eq_some, Option.some.injEq, Bool.and_eq_true] at h
      obtain ⟨⟨hs, -⟩, rfl⟩ := h
      exact .panic hs
  | polled =>
      simp only [step] at h
      split at h
      · next hs => cases h; exact .polled hs
      · next hs hu => cases h; exact .untilReady hs hu
      · cases h
  | stop =>
      simp only [step] at h
      split at h
      · next hs => cases h; exact .stopBackingOff hs
      · next hs => cases h; exact .stopLaunching _ hs
      · next how stage _ _ hs =>
          obtain ⟨run, hw, rfl⟩ := Option.map_eq_some_iff.mp h
          exact .stopWaiting _ hw
      · cases h
  | slept =>
      simp only [step] at h
      split at h
      · next hs _ => cases h; exact .slept hs
      · next hs _ => cases h; exact .checkAgain hs
      · cases h
  | launched result =>
      simp only [step] at h
      split at h
      · next hs _ => cases h; exact .launched _ hs
      · next hs _ => cases h; exact .failed rfl _ (by rw [hs]; rfl)
      · cases h
  | created result =>
      simp only [step] at h
      split at h
      · next hs => cases h; exact .created _ hs
      · next hs => cases h; exact .failed rfl _ (by rw [hs]; rfl)
      · cases h
  | spawned result =>
      simp only [step] at h
      split at h
      · next hs => cases h; exact .spawned _ _ _ hs
      · next hs => cases h; exact .sweeps _ hs
      · cases h
  | swept =>
      simp only [step] at h
      split at h
      · next hs => cases h; exact .failed rfl _ (by rw [hs]; rfl)
      · cases h
  | adopted result =>
      simp only [step] at h
      split at h
      · next hs => cases h; exact .adoptedNone hs
      · next hs =>
          split at h
          · next hm =>
              cases h
              simp only [Bool.and_eq_true, beq_iff_eq] at hm
              exact .adopted _ hs hm.1 hm.2
          · next hm =>
              cases h
              simp only [Bool.and_eq_true, beq_iff_eq, not_and] at hm
              exact .tookOver _ hs hm
      · next hs => cases h; exact .failed rfl _ (by rw [hs]; rfl)
      · cases h
  | terminated outcome =>
      simp only [step] at h
      split at h
      · next hs =>
          split at h
          · next hv => cases h; exact .replaced _ hs hv
          · next hv => cases h; exact .notReplaced _ _ hs (by simpa using hv)
      · cases h
  | started result =>
      simp only [step] at h
      split at h
      · next hs => cases h; exact .started _ hs
      · next hs => cases h; exact .failed rfl _ (by rw [hs]; rfl)
      · cases h
  | checked result =>
      simp only [step] at h
      split at h
      · next hs _ => cases h; exact .isReady _ hs
      · next hs _ =>
          split at h
          · cases h; exact .notReady rfl _ (by rw [hs]; rfl)
          · cases h; exact .notYet hs
      · next hs _ => cases h; exact .notReady rfl _ (by rw [hs]; rfl)
      · cases h
  | exited exit =>
      simp only [step] at h
      split at h
      · next hs _ =>
          simp only [Option.ite_none_right_eq_some, Option.some.injEq] at h
          obtain ⟨-, rfl⟩ := h
          exact .notReady rfl _ (by rw [hs]; rfl)
      · next hs _ =>
          simp only [Option.ite_none_right_eq_some, Option.some.injEq] at h
          obtain ⟨-, rfl⟩ := h
          exact .notReady rfl _ (by rw [hs]; rfl)
      · next hs _ =>
          simp only [Option.ite_none_right_eq_some, Option.some.injEq] at h
          obtain ⟨-, rfl⟩ := h
          exact .exited hs
      · cases h
  | elapsed =>
      simp only [step] at h
      split at h
      · next hs _ => cases h; exact .notReady rfl _ (by rw [hs]; rfl)
      · next hs _ => cases h; exact .notReady rfl _ (by rw [hs]; rfl)
      · cases h
  | ended ending =>
      simp only [step] at h
      split at h
      · next hs =>
          simp only [Option.ite_none_right_eq_some, Option.some.injEq] at h
          obtain ⟨ho, rfl⟩ := h
          exact .ended _ hs ho
      · cases h

end Runner

end Shepherd
