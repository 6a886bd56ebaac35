import Shepherd.Domain.Fingerprint
import Shepherd.Domain.Restart
import Shepherd.Kept.Store
import Shepherd.Supervisor.State

/-!
# Services

What a service is launched with, what its worker publishes, and the texts of its failures.
The values are those of `service.rs`; `T` is what a ready run reports.

Of a kept process the worker reads the pid and the fingerprint of its record, and errors are
turned into text where a reason is made of them.
-/

namespace Shepherd

/-! ### Texts -/

/-- The last digits of a decimal fraction, without trailing zeros. -/
def fractionDigits : ℕ → ℕ → List Char
  | 0, _ => []
  | n + 1, fraction =>
      if fraction = 0 then []
      else Nat.digitChar (fraction / 10 ^ n) :: fractionDigits n (fraction % 10 ^ n)

/-- A whole number of units, with the remaining nanoseconds as a fraction. -/
def decimalText (whole fraction digits : ℕ) (unit : String) : String :=
  toString whole ++
    (if fraction = 0 then "" else "." ++ String.ofList (fractionDigits digits fraction)) ++ unit

/-- A duration as `{:?}` shows it. -/
def durationDebug (d : Duration) : String :=
  if 10 ^ 9 ≤ d then decimalText (d / 10 ^ 9) (d % 10 ^ 9) 9 "s"
  else if 10 ^ 6 ≤ d then decimalText (d / 10 ^ 6) (d % 10 ^ 6) 6 "ms"
  else if 10 ^ 3 ≤ d then decimalText (d / 10 ^ 3) (d % 10 ^ 3) 3 "µs"
  else decimalText d 0 0 "ns"

/-- A signal as `{:?}` shows it. -/
def Signal.debug : Signal → String
  | .term => "Term"
  | .kill => "Kill"
  | .interrupt => "Interrupt"
  | .custom number => s!"Custom({number})"

/-- A reason as `{:?}` shows it. -/
def UnverifiedReason.debug : UnverifiedReason → String
  | .droppedWithoutShutdown => "DroppedWithoutShutdown"
  | .runtimeShutdown => "RuntimeShutdown"
  | .waitTimedOut waited => "WaitTimedOut \x7b waited: " ++ durationDebug waited ++ " \x7d"
  | .reapFailed => "ReapFailed"
  | .processDisappeared => "ProcessDisappeared"

/-- An outcome as `{:?}` shows it. -/
def TerminationOutcome.debug : TerminationOutcome → String
  | .exitedNaturally => "ExitedNaturally"
  | .gracefulSuccess => "GracefulSuccess"
  | .forcedRequired => "ForcedRequired"
  | .failed => "Failed"
  | .cleanupUnverified reason => "CleanupUnverified(" ++ reason.debug ++ ")"

/-- The text of a domain error. -/
def DomainError.display : DomainError → String
  | .scopeClosed scope => s!"scope scope#{scope} is not accepting new processes"
  | .unknownProcess pid => s!"unknown process proc#{pid}"
  | .unknownScope scope => s!"unknown scope scope#{scope}"
  | .invalidTransition state event => s!"invalid transition from {state} on event '{event}'"

/-- The text of a refused scope. -/
def ScopeCreationError.display : ScopeCreationError → String
  | .supervisorClosed => "supervisor is no longer accepting scopes"

/-- The text of a failed spawn. -/
def SpawnError.display : SpawnError → String
  | .unknownScope scope => s!"unknown scope scope#{scope}"
  | .scopeClosed scope => s!"scope scope#{scope} is not accepting new processes"
  | .os message => "failed to spawn process: " ++ message
  | .domain error => error.display

/-- The text of a failed wait. -/
def WaitError.display : WaitError → String
  | .unknownProcess pid => s!"unknown process proc#{pid}"
  | .backend message => "failed to wait for process: " ++ message

/-- Error of an operation on kept processes. -/
inductive KeptError where
  | unsupported
  | busy (name : KeptName)
  | alreadyRunning (name : KeptName) (osPid : ℕ)
  | captureUnsupported
  | store (message : String)
  | launch (message : String)
  | signal (message : String)
  deriving DecidableEq, Repr

/-- The text of a failed operation on kept processes. -/
def KeptError.display : KeptError → String
  | .unsupported => "kept processes are not supported on this platform"
  | .busy name => s!"kept process {name} is held by another owner"
  | .alreadyRunning name osPid => s!"kept process {name} is already running as pid {osPid}"
  | .captureUnsupported => "kept processes cannot capture output; give them a log file"
  | .store message => "kept record store failed: " ++ message
  | .launch message => "failed to launch kept process: " ++ message
  | .signal message => "failed to signal kept process: " ++ message

/-- How a run ended, in words. -/
def describe : Option Int → Option Signal → String
  | some code, _ => s!"exited with code {code}"
  | none, some signal => "killed by " ++ signal.debug
  | none, none => "exited"

/-! ### Runs -/

/-- One run of a service. -/
structure ServiceLaunch where
  spec : ProcessSpec
  log : Option OsString
  revision : Option String
  deriving DecidableEq, Repr

/-- The fingerprint a kept run of this launch has. -/
def ServiceLaunch.fingerprint (l : ServiceLaunch) : SpecFingerprint :=
  .of l.spec l.revision

/-- A kept process, as the worker sees it. -/
structure KeptProcess where
  osPid : ℕ
  fingerprint : SpecFingerprint
  deriving DecidableEq, Repr

/-- The running instance a readiness check looks at. -/
structure ServiceInstance where
  osPid : ℕ
  adopted : Bool
  output : Option ProcessOutput
  record : Option KeptProcess
  deriving DecidableEq, Repr

/-- What is running. -/
inductive Running where
  | scoped (scope : ProcessScopeId) (pid : ProcessId)
  | kept (process : KeptProcess)
  deriving DecidableEq, Repr

/-- How a run came to the worker. -/
inductive RunOrigin where
  /-- It was spawned in a scope, or started as a kept process. -/
  | started
  /-- It was adopted from an earlier owner. -/
  | adopted
  /-- It was taken over from an earlier owner to be ended. -/
  | tookOver
  deriving DecidableEq, Repr

/-- A run the worker has obtained. -/
structure ServiceRun where
  running : Running
  origin : RunOrigin
  deriving DecidableEq, Repr

/-- The worker started or adopted the run, rather than taking it over to end it. -/
def ServiceRun.Established (run : ServiceRun) : Prop :=
  run.origin ≠ .tookOver

instance (run : ServiceRun) : Decidable run.Established :=
  inferInstanceAs (Decidable (run.origin ≠ .tookOver))

/-- The result of ending a run: what `KeptProcess::terminate` or `terminate_scope` said. -/
inductive RunEnding where
  | kept (outcome : TerminationOutcome)
  | scoped (result : CleanupResult)
  deriving DecidableEq

/-- Whether the run was verified as ended. -/
def RunEnding.verified : RunEnding → Bool
  | .kept outcome => outcome.isVerified
  | .scoped (.ok report) => report.allVerified
  | .scoped (.error _) => false

/-! ### Statuses -/

/-- Which step of a run failed. -/
inductive ServiceFailureKind where
  | launch
  | start
  | readyCheck
  | notReadyInTime
  | exitedBeforeReady
  | exited
  deriving DecidableEq, Repr

/-- A failed run: which step, and why in words. -/
structure RunFailure where
  kind : ServiceFailureKind
  reason : String
  deriving DecidableEq, Repr

/-- The published state of a service. -/
inductive ServiceStatus (T : Type) where
  | starting (attempt : ℕ)
  | ready (value : T) (osPid : ℕ) (adopted : Bool)
  | backoff (failures : ℕ) (delay : Duration) (kind : ServiceFailureKind) (reason : String)
  | stopping
  | stopped
  | released (osPid : ℕ)
  | failed (kind : ServiceFailureKind) (reason : String)
  deriving DecidableEq

/-- `ServiceStatus` without its value, for listings. -/
inductive ServiceState where
  | starting (attempt : ℕ)
  | ready (osPid : ℕ) (adopted : Bool)
  | backoff (failures : ℕ) (delay : Duration)
  | stopping
  | stopped
  | released (osPid : ℕ)
  | failed
  deriving DecidableEq, Repr

/-- Whether no further status will follow. -/
def ServiceStatus.isFinal {T : Type} : ServiceStatus T → Bool
  | .stopped | .released _ | .failed _ _ => true
  | _ => false

/-- The state a status is listed as. -/
def ServiceStatus.summary {T : Type} : ServiceStatus T → ServiceState
  | .starting attempt => .starting attempt
  | .ready _ osPid adopted => .ready osPid adopted
  | .backoff failures delay _ _ => .backoff failures delay
  | .stopping => .stopping
  | .stopped => .stopped
  | .released osPid => .released osPid
  | .failed _ _ => .failed

/-- `is_final` of a listed state. -/
def ServiceState.isFinal : ServiceState → Bool
  | .stopped | .released _ | .failed => true
  | _ => false

/-- A summary is final exactly if its status is. -/
@[simp] theorem ServiceStatus.isFinal_summary {T : Type} (s : ServiceStatus T) :
    s.summary.isFinal = s.isFinal := by
  cases s <;> rfl

/-- How to stop a service. -/
inductive ServiceStop where
  | terminate
  | leave
  deriving DecidableEq, Repr

/-- What stopping a service did. -/
structure ServiceStopped where
  outcome : Option TerminationOutcome
  leftRunning : Option ℕ
  deriving DecidableEq, Repr

/-- How a service is run. -/
structure ServiceOptions where
  restart : RestartPolicy
  readyWithin : Duration
  readyPoll : Duration
  kept : Bool

/-- The options of a service that sets none. -/
def ServiceOptions.default : ServiceOptions where
  restart := .default
  readyWithin := secs 30
  readyPoll := 500 * 10 ^ 6
  kept := false

end Shepherd
