import Mathlib.Algebra.Order.Ring.Nat
import Mathlib.Data.Nat.Notation
import Mathlib.Tactic.Common

/-!
# Domain Values

The plain values of the supervision domain, under the names of `shepherd-domain`:
identifiers, signals and specifications, exits and termination outcomes, the two
lifecycle enumerations, domain events and domain errors.

Identifiers and OS pids are natural numbers, durations are nanoseconds, and OS strings
are byte strings. The counters that mint identifiers are 64-bit; the modules that mint
say where the bound enters.

The one classification everything else depends on is `TerminationOutcome.isVerified`:
an outcome is **verified** when it is one of the three success variants.
-/

namespace Shepherd

/-- Identifier of a scope, assigned by the supervisor. -/
abbrev ProcessScopeId := ℕ

/-- Identifier of a supervised process; distinct from the OS pid. -/
abbrev ProcessId := ℕ

/-- A duration in nanoseconds. -/
abbrev Duration := ℕ

/-- An OS string: the bytes the platform passes to the program. -/
abbrev OsString := List UInt8

/-- A termination signal. -/
inductive Signal where
  | term
  | kill
  | interrupt
  | custom (number : Int)
  deriving DecidableEq, Repr

/-- Environment policy of a spawned process; `none` removes a key. -/
inductive EnvPolicy where
  | inherit
  | overrides (entries : List (OsString × Option OsString))
  | clear (entries : List (OsString × OsString))
  deriving DecidableEq, Repr

/-- How the output streams of a process are handled. -/
inductive OutputMode where
  | discard
  | capture (bufferBytes tailBytes : ℕ)
  deriving DecidableEq, Repr

/-- The immutable specification a process is spawned from. -/
structure ProcessSpec where
  program : OsString
  args : List OsString
  env : EnvPolicy
  cwd : Option OsString
  gracefulSignal : Signal
  output : OutputMode
  deriving DecidableEq, Repr

/-- A specification with the defaults of the builder. -/
def ProcessSpec.new (program : OsString) : ProcessSpec where
  program := program
  args := []
  env := .inherit
  cwd := none
  gracefulSignal := .term
  output := .discard

/-- A value that tells one process instance from a later reuse of its pid. -/
inductive ReuseToken where
  | startTime (ticks : ℕ)
  | unavailable
  deriving DecidableEq, Repr

/-- The OS-level identity of a process: pid and reuse token. -/
structure OsIdentity where
  pid : ℕ
  reuseToken : ReuseToken
  deriving DecidableEq, Repr

/-- Raw exit information a backend reports after it reaped a process. -/
structure RawExit where
  code : Option Int
  signal : Option Signal
  coreDumped : Bool
  deriving DecidableEq, Repr

/-- Why cleanup could not be verified. -/
inductive UnverifiedReason where
  | droppedWithoutShutdown
  | runtimeShutdown
  | waitTimedOut (waited : Duration)
  | reapFailed
  | processDisappeared
  deriving DecidableEq, Repr

/-- The result of a termination or of a natural exit. -/
inductive TerminationOutcome where
  | exitedNaturally
  | gracefulSuccess
  | forcedRequired
  | failed
  | cleanupUnverified (reason : UnverifiedReason)
  deriving DecidableEq, Repr

/-- Whether an outcome stands for verified cleanup: only the success variants do. -/
def TerminationOutcome.isVerified : TerminationOutcome → Bool
  | .exitedNaturally | .gracefulSuccess | .forcedRequired => true
  | _ => false

/-- The recorded terminal result of a supervised process. -/
structure ProcessExit where
  pid : ProcessId
  code : Option Int
  signal : Option Signal
  outcome : TerminationOutcome
  forced : Bool
  deriving DecidableEq, Repr

/-- An exit is verified when its outcome is. -/
def ProcessExit.Verified (e : ProcessExit) : Prop :=
  e.outcome.isVerified = true

instance (e : ProcessExit) : Decidable e.Verified :=
  inferInstanceAs (Decidable (e.outcome.isVerified = true))

/-- The lifecycle of a supervised process. -/
inductive ProcessLifecycle where
  | spawning
  | running
  | gracefulRequested
  | forcing
  | exitedUnreaped
  | reaped
  | spawnFailed
  deriving DecidableEq, Repr

namespace ProcessLifecycle

/-- Alive from the supervisor's point of view. -/
def isLive : ProcessLifecycle → Bool
  | .spawning | .running | .gracefulRequested | .forcing => true
  | _ => false

/-- In a terminal state. -/
def isTerminal : ProcessLifecycle → Bool
  | .reaped | .spawnFailed => true
  | _ => false

/-- A graceful or forceful termination has been requested. -/
def isTerminating : ProcessLifecycle → Bool
  | .gracefulRequested | .forcing => true
  | _ => false

end ProcessLifecycle

/-- The lifecycle of a scope. -/
inductive ScopeState where
  | open
  | draining
  | closed
  deriving DecidableEq, Repr

/-- Only an open scope accepts processes. -/
def ScopeState.acceptsProcesses : ScopeState → Bool
  | .open => true
  | _ => false

/-- Facts the aggregate returns from its transitions. -/
inductive DomainEvent where
  | processSpawned (scope : ProcessScopeId) (pid : ProcessId)
  | terminationRequested (scope : ProcessScopeId) (pid : ProcessId)
  | processExited (scope : ProcessScopeId) (pid : ProcessId)
  | processReaped (scope : ProcessScopeId) (pid : ProcessId) (exit : ProcessExit)
  | scopeClosed (scope : ProcessScopeId)
  deriving DecidableEq, Repr

namespace DomainEvent

/-- The process an event is about; a scope event is about none. -/
def pid? : DomainEvent → Option ProcessId
  | .processSpawned _ pid | .terminationRequested _ pid | .processExited _ pid
  | .processReaped _ pid _ => some pid
  | .scopeClosed _ => none

/-- The pattern `DomainEvent::ScopeClosed { .. }`. -/
def isScopeClosed : DomainEvent → Bool
  | .scopeClosed _ => true
  | _ => false

end DomainEvent

/-- Errors of the pure domain. -/
inductive DomainError where
  | scopeClosed (scope : ProcessScopeId)
  | unknownProcess (pid : ProcessId)
  | unknownScope (scope : ProcessScopeId)
  | invalidTransition («from» event : String)
  deriving DecidableEq, Repr

end Shepherd
