import Shepherd.Domain.Types

/-!
# Restart Policies

`RestartPolicy` says how long a service waits before it restarts a failed run, and how many
consecutive failures it tolerates. Durations saturate at the largest `Duration` of the
source, and the failure counts the policy is asked about are 32-bit.
-/

namespace Shepherd

/-- The largest duration: 2⁶⁴ - 1 seconds and 999 999 999 nanoseconds. -/
def DURATION_MAX : Duration := 2 ^ 64 * 10 ^ 9 - 1

/-- The largest value of a 32-bit counter. -/
def U32_MAX : ℕ := 2 ^ 32 - 1

/-- `saturating_add` of 32-bit counters. -/
def U32.saturatingAdd (a b : ℕ) : ℕ := min (a + b) U32_MAX

/-- `Duration::saturating_mul`. -/
def saturatingMul (d : Duration) (n : ℕ) : Duration := min (d * n) DURATION_MAX

/-- One second. -/
def secs (n : ℕ) : Duration := n * 10 ^ 9

/-- Exponential backoff between the restarts of a service. -/
structure RestartPolicy where
  initial : Duration
  max : Duration
  factor : ℕ
  healthyAfter : Duration
  maxFailures : Option ℕ
  deriving DecidableEq, Repr

namespace RestartPolicy

/-- 1 s doubling to 60 s, healthy after 60 s ready, never gives up. -/
def default : RestartPolicy where
  initial := secs 1
  max := secs 60
  factor := 2
  healthyAfter := secs 60
  maxFailures := none

/-- A policy that waits `initial`, growing to at most `max`, which is raised to `initial`. -/
def new (initial max : Duration) : RestartPolicy :=
  { default with initial, max := Max.max max initial }

/-- Sets the growth factor, which is at least 1. -/
def withFactor (p : RestartPolicy) (factor : ℕ) : RestartPolicy :=
  { p with factor := Max.max factor 1 }

/-- Sets how long a run must stay ready to clear the failure count. -/
def withHealthyAfter (p : RestartPolicy) (healthyAfter : Duration) : RestartPolicy :=
  { p with healthyAfter }

/-- Gives up after this many consecutive failures. -/
def withMaxFailures (p : RestartPolicy) (maxFailures : Option ℕ) : RestartPolicy :=
  { p with maxFailures }

/-- How long a run must stay ready to clear the failure count. -/
def healthyDuration (p : RestartPolicy) : Duration :=
  p.healthyAfter

/-- The loop of `delay`: it multiplies until the maximum is reached. -/
def grow (p : RestartPolicy) : ℕ → Duration → Duration
  | 0, delay => delay
  | n + 1, delay =>
      if p.max ≤ delay then delay else p.grow n (saturatingMul delay p.factor)

/-- The wait before the restart that follows this many consecutive failures. -/
def delay (p : RestartPolicy) (failures : ℕ) : Duration :=
  if failures = 0 then 0 else min (p.grow (failures - 1) p.initial) p.max

/-- Whether this many consecutive failures exhaust the policy. -/
def givesUp (p : RestartPolicy) (failures : ℕ) : Bool :=
  p.maxFailures.any fun max => max < failures

/-- A policy with a bound gives up when there are more failures than it allows. -/
theorem givesUp_iff {p : RestartPolicy} {failures : ℕ} :
    p.givesUp failures = true ↔ ∃ max, p.maxFailures = some max ∧ max < failures := by
  simp [givesUp, Option.any_eq_true]

example : (List.range 9).map default.delay = [0, 1, 2, 4, 8, 16, 32, 60, 60].map secs := by
  decide

end RestartPolicy

end Shepherd
