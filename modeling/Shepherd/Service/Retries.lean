import Mathlib.Data.List.Range
import Shepherd.Service.Runs

/-!
# Retries of a Service

How a worker counts. The **outcomes** of its history are its failed runs, newest first, each
with how long it had been ready when it was seen to exit. `consecutive` counts those since
the last that had stayed ready long enough, with that one as the first.

The worker measures how long a run was ready only when its sweep is over. `measures` is the
condition under which that makes no difference; the published counts, delays, attempts and
failures are right in every run whose steps meet it (`RetryReport`).
-/

namespace Shepherd

open Conc

variable {T : Type}

/-- Whether the event is neither a failure nor the start of an attempt. -/
def RunnerEvent.isNeutral : RunnerEvent T → Bool
  | .failed _ _ | .published (.starting _) => false
  | _ => true

/-- Whether the status says nothing about failures. -/
def ServiceStatus.isPlain : ServiceStatus T → Bool
  | .starting _ | .backoff _ _ _ _ | .failed _ _ => false
  | _ => true

namespace Runner

variable {r r' : Runner T} {h : List (ℕ × RunnerEvent T)}

/-! ### What the history says -/

/-- The failed runs, newest first. -/
def outcomes (h : List (ℕ × RunnerEvent T)) : List (RunFailure × Option Duration) :=
  h.filterMap fun
    | (_, .failed failure stayed) => some (failure, stayed)
    | _ => none

/-- The attempts that were published, newest first. -/
def attempts (h : List (ℕ × RunnerEvent T)) : List ℕ :=
  h.filterMap fun
    | (_, .published (.starting attempt)) => some attempt
    | _ => none

/-- How many runs have failed since the last one that stayed ready long enough, which counts
as the first. -/
def consecutive (healthyAfter : Duration) : List (RunFailure × Option Duration) → ℕ
  | [] => 0
  | (_, stayed) :: older =>
      if stayed.any fun stayed => healthyAfter ≤ stayed then 1
      else consecutive healthyAfter older + 1

/-- The consecutive failures of a worker. -/
def streak (r : Runner T) : ℕ :=
  consecutive r.options.restart.healthyAfter (outcomes r.history)

/-- A neutral event is no outcome. -/
theorem outcomes_neutral {k : ℕ} {ev : RunnerEvent T} (hev : ev.isNeutral = true) :
    outcomes ((k, ev) :: h) = outcomes h := by
  cases ev <;> first | rfl | cases hev

/-- A neutral event is no attempt. -/
theorem attempts_neutral {k : ℕ} {ev : RunnerEvent T} (hev : ev.isNeutral = true) :
    attempts ((k, ev) :: h) = attempts h := by
  cases ev with
  | published status => cases status <;> first | rfl | cases hev
  | _ => rfl

/-- There are no more consecutive failures than outcomes. -/
theorem consecutive_le_length (healthyAfter : Duration)
    (os : List (RunFailure × Option Duration)) : consecutive healthyAfter os ≤ os.length := by
  induction os with
  | nil => exact Nat.le_refl 0
  | cons o os ih =>
      rw [consecutive, List.length_cons]
      split <;> omega

/-- A run that was ready long enough begins the count, any other goes on with it. -/
theorem consecutive_cons (healthyAfter : Duration) (failure : RunFailure)
    (stayed : Option Duration) (os : List (RunFailure × Option Duration)) :
    consecutive healthyAfter ((failure, stayed) :: os) =
      (if stayed.any fun stayed => healthyAfter ≤ stayed then 0
        else consecutive healthyAfter os) + 1 := by
  rw [consecutive]
  split <;> rfl

/-! ### The invariant -/

/-- The counters of a worker, and the last failure, are those of its history. -/
structure Counts (r : Runner T) : Prop where
  failures : r.failures = min r.streak U32_MAX
  attempt : r.attempt = min r.round U32_MAX
  attempts : Runner.attempts r.history = (List.range' 1 r.round).reverse.map (min · U32_MAX)
  rounds : r.round ≤ (outcomes r.history).length + 1
  last : ∀ o ∈ (outcomes r.history).head?, r.last = o.1

/-- What the status says about the failures. -/
def StatusFacts (r : Runner T) : ServiceStatus T → Prop
  | .backoff failures delay kind reason =>
      failures = r.failures ∧ delay = r.options.restart.delay r.failures ∧
        r.last = ⟨kind, reason⟩ ∧ outcomes r.history ≠ [] ∧
        r.options.restart.givesUp r.failures = false
  | .failed kind reason =>
      r.last = ⟨kind, reason⟩ ∧ outcomes r.history ≠ [] ∧
        r.options.restart.maxFailures = some (r.streak - 1) ∧ r.streak ≠ 0
  | _ => r.options.restart.givesUp r.failures = false

/-- What the stage says: before an attempt begins, every earlier one has failed. -/
def StageCounts (r : Runner T) : RunnerStage → Prop
  | .spawned => r.round ≤ (outcomes r.history).length
  | .backingOff delay => r.round ≤ (outcomes r.history).length ∧
      ∃ kind reason, r.status = .backoff r.failures delay kind reason
  | _ => True

/-- The invariant of the counts. -/
structure RetryInv (r : Runner T) : Prop extends Counts r where
  status : r.StatusFacts r.status
  stage : r.StageCounts r.stage

/-- The worker has not given up. -/
structure Trying (r : Runner T) : Prop extends Counts r where
  goesOn : r.options.restart.givesUp r.failures = false

/-- A runner that has not returned is trying. -/
theorem RetryInv.trying (hi : r.RetryInv) (ha : r.Announced)
    (hs : ∀ result, r.stage ≠ .returned result) : r.Trying := by
  refine ⟨hi.toCounts, ?_⟩
  have hst := hi.status
  cases hstatus : r.status with
  | backoff => rw [hstatus] at hst; exact hst.2.2.2.2
  | failed =>
      obtain ⟨result, hres⟩ := ha.final.mp (by rw [hstatus]; rfl)
      exact absurd hres (hs result)
  | _ => rw [hstatus] at hst; exact hst

/-- A neutral event adds no outcome. -/
theorem outcomes_record {ev : RunnerEvent T} (hev : ev.isNeutral = true) :
    outcomes (r.record ev).history = outcomes r.history :=
  outcomes_neutral hev

/-- A neutral event leaves the streak alone. -/
theorem streak_record {ev : RunnerEvent T} (hev : ev.isNeutral = true) :
    (r.record ev).streak = r.streak := by
  rw [streak, streak, outcomes_record hev]
  rfl

/-- A neutral event leaves the count alone. -/
theorem Counts.record (hc : r.Counts) {ev : RunnerEvent T} (hev : ev.isNeutral = true) :
    (r.record ev).Counts where
  failures := hc.failures.trans (by rw [streak_record hev])
  attempt := hc.attempt
  attempts := (attempts_neutral hev).trans hc.attempts
  rounds := by
    rw [outcomes_record hev]
    exact hc.rounds
  last := by
    rw [outcomes_record hev]
    exact hc.last

/-- A neutral publication leaves the count alone. -/
theorem Counts.publish (hc : r.Counts) {status : ServiceStatus T}
    (hev : (RunnerEvent.published status).isNeutral = true) : (r.publish status).Counts := by
  have hc' : Counts { r with status, summary := status.summary } :=
    ⟨hc.failures, hc.attempt, hc.attempts, hc.rounds, hc.last⟩
  exact hc'.record hev

/-- A neutral event leaves a trying runner alone. -/
theorem Trying.record (ht : r.Trying) {ev : RunnerEvent T} (hev : ev.isNeutral = true) :
    (r.record ev).Trying :=
  ⟨ht.toCounts.record hev, ht.goesOn⟩

/-- What a status says is not changed by a neutral event. -/
theorem StatusFacts.record {status : ServiceStatus T} (hs : r.StatusFacts status)
    {ev : RunnerEvent T} (hev : ev.isNeutral = true) : (r.record ev).StatusFacts status := by
  cases status with
  | backoff failures delay kind reason =>
      rw [StatusFacts, outcomes_record hev]
      exact hs
  | failed kind reason =>
      rw [StatusFacts, outcomes_record hev, streak_record hev]
      exact hs
  | _ => exact hs

/-- The worker goes on without a word. -/
theorem RetryInv.goto (hi : r.RetryInv) {stage : RunnerStage}
    (hs : r.StageCounts stage) : (r.goto stage).RetryInv := by
  refine ⟨⟨hi.failures, hi.attempt, hi.attempts, hi.rounds, hi.last⟩, ?_, ?_⟩
  · have hst := hi.status
    change (r.goto stage).StatusFacts r.status
    cases hstatus : r.status <;> rw [hstatus] at hst <;> exact hst
  · change (r.goto stage).StageCounts stage
    cases stage <;> exact hs

/-- It writes something that does not count. -/
theorem RetryInv.record (hi : r.RetryInv) {ev : RunnerEvent T} (hev : ev.isNeutral = true) :
    (r.record ev).RetryInv := by
  refine ⟨hi.toCounts.record hev, hi.status.record hev, ?_⟩
  have hs := hi.stage
  change (r.record ev).StageCounts r.stage
  cases hstage : r.stage with
  | spawned | backingOff =>
      rw [hstage] at hs
      rw [StageCounts, outcomes_record hev]
      exact hs
  | _ => trivial

/-- An established run has not failed. -/
theorem RetryInv.establish (hi : r.RetryInv) (run : ServiceRun) (inst : ServiceInstance) :
    (r.establish run inst).RetryInv := by
  have hi' : RetryInv { r with mayAdopt := false } :=
    ⟨⟨hi.failures, hi.attempt, hi.attempts, hi.rounds, hi.last⟩, hi.status, hi.stage⟩
  exact (hi'.record rfl).goto trivial

/-- It publishes a status that says nothing about failures. -/
theorem Trying.publish (ht : r.Trying) {status : ServiceStatus T}
    (hp : status.isPlain = true) : (r.publish status).Trying := by
  have hev : (RunnerEvent.published status).isNeutral = true := by
    cases status <;> first | rfl | cases hp
  exact ⟨ht.toCounts.publish hev, ht.goesOn⟩

/-- A trying runner publishes a plain status and goes on. -/
theorem Trying.publishes (ht : r.Trying) {status : ServiceStatus T} {stage : RunnerStage}
    (hp : status.isPlain = true) (hs : ∀ q : Runner T, q.StageCounts stage) :
    ((r.publish status).goto stage).RetryInv := by
  obtain ⟨hc, hg⟩ := ht.publish hp
  refine ⟨⟨hc.failures, hc.attempt, hc.attempts, hc.rounds, hc.last⟩, ?_, hs _⟩
  cases status <;> first | exact hg | cases hp

/-! ### The loop -/

/-- An attempt begins while the policy does not give up. -/
theorem beginAttempt_inv (hc : r.Counts) (hr : r.round ≤ (outcomes r.history).length)
    (hg : r.options.restart.givesUp r.failures = false) : r.beginAttempt.RetryInv := by
  have hnum : U32.saturatingAdd r.attempt 1 = min (r.round + 1) U32_MAX := by
    rw [hc.attempt, U32.saturatingAdd]
    omega
  refine ⟨⟨hc.failures, hnum, ?_, Nat.succ_le_succ hr, hc.last⟩, hg, trivial⟩
  change U32.saturatingAdd r.attempt 1 :: Runner.attempts r.history = _
  change _ = (List.range' 1 (r.round + 1)).reverse.map (min · U32_MAX)
  rw [hnum, hc.attempts, List.range'_1_concat, List.reverse_append, List.reverse_singleton,
    List.singleton_append, List.map_cons, Nat.add_comm 1]

/-- The head of the loop keeps the count. -/
theorem loopHead_inv (hc : r.Counts) (hr : r.round ≤ (outcomes r.history).length)
    (hlim : ∀ max, r.options.restart.maxFailures = some max → max < r.failures →
      r.streak = max + 1) : r.loopHead.RetryInv := by
  have hne : 0 < r.failures → outcomes r.history ≠ [] := by
    intro hpos hnil
    rw [hc.failures, streak, hnil] at hpos
    simp [consecutive] at hpos
  rw [loopHead]
  split_ifs with hpos hgive
  · obtain ⟨max, hmax, hlt⟩ := RestartPolicy.givesUp_iff.mp hgive
    have hstreak := hlim max hmax hlt
    obtain ⟨hf, ha, has, hrs, hl⟩ :=
      hc.publish (show (RunnerEvent.published
        (.failed r.last.kind r.last.reason : ServiceStatus T)).isNeutral = true from rfl)
    refine ⟨⟨hf, ha, has, hrs, hl⟩, ⟨rfl, hne hpos, ?_, ?_⟩, trivial⟩
    · change _ = some (r.streak - 1)
      rw [hstreak]
      exact hmax
    · change r.streak ≠ 0
      omega
  · obtain ⟨hf, ha, has, hrs, hl⟩ :=
      hc.publish (show (RunnerEvent.published (.backoff r.failures
        (r.options.restart.delay r.failures) r.last.kind r.last.reason :
          ServiceStatus T)).isNeutral = true from rfl)
    refine ⟨⟨hf, ha, has, hrs, hl⟩, ⟨rfl, rfl, rfl, hne hpos, ?_⟩, hr, _, _, rfl⟩
    exact Bool.eq_false_iff.mpr hgive
  · refine beginAttempt_inv hc hr (Bool.eq_false_iff.mpr fun hgive => ?_)
    obtain ⟨max, -, hlt⟩ := RestartPolicy.givesUp_iff.mp hgive
    omega

/-- A run fails; `failures` is what the worker counts before it, on which it did not give up. -/
theorem fail_inv (ht : r.Trying) (failure : RunFailure) (stayed : Option Duration)
    {failures : ℕ} (hf : failures =
      min (if stayed.any fun stayed => r.options.restart.healthyAfter ≤ stayed then 0
        else r.streak) U32_MAX) :
    ({ r with failures }.fail failure stayed).RetryInv := by
  have hstreak : consecutive r.options.restart.healthyAfter
      (outcomes ((r.round, .failed failure stayed) :: r.history)) =
        (if stayed.any fun stayed => r.options.restart.healthyAfter ≤ stayed then 0
          else r.streak) + 1 :=
    consecutive_cons _ failure stayed _
  have hle : (if stayed.any fun stayed => r.options.restart.healthyAfter ≤ stayed then 0
      else r.streak) ≤ r.streak := by
    split <;> omega
  refine loopHead_inv ⟨?_, ht.attempt, ht.attempts, ?_, ?_⟩ ?_ ?_
  · change U32.saturatingAdd failures 1 = min (consecutive r.options.restart.healthyAfter
      (outcomes ((r.round, .failed failure stayed) :: r.history))) U32_MAX
    rw [hstreak, hf, U32.saturatingAdd]
    omega
  · exact Nat.le_succ_of_le ht.rounds
  · intro o ho
    obtain rfl := Option.some.inj ho
    rfl
  · exact ht.rounds
  · intro max hmax hlt
    change consecutive r.options.restart.healthyAfter
      (outcomes ((r.round, .failed failure stayed) :: r.history)) = max + 1
    change max < U32.saturatingAdd failures 1 at hlt
    have hnot : ¬ max < r.failures := fun hlt' =>
      Bool.eq_false_iff.mp ht.goesOn (RestartPolicy.givesUp_iff.mpr ⟨max, hmax, hlt'⟩)
    have hfailures := ht.failures
    rw [hstreak]
    rw [hf, U32.saturatingAdd] at hlt
    omega

/-- A run fails that was not ready. -/
theorem Trying.fail (ht : r.Trying) (failure : RunFailure) :
    (r.fail failure none).RetryInv :=
  fail_inv ht failure none (by simpa using ht.failures)

/-- A trying runner may stop. -/
theorem Trying.finish (ht : r.Trying) (run : Option ServiceRun) (how : ServiceStop) :
    (r.finish run how).RetryInv := by
  have ht' := ht.publish (show (ServiceStatus.stopping : ServiceStatus T).isPlain = true from rfl)
  rw [finish.eq_def]
  split
  · exact ht'.publishes rfl fun _ => trivial
  · split
    · exact (ht'.record rfl).publishes rfl fun _ => trivial
    · exact ht.publishes rfl fun _ => trivial

/-- Whether it makes no difference that the time a run was ready is measured after its sweep:
there is no failure to clear, or the sweep does not make the run long enough. -/
def measures (r : Runner T) (input : RunnerInput T) : Bool :=
  match input, r.stage with
  | .ended _, .ending _ (.exited _ readyAt stayed) =>
      r.failures == 0 ||
        decide (r.options.restart.healthyDuration ≤ r.now - readyAt) ==
          decide (r.options.restart.healthyDuration ≤ stayed)
  | _, _ => true

/-- The end of a run is counted: healthy runs begin the count anew. -/
theorem Trying.ended (ht : r.Trying) {run : ServiceRun} {ending : RunEnding} {reason : EndReason}
    (hs : r.stage = .ending run reason) (hm : r.measures (.ended ending) = true) :
    (r.ended run ending reason).RetryInv := by
  have ht' := ht.record (show (RunnerEvent.ended run ending : RunnerEvent T).isNeutral = true
    from rfl)
  cases reason with
  | notReady failure => exact ht'.fail failure
  | stopping => exact ht'.publishes rfl fun _ => trivial
  | exited exit readyAt stayed =>
      refine fail_inv ht' ⟨.exited, exit⟩ (some stayed) ?_
      have hfailures := ht'.failures
      change r.failures = min (r.record _).streak U32_MAX at hfailures
      simp only [measures, hs, Bool.or_eq_true, beq_iff_eq, decide_eq_decide] at hm
      change (if r.options.restart.healthyDuration ≤ r.now - readyAt then 0 else r.failures) =
        min (if decide (r.options.restart.healthyDuration ≤ stayed) = true then 0
          else (r.record (.ended run ending)).streak) U32_MAX
      simp only [decide_eq_true_eq]
      rcases hm with hm | hm
      · have hzero : (r.record (.ended run ending)).streak = 0 := by
          have : U32_MAX ≠ 0 := by decide
          omega
        rw [hm, hzero]
        simp
      · simp only [hm]
        split
        · rfl
        · exact hfailures

/-- **A step that measures rightly** keeps the counts. -/
theorem RetryInv.step {input : RunnerInput T} (ha : r.Announced) (hi : r.RetryInv)
    (hm : r.measures input = true) (h : r.step input = some r') : r'.RetryInv := by
  have hst := hi.stage
  cases step_moves h with
  | clock now =>
      exact ⟨⟨hi.failures, hi.attempt, hi.attempts, hi.rounds, hi.last⟩, hi.status, hi.stage⟩
  | request how hn =>
      exact ⟨⟨hi.failures, hi.attempt, hi.attempts, hi.rounds, hi.last⟩, hi.status, hi.stage⟩
  | dropped hs => exact hi.goto trivial
  | panic hs => exact hi.goto trivial
  | polled hs =>
      rw [hs] at hst
      refine loopHead_inv hi.toCounts hst fun max hmax hlt => ?_
      exact absurd (RestartPolicy.givesUp_iff.mpr ⟨max, hmax, hlt⟩)
        (by simp [(hi.trying ha (by simp [hs])).goesOn])
  | untilReady hs hu =>
      rw [untilReady]
      split_ifs
      · exact (hi.record rfl).goto trivial
      · exact hi.goto trivial
  | stopBackingOff hs => exact (hi.trying ha (by simp [hs])).publishes rfl fun _ => trivial
  | stopLaunching how hs => exact (hi.trying ha (by simp [hs])).finish none how
  | stopWaiting how hs => exact (hi.trying ha (not_returned_of_waitsOn hs)).finish _ how
  | slept hs =>
      rw [hs] at hst
      exact beginAttempt_inv hi.toCounts hst.1 (hi.trying ha (by simp [hs])).goesOn
  | checkAgain hs => exact (hi.record rfl).goto trivial
  | launched launch hs =>
      refine (hi.record rfl).goto ?_
      split <;> trivial
  | failed hi' failure hs => exact (hi.trying ha (not_returned_of_starting hs)).fail failure
  | created scope hs => exact hi.goto trivial
  | spawned pid osPid output hs => exact hi.establish _ _
  | sweeps error hs => exact hi.goto trivial
  | adoptedNone hs => exact ((hi.record rfl).record rfl).goto trivial
  | adopted previous hs hm hf => exact hi.establish _ _
  | tookOver previous hs hn => exact (hi.record rfl).goto trivial
  | replaced outcome hs hv => exact ((hi.record rfl).record rfl).goto trivial
  | notReplaced outcome failure hs hv =>
      exact ((hi.trying ha (by simp [hs])).record rfl).fail failure
  | started process hs => exact hi.establish _ _
  | isReady value hs => exact (hi.trying ha (by simp [hs])).publishes rfl fun _ => trivial
  | notYet hs => exact hi.goto trivial
  | notReady hi' failure hs => exact hi.goto trivial
  | exited hs => exact hi.goto trivial
  | ended ending hs ho => exact (hi.trying ha (by simp [hs])).ended hs hm

/-! ### What is published -/

/-- What a worker publishes is what its history counts. -/
structure RetryReport (r : Runner T) : Prop where
  backoff : ∀ failures delay kind reason, r.status = .backoff failures delay kind reason →
    failures = r.streak ∧ delay = r.options.restart.delay failures ∧
      ∃ stayed, (outcomes r.history).head? = some (⟨kind, reason⟩, stayed)
  slept : ∀ delay, r.stage = .backingOff delay → delay = r.options.restart.delay r.streak
  starting : attempts r.history = (List.range' 1 r.round).reverse
  failed : ∀ kind reason, r.status = .failed kind reason →
    ∃ stayed, (outcomes r.history).head? = some (⟨kind, reason⟩, stayed)
  givesUp : ∀ max, r.options.restart.maxFailures = some max →
    ((∃ kind reason, r.status = .failed kind reason) ↔ r.streak = max + 1) ∧
      r.streak ≤ max + 1
  goesOn : r.options.restart.maxFailures = none → ∀ kind reason, r.status ≠ .failed kind reason

/-- A worker that has not failed for good has counted no more than it may. -/
theorem RetryInv.givesUp_eq_false (hi : r.RetryInv)
    (hn : ∀ kind reason, r.status ≠ .failed kind reason) :
    r.options.restart.givesUp r.failures = false := by
  have hst := hi.status
  cases hstatus : r.status with
  | backoff => rw [hstatus] at hst; exact hst.2.2.2.2
  | failed kind reason => exact absurd hstatus (hn kind reason)
  | _ => rw [hstatus] at hst; exact hst

/-- The last failure is the newest outcome. -/
theorem Counts.head (hc : r.Counts) (hne : outcomes r.history ≠ []) {kind : ServiceFailureKind}
    {reason : String} (hl : r.last = ⟨kind, reason⟩) :
    ∃ stayed, (outcomes r.history).head? = some (⟨kind, reason⟩, stayed) := by
  have hlast := hc.last
  cases hos : outcomes r.history with
  | nil => exact absurd hos hne
  | cons o os =>
      rw [hos] at hlast
      have ho : o.1 = ⟨kind, reason⟩ := (hlast o rfl).symm.trans hl
      exact ⟨o.2, by rw [List.head?_cons, ← ho]⟩

/-- Below the bound, the counters are exact. -/
theorem Counts.failures_eq (hc : r.Counts) (hlen : (outcomes r.history).length < U32_MAX) :
    r.failures = r.streak := by
  have hle : r.streak ≤ (outcomes r.history).length := consecutive_le_length _ _
  rw [hc.failures]
  omega

/-- The invariant says what the status reports. -/
theorem RetryInv.report (hi : r.RetryInv) (hlen : (outcomes r.history).length < U32_MAX) :
    r.RetryReport := by
  have hf := hi.failures_eq hlen
  have hst := hi.status
  have hlimit : ∀ max, r.options.restart.maxFailures = some max →
      (∀ kind reason, r.status ≠ .failed kind reason) → r.streak ≤ max := by
    intro max hmax hn
    have hg := hi.givesUp_eq_false hn
    have hnot : ¬ max < r.failures := fun hlt =>
      Bool.eq_false_iff.mp hg (RestartPolicy.givesUp_iff.mpr ⟨max, hmax, hlt⟩)
    omega
  refine ⟨fun failures delay kind reason hstatus => ?_, fun delay hstage => ?_, ?_,
    fun kind reason hstatus => ?_, fun max hmax => ⟨⟨?_, ?_⟩, ?_⟩, fun hnone kind reason hs => ?_⟩
  · rw [hstatus] at hst
    obtain ⟨rfl, hd, hl, hne, -⟩ := hst
    exact ⟨hf, hd, hi.head hne hl⟩
  · have hsg := hi.stage
    rw [hstage] at hsg
    obtain ⟨-, kind, reason, hstatus⟩ := hsg
    rw [hstatus] at hst
    exact hf ▸ hst.2.1
  · rw [hi.attempts]
    refine (List.map_congr_left fun n hn => ?_).trans (List.map_id _)
    have hmem := List.mem_range'_1.mp (List.mem_reverse.mp hn)
    have hrounds := hi.rounds
    change min n U32_MAX = n
    omega
  · rw [hstatus] at hst
    exact hi.head hst.2.1 hst.1
  · rintro ⟨kind, reason, hstatus⟩
    rw [hstatus] at hst
    obtain ⟨-, -, hmax', hne⟩ := hst
    have := Option.some.inj (hmax.symm.trans hmax')
    omega
  · intro hs
    by_contra hn
    have := hlimit max hmax fun kind reason hstatus => hn ⟨kind, reason, hstatus⟩
    omega
  · by_cases hn : ∃ kind reason, r.status = .failed kind reason
    · obtain ⟨kind, reason, hstatus⟩ := hn
      rw [hstatus] at hst
      obtain ⟨-, -, hmax', hne⟩ := hst
      have := Option.some.inj (hmax.symm.trans hmax')
      omega
    · have := hlimit max hmax fun kind reason hstatus => hn ⟨kind, reason, hstatus⟩
      omega
  · rw [hs] at hst
    cases hnone.symm.trans hst.2.2.1

/-- What a mismeasured end is. -/
theorem exists_of_mismeasured {input : RunnerInput T} (hm : r.measures input = false) :
    ∃ ending run exit readyAt stayed, input = .ended ending ∧
      r.stage = .ending run (.exited exit readyAt stayed) ∧ r.failures ≠ 0 ∧
      ¬ (r.options.restart.healthyDuration ≤ r.now - readyAt ↔
        r.options.restart.healthyDuration ≤ stayed) := by
  rw [measures.eq_def] at hm
  split at hm
  · next ending run exit readyAt stayed hstage =>
      simp only [Bool.or_eq_false_iff, beq_eq_false_iff_ne, ne_eq, decide_eq_decide] at hm
      exact ⟨ending, run, exit, readyAt, stayed, rfl, hstage, hm.1, hm.2⟩
  · cases hm

/-- The head of the loop adds no outcome. -/
theorem outcomes_loopHead : outcomes r.loopHead.history = outcomes r.history := by
  rw [loopHead]
  split_ifs
  · exact outcomes_neutral rfl
  · exact outcomes_neutral rfl
  · rfl

/-- The head of the loop keeps the options. -/
theorem options_loopHead : r.loopHead.options = r.options := by
  rw [loopHead]
  split_ifs <;> rfl

/-- After a failure, the head of the loop publishes a failure for good or a backoff. -/
theorem status_loopHead (hpos : 0 < r.failures) :
    r.loopHead.status =
      if r.options.restart.givesUp r.failures then .failed r.last.kind r.last.reason
      else .backoff r.failures (r.options.restart.delay r.failures) r.last.kind r.last.reason := by
  rw [loopHead, if_pos hpos]
  split_ifs <;> rfl

/-- The end of a run keeps the options. -/
theorem options_ended (run : ServiceRun) (ending : RunEnding) (exit : String) (readyAt : Instant)
    (stayed : Duration) : (r.ended run ending (.exited exit readyAt stayed)).options = r.options :=
  options_loopHead

/-- The outcome of a run that exits. -/
theorem outcomes_ended (run : ServiceRun) (ending : RunEnding) (exit : String) (readyAt : Instant)
    (stayed : Duration) :
    outcomes (r.ended run ending (.exited exit readyAt stayed)).history =
      (⟨.exited, exit⟩, some stayed) :: outcomes r.history :=
  outcomes_loopHead

/-- The streak after a run has exited. -/
theorem streak_ended (run : ServiceRun) (ending : RunEnding) (exit : String) (readyAt : Instant)
    (stayed : Duration) :
    (r.ended run ending (.exited exit readyAt stayed)).streak =
      (if r.options.restart.healthyDuration ≤ stayed then 0 else r.streak) + 1 := by
  rw [streak, outcomes_ended, options_ended, consecutive_cons, RestartPolicy.healthyDuration]
  by_cases hs : r.options.restart.healthyAfter ≤ stayed <;> simp [hs, streak]

/-- What is published when a run exits. -/
theorem status_ended (run : ServiceRun) (ending : RunEnding) (exit : String) (readyAt : Instant)
    (stayed : Duration) (failures : ℕ) (hf : failures = U32.saturatingAdd
      (if r.options.restart.healthyDuration ≤ r.now - readyAt then 0 else r.failures) 1) :
    (r.ended run ending (.exited exit readyAt stayed)).status =
      if r.options.restart.givesUp failures then .failed .exited exit
      else .backoff failures (r.options.restart.delay failures) .exited exit := by
  have hpos : 0 < failures := by
    have : 0 < U32_MAX := by decide
    rw [hf, U32.saturatingAdd]
    omega
  subst hf
  exact status_loopHead hpos

section Reached

variable {options : ServiceOptions} {instantMax now : Instant}

/-- **The invariant of retries holds in every run that measures.** -/
theorem retryInv_of_reaches
    (h : ReachesUnder step (fun r input => r.measures input = true)
      (new options instantMax now : Runner T) r) : r.Announced ∧ r.RetryInv := by
  refine h.invariant (I := fun r => r.Announced ∧ r.RetryInv)
    ⟨Announced.new options instantMax now, ?_⟩ fun _ _ _ hi hm hs =>
      ⟨hi.1.step hs, hi.2.step hi.1 hm hs⟩
  have hg : options.restart.givesUp 0 = false := by
    refine Bool.eq_false_iff.mpr fun hg => ?_
    obtain ⟨max, -, hlt⟩ := RestartPolicy.givesUp_iff.mp hg
    omega
  exact ⟨⟨rfl, rfl, rfl, Nat.zero_le _, by simp [new, outcomes]⟩, hg, Nat.zero_le _⟩

/-- **What a worker publishes is what it counted**, in every run with fewer than 2³² - 1
outcomes in which no sweep makes a run that failed too early seem healthy. -/
theorem published_retries_are_exact
    (h : ReachesUnder step (fun r input => r.measures input = true)
      (new options instantMax now : Runner T) r)
    (hlen : (outcomes r.history).length < 2 ^ 32 - 1) : r.RetryReport :=
  (retryInv_of_reaches h).2.report hlen

/-- The condition is exact: right after the step that does not meet it, the worker publishes what it
did not count. Either the clock went back, and it goes on counting where it should begin again; or
the sweep makes the run long enough, and it begins again where it should go on. -/
theorem mismeasured_run_is_misreported {input : RunnerInput T}
    (h : ReachesUnder step (fun r input => r.measures input = true)
      (new options instantMax now : Runner T) r)
    (hm : r.measures input = false) (hs : r.step input = some r')
    (hlen : (outcomes r'.history).length < 2 ^ 32 - 1) : ¬ r'.RetryReport := by
  obtain ⟨ha, hi⟩ := retryInv_of_reaches h
  obtain ⟨ending, run, exit, readyAt, stayed, rfl, hstage, hpos, hdiff⟩ := exists_of_mismeasured hm
  have hg := (hi.trying ha (by simp [hstage])).goesOn
  obtain rfl : r' = r.ended run ending (.exited exit readyAt stayed) := by
    simp only [step, hstage, Option.ite_none_right_eq_some, Option.some.injEq] at hs
    exact hs.2.symm
  have hlen' : (outcomes r.history).length + 1 < 2 ^ 32 - 1 := by
    rw [outcomes_ended, List.length_cons] at hlen
    exact hlen
  have hf := hi.failures_eq (by rw [U32_MAX]; omega)
  have hle : r.streak ≤ (outcomes r.history).length := consecutive_le_length _ _
  have hstreak := streak_ended (r := r) run ending exit readyAt stayed
  have hlt : r.failures + 1 ≤ U32_MAX := by
    rw [U32_MAX]
    omega
  have hnot : ∀ max, r.options.restart.maxFailures = some max → r.failures ≤ max := fun max hmax =>
    Nat.not_lt.mp fun hlt =>
      Bool.eq_false_iff.mp hg (RestartPolicy.givesUp_iff.mpr ⟨max, hmax, hlt⟩)
  intro hrep
  by_cases hlong : r.options.restart.healthyDuration ≤ stayed
  · have hshort : ¬ r.options.restart.healthyDuration ≤ r.now - readyAt := by tauto
    have hstatus := status_ended (r := r) run ending exit readyAt stayed
      (r.failures + 1) (by rw [if_neg hshort, U32.saturatingAdd]; omega)
    rw [if_pos hlong] at hstreak
    split_ifs at hstatus with hgive
    · obtain ⟨max, hmax, -⟩ := RestartPolicy.givesUp_iff.mp hgive
      have hsame := (hrep.givesUp max (by rw [options_ended]; exact hmax)).1.mp ⟨_, _, hstatus⟩
      have := hnot max hmax
      omega
    · have := (hrep.backoff _ _ _ _ hstatus).1
      omega
  · have hnow : r.options.restart.healthyDuration ≤ r.now - readyAt := by tauto
    have hstatus := status_ended (r := r) run ending exit readyAt stayed
      1 (by rw [if_pos hnow, U32.saturatingAdd]; omega)
    rw [if_neg hlong] at hstreak
    split_ifs at hstatus with hgive
    · obtain ⟨max, hmax, hlt'⟩ := RestartPolicy.givesUp_iff.mp hgive
      have := hnot max hmax
      omega
    · have := (hrep.backoff _ _ _ _ hstatus).1
      omega

end Reached

/-! ### A run that is counted wrongly -/

/-- The first launch fails. The next run is ready for `stayed`, and its sweep takes `sweep`. -/
def retriedRun (stayed sweep : Duration) : List (RunnerInput Unit) :=
  [.polled, .launched (.error "no binary"), .slept, .launched (.ok plainLaunch),
    .adopted (.ok none), .started (.ok (plainProcess 7)), .polled, .checked (.ok (some ())),
    .clock stayed, .exited (.ok (some 0, none)), .clock (stayed + sweep),
    .ended (.kept .forcedRequired)]

/-- A service in its second backoff reports its failures. -/
theorem retried_service_reports : ∃ r : Runner Unit,
    ReachesUnder step (fun r input => r.measures input = true)
      (new (keptOptions none) DURATION_MAX 0) r ∧
      r.status = .backoff 2 (secs 2) .exited "exited with code 0" ∧ r.RetryReport := by
  obtain ⟨r, h, hp⟩ := ReachesUnder.exists_of_follow step measures
    (new (keptOptions none) DURATION_MAX 0) (retriedRun (secs 10) (secs 5))
    (fun r => r.status == .backoff 2 (secs 2) .exited "exited with code 0" &&
      (outcomes r.history).length == 2) (by decide +kernel)
  obtain ⟨hs, hl⟩ := Bool.and_eq_true_iff.mp hp
  refine ⟨r, h, eq_of_beq hs, published_retries_are_exact h ?_⟩
  rw [eq_of_beq hl]
  decide

/-- A launch fails, and then a run exits ten seconds after it was ready. Its sweep takes
fifty more, and the second failure in a row is published as the first. -/
theorem swept_run_is_miscounted : ∃ r : Runner Unit,
    Reaches step (new (keptOptions none) DURATION_MAX 0) r ∧ (outcomes r.history).length = 2 ∧
      r.status = .backoff 1 (secs 1) .exited "exited with code 0" ∧ r.streak = 2 := by
  obtain ⟨r, h, hp⟩ := Reaches.exists_of_follow step (new (keptOptions none) DURATION_MAX 0)
    (retriedRun (secs 10) (secs 50))
    (fun r => (outcomes r.history).length == 2 &&
      (r.status == .backoff 1 (secs 1) .exited "exited with code 0" && r.streak == 2))
    (by decide +kernel)
  obtain ⟨hl, hp⟩ := Bool.and_eq_true_iff.mp hp
  obtain ⟨hs, hn⟩ := Bool.and_eq_true_iff.mp hp
  exact ⟨r, h, eq_of_beq hl, eq_of_beq hs, eq_of_beq hn⟩

end Runner

end Shepherd
