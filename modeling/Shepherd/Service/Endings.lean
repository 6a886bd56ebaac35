import Shepherd.Service.Runs

/-!
# How the Runs of a Service End

A worker that has stopped or failed has ended every run that it obtained. Whether the runs are
verified as ended is for the terminations to say that it waited for: it looks at what they return
when it replaces an earlier run, but not when it sweeps a run that has failed.

* `EndedOnce` — the termination of a run returns once, for a run that was obtained before.
* `RunnerInput.verifies` — the answer is not an unverified result of such a termination.
* `stopped_runs_are_verified_iff` — the runs are verified as ended exactly if all these answers are
  verified.
-/

namespace Shepherd

variable {T : Type}

/-- The termination of the run can still return in this attempt. -/
def RunnerStage.mayEnd (stage : RunnerStage) (run : ServiceRun) : Bool :=
  match stage with
  | .launching | .creating _ | .spawning _ _ | .adopting _ | .replacing _ _ => true
  | .keeping _ => run.origin ≠ .tookOver
  | stage => stage.held = some run

/-- The result of a termination that the worker waited for, of a run that it had obtained. -/
def RunnerInput.ending : RunnerInput T → Option RunEnding
  | .terminated outcome => some (.kept outcome)
  | .ended ending => some ending
  | _ => none

/-- The answer is not that a run may not have ended. -/
def RunnerInput.verifies (input : RunnerInput T) : Bool :=
  input.ending.all RunEnding.verified

namespace Runner

open Conc

variable {r r' : Runner T} {h : List (ℕ × RunnerEvent T)}

/-- The termination of the run returned, and verified that it has ended. -/
def VerifiedEnded (h : List (ℕ × RunnerEvent T)) (k : ℕ) (run : ServiceRun) : Prop :=
  ∃ ending, ending.isOf run.running = true ∧ (k, .ended run ending) ∈ h ∧ ending.verified = true

/-! ### A run is ended once -/

/-- What a history says of terminations. -/
structure EndingsInv (r : Runner T) : Prop where
  tags : ∀ k ev, (k, ev) ∈ r.history → k ≤ r.round
  obtained : ∀ k run e, (k, .ended run e) ∈ r.history → (k, .obtained run) ∈ r.history
  once : ∀ k run e e', (k, .ended run e) ∈ r.history → (k, .ended run e') ∈ r.history → e = e'

/-- **A run is ended once**: the run that a worker holds was obtained in this attempt, and what was
ended in this attempt is not ended in it again. -/
structure EndedOnce (r : Runner T) : Prop extends EndingsInv r where
  held : ∀ run, r.stage.held = some run → (r.round, .obtained run) ∈ r.history
  once_more : ∀ run e, (r.round, .ended run e) ∈ r.history → r.stage.mayEnd run = false

/-- The run that is held can be ended. -/
theorem mayEnd_of_held {stage : RunnerStage} {run : ServiceRun} (hh : stage.held = some run) :
    stage.mayEnd run = true := by
  cases stage <;> simp_all [RunnerStage.held, RunnerStage.mayEnd]

namespace EndingsInv

/-- Another event than the end of a run. -/
theorem record (hi : r.EndingsInv) {ev : RunnerEvent T} (hev : ∀ run e, ev ≠ .ended run e) :
    (r.record ev).EndingsInv where
  tags k ev' hm := by
    rcases List.mem_cons.mp hm with heq | hm
    · exact Nat.le_of_eq (Prod.mk.inj heq).1
    · exact hi.tags k ev' hm
  obtained k run e hm := by
    rcases List.mem_cons.mp hm with heq | hm
    · exact absurd (Prod.mk.inj heq).2.symm (hev run e)
    · exact List.mem_cons_of_mem _ (hi.obtained k run e hm)
  once k run e e' hm hm' := by
    rcases List.mem_cons.mp hm with heq | hm
    · exact absurd (Prod.mk.inj heq).2.symm (hev run e)
    · rcases List.mem_cons.mp hm' with heq | hm'
      · exact absurd (Prod.mk.inj heq).2.symm (hev run e')
      · exact hi.once k run e e' hm hm'

/-- The termination of a run returns that was not ended in this attempt. -/
theorem record_ended (hi : r.EndingsInv) {run : ServiceRun}
    (ho : (r.round, .obtained run) ∈ r.history) (hn : ∀ e, (r.round, .ended run e) ∉ r.history)
    (ending : RunEnding) : (r.record (.ended run ending)).EndingsInv where
  tags k ev hm := by
    rcases List.mem_cons.mp hm with heq | hm
    · exact Nat.le_of_eq (Prod.mk.inj heq).1
    · exact hi.tags k ev hm
  obtained k run' e hm := by
    rcases List.mem_cons.mp hm with heq | hm
    · cases heq
      exact List.mem_cons_of_mem _ ho
    · exact List.mem_cons_of_mem _ (hi.obtained k run' e hm)
  once k run' e e' hm hm' := by
    rcases List.mem_cons.mp hm with heq | hm
    · cases heq
      rcases List.mem_cons.mp hm' with heq' | hm'
      · cases heq'
        rfl
      · exact absurd hm' (hn e')
    · rcases List.mem_cons.mp hm' with heq' | hm'
      · cases heq'
        exact absurd hm (hn e)
      · exact hi.once k run' e e' hm hm'

/-- A publication obtains no run and ends none. -/
theorem publish (hi : r.EndingsInv) (status : ServiceStatus T) : (r.publish status).EndingsInv := by
  have hi' : EndingsInv { r with status, summary := status.summary } :=
    ⟨hi.tags, hi.obtained, hi.once⟩
  exact hi'.record (by simp)

/-- A stage with no run, and in which none is obtained any more. -/
theorem goto (hi : r.EndingsInv) {stage : RunnerStage}
    (hm : ∀ run, stage.mayEnd run = false) : (r.goto stage).EndedOnce := by
  refine ⟨⟨hi.tags, hi.obtained, hi.once⟩, fun run hh => ?_, fun run _ _ => hm run⟩
  cases (mayEnd_of_held hh).symm.trans (hm run)

/-- Nothing was ended in an attempt that begins. -/
theorem beginAttempt (hi : r.EndingsInv) : r.beginAttempt.EndedOnce := by
  have hi' : EndingsInv { r with
      attempt := U32.saturatingAdd r.attempt 1, round := r.round + 1 } :=
    ⟨fun k ev hm => Nat.le_succ_of_le (hi.tags k ev hm), hi.obtained, hi.once⟩
  have hp := hi'.publish (.starting (U32.saturatingAdd r.attempt 1))
  refine ⟨⟨hp.tags, hp.obtained, hp.once⟩, nofun, fun run e hm => ?_⟩
  rcases List.mem_cons.mp hm with heq | hm
  · cases (Prod.mk.inj heq).2
  · exact absurd (hi.tags _ _ hm) (Nat.not_succ_le_self r.round)

/-- The head of the loop ends no run. -/
theorem loopHead (hi : r.EndingsInv) : r.loopHead.EndedOnce := by
  rw [Runner.loopHead]
  split_ifs
  · exact (hi.publish _).goto fun _ => rfl
  · exact (hi.publish _).goto fun _ => rfl
  · exact hi.beginAttempt

/-- A failure ends no run. -/
theorem fail (hi : r.EndingsInv) (failure : RunFailure) (stayed : Option Duration) :
    (r.fail failure stayed).EndedOnce := by
  have hi' : (r.record (.failed failure stayed)).EndingsInv := hi.record (by simp)
  exact loopHead ⟨hi'.tags, hi'.obtained, hi'.once⟩

end EndingsInv

namespace EndedOnce

/-- The run that is held was not ended in this attempt. -/
theorem not_ended (hi : r.EndedOnce) {run : ServiceRun} (hh : r.stage.held = some run)
    (e : RunEnding) : (r.round, .ended run e) ∉ r.history :=
  fun hm => Bool.noConfusion ((mayEnd_of_held hh).symm.trans (hi.once_more run e hm))

/-- A stage in which no other run can be ended. -/
theorem keep (hi : r.EndedOnce) {stage : RunnerStage}
    (hh : ∀ run, stage.held = some run → r.stage.held = some run)
    (hm : ∀ run, stage.mayEnd run = true → r.stage.mayEnd run = true) :
    (r.goto stage).EndedOnce := by
  refine ⟨⟨hi.tags, hi.obtained, hi.once⟩, fun run h => hi.held run (hh run h), fun run e h => ?_⟩
  have hold := hi.once_more run e h
  cases hb : stage.mayEnd run with
  | false => exact hb
  | true => cases hold.symm.trans (hm run hb)

/-- Another event than the end of a run. -/
theorem record (hi : r.EndedOnce) {ev : RunnerEvent T} (hev : ∀ run e, ev ≠ .ended run e) :
    (r.record ev).EndedOnce := by
  refine ⟨hi.toEndingsInv.record hev, fun run hh => List.mem_cons_of_mem _ (hi.held run hh),
    fun run e hm => ?_⟩
  rcases List.mem_cons.mp hm with heq | hm
  · exact absurd (Prod.mk.inj heq).2.symm (hev run e)
  · exact hi.once_more run e hm

/-- A publication ends no run. -/
theorem publish (hi : r.EndedOnce) (status : ServiceStatus T) : (r.publish status).EndedOnce := by
  have hi' : EndedOnce { r with status, summary := status.summary } :=
    ⟨⟨hi.tags, hi.obtained, hi.once⟩, hi.held, hi.once_more⟩
  exact hi'.record (by simp)

/-- A run is obtained that could be. -/
theorem obtain (hi : r.EndedOnce) {stage : RunnerStage} {run : ServiceRun}
    (hh : stage.held = some run)
    (hm : ∀ run', stage.mayEnd run' = true → r.stage.mayEnd run' = true) :
    ((r.record (.obtained run)).goto stage).EndedOnce := by
  have hi' : (r.record (.obtained run)).EndedOnce := hi.record (by simp)
  refine ⟨⟨hi'.tags, hi'.obtained, hi'.once⟩, fun run' h => ?_, fun run' e h => ?_⟩
  · obtain rfl := Option.some.inj (hh.symm.trans h)
    exact List.mem_cons_self
  · have hold := hi'.once_more run' e h
    cases hb : stage.mayEnd run' with
    | false => exact hb
    | true => cases hold.symm.trans (hm run' hb)

/-- An established run may be ended, and was not yet. -/
theorem establish (hi : r.EndedOnce) {run : ServiceRun} (inst : ServiceInstance)
    (hm : r.stage.mayEnd run = true) : (r.establish run inst).EndedOnce := by
  have hi' : EndedOnce { r with mayAdopt := false } :=
    ⟨⟨hi.tags, hi.obtained, hi.once⟩, hi.held, hi.once_more⟩
  refine hi'.obtain rfl fun run' h => ?_
  obtain rfl : run = run' := by simpa [RunnerStage.mayEnd, RunnerStage.held] using h
  exact hm

/-- A runner that stops has ended the run it held. -/
theorem finish (hi : r.EndedOnce) {run : ServiceRun} (hh : r.stage.held = some run)
    (how : ServiceStop) : (r.finish (some run) how).EndedOnce := by
  have hi' := hi.publish .stopping
  rw [finish.eq_def]
  simp only
  split
  · exact ((hi'.toEndingsInv.record (by simp)).publish _).goto fun _ => rfl
  · refine hi'.keep (fun run' h => hh.trans h) fun run' h => ?_
    obtain rfl : run = run' := by simpa [RunnerStage.mayEnd, RunnerStage.held] using h
    exact mayEnd_of_held hh

/-- The run that was held is ended once. -/
theorem ended (hi : r.EndedOnce) {run : ServiceRun} (hh : r.stage.held = some run)
    (ending : RunEnding) (reason : EndReason) : (r.ended run ending reason).EndedOnce := by
  have hi' := hi.toEndingsInv.record_ended (hi.held run hh) (hi.not_ended hh) ending
  cases reason with
  | notReady failure => exact hi'.fail failure none
  | exited exit readyAt stayed =>
      refine EndingsInv.fail ?_ _ _
      exact ⟨hi'.tags, hi'.obtained, hi'.once⟩
  | stopping => exact (hi'.publish _).goto fun _ => rfl

/-- **A step keeps it.** -/
theorem step {input : RunnerInput T} (hi : r.EndedOnce) (h : r.step input = some r') :
    r'.EndedOnce := by
  have hh := hi.toEndingsInv
  cases step_moves h with
  | clock now => exact ⟨⟨hi.tags, hi.obtained, hi.once⟩, hi.held, hi.once_more⟩
  | request how hn => exact ⟨⟨hi.tags, hi.obtained, hi.once⟩, hi.held, hi.once_more⟩
  | dropped ha => exact hh.goto fun _ => rfl
  | panic hp => exact hh.goto fun _ => rfl
  | polled hs => exact hh.loopHead
  | untilReady hs hu =>
      rw [untilReady]
      split_ifs
      · exact (hi.record (by simp)).keep (by simp [Runner.record, hs, RunnerStage.held])
          (by simp [Runner.record, hs, RunnerStage.mayEnd, RunnerStage.held])
      · exact hh.goto fun _ => rfl
  | stopBackingOff hs => exact (hh.publish _).goto fun _ => rfl
  | stopLaunching how hs => exact ((hh.publish _).publish _).goto fun _ => rfl
  | stopWaiting how hs => exact hi.finish (held_of_waitsOn hs).1 how
  | slept hs => exact hh.beginAttempt
  | checkAgain hs =>
      exact (hi.record (by simp)).keep (by simp [Runner.record, hs, RunnerStage.held])
        (by simp [Runner.record, hs, RunnerStage.mayEnd, RunnerStage.held])
  | launched launch hs =>
      refine (hi.record (by simp)).keep (fun run hrun => ?_) fun _ _ => ?_
      · split at hrun <;> cases hrun
      · simp [Runner.record, hs, RunnerStage.mayEnd]
  | failed hi' failure hs => exact hh.fail failure none
  | created scope hs =>
      exact hi.keep (by simp [RunnerStage.held]) (by simp [hs, RunnerStage.mayEnd])
  | spawned pid osPid output hs => exact hi.establish _ (by simp [hs, RunnerStage.mayEnd])
  | sweeps error hs => exact hh.goto fun _ => rfl
  | adoptedNone hs =>
      exact ((hi.record (by simp)).record (by simp)).keep (by simp [RunnerStage.held])
        (by simp [Runner.record, hs, RunnerStage.mayEnd])
  | adopted previous hs hm hf => exact hi.establish _ (by simp [hs, RunnerStage.mayEnd])
  | tookOver previous hs hn => exact hi.obtain rfl (by simp [hs, RunnerStage.mayEnd])
  | @replaced launch previous outcome hs hv =>
      have hheld : r.stage.held = some ⟨.kept previous, .tookOver⟩ := by rw [hs]; rfl
      have he := hh.record_ended (hi.held _ hheld) (hi.not_ended hheld) (.kept outcome)
      have hi' : ((r.record _).record .keptStart).EndingsInv := he.record (by simp)
      refine ⟨⟨hi'.tags, hi'.obtained, hi'.once⟩, fun run hrun => ?_, fun run e hm => ?_⟩
      · cases hrun
      · rcases List.mem_cons.mp hm with heq | hm
        · cases (Prod.mk.inj heq).2
        · rcases List.mem_cons.mp hm with heq | hm
          · cases heq
            rfl
          · have hnone := hi.once_more run e hm
            rw [hs] at hnone
            cases hnone
  | @notReplaced launch previous outcome failure hs hv =>
      have hheld : r.stage.held = some ⟨.kept previous, .tookOver⟩ := by rw [hs]; rfl
      exact (hh.record_ended (hi.held _ hheld) (hi.not_ended hheld) _).fail failure none
  | started process hs => exact hi.establish _ (by simp [hs, RunnerStage.mayEnd])
  | isReady value hs =>
      exact (hi.publish _).keep
        (by simp [Runner.publish, Runner.record, hs, RunnerStage.held])
        (by simp [Runner.publish, Runner.record, hs, RunnerStage.mayEnd, RunnerStage.held])
  | notYet hs =>
      exact hi.keep (by simp [hs, RunnerStage.held])
        (by simp [hs, RunnerStage.mayEnd, RunnerStage.held])
  | notReady hi' failure hs =>
      have hheld := held_of_unready hs
      refine hi.keep (fun run' hrun => hheld.trans hrun) fun run' hrun => ?_
      obtain rfl : _ = run' := by simpa [RunnerStage.mayEnd, RunnerStage.held] using hrun
      exact mayEnd_of_held hheld
  | exited hs =>
      exact hi.keep (by simp [hs, RunnerStage.held])
        (by simp [hs, RunnerStage.mayEnd, RunnerStage.held])
  | ended ending hs ho => exact hi.ended (by rw [hs]; rfl) ending _

end EndedOnce

/-! ### Answers -/

/-- The history goes on, and the ends of runs that are new in it are the answer. -/
structure Extends (answer : Option RunEnding) (r r' : Runner T) : Prop where
  kept : ∀ k ev, (k, ev) ∈ r.history → (k, ev) ∈ r'.history
  ends : ∀ k run e, (k, .ended run e) ∈ r'.history →
    (k, .ended run e) ∈ r.history ∨ answer = some e

namespace Extends

variable {answer : Option RunEnding}

/-- A step that leaves the history alone adds no event. -/
theorem of_eq (he : r'.history = r.history) : Extends answer r r' :=
  ⟨fun _ _ hm => he ▸ hm, fun _ _ _ hm => .inl (he ▸ hm)⟩

/-- Another event than the end of a run. -/
theorem record (he : Extends answer r r') {ev : RunnerEvent T}
    (hev : ∀ run e, ev ≠ .ended run e) : Extends answer r (r'.record ev) where
  kept k ev' hm := List.mem_cons_of_mem _ (he.kept k ev' hm)
  ends k run e hm := by
    rcases List.mem_cons.mp hm with heq | hm
    · exact absurd (Prod.mk.inj heq).2.symm (hev run e)
    · exact he.ends k run e hm

/-- The end of a run, as the answer says. -/
theorem record_ended {ending : RunEnding} (he : Extends (some ending) r r') (run : ServiceRun) :
    Extends (some ending) r (r'.record (.ended run ending)) where
  kept k ev hm := List.mem_cons_of_mem _ (he.kept k ev hm)
  ends k run' e hm := by
    rcases List.mem_cons.mp hm with heq | hm
    · cases heq
      exact .inr rfl
    · exact he.ends k run' e hm

/-- A publication adds an event that ends nothing. -/
theorem publish (he : Extends answer r r') (status : ServiceStatus T) :
    Extends answer r (r'.publish status) := by
  have he' : Extends answer r { r' with status, summary := status.summary } := ⟨he.kept, he.ends⟩
  exact he'.record (by simp)

/-- A runner that goes on adds no event. -/
theorem goto (he : Extends answer r r') (stage : RunnerStage) : Extends answer r (r'.goto stage) :=
  ⟨he.kept, he.ends⟩

/-- A new attempt adds events that end nothing. -/
theorem beginAttempt (he : Extends answer r r') : Extends answer r r'.beginAttempt := by
  have he' : Extends answer r { r' with
      attempt := U32.saturatingAdd r'.attempt 1, round := r'.round + 1 } := ⟨he.kept, he.ends⟩
  exact (he'.publish _).goto _

/-- The head of the loop adds events that end nothing. -/
theorem loopHead (he : Extends answer r r') : Extends answer r r'.loopHead := by
  rw [Runner.loopHead]
  split_ifs
  · exact (he.publish _).goto _
  · exact (he.publish _).goto _
  · exact he.beginAttempt

/-- A failure adds events that end nothing. -/
theorem fail (he : Extends answer r r') (failure : RunFailure) (stayed : Option Duration) :
    Extends answer r (r'.fail failure stayed) := by
  have he' : Extends answer r (r'.record (.failed failure stayed)) := he.record (by simp)
  exact loopHead ⟨he'.kept, he'.ends⟩

/-- An establishment adds events that end nothing. -/
theorem establish (he : Extends answer r r') (run : ServiceRun) (inst : ServiceInstance) :
    Extends answer r (r'.establish run inst) := by
  have he' : Extends answer r { r' with mayAdopt := false } := ⟨he.kept, he.ends⟩
  exact (he'.record (by simp)).goto _

/-- A stop adds events that end nothing. -/
theorem finish (he : Extends answer r r') (run : Option ServiceRun) (how : ServiceStop) :
    Extends answer r (r'.finish run how) := by
  have hp := he.publish .stopping
  rw [finish.eq_def]
  split
  · exact (hp.publish .stopped).goto _
  · split
    · exact ((hp.record (by simp)).publish _).goto _
    · exact hp.goto _

end Extends

/-- `ended` records the end of the run first. -/
theorem extends_ended {answer : Option RunEnding} (r : Runner T) (run : ServiceRun)
    (ending : RunEnding) (reason : EndReason) :
    Extends answer (r.record (.ended run ending)) (r.ended run ending reason) := by
  cases reason with
  | notReady failure => exact (Extends.of_eq rfl).fail failure none
  | exited exit readyAt stayed =>
      have hr : Extends answer (r.record (.ended run ending)) { r.record (.ended run ending) with
          failures := if r.options.restart.healthyDuration ≤ r.now - readyAt then 0
            else r.failures } := .of_eq rfl
      exact hr.fail ⟨.exited, exit⟩ (some stayed)
  | stopping => exact ((Extends.of_eq rfl).publish .stopped).goto _

/-- **What a step records of ends of runs** is the answer that it takes. -/
theorem extends_step {input : RunnerInput T} (h : r.step input = some r') :
    Extends input.ending r r' := by
  have hr : Extends input.ending r r := .of_eq rfl
  cases step_moves h with
  | polled hs => exact hr.loopHead
  | untilReady hs hu =>
      rw [untilReady]
      split_ifs
      · exact (hr.record (by simp)).goto _
      · exact hr.goto _
  | stopBackingOff hs => exact (hr.publish _).goto _
  | stopLaunching how hs => exact hr.finish none how
  | stopWaiting how hs => exact hr.finish _ how
  | slept hs => exact hr.beginAttempt
  | checkAgain hs => exact (hr.record (by simp)).goto _
  | launched launch hs => exact (hr.record (by simp)).goto _
  | failed hi failure hs => exact hr.fail failure none
  | spawned pid osPid output hs => exact hr.establish _ _
  | adopted previous hs => exact hr.establish _ _
  | started process hs => exact hr.establish _ _
  | adoptedNone hs => exact ((hr.record (by simp)).record (by simp)).goto _
  | tookOver previous hs => exact (hr.record (by simp)).goto _
  | @replaced launch previous outcome hs hv =>
      have he : Extends (some (.kept outcome)) r (r.record
        (.ended ⟨.kept previous, .tookOver⟩ (.kept outcome))) := hr.record_ended _
      exact (he.record (by simp)).goto _
  | @notReplaced launch previous outcome failure hs hv =>
      have he : Extends (some (.kept outcome)) r (r.record
        (.ended ⟨.kept previous, .tookOver⟩ (.kept outcome))) := hr.record_ended _
      exact he.fail failure none
  | isReady value hs => exact (hr.publish _).goto _
  | @ended run reason ending hs ho =>
      have he : Extends (some ending) r (r.record (.ended run ending)) := hr.record_ended run
      have hx : Extends (some ending) _ _ := extends_ended r run ending reason
      exact ⟨fun k ev hm => hx.kept k ev (he.kept k ev hm),
        fun k run' e hm => (hx.ends k run' e hm).elim (he.ends k run' e) .inr⟩
  | _ => exact .of_eq rfl

/-- **The result of a termination is recorded**, as the end of the run that was held. -/
theorem ended_of_ending {input : RunnerInput T} {ending : RunEnding} (h : r.step input = some r')
    (he : input.ending = some ending) : ∃ run, (r.round, .ended run ending) ∈ r'.history := by
  cases input with
  | terminated outcome =>
      obtain rfl := Option.some.inj he
      simp only [Runner.step] at h
      split at h
      · next launch previous hs =>
          refine ⟨⟨.kept previous, .tookOver⟩, ?_⟩
          split at h
          · obtain rfl := Option.some.inj h
            exact List.mem_cons_of_mem _ List.mem_cons_self
          · obtain rfl := Option.some.inj h
            have hx : Extends none (r.record (.ended ⟨.kept previous, .tookOver⟩ (.kept outcome)))
              _ := .of_eq rfl
            exact (hx.fail _ _).kept _ _ List.mem_cons_self
      · cases h
  | ended ending' =>
      obtain rfl := Option.some.inj he
      simp only [Runner.step] at h
      split at h
      · next run reason hs =>
          rw [Option.ite_none_right_eq_some] at h
          obtain ⟨-, h⟩ := h
          obtain rfl := Option.some.inj h
          have hx : Extends none _ _ := extends_ended r run ending' reason
          exact ⟨run, hx.kept _ _ List.mem_cons_self⟩
      · cases h
  | _ => cases he

/-- What has happened stays in the history over a run. -/
theorem kept_of_reaches (h : Reaches step r r') :
    ∀ k ev, (k, ev) ∈ r.history → (k, ev) ∈ r'.history :=
  h.invariant (I := fun r' => ∀ k ev, (k, ev) ∈ r.history → (k, ev) ∈ r'.history)
    (fun _ _ => id) fun _ _ _ hi hs k ev hm => (extends_step hs).kept k ev (hi k ev hm)

/-- The ends of runs are verified as long as the answers are. -/
theorem verified_of_verifies
    (h : ReachesUnder step (fun _ (input : RunnerInput T) => input.verifies = true) r r')
    (hr : ∀ k run e, (k, .ended run e) ∈ r.history → e.verified = true) :
    ∀ k run e, (k, .ended run e) ∈ r'.history → e.verified = true := by
  refine h.invariant (I := fun r' => ∀ k run e, (k, .ended run e) ∈ r'.history →
    e.verified = true) hr fun s input s' hi hv hs k run e hm => ?_
  rcases (extends_step hs).ends k run e hm with hm | he
  · exact hi k run e hm
  · rw [RunnerInput.verifies, he] at hv
    exact hv

/-- **A run is ended once**, in every execution. -/
theorem endedOnce_of_reaches {options : ServiceOptions} {instantMax now : Instant}
    (h : Reaches step (new options instantMax now) r) : r.EndedOnce := by
  refine h.invariant ⟨⟨?_, ?_, ?_⟩, ?_, ?_⟩ fun _ _ _ hi hs => hi.step hs
  all_goals simp [new, RunnerStage.held]

/-! ### Stopped and failed services -/

/-- **Nothing is left of a stopped service if terminations are verified**, and only then: of a
worker that has published `Stopped` or `Failed`, every run that it started, adopted or took over is
verified as ended if and only if every termination that it waited for returned a verified result. -/
theorem stopped_runs_are_verified_iff {options : ServiceOptions} {instantMax now : Instant}
    {inputs : List (RunnerInput T)} (h : follow step (new options instantMax now) inputs = some r)
    (hs : r.status = .stopped ∨ ∃ kind reason, r.status = .failed kind reason) :
    (∀ k run, (k, .obtained run) ∈ r.history → VerifiedEnded r.history k run) ↔
      ∀ input ∈ inputs, input.verifies = true := by
  constructor
  · intro hall input hm
    cases he : input.ending with
    | none => rw [RunnerInput.verifies, he]; rfl
    | some ending =>
        obtain ⟨r₁, r₂, -, hstep, hr₂⟩ := Reaches.of_mem_follow h hm
        obtain ⟨run, hrun⟩ := ended_of_ending hstep he
        have hend := kept_of_reaches hr₂ _ _ hrun
        have honce := endedOnce_of_reaches (Reaches.of_follow h)
        obtain ⟨ending', -, hend', hv⟩ := hall _ run (honce.obtained _ run ending hend)
        rw [RunnerInput.verifies, he, honce.once _ run ending ending' hend hend']
        exact hv
  · intro hv k run hm
    obtain ⟨ending, hof, he⟩ := allEnded_of_final (.of_follow h) hs k run hm
    have hreach := ReachesUnder.of_follow_of_forall .initial h hv
    exact ⟨ending, hof, he, verified_of_verifies hreach (by simp [new]) k run ending he⟩

/-- A service that is stopped while it waits for the restart of a run that has exited. -/
theorem restarted_service_ended_its_run : ∃ r : Runner Unit,
    follow step (new (keptOptions none) DURATION_MAX 0)
      (sweptRun .exitedNaturally ++ [.request .terminate, .stop]) = some r ∧
      ∀ k run, (k, .obtained run) ∈ r.history → VerifiedEnded r.history k run := by
  have hp : ((follow step (new (keptOptions none) DURATION_MAX 0)
      (sweptRun .exitedNaturally ++ [.request .terminate, .stop])).any fun r =>
        r.status == .stopped) = true := by decide +kernel
  obtain ⟨r, h, hs⟩ := (Option.any_eq_true ..).mp hp
  exact ⟨r, h, (stopped_runs_are_verified_iff h (.inl (eq_of_beq hs))).mpr (by decide)⟩

/-- Whether a run was obtained whose termination was not verified. -/
def leaves (r : Runner T) : Bool :=
  r.history.any fun
    | (k, .obtained run) => !r.history.any fun
        | (k', .ended run' ending) => k' == k && run' == run && ending.verified
        | _ => false
    | _ => false

/-- What the check finds is a run without a verified ending. -/
theorem exists_not_verifiedEnded (h : r.leaves = true) :
    ∃ k run, (k, .obtained run) ∈ r.history ∧ ¬ VerifiedEnded r.history k run := by
  obtain ⟨⟨k, ev⟩, hm, he⟩ := List.any_eq_true.mp h
  cases ev with
  | obtained run =>
      refine ⟨k, run, hm, ?_⟩
      rintro ⟨ending, -, hm', hv⟩
      simp only [Bool.not_eq_true', List.any_eq_false] at he
      exact he _ hm' (by simp [hv])
  | _ => cases he

/-- A run exits, and its sweep is not verified. The service is stopped while it waits for the
restart, or gives up: it publishes that it has stopped, or failed, all the same. -/
theorem stopped_service_leaves_a_run :
    (∃ r : Runner Unit, Reaches step (new (keptOptions none) DURATION_MAX 0) r ∧
      r.status = .stopped ∧
        ∃ k run, (k, .obtained run) ∈ r.history ∧ ¬ VerifiedEnded r.history k run) ∧
    ∃ r : Runner Unit, Reaches step (new (keptOptions (some 0)) DURATION_MAX 0) r ∧
      r.status = .failed .exited "exited with code 1" ∧
      ∃ k run, (k, .obtained run) ∈ r.history ∧ ¬ VerifiedEnded r.history k run := by
  refine ⟨?_, ?_⟩
  · obtain ⟨r, h, hp⟩ := Reaches.exists_of_follow step (new (keptOptions none) DURATION_MAX 0)
      (sweptRun (.cleanupUnverified .reapFailed) ++ [.request .terminate, .stop])
      (fun r => r.status == .stopped && r.leaves) (by decide +kernel)
    obtain ⟨hs, hl⟩ := Bool.and_eq_true_iff.mp hp
    exact ⟨r, h, eq_of_beq hs, exists_not_verifiedEnded hl⟩
  · obtain ⟨r, h, hp⟩ := Reaches.exists_of_follow step (new (keptOptions (some 0)) DURATION_MAX 0)
      (sweptRun (.cleanupUnverified .reapFailed))
      (fun r => r.status == .failed .exited "exited with code 1" && r.leaves) (by decide +kernel)
    obtain ⟨hs, hl⟩ := Bool.and_eq_true_iff.mp hp
    exact ⟨r, h, eq_of_beq hs, exists_not_verifiedEnded hl⟩

end Runner

end Shepherd
