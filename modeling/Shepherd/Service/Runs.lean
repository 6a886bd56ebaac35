import Shepherd.Service.Names

/-!
# Runs of a Service

What a worker does with the runs it has obtained.

* `Accounted` — of every run it obtained, the termination has returned, except of the one it
  holds, and of the one it left running when it was asked to.
* `AdoptionInv` — every event of the history is justified by the events before it
  (`Justified`): which run is adopted and which is taken over to be ended, when `kept.start`
  is called, and which run a readiness check or a `Ready` status is about.
-/

namespace Shepherd.Runner

open Conc

variable {T : Type} {r r' : Runner T} {h : List (ℕ × RunnerEvent T)}

/-! ### Runs are accounted for -/

/-- The termination of the run has returned. -/
def Ended (h : List (ℕ × RunnerEvent T)) (k : ℕ) (run : ServiceRun) : Prop :=
  ∃ ending, ending.isOf run.running = true ∧ (k, .ended run ending) ∈ h

/-- Nothing is left of any run. -/
def AllEnded (h : List (ℕ × RunnerEvent T)) : Prop :=
  ∀ k run, (k, .obtained run) ∈ h → Ended h k run

/-- Of every run that was obtained the termination has returned, unless the worker holds it,
or has left it running. -/
def Accounted (r : Runner T) : Prop :=
  ∀ k run, (k, .obtained run) ∈ r.history →
    Ended r.history k run ∨ (k = r.round ∧ r.stage.held = some run) ∨
      ∃ osPid, r.status = .released osPid

/-- A run that has ended has ended ever after. -/
theorem Ended.cons {k : ℕ} {run : ServiceRun} (he : Ended h k run)
    (x : ℕ × RunnerEvent T) : Ended (x :: h) k run := by
  obtain ⟨ending, ho, hm⟩ := he
  exact ⟨ending, ho, List.mem_cons_of_mem _ hm⟩

/-- An event that obtains no run. -/
theorem AllEnded.cons (ha : AllEnded h) {k : ℕ} {ev : RunnerEvent T}
    (hev : ∀ run, ev ≠ .obtained run) : AllEnded ((k, ev) :: h) := by
  intro k' run hm
  rcases List.mem_cons.mp hm with heq | hm
  · exact absurd (Prod.mk.inj heq).2.symm (hev run)
  · exact (ha k' run hm).cons _

/-- A runner without open runs is accounted for. -/
theorem AllEnded.accounted (ha : AllEnded r.history) : r.Accounted :=
  fun k run hm => .inl (ha k run hm)

/-- A worker that goes on has left no run running. -/
theorem Announced.not_released (ha : r.Announced) (hs : ∀ result, r.stage ≠ .returned result)
    (osPid : ℕ) : r.status ≠ .released osPid := by
  intro hr
  obtain ⟨result, hres⟩ := ha.final.mp (by rw [hr]; rfl)
  exact hs result hres

/-- A worker that holds no run and goes on has ended them all. -/
theorem Accounted.allEnded (hc : r.Accounted) (ha : r.Announced)
    (hs : ∀ result, r.stage ≠ .returned result) (hh : r.stage.held = none) :
    AllEnded r.history := by
  intro k run hm
  rcases hc k run hm with he | ⟨-, hr⟩ | ⟨osPid, hr⟩
  · exact he
  · cases hh.symm.trans hr
  · exact absurd hr (ha.not_released hs osPid)

/-- When the termination of the run it holds returns, a worker has ended them all. -/
theorem Accounted.allEnded_ended (hc : r.Accounted) (ha : r.Announced)
    (hs : ∀ result, r.stage ≠ .returned result) {run : ServiceRun} {ending : RunEnding}
    (hh : r.stage.held = some run) (ho : ending.isOf run.running = true) :
    AllEnded (r.record (.ended run ending)).history := by
  intro k run' hm
  rcases List.mem_cons.mp hm with heq | hm
  · cases (Prod.mk.inj heq).2
  · rcases hc k run' hm with he | ⟨rfl, hr⟩ | ⟨osPid, hr⟩
    · exact he.cons _
    · obtain rfl := Option.some.inj (hh.symm.trans hr)
      exact ⟨ending, ho, List.mem_cons_self⟩
    · exact absurd hr (ha.not_released hs osPid)

/-- A worker that keeps the run it holds. -/
theorem Accounted.keep (hc : r.Accounted) {stage : RunnerStage}
    (hh : stage.held = r.stage.held) : (r.goto stage).Accounted := by
  intro k run hm
  rcases hc k run hm with he | ⟨hk, hr⟩ | hr
  · exact .inl he
  · exact .inr (.inl ⟨hk, hh.trans hr⟩)
  · exact .inr (.inr hr)

/-- An event that obtains no run leaves the runner accounted for. -/
theorem Accounted.record (hc : r.Accounted) {ev : RunnerEvent T}
    (hev : ∀ run, ev ≠ .obtained run) : (r.record ev).Accounted := by
  intro k run hm
  rcases List.mem_cons.mp hm with heq | hm
  · exact absurd (Prod.mk.inj heq).2.symm (hev run)
  · rcases hc k run hm with he | hh | hr
    · exact .inl (he.cons _)
    · exact .inr (.inl hh)
    · exact .inr (.inr hr)

/-- A status is published while the worker goes on with the run it holds. -/
theorem Accounted.publish (hc : r.Accounted) (ha : r.Announced)
    (hs : ∀ result, r.stage ≠ .returned result) (status : ServiceStatus T) :
    (r.publish status).Accounted := by
  intro k run hm
  rcases List.mem_cons.mp hm with heq | hm
  · cases (Prod.mk.inj heq).2
  · rcases hc k run hm with he | hh | ⟨osPid, hr⟩
    · exact .inl (he.cons _)
    · exact .inr (.inl hh)
    · exact absurd hr (ha.not_released hs osPid)

/-- The run the worker obtains is the one it holds from now on. -/
theorem AllEnded.obtain (he : AllEnded r.history) {stage : RunnerStage} {run : ServiceRun}
    (hh : stage.held = some run) : ((r.record (.obtained run)).goto stage).Accounted := by
  intro k run' hm
  rcases List.mem_cons.mp hm with heq | hm
  · cases heq
    exact .inr (.inl ⟨rfl, hh⟩)
  · exact .inl ((he k run' hm).cons _)

/-- A new attempt begins without open runs. -/
theorem AllEnded.beginAttempt (he : AllEnded r.history) : r.beginAttempt.Accounted :=
  AllEnded.accounted (he.cons (by simp))

/-- The head of the loop is reached without open runs. -/
theorem AllEnded.loopHead (he : AllEnded r.history) : r.loopHead.Accounted := by
  rw [Runner.loopHead]
  split_ifs
  · exact AllEnded.accounted (he.cons (by simp))
  · exact AllEnded.accounted (he.cons (by simp))
  · exact he.beginAttempt

/-- A failure leaves no open run. -/
theorem AllEnded.fail (he : AllEnded r.history) (failure : RunFailure)
    (stayed : Option Duration) : (r.fail failure stayed).Accounted := by
  refine AllEnded.loopHead ?_
  exact he.cons (by simp)

/-- A stop ends the run that was held. -/
theorem Accounted.finish (hc : r.Accounted) (ha : r.Announced)
    (hs : ∀ result, r.stage ≠ .returned result) {run : ServiceRun}
    (hh : r.stage.held = some run) (how : ServiceStop) : (r.finish (some run) how).Accounted := by
  rw [finish.eq_def]
  simp only
  split
  · intro k run' hm
    exact .inr (.inr ⟨_, rfl⟩)
  · exact (hc.publish ha hs .stopping).keep hh.symm

/-- The end of a run is recorded. -/
theorem Accounted.ended (hc : r.Accounted) (ha : r.Announced)
    {run : ServiceRun} {reason : EndReason} {ending : RunEnding}
    (hs : r.stage = .ending run reason) (ho : ending.isOf run.running = true) :
    (r.ended run ending reason).Accounted := by
  have he := hc.allEnded_ended ha (by simp [hs]) (by rw [hs]; rfl) ho
  cases reason with
  | notReady failure => exact he.fail failure none
  | exited exit readyAt stayed =>
      refine AllEnded.fail ?_ _ _
      exact he
  | stopping => exact AllEnded.accounted (he.cons (by simp))

/-- A runner that is starting holds no run. -/
theorem held_of_starting (hs : r.stage.starting = true) : r.stage.held = none := by
  revert hs
  cases r.stage <;> simp [RunnerStage.starting, RunnerStage.held]

/-- A runner that waits on a run holds it. -/
theorem held_of_waitsOn {run : ServiceRun} (hs : r.stage.waitsOn = some run) :
    r.stage.held = some run ∧ ∀ result, r.stage ≠ .returned result := by
  revert hs
  cases r.stage <;> simp [RunnerStage.waitsOn, RunnerStage.held]

/-- A runner whose run is not ready holds it. -/
theorem held_of_unready {run : ServiceRun} (hs : r.stage.unready = some run) :
    r.stage.held = some run := by
  revert hs
  cases r.stage <;> simp [RunnerStage.unready, RunnerStage.held]

/-- A runner that waits on a run is not stranded. -/
theorem not_stranded_of_waitsOn {run : ServiceRun} (hs : r.stage.waitsOn = some run) :
    ¬ r.Stranded := by
  rintro (hst | hst) <;> simp [hst, RunnerStage.waitsOn] at hs

/-- A runner whose run is not ready is not stranded. -/
theorem not_stranded_of_unready {run : ServiceRun} (hs : r.stage.unready = some run) :
    ¬ r.Stranded := by
  rintro (hst | hst) <;> simp [hst, RunnerStage.unready] at hs

/-- A runner that is starting is not stranded. -/
theorem not_stranded_of_starting (hs : r.stage.starting = true) : ¬ r.Stranded := by
  rintro (hst | hst) <;> simp [hst, RunnerStage.starting] at hs

/-- A stranded worker stays so. -/
theorem Stranded.step {input : RunnerInput T} (hst : r.Stranded)
    (h : r.step input = some r') : r'.Stranded := by
  cases step_moves h with
  | clock now => exact hst
  | request how hn => exact hst
  | dropped ha => exact .inr rfl
  | panic hp => exact .inl rfl
  | stopWaiting how hs => exact absurd hst (not_stranded_of_waitsOn hs)
  | failed hi failure hs => exact absurd hst (not_stranded_of_starting hs)
  | notReady hi failure hs => exact absurd hst (not_stranded_of_unready hs)
  | polled hs | untilReady hs | stopBackingOff hs | stopLaunching how hs | slept hs
  | checkAgain hs | launched launch hs | created scope hs | spawned pid osPid output hs
  | sweeps error hs | adoptedNone hs | adopted previous hs | tookOver previous hs
  | replaced outcome hs | notReplaced outcome failure hs | started process hs | isReady value hs
  | notYet hs | exited hs | ended ending hs =>
      exact absurd hst (by simp [Stranded, hs])

/-- A step keeps the runs accounted for. A worker that is dropped or panics does not, but it
publishes nothing any more. -/
theorem Accounted.step {input : RunnerInput T} (ha : r.Announced)
    (hc : r.Accounted) (h : r.step input = some r') : r'.Accounted ∨ r'.Stranded := by
  cases step_moves h with
  | clock now => exact .inl hc
  | request how hn => exact .inl hc
  | dropped hs => exact .inr (.inr rfl)
  | panic hs => exact .inr (.inl rfl)
  | polled hs =>
      exact .inl (hc.allEnded ha (by simp [hs]) (by rw [hs]; rfl)).loopHead
  | untilReady hs hu =>
      rw [untilReady]
      split_ifs
      · exact .inl ((hc.record (by simp)).keep (by simp [Runner.record, hs, RunnerStage.held]))
      · exact .inr (.inl rfl)
  | stopBackingOff hs =>
      exact .inl (AllEnded.accounted
        ((hc.allEnded ha (by simp [hs]) (by rw [hs]; rfl)).cons (by simp)))
  | stopLaunching how hs =>
      have he := hc.allEnded ha (by simp [hs]) (by rw [hs]; rfl)
      exact .inl (AllEnded.accounted ((he.cons (by simp)).cons (by simp)))
  | stopWaiting how hs =>
      obtain ⟨hh, hr⟩ := held_of_waitsOn hs
      exact .inl (hc.finish ha hr hh how)
  | slept hs =>
      exact .inl (hc.allEnded ha (by simp [hs]) (by rw [hs]; rfl)).beginAttempt
  | checkAgain hs =>
      exact .inl ((hc.record (by simp)).keep (by simp [Runner.record, hs, RunnerStage.held]))
  | launched launch hs =>
      refine .inl ((hc.record (by simp)).keep ?_)
      split <;> simp [Runner.record, hs, RunnerStage.held]
  | failed hi failure hs =>
      have hr := not_returned_of_starting hs
      have hh := held_of_starting hs
      exact .inl ((hc.allEnded ha hr hh).fail failure none)
  | created scope hs =>
      exact .inl (hc.keep (by rw [hs]; rfl))
  | spawned pid osPid output hs =>
      exact .inl ((hc.allEnded ha (by simp [hs]) (by rw [hs]; rfl)).obtain rfl)
  | sweeps error hs =>
      exact .inl (hc.keep (by rw [hs]; rfl))
  | adoptedNone hs =>
      exact .inl (((hc.record (by simp)).record (by simp)).keep
        (by simp [Runner.record, hs, RunnerStage.held]))
  | adopted previous hs hm hf =>
      exact .inl ((hc.allEnded ha (by simp [hs]) (by rw [hs]; rfl)).obtain rfl)
  | tookOver previous hs hn =>
      exact .inl ((hc.allEnded ha (by simp [hs]) (by rw [hs]; rfl)).obtain rfl)
  | replaced outcome hs hv =>
      have he := hc.allEnded_ended ha (by simp [hs]) (by rw [hs]; rfl)
        (show RunEnding.isOf (.kept outcome) (.kept _) = true from rfl)
      exact .inl (AllEnded.accounted (he.cons (by simp)))
  | notReplaced outcome failure hs hv =>
      have he := hc.allEnded_ended ha (by simp [hs]) (by rw [hs]; rfl)
        (show RunEnding.isOf (.kept outcome) (.kept _) = true from rfl)
      exact .inl (he.fail failure none)
  | started process hs =>
      exact .inl ((hc.allEnded ha (by simp [hs]) (by rw [hs]; rfl)).obtain rfl)
  | isReady value hs =>
      exact .inl ((hc.publish ha (by simp [hs]) _).keep
        (by simp [Runner.publish, Runner.record, hs, RunnerStage.held]))
  | notYet hs =>
      exact .inl (hc.keep (by rw [hs]; rfl))
  | notReady hi failure hs =>
      have hh := held_of_unready hs
      exact .inl (hc.keep hh.symm)
  | exited hs =>
      exact .inl (hc.keep (by rw [hs]; rfl))
  | ended ending hs ho =>
      exact .inl (hc.ended ha hs ho)

section Reached

variable {options : ServiceOptions} {instantMax now : Instant}

/-- In every run, the runner has announced its status. -/
theorem announced_of_reaches (h : Reaches step (new options instantMax now) r) :
    r.Announced :=
  h.invariant (Announced.new options instantMax now) fun _ _ _ ha hs => ha.step hs

/-- **In every run, the runner is accounted for, or stranded.** -/
theorem accounted_of_reaches (h : Reaches step (new options instantMax now) r) :
    r.Accounted ∨ r.Stranded := by
  refine (h.invariant (I := fun r => r.Announced ∧ (r.Accounted ∨ r.Stranded))
    ⟨Announced.new options instantMax now,
      .inl (AllEnded.accounted (by simp [AllEnded, new]))⟩ ?_).2
  rintro r input r' ⟨ha, hc | hst⟩ hs
  · exact ⟨ha.step hs, hc.step ha hs⟩
  · exact ⟨ha.step hs, .inr (hst.step hs)⟩

/-- **A worker that has stopped or failed** has ended every run it obtained: the termination of
the run has returned. -/
theorem allEnded_of_final (h : Reaches step (new options instantMax now) r)
    (hs : r.status = .stopped ∨ ∃ kind reason, r.status = .failed kind reason) :
    AllEnded r.history := by
  have ha := announced_of_reaches h
  have hf : r.status.isFinal = true := by
    rcases hs with hs | ⟨kind, reason, hs⟩ <;> rw [hs] <;> rfl
  obtain ⟨result, hres⟩ := ha.final.mp hf
  have hc : r.Accounted :=
    (accounted_of_reaches h).resolve_right (by simp [Stranded, hres])
  intro k run hm
  rcases hc k run hm with he | ⟨-, hh⟩ | ⟨osPid, hr⟩
  · exact he
  · rw [hres] at hh
    cases hh
  · rcases hs with hs | ⟨kind, reason, hs⟩ <;> cases hs.symm.trans hr

end Reached

/-! ### Schedules -/

/-- A kept service that gives up after one failure, or never does. -/
def keptOptions (maxFailures : Option ℕ) : ServiceOptions :=
  { ServiceOptions.default with
    restart := RestartPolicy.default.withMaxFailures maxFailures, kept := true }

/-- The launch of a program without arguments. -/
def plainLaunch : ServiceLaunch := ⟨.new [], none, none⟩

/-- The kept process with the pid, started by the launch. -/
def plainProcess (osPid : ℕ) : KeptProcess := ⟨osPid, plainLaunch.fingerprint⟩

/-- The process is started, is ready, exits, and is swept with this outcome. -/
def sweptRun (outcome : TerminationOutcome) : List (RunnerInput Unit) :=
  [.polled, .launched (.ok plainLaunch), .adopted (.ok none), .started (.ok (plainProcess 7)),
    .polled, .checked (.ok (some ())), .exited (.ok (some 1, none)), .ended (.kept outcome)]

end Shepherd.Runner
