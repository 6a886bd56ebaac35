import Shepherd.Service.Runs

/-!
# Adoption of Kept Runs

Every event in the history of a worker is justified by the events before it (`Justified`): a
run is adopted when its fingerprint is that of the launch and nothing has been started or
adopted before; otherwise an earlier run is taken over to be ended; `kept.start` is called
right after `adopt` found none, or after the termination of the run that was taken over was
verified; and what is checked for readiness, or published as ready, is the run of the attempt.

`AdoptionInv` relates the variables of the worker to its history, and its steps keep it.
-/

namespace Shepherd.Runner

open Conc

variable {T : Type} {r r' : Runner T} {h : List (ℕ × RunnerEvent T)}

/-! ### Justified events -/

/-- Nothing was started or adopted. -/
def NoneEstablished (h : List (ℕ × RunnerEvent T)) : Prop :=
  ∀ k run, (k, .obtained run) ∈ h → ¬ run.Established

/-- The attempt has obtained a run that is adopted just if `adopted` is set. -/
def Obtained (k : ℕ) (adopted : Bool) (h : List (ℕ × RunnerEvent T)) : Prop :=
  ∃ run, (k, .obtained run) ∈ h ∧ run.Established ∧ (adopted = true ↔ run.origin = .adopted)

/-- The attempt may start a kept run now: no earlier one was found, or the one that was is
verified as ended. -/
inductive MayStart (k : ℕ) : List (ℕ × RunnerEvent T) → Prop
  | adoptedNone (h : List (ℕ × RunnerEvent T)) : MayStart k ((k, .adoptedNone) :: h)
  | replaced (previous : KeptProcess) (outcome : TerminationOutcome)
      (h : List (ℕ × RunnerEvent T)) (hv : outcome.isVerified = true)
      (ho : (k, .obtained ⟨.kept previous, .tookOver⟩) ∈ h) :
      MayStart k ((k, .ended ⟨.kept previous, .tookOver⟩ (.kept outcome)) :: h)

/-- What the earlier events have to say when a run is obtained. -/
def ObtainedRightly (k : ℕ) (run : ServiceRun) (h : List (ℕ × RunnerEvent T)) : Prop :=
  match run.origin with
  | .started => True
  | .adopted => ∃ process launch, run.running = .kept process ∧ (k, .launched launch) ∈ h ∧
      process.fingerprint = launch.fingerprint ∧ NoneEstablished h
  | .tookOver => ∃ process launch, run.running = .kept process ∧ (k, .launched launch) ∈ h ∧
      (NoneEstablished h → process.fingerprint ≠ launch.fingerprint)

/-- What the earlier events have to say when an event of the attempt occurs. -/
def Justified (k : ℕ) (ev : RunnerEvent T) (h : List (ℕ × RunnerEvent T)) : Prop :=
  match ev with
  | .launched _ => ∀ launch, (k, .launched launch) ∉ h
  | .obtained run => ObtainedRightly k run h
  | .checked inst => Obtained k inst.adopted h
  | .published (.ready _ _ adopted) => Obtained k adopted h
  | .keptStart => MayStart k h
  | _ => True

/-! ### The invariant -/

/-- What the stage of a worker says about its history. -/
def StageFacts (r : Runner T) : RunnerStage → Prop
  | .launching => ∀ launch, (r.round, .launched launch) ∉ r.history
  | .adopting launch => (r.round, .launched launch) ∈ r.history
  | .replacing _ previous => (r.round, .obtained ⟨.kept previous, .tookOver⟩) ∈ r.history
  | .established run inst | .checking run inst _ | .pausing run inst _ =>
      (r.round, .obtained run) ∈ r.history ∧ run.Established ∧
        (inst.adopted = true ↔ run.origin = .adopted)
  | _ => True

/-- The history and the variables of a worker. -/
structure HistoryInv (r : Runner T) : Prop where
  lawful : Chronicle Justified r.history
  tags : ∀ k ev, (k, ev) ∈ r.history → k ≤ r.round
  eligible : r.mayAdopt = true ↔ NoneEstablished r.history

/-- The invariant of adoption. -/
structure AdoptionInv (r : Runner T) : Prop extends HistoryInv r where
  stage : r.StageFacts r.stage

/-- An event that obtains no established run. -/
theorem NoneEstablished.cons (hn : NoneEstablished h) {k : ℕ} {ev : RunnerEvent T}
    (hev : ∀ run, ev = .obtained run → ¬ run.Established) : NoneEstablished ((k, ev) :: h) := by
  intro k' run hm
  rcases List.mem_cons.mp hm with heq | hm
  · exact hev run (Prod.mk.inj heq).2.symm
  · exact hn k' run hm

namespace HistoryInv

/-- A justified event that starts or adopts nothing. -/
theorem record (hi : r.HistoryInv) (ev : RunnerEvent T) (hj : Justified r.round ev r.history)
    (hev : ∀ run, ev = .obtained run → ¬ run.Established) : (r.record ev).HistoryInv where
  lawful := ⟨hj, hi.lawful⟩
  tags := by
    intro k ev' hm
    rcases List.mem_cons.mp hm with heq | hm
    · exact Nat.le_of_eq (Prod.mk.inj heq).1
    · exact hi.tags k ev' hm
  eligible := by
    constructor
    · intro hm
      exact (hi.eligible.mp hm).cons hev
    · intro hn
      exact hi.eligible.mpr fun k run hm => hn k run (List.mem_cons_of_mem _ hm)

/-- A run is started or adopted. -/
theorem obtain (hi : r.HistoryInv) {run : ServiceRun}
    (hj : Justified r.round (.obtained run) r.history) (he : run.Established) :
    ({ r with mayAdopt := false }.record (.obtained run)).HistoryInv where
  lawful := ⟨hj, hi.lawful⟩
  tags := by
    intro k ev' hm
    rcases List.mem_cons.mp hm with heq | hm
    · exact Nat.le_of_eq (Prod.mk.inj heq).1
    · exact hi.tags k ev' hm
  eligible := by
    constructor
    · intro hm
      cases hm
    · intro hn
      exact absurd he (hn _ run List.mem_cons_self)

/-- A status other than `Ready` is published. -/
theorem publish (hi : r.HistoryInv) (status : ServiceStatus T)
    (hj : Justified r.round (.published status) r.history) : (r.publish status).HistoryInv := by
  have hi' : HistoryInv { r with status, summary := status.summary } :=
    ⟨hi.lawful, hi.tags, hi.eligible⟩
  exact hi'.record _ hj (by simp)

/-- A runner that goes on within an attempt. -/
theorem goto (hi : r.HistoryInv) {stage : RunnerStage} (hs : r.StageFacts stage) :
    (r.goto stage).AdoptionInv := by
  refine ⟨⟨hi.lawful, hi.tags, hi.eligible⟩, ?_⟩
  change (r.goto stage).StageFacts stage
  cases stage <;> exact hs

/-- A new attempt may adopt, as long as no run was established. -/
theorem beginAttempt (hi : r.HistoryInv) : r.beginAttempt.AdoptionInv := by
  have hi' : HistoryInv { r with
      attempt := U32.saturatingAdd r.attempt 1, round := r.round + 1 } :=
    ⟨hi.lawful, fun k ev hm => Nat.le_succ_of_le (hi.tags k ev hm), hi.eligible⟩
  refine (hi'.publish _ (by trivial)).goto fun launch hm => ?_
  rcases List.mem_cons.mp hm with heq | hm
  · cases (Prod.mk.inj heq).2
  · exact absurd (hi.tags _ _ hm) (Nat.not_succ_le_self r.round)

/-- The head of the loop stops, waits, or begins an attempt. -/
theorem loopHead (hi : r.HistoryInv) : r.loopHead.AdoptionInv := by
  rw [Runner.loopHead]
  split_ifs
  · exact (hi.publish _ (by trivial)).goto trivial
  · exact (hi.publish _ (by trivial)).goto trivial
  · exact hi.beginAttempt

/-- A failure leads back to the head of the loop. -/
theorem fail (hi : r.HistoryInv) (failure : RunFailure) (stayed : Option Duration) :
    (r.fail failure stayed).AdoptionInv := by
  have hi' := hi.record (.failed failure stayed) trivial (by simp)
  exact loopHead ⟨hi'.lawful, hi'.tags, hi'.eligible⟩

/-- A runner that stops adopts nothing more. -/
theorem finish (hi : r.HistoryInv) (run : Option ServiceRun) (how : ServiceStop) :
    (r.finish run how).AdoptionInv := by
  have hi' := hi.publish .stopping trivial
  rw [finish.eq_def]
  split
  · exact (hi'.publish _ (by trivial)).goto trivial
  · split
    · exact ((hi'.record _ (by trivial) (by simp)).publish _ (by trivial)).goto trivial
    · exact hi'.goto trivial

/-- A run that has ended leads to a stop, or to a failure. -/
theorem ended (hi : r.HistoryInv) (run : ServiceRun) (ending : RunEnding) (reason : EndReason) :
    (r.ended run ending reason).AdoptionInv := by
  have hi' := hi.record (.ended run ending) trivial (by simp)
  cases reason with
  | notReady failure => exact hi'.fail failure none
  | exited exit readyAt stayed =>
      refine fail ?_ _ _
      exact ⟨hi'.lawful, hi'.tags, hi'.eligible⟩
  | stopping => exact (hi'.publish _ (by trivial)).goto trivial

/-- The readiness check is given the instance of the run. -/
theorem check (hi : r.HistoryInv) {run : ServiceRun} {inst : ServiceInstance}
    (hf : (r.round, .obtained run) ∈ r.history ∧ run.Established ∧
      (inst.adopted = true ↔ run.origin = .adopted)) (deadline : Instant) :
    (r.check run inst deadline).AdoptionInv := by
  refine (hi.record (.checked inst) ⟨run, hf⟩ (by simp)).goto ?_
  exact ⟨List.mem_cons_of_mem _ hf.1, hf.2⟩

/-- An instance that is established is adopted exactly if its run was. -/
theorem establish (hi : r.HistoryInv) {run : ServiceRun} {inst : ServiceInstance}
    (hj : Justified r.round (.obtained run) r.history) (he : run.Established)
    (ha : inst.adopted = true ↔ run.origin = .adopted) :
    (r.establish run inst).AdoptionInv :=
  (hi.obtain hj he).goto ⟨List.mem_cons_self, he, ha⟩

/-- A launch may come after an adoption that found nothing. -/
theorem startKept (hi : r.HistoryInv) (launch : ServiceLaunch)
    (hm : MayStart r.round r.history) : (r.startKept launch).AdoptionInv :=
  (hi.record .keptStart hm (by simp)).goto trivial

end HistoryInv

/-- A step keeps the invariant of adoption. -/
theorem AdoptionInv.step {input : RunnerInput T} (hi : r.AdoptionInv)
    (h : r.step input = some r') : r'.AdoptionInv := by
  have hf := hi.stage
  have hh := hi.toHistoryInv
  cases step_moves h with
  | clock now => exact ⟨⟨hi.lawful, hi.tags, hi.eligible⟩, hi.stage⟩
  | request how hn => exact ⟨⟨hi.lawful, hi.tags, hi.eligible⟩, hi.stage⟩
  | dropped ha => exact hh.goto trivial
  | panic hp => exact hh.goto trivial
  | polled hs => exact hh.loopHead
  | untilReady hs hu =>
      rw [hs] at hf
      rw [untilReady]
      split_ifs
      · exact hh.check hf _
      · exact hh.goto trivial
  | stopBackingOff hs => exact (hh.publish .stopped trivial).goto trivial
  | stopLaunching how hs => exact hh.finish none how
  | stopWaiting how hs => exact hh.finish _ how
  | slept hs => exact hh.beginAttempt
  | checkAgain hs =>
      rw [hs] at hf
      exact hh.check hf _
  | launched launch hs =>
      rw [hs] at hf
      refine (hh.record (.launched launch) hf (by simp)).goto ?_
      split
      · exact List.mem_cons_self
      · trivial
  | failed hi failure hs => exact hh.fail failure none
  | created scope hs => exact hh.goto trivial
  | spawned pid osPid output hs =>
      exact hh.establish trivial (by simp [ServiceRun.Established]) (by simp)
  | sweeps error hs => exact hh.goto trivial
  | adoptedNone hs =>
      exact (hh.record .adoptedNone trivial (by simp)).startKept _ (.adoptedNone r.history)
  | @adopted launch previous hs hm hfp =>
      rw [hs] at hf
      refine hh.establish ?_ (by simp [ServiceRun.Established]) (by simp [keptInstance])
      exact ⟨previous, launch, rfl, hf, hfp, hi.eligible.mp hm⟩
  | @tookOver launch previous hs hn =>
      rw [hs] at hf
      refine (hh.record (.obtained ⟨.kept previous, .tookOver⟩) ?_ ?_).goto List.mem_cons_self
      · exact ⟨previous, launch, rfl, hf, fun he => hn (hi.eligible.mpr he)⟩
      · rintro run heq
        obtain rfl := RunnerEvent.obtained.inj heq
        simp [ServiceRun.Established]
  | replaced outcome hs hv =>
      rw [hs] at hf
      exact (hh.record (.ended _ (.kept outcome)) trivial (by simp)).startKept _
        (.replaced _ outcome _ hv hf)
  | notReplaced outcome failure hs hv =>
      exact (hh.record (.ended _ (.kept outcome)) trivial (by simp)).fail failure none
  | started process hs =>
      exact hh.establish trivial (by simp [ServiceRun.Established]) (by simp [keptInstance])
  | isReady value hs =>
      rw [hs] at hf
      exact (hh.publish (.ready value _ _) ⟨_, hf⟩).goto trivial
  | notYet hs =>
      rw [hs] at hf
      exact hh.goto hf
  | notReady hi failure hs => exact hh.goto trivial
  | exited hs => exact hh.goto trivial
  | ended ending hs ho => exact hh.ended _ ending _

/-- **The invariant of adoptions holds in every run.** -/
theorem adoptionInv_of_reaches {options : ServiceOptions} {instantMax now : Instant}
    (h : Reaches step (new options instantMax now) r) : r.AdoptionInv := by
  refine h.invariant ⟨⟨trivial, ?_, ?_⟩, trivial⟩ fun _ _ _ hi hs => hi.step hs
  · simp [new]
  · simp [new, NoneEstablished]

/-! ### Adoption and replacement -/

/-- The attempt launches once. -/
theorem launched_unique (hl : Chronicle Justified h) {k : ℕ} {l l' : ServiceLaunch}
    (hm : (k, .launched l) ∈ h) (hm' : (k, .launched l') ∈ h) : l = l' := by
  induction h with
  | nil => cases hm
  | cons x h ih =>
      rcases List.mem_cons.mp hm with rfl | hm₁
      · rcases List.mem_cons.mp hm' with heq | hm₂
        · exact (RunnerEvent.launched.inj (Prod.mk.inj heq).2).symm
        · exact absurd hm₂ (hl.1 l')
      · rcases List.mem_cons.mp hm' with rfl | hm₂
        · exact absurd hm₁ (hl.1 l)
        · exact ih hl.2 hm₁ hm₂

/-- Two runs that were adopted are one. -/
theorem adopted_unique (hl : Chronicle Justified h) {k k' : ℕ} {run run' : ServiceRun}
    (hm : (k, .obtained run) ∈ h) (hm' : (k', .obtained run') ∈ h)
    (ha : run.origin = .adopted) (ha' : run'.origin = .adopted) : k = k' ∧ run = run' := by
  have hnone : ∀ {k run h}, Justified k (.obtained run : RunnerEvent T) h →
      run.origin = .adopted → NoneEstablished h := by
    intro k run h hj ha
    simp only [Justified, ObtainedRightly, ha] at hj
    obtain ⟨_, _, -, -, -, hn⟩ := hj
    exact hn
  induction h with
  | nil => cases hm
  | cons x h ih =>
      rcases List.mem_cons.mp hm with rfl | hm₁
      · rcases List.mem_cons.mp hm' with heq | hm₂
        · cases heq
          exact ⟨rfl, rfl⟩
        · exact absurd (by simp [ServiceRun.Established, ha']) (hnone hl.1 ha _ _ hm₂)
      · rcases List.mem_cons.mp hm' with rfl | hm₂
        · exact absurd (by simp [ServiceRun.Established, ha]) (hnone hl.1 ha' _ _ hm₁)
        · exact ih hl.2 hm₁ hm₂

/-- What the history of a worker says about adoption and replacement. -/
structure KeptDiscipline (r : Runner T) : Prop where
  /-- At most one run is adopted. -/
  adopted_once : ∀ k k' run run', (k, .obtained run) ∈ r.history →
    (k', .obtained run') ∈ r.history → run.origin = .adopted → run'.origin = .adopted →
    k = k' ∧ run = run'
  /-- What was given to a readiness check, or published as ready, as an adopted run is the
  run that was adopted in the same attempt. -/
  checked_adopted : ∀ k inst, (k, .checked inst) ∈ r.history → inst.adopted = true →
    ∃ run, (k, .obtained run) ∈ r.history ∧ run.origin = .adopted
  ready_adopted : ∀ k value osPid, (k, .published (.ready value osPid true)) ∈ r.history →
    ∃ run, (k, .obtained run) ∈ r.history ∧ run.origin = .adopted
  /-- A run is adopted with the fingerprint of the launch of its attempt, when no run has
  been started or adopted before. -/
  adopted_rightly : ∀ newer k run older, r.history = newer ++ (k, .obtained run) :: older →
    run.origin = .adopted → NoneEstablished older ∧
      (∃ launch, (k, .launched launch) ∈ older) ∧
      ∀ launch, (k, .launched launch) ∈ r.history →
        ∃ process, run.running = .kept process ∧ process.fingerprint = launch.fingerprint
  /-- As long as none has been, an earlier run with that fingerprint is not ended. -/
  matching_is_adopted : ∀ newer k run older,
    r.history = newer ++ (k, .obtained run) :: older → run.origin = .tookOver →
    NoneEstablished older → ∀ launch, (k, .launched launch) ∈ r.history →
      ∃ process, run.running = .kept process ∧ process.fingerprint ≠ launch.fingerprint
  /-- The eligibility is lost only with a run that is started or adopted. -/
  eligible : r.mayAdopt = true ↔ NoneEstablished r.history
  /-- `kept.start` is called after `adopt` found none, or the termination of the run taken
  over in the attempt was verified. -/
  start_after : ∀ newer k older, r.history = newer ++ (k, .keptStart) :: older →
    MayStart k older

/-- **Adoption and replacement of kept runs**, over every run of a worker. -/
theorem kept_runs_are_disciplined {options : ServiceOptions} {instantMax now : Instant}
    (h : Reaches step (new options instantMax now) r) : r.KeptDiscipline := by
  have hi := adoptionInv_of_reaches h
  have hlawful := hi.lawful
  have hobtained : ∀ {k adopted h'}, h' <:+ r.history → Obtained k adopted h' →
      adopted = true → ∃ run, (k, .obtained run) ∈ r.history ∧ run.origin = .adopted := by
    rintro k adopted h' hsuf ⟨run, hm, -, ha⟩ had
    exact ⟨run, hsuf.mem hm, ha.mp had⟩
  refine ⟨fun k k' run run' hm hm' ha ha' => adopted_unique hlawful hm hm' ha ha',
    fun k inst hm had => ?_, fun k value osPid hm => ?_, fun newer k run older heq ha => ?_,
    fun newer k run older heq ha hn launch hl => ?_, hi.eligible, fun newer k older heq => ?_⟩
  · obtain ⟨l₁, l₂, heq, hj⟩ := hlawful.of_mem hm
    exact hobtained ⟨l₁ ++ [(k, .checked inst)], by simp [heq]⟩ hj had
  · obtain ⟨l₁, l₂, heq, hj⟩ := hlawful.of_mem hm
    exact hobtained ⟨l₁ ++ [(k, .published (.ready value osPid true))], by simp [heq]⟩ hj rfl
  · have hj : Justified k (.obtained run) older := by
      rw [heq] at hlawful
      exact hlawful.justified
    simp only [Justified, ObtainedRightly, ha] at hj
    obtain ⟨process, launch, hrun, hl, hfp, hn⟩ := hj
    refine ⟨hn, ⟨launch, hl⟩, fun launch' hl' => ⟨process, hrun, ?_⟩⟩
    have hl₁ : (k, .launched launch) ∈ r.history := by
      rw [heq]
      exact List.mem_append_right _ (List.mem_cons_of_mem _ hl)
    rw [hfp, launched_unique hlawful hl₁ hl']
  · have hj : Justified k (.obtained run) older := by
      rw [heq] at hlawful
      exact hlawful.justified
    simp only [Justified, ObtainedRightly, ha] at hj
    obtain ⟨process, launch', hrun, hl', hfp⟩ := hj
    refine ⟨process, hrun, ?_⟩
    have hl₁ : (k, .launched launch') ∈ r.history := by
      rw [heq]
      exact List.mem_append_right _ (List.mem_cons_of_mem _ hl')
    rw [launched_unique hlawful hl hl₁]
    exact hfp hn
  · rw [heq] at hlawful
    exact hlawful.justified

/-- The first launch fails, and the next attempt still adopts. The run exits, and is still
there when the attempt after it looks: it is ended, and then a run is started. -/
def adoptingRun : List (RunnerInput Unit) :=
  [.polled, .launched (.error "no binary"), .slept, .launched (.ok plainLaunch),
    .adopted (.ok (some (plainProcess 7))), .polled, .checked (.ok (some ())),
    .exited (.ok (none, none)), .ended (.kept .failed), .slept, .launched (.ok plainLaunch),
    .adopted (.ok (some (plainProcess 7))), .terminated .forcedRequired,
    .started (.ok (plainProcess 8))]

/-- A runner that finds its process gone in the first attempts, and launches in the third, is
disciplined. -/
theorem adopting_service_is_disciplined : ∃ r : Runner Unit,
    Reaches step (new (keptOptions none) DURATION_MAX 0) r ∧
      r.stage = .established ⟨.kept (plainProcess 8), .started⟩
        (keptInstance (plainProcess 8) false) ∧ r.round = 3 ∧ r.KeptDiscipline := by
  obtain ⟨r, h, hp⟩ := Reaches.exists_of_follow step (new (keptOptions none) DURATION_MAX 0)
    adoptingRun
    (fun r => r.stage == .established ⟨.kept (plainProcess 8), .started⟩
      (keptInstance (plainProcess 8) false) && r.round == 3) (by decide +kernel)
  obtain ⟨hs, hr⟩ := Bool.and_eq_true_iff.mp hp
  exact ⟨r, h, eq_of_beq hs, eq_of_beq hr, kept_runs_are_disciplined h⟩

end Shepherd.Runner
