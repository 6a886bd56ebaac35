import Shepherd.Service.Runner

/-!
# Names of Services

A `ServiceSupervisor` lists the last state each worker published, and refuses a name whose
worker is not final. So a name is free again when its worker has published a final status,
and only then.

`Announced` is what a worker keeps true: the listed state is that of the status, and the
status is final just when the worker has returned. A worker that panics or is dropped has not
returned (`strands`), and its name stays taken.
-/

namespace Shepherd

open Conc

variable {T : Type}

/-! ### What a worker has announced -/

namespace Runner

/-- The worker's name is listed with its status, which is final when it has returned. -/
structure Announced (r : Runner T) : Prop where
  summary : r.summary = r.status.summary
  final : r.status.isFinal = true ↔ ∃ result, r.stage = .returned result

/-- A new runner has announced its status. -/
theorem Announced.new (options : ServiceOptions) (instantMax now : Instant) :
    (Runner.new options instantMax now : Runner T).Announced where
  summary := rfl
  final := by simp [Runner.new, ServiceStatus.isFinal]

/-- Nothing is published, and the worker has not returned. -/
theorem Announced.goto {r : Runner T} (ha : r.Announced) {stage : RunnerStage}
    (hs : ∀ result, r.stage ≠ .returned result) (hs' : ∀ result, stage ≠ .returned result) :
    (r.goto stage).Announced where
  summary := ha.summary
  final := by
    have hn : ¬ r.status.isFinal = true := by
      intro hf
      obtain ⟨result, hr⟩ := ha.final.mp hf
      exact hs result hr
    simpa [Runner.goto, hs'] using hn

/-- An event keeps the announced status. -/
theorem Announced.record {r : Runner T} (ha : r.Announced) (ev : RunnerEvent T) :
    (r.record ev).Announced :=
  ⟨ha.summary, ha.final⟩

/-- An established run is announced. -/
theorem Announced.establish {r : Runner T} (ha : r.Announced)
    (hs : ∀ result, r.stage ≠ .returned result) (run : ServiceRun) (inst : ServiceInstance) :
    (r.establish run inst).Announced :=
  have ha' : (r.goto (.established run inst)).Announced := ha.goto hs (by simp)
  ⟨ha.summary, ha'.final⟩

/-- A status is published on the way to a stage. -/
theorem announced_publish (r : Runner T) {status : ServiceStatus T} {stage : RunnerStage}
    (hf : status.isFinal = true ↔ ∃ result, stage = .returned result) :
    ((r.publish status).goto stage).Announced :=
  ⟨rfl, hf⟩

/-- A new attempt is announced. -/
theorem announced_beginAttempt (r : Runner T) : r.beginAttempt.Announced :=
  announced_publish _ (by simp [ServiceStatus.isFinal])

/-- The head of the loop announces what it goes on to. -/
theorem announced_loopHead (r : Runner T) : r.loopHead.Announced := by
  rw [loopHead]
  split_ifs
  · exact announced_publish _ (by simp [ServiceStatus.isFinal])
  · exact announced_publish _ (by simp [ServiceStatus.isFinal])
  · exact announced_beginAttempt r

/-- A failure is announced. -/
theorem announced_fail (r : Runner T) (failure : RunFailure) (stayed : Option Duration) :
    (r.fail failure stayed).Announced :=
  announced_loopHead _

/-- A stop is announced. -/
theorem announced_finish (r : Runner T) (run : Option ServiceRun) (how : ServiceStop) :
    (r.finish run how).Announced := by
  rw [finish.eq_def]
  split
  · exact announced_publish _ (by simp [ServiceStatus.isFinal])
  · split
    · exact announced_publish _ (by simp [ServiceStatus.isFinal])
    · exact announced_publish _ (by simp [ServiceStatus.isFinal])

/-- The end of a run is announced. -/
theorem announced_ended (r : Runner T) (run : ServiceRun) (ending : RunEnding)
    (reason : EndReason) : (r.ended run ending reason).Announced := by
  cases reason with
  | notReady failure => exact announced_fail _ failure none
  | exited exit readyAt stayed => exact announced_fail _ _ _
  | stopping => exact announced_publish _ (by simp [ServiceStatus.isFinal])

/-- A step keeps what the worker has announced. -/
theorem Announced.step {r r' : Runner T} {input : RunnerInput T} (ha : r.Announced)
    (h : r.step input = some r') : r'.Announced := by
  cases step_moves h with
  | clock now => exact ⟨ha.summary, ha.final⟩
  | request how hn => exact ⟨ha.summary, ha.final⟩
  | dropped hs =>
      refine ha.goto (fun result hr => ?_) (by simp)
      rw [hr] at hs
      exact absurd hs (by simp [RunnerStage.awaits])
  | panic hs =>
      refine ha.goto (fun result hr => ?_) (by simp)
      rw [hr] at hs
      exact absurd hs (by simp [RunnerStage.inService])
  | polled hs => exact announced_loopHead r
  | @untilReady run inst hs hu =>
      rw [untilReady]
      split_ifs
      · exact (ha.record _).goto (by simp [Runner.record, hs]) (by simp)
      · exact ha.goto (by simp [hs]) (by simp)
  | stopBackingOff hs => exact announced_publish _ (by simp [ServiceStatus.isFinal])
  | stopLaunching how hs => exact announced_finish r _ how
  | stopWaiting how hs => exact announced_finish r _ how
  | slept hs => exact announced_beginAttempt r
  | checkAgain hs => exact (ha.record _).goto (by simp [Runner.record, hs]) (by simp)
  | launched launch hs =>
      refine (ha.record _).goto (by simp [Runner.record, hs]) (fun result => ?_)
      split <;> simp
  | failed hi failure hs => exact announced_fail r failure none
  | created scope hs => exact ha.goto (by simp [hs]) (by simp)
  | spawned pid osPid output hs => exact ha.establish (by simp [hs]) _ _
  | sweeps error hs => exact ha.goto (by simp [hs]) (by simp)
  | adoptedNone hs =>
      exact ((ha.record _).record _).goto (by simp [Runner.record, hs]) (by simp)
  | adopted previous hs hm hf => exact ha.establish (by simp [hs]) _ _
  | tookOver previous hs hn => exact (ha.record _).goto (by simp [Runner.record, hs]) (by simp)
  | replaced outcome hs hv =>
      exact ((ha.record _).record _).goto (by simp [Runner.record, hs]) (by simp)
  | notReplaced outcome failure hs hv => exact announced_fail _ failure none
  | started process hs => exact ha.establish (by simp [hs]) _ _
  | isReady value hs => exact announced_publish _ (by simp [ServiceStatus.isFinal])
  | notYet hs => exact ha.goto (by simp [hs]) (by simp)
  | notReady hi failure hs =>
      refine ha.goto (fun result hr => ?_) (by simp)
      rw [hr] at hs
      cases hs
  | exited hs => exact ha.goto (by simp [hs]) (by simp)
  | ended ending hs ho => exact announced_ended r _ ending _

/-- Whether the input ends the task without a final status: a panic of the caller's code, an
end of its runtime, or a time to become ready that leads past the last instant. -/
def strands (r : Runner T) (input : RunnerInput T) : Bool :=
  match input, r.stage with
  | .panic, _ | .dropped, _ => true
  | .polled, .established _ _ => decide (r.instantMax < r.now + r.options.readyWithin)
  | _, _ => false

/-- An answer strands no worker. -/
theorem strands_of_isAnswer {r : Runner T} {input : RunnerInput T}
    (hi : input.isAnswer = true) : r.strands input = false := by
  cases input <;> first | rfl | cases hi

/-- The task is over, and not because it has returned. -/
def Stranded (r : Runner T) : Prop :=
  r.stage = .panicked ∨ r.stage = .dropped

/-- A step that strands the task ends it without a return: a panic outside the guarded part, or its
drop. -/
theorem stranded_of_strands {r r' : Runner T} {input : RunnerInput T}
    (hs : r.strands input = true) (h : r.step input = some r') : r'.Stranded := by
  cases step_moves h with
  | dropped ha => exact .inr rfl
  | panic hp => exact .inl rfl
  | polled hp => simp [strands, hp] at hs
  | untilReady he hu =>
      simp only [strands, he, decide_eq_true_eq] at hs
      rw [untilReady, if_neg (Nat.not_le.mpr hs)]
      exact .inl rfl
  | failed hi => exact absurd hs (by rw [strands_of_isAnswer hi]; simp)
  | notReady hi => exact absurd hs (by rw [strands_of_isAnswer hi]; simp)
  | _ => cases hs

/-- The head of the loop does not strand. -/
theorem loopHead_not_stranded (r : Runner T) : ¬ r.loopHead.Stranded := by
  rw [loopHead]
  split_ifs <;> simp [Stranded, beginAttempt, goto]

/-- A failure does not strand. -/
theorem fail_not_stranded (r : Runner T) (failure : RunFailure) (stayed : Option Duration) :
    ¬ (r.fail failure stayed).Stranded :=
  loopHead_not_stranded _

/-- A stop does not strand. -/
theorem finish_not_stranded (r : Runner T) (run : Option ServiceRun) (how : ServiceStop) :
    ¬ (r.finish run how).Stranded := by
  rw [finish.eq_def]
  split
  · simp [Stranded, goto]
  · split <;> simp [Stranded, goto]

/-- Nothing else strands a worker. -/
theorem not_stranded_step {r r' : Runner T} {input : RunnerInput T} (hr : ¬ r.Stranded)
    (hs : r.strands input = false) (h : r.step input = some r') : ¬ r'.Stranded := by
  cases step_moves h with
  | clock now => exact hr
  | request how hn => exact hr
  | dropped ha => simp [strands] at hs
  | panic hp => simp [strands] at hs
  | polled hp => exact loopHead_not_stranded r
  | untilReady he hu =>
      simp only [strands, he, decide_eq_false_iff_not] at hs
      rw [untilReady, if_pos (Nat.not_lt.mp hs)]
      simp [Stranded, check, goto]
  | stopLaunching how hl => exact finish_not_stranded r _ how
  | stopWaiting how hw => exact finish_not_stranded r _ how
  | failed hi failure hf => exact fail_not_stranded r failure none
  | notReplaced outcome failure hl hv => exact fail_not_stranded _ failure none
  | launched launch hl =>
      simp only [Stranded, goto]
      split <;> simp
  | @ended run reason ending he ho =>
      cases reason with
      | notReady failure => exact fail_not_stranded _ failure none
      | exited exit readyAt stayed => exact fail_not_stranded _ _ _
      | stopping => simp [Stranded, Runner.ended, goto]
  | _ => simp [Stranded, goto, beginAttempt, check, establish, startKept]

/-- A task that is over has returned, unless it is stranded. -/
theorem isOver_iff {r : Runner T} :
    r.stage.isOver = true ↔ (∃ result, r.stage = .returned result) ∨ r.Stranded := by
  rw [Stranded]
  cases r.stage <;> simp [RunnerStage.isOver]

end Runner

/-! ### The supervisor of services -/

/-- The workers by name; `T` is what a ready run of any of them reports. -/
structure ServiceSupervisor (T : Type) where
  instantMax : Instant
  services : KeptName → Option (Runner T)

/-- What happens to a supervisor of services. -/
inductive ServiceCall (T : Type) where
  | start (name : KeptName) (options : ServiceOptions) (now : Instant)
  | run (name : KeptName) (input : RunnerInput T)

namespace ServiceSupervisor

/-- A supervisor without services. -/
def new (instantMax : Instant) : ServiceSupervisor T where
  instantMax := instantMax
  services := fun _ => none

/-- `start`: a name is refused while the state listed under it is not final. -/
def start (s : ServiceSupervisor T) (name : KeptName) (options : ServiceOptions)
    (now : Instant) : Option (ServiceSupervisor T) :=
  if (s.services name).any fun r => !r.summary.isFinal then none
  else some { s with
    services := Function.update s.services name (some (.new options s.instantMax now)) }

/-- One call, or one step of the worker with the name. -/
def step (s : ServiceSupervisor T) : ServiceCall T → Option (ServiceSupervisor T)
  | .start name options now => s.start name options now
  | .run name input =>
      (s.services name).bind fun r => (r.step input).map fun r' =>
        { s with services := Function.update s.services name (some r') }

/-- Whether the call strands no worker. -/
def spares (s : ServiceSupervisor T) : ServiceCall T → Bool
  | .start _ _ _ => true
  | .run name input => (s.services name).all fun r => !r.strands input

variable {s s' : ServiceSupervisor T} {name : KeptName}

/-- A property that new workers have and their steps keep, under the condition on the calls,
is one of all workers. -/
theorem invariant {cond : ServiceSupervisor T → ServiceCall T → Prop} {I : Runner T → Prop}
    {instantMax : Instant} (h : ReachesUnder step cond (new instantMax) s)
    (hnew : ∀ options instantMax now, I (.new options instantMax now))
    (hstep : ∀ s name r input r', cond s (.run name input) → s.services name = some r → I r →
      r.step input = some r' → I r')
    {r : Runner T} (hr : s.services name = some r) : I r := by
  have hall : ∀ name r, s.services name = some r → I r := by
    refine h.invariant (I := fun s => ∀ name r, s.services name = some r → I r)
      (by simp [new]) fun s call s' ih hc hs => ?_
    intro name' r' hr'
    cases call with
    | start name options now =>
        simp only [step, start] at hs
        split at hs
        · cases hs
        · obtain rfl := Option.some.inj hs
          by_cases hn : name' = name
          · subst hn
            simp only [Function.update_self, Option.some.injEq] at hr'
            exact hr' ▸ hnew options _ now
          · simp only [Function.update_of_ne hn] at hr'
            exact ih name' r' hr'
    | run name input =>
        obtain ⟨r, hr, hs⟩ := Option.bind_eq_some_iff.mp hs
        obtain ⟨r₁, hr₁, rfl⟩ := Option.map_eq_some_iff.mp hs
        by_cases hn : name' = name
        · subst hn
          simp only [Function.update_self, Option.some.injEq] at hr'
          exact hr' ▸ hstep s name' r input r₁ hc hr (ih name' r hr) hr₁
        · simp only [Function.update_of_ne hn] at hr'
          exact ih name' r' hr'
  exact hall name r hr

/-- **In every run, the runners have announced their status.** -/
theorem announced_of_reaches {cond : ServiceSupervisor T → ServiceCall T → Prop}
    {instantMax : Instant} (h : ReachesUnder step cond (new instantMax) s) {r : Runner T}
    (hr : s.services name = some r) : r.Announced :=
  invariant h (I := Runner.Announced) Runner.Announced.new
    (fun _ _ _ _ _ _ _ ha hs => ha.step hs) hr

/-- Whether a name is refused. -/
theorem start_eq_none_iff {options : ServiceOptions} {now : Instant} :
    s.start name options now = none ↔
      ∃ r, s.services name = some r ∧ r.summary.isFinal = false := by
  rw [start]
  split
  · next hn =>
      simp only [Option.any_eq_true_iff_get, Bool.not_eq_true'] at hn
      obtain ⟨hsome, hf⟩ := hn
      exact iff_of_true rfl ⟨_, (Option.some_get hsome).symm, hf⟩
  · next hn =>
      refine iff_of_false (by simp) ?_
      rintro ⟨r, hr, hf⟩
      exact hn (by simp [hr, hf])

/-- **A worker that is over frees its name**, in every run in which the caller's code does
not panic, no deadline lies past the last instant, and no runtime drops a worker: its status
and the state listed for it are final, and the name can be started again. -/
theorem ended_worker_frees_its_name {instantMax : Instant}
    (h : ReachesUnder step (fun s call => s.spares call = true)
      (new instantMax : ServiceSupervisor T) s)
    {r : Runner T} (hr : s.services name = some r) (ho : r.stage.isOver = true) :
    r.status.isFinal = true ∧ r.summary.isFinal = true ∧
      ∀ options now, s.start name options now ≠ none := by
  have ha : r.Announced := announced_of_reaches h hr
  have hn : ¬ r.Stranded := by
    refine invariant h (I := fun r => ¬ r.Stranded) (fun _ _ _ => by simp [Runner.Stranded,
      Runner.new]) (fun s name r input r' hc hr hi hs => ?_) hr
    exact Runner.not_stranded_step hi (by simpa [spares, hr] using hc) hs
  have hf : r.status.isFinal = true :=
    ha.final.mpr ((Runner.isOver_iff.mp ho).resolve_right hn)
  have hsum : r.summary.isFinal = true := by
    rw [ha.summary, ServiceStatus.isFinal_summary, hf]
  refine ⟨hf, hsum, fun options now hs => ?_⟩
  obtain ⟨r', hr', hf'⟩ := start_eq_none_iff.mp hs
  obtain rfl := Option.some.inj (hr.symm.trans hr')
  exact absurd hsum (by simp [hf'])

/-- The condition is exact: the step that does not meet it ends the worker and leaves its
name taken. -/
theorem unspared_worker_keeps_its_name {instantMax : Instant} {input : RunnerInput T}
    (h : Reaches step (new instantMax) s) (hs : s.step (.run name input) = some s')
    (hc : s.spares (.run name input) = false) :
    ∃ r, s'.services name = some r ∧ r.stage.isOver = true ∧ r.status.isFinal = false ∧
      ∀ options now, s'.start name options now = none := by
  obtain ⟨r, hr, hr'⟩ := Option.bind_eq_some_iff.mp hs
  obtain ⟨r', hstep, hs'⟩ := Option.map_eq_some_iff.mp hr'
  have hstr : r.strands input = true := by simpa [spares, hr] using hc
  have hst : r'.Stranded := Runner.stranded_of_strands hstr hstep
  have hs₁ : s'.services name = some r' := by
    rw [← hs']
    exact Function.update_self _ _ _
  have ha : r'.Announced := announced_of_reaches (h.next _ hs) hs₁
  have hf : r'.status.isFinal = false := by
    refine Bool.eq_false_iff.mpr fun hf => ?_
    obtain ⟨result, hres⟩ := ha.final.mp hf
    rcases hst with hst | hst <;> cases hst.symm.trans hres
  refine ⟨r', hs₁, Runner.isOver_iff.mpr (.inr hst), hf, fun options now => ?_⟩
  exact start_eq_none_iff.mpr ⟨r', hs₁, by rw [ha.summary, ServiceStatus.isFinal_summary, hf]⟩

/-- Options under which the first failure is the last. -/
def oneFailure : ServiceOptions :=
  { ServiceOptions.default with restart := RestartPolicy.default.withMaxFailures (some 0) }

/-- A service that has failed for good has freed its name. -/
theorem failed_service_frees_its_name : ∃ (s : ServiceSupervisor Unit) (r : Runner Unit),
    s.services "db" = some r ∧ r.stage.isOver = true ∧ r.status.isFinal = true ∧
      r.summary.isFinal = true ∧ ∀ options now, s.start "db" options now ≠ none := by
  obtain ⟨s, h, hp⟩ := ReachesUnder.exists_of_follow (step (T := Unit)) spares (new 100)
    [.start "db" oneFailure 0, .run "db" .polled, .run "db" (.launched (.error "no binary"))]
    (fun s => (s.services "db").any fun r => r.stage.isOver) (by decide +kernel)
  obtain ⟨r, hr, ho⟩ := (Option.any_eq_true _ _).mp hp
  exact ⟨s, r, hr, ho, ended_worker_frees_its_name h hr ho⟩

/-- Whether the name has a worker that is over, and is refused. -/
def refuses (s : ServiceSupervisor T) (name : KeptName) : Bool :=
  ((s.services name).any fun r => r.stage.isOver && !r.status.isFinal) &&
    (s.start name .default 0).isNone

/-- Whether the worker goes on by itself: no panic of the caller's code, and no drop. -/
def undisturbed (_ : ServiceSupervisor T) : ServiceCall T → Bool
  | .run _ .panic | .run _ .dropped => false
  | _ => true

/-- Options that let a run take as long as a duration can say. -/
def patient : ServiceOptions :=
  { ServiceOptions.default with readyWithin := DURATION_MAX }

/-- A service whose `launch` panics keeps its name. So does one that may take as long to
become ready as a duration can say, on a platform that counts as many seconds. -/
theorem panicked_service_keeps_its_name :
    (∃ s : ServiceSupervisor Unit, Reaches step (new DURATION_MAX) s ∧
      s.refuses "db" = true) ∧
    ∃ s : ServiceSupervisor Unit,
      ReachesUnder step (fun s call => s.undisturbed call = true) (new DURATION_MAX) s ∧
      s.refuses "db" = true := by
  refine ⟨?_, ?_⟩
  · exact Reaches.exists_of_follow step (new DURATION_MAX)
      [.start "db" .default 0, .run "db" .polled, .run "db" .panic]
      (fun s => s.refuses "db") (by decide +kernel)
  · exact ReachesUnder.exists_of_follow step undisturbed (new DURATION_MAX)
      [.start "db" patient 5, .run "db" .polled,
        .run "db" (.launched (.ok ⟨.new [], none, none⟩)), .run "db" (.created (.ok 1)),
        .run "db" (.spawned (.ok (1, some 7, none))), .run "db" .polled]
      (fun s => s.refuses "db") (by decide +kernel)

end ServiceSupervisor

end Shepherd
