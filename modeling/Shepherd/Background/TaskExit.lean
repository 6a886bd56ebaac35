import Shepherd.Background.TaskRuns
import Shepherd.Supervisor.WaiterUse

/-!
# The Exit a Background Task Reports

A cleanup is verified from the exit that the monitor recorded, while the worker reads the
exit from a waiter, once, after the cleanup. The monitor signals the waiters some time after
it recorded the exit, so the two need not agree: the run `unseenTask` is cleaned up and
reports no exit. And what the waiters show first may be a failed reap that the cleanup
recovered from: `reapFailedTask` is cleaned up and reports an unverified exit.

What holds is `background_task_exit`. The receiver that the spawn handed over is awaited from
then on (`Awaited`), so a worker that looks after an exit was signalled has one.
-/

open Std

namespace Shepherd

open Conc

variable {t : Tid} {p : ProcessId}

namespace TaskState

variable {s s' s₀ : TaskState}

/-- The receiver that the spawn handed over is awaited. -/
def Awaited (cfg : Config Res Ret Inner) (sent : Option SpawnObservation) : Prop :=
  ∀ o, sent = some o → ∃ ch, o.exit = .receiver ch ∧ ch.pid = o.pid ∧ Awaits cfg.shared o.pid ch

/-- The worker looked for the exit after the cleanup, and did not miss a signalled one. -/
def LookedAfter (s : TaskState) (cleanup : CleanupResult) : Prop :=
  ∃ looked t, s.lookedAt = some looked ∧ looked <:+ s.cfg.shared.history ∧
    s.finish = some t ∧ CleanupOver t s.scope looked cleanup ∧
    ∀ a, s.observation = some a → Signalled looked a.pid → s.exit ≠ none

/-- What is known of the look, place by place. -/
def Looked (s : TaskState) : WorkerAt → Prop
  | .closing e | .collecting e _ | .checking e _ | .polling e _ | .freezing e _
  | .publishing e _ => s.LookedAfter e.cleanup
  | .done => ∃ r l, s.statuses = .finished r :: l ∧ r.exit = s.exit ∧ s.LookedAfter r.cleanup
  | _ => True

/-- **The invariant of the exit.** -/
structure ExitInv (s : TaskState) : Prop where
  task : s.TaskInv
  awaited : Awaited s.cfg s.sent
  exit : ∀ e, s.exit = some e →
    ∃ a, s.observation = some a ∧ Happened s.cfg.shared.history (.exitSignalled a.pid e)
  looked : s.Looked s.worker

/-! ### The receiver -/

/-- Only the hand-over changes what was handed over. -/
theorem transfer_cases (o : Op) (a : Answer) (s : Inner) (x : Option SpawnObservation) :
    transfer o a s x = x ∨ ∃ p output, o = .keepOutput p true ∧ a = .output output ∧
      transfer o a s x = some ⟨p, output, (s.waiters.wait p).1⟩ := by
  simp only [transfer]
  split
  · next p output => exact .inr ⟨p, output, rfl, rfl, rfl⟩
  · exact .inl rfl

/-- What was handed over stays awaited. -/
theorem Awaited.kept {cfg cfg' : Config Res Ret Inner} {sent : Option SpawnObservation}
    {l : Label Answer Call} (h : Awaited cfg sent) (hs : supervisor.step cfg l = some cfg') :
    Awaited cfg' sent := by
  intro o ho
  obtain ⟨ch, hexit, hpid, haw⟩ := h o ho
  exact ⟨ch, hexit, hpid, haw.step hs⟩

/-- **The hand-over** is awaited from the start: nothing was signalled yet. -/
theorem Awaited.step {cfg cfg' : Config Res Ret Inner} {sent : Option SpawnObservation}
    {l : Label Answer Call} {c : ProcessScopeId} (h : Awaited cfg sent) (hr : Reachable cfg)
    (hw : SpawnWatched t c cfg sent) (hs : supervisor.step cfg l = some cfg') :
    Awaited cfg' (cfg.record transfer t l sent) := by
  have hkept := h.kept hs
  cases supervisor.step_shared hs with
  | drop => exact hkept
  | start => exact hkept
  | @run t' a o k u r s' htask hexec hsh =>
      by_cases hne : t' = t
      · subst hne
        have hrec : cfg.record transfer t' (.run t' a : Label Answer Call) sent =
            transfer o a cfg.shared sent := by
          simp only [Config.record, htask, if_true]
        rw [hrec]
        rcases transfer_cases o a cfg.shared sent with heq | ⟨p, output, rfl, rfl, heq⟩
        · rw [heq]
          exact hkept
        · have hfresh : ¬ Signalled cfg.shared.history p :=
            (hw.holds (good_of_reachable hr) htask).2.fresh
          obtain ⟨ch, hfut, hpid, haw⟩ := awaits_of_wait (inv_of_reachable hr) hfresh
          obtain rfl : s' = cfg.shared.keepOutput p output true :=
            (Prod.mk.inj (Option.some.inj hexec)).2.symm
          have haw' : Awaits (cfg.shared.keepOutput p output true) p ch := haw _ rfl rfl
          rw [heq]
          intro x hx
          obtain rfl := Option.some.inj hx
          refine ⟨ch, hfut, hpid, ?_⟩
          rcases hsh with ⟨_, _, -, hsh, -⟩ | ⟨v, -, hsh, -⟩
          · exact hsh ▸ haw'
          · rw [hsh]
            exact haw'.calls (.log rfl rfl rfl)
      · simp only [Config.record, if_neg hne]
        exact hkept

/-- The steps beside the worker leave the exit alone, and the receiver awaited. -/
theorem step_beside {a : TaskAction} (hc : s.Calls) (ha : ∀ effect, a ≠ .worker effect)
    (hs : s.step a = some s') : Beside s s' ∧ s'.exit = s.exit ∧ s'.lookedAt = s.lookedAt ∧
      (Awaited s.cfg s.sent → Awaited s'.cfg s'.sent) := by
  cases a with
  | supervisor l =>
      have hb := beside_supervise hc hs
      rw [TaskState.step, supervise, Option.ite_none_right_eq_some] at hs
      obtain ⟨-, hs⟩ := hs
      obtain ⟨cfg, hstep, rfl⟩ := Option.map_eq_some_iff.mp hs
      refine ⟨hb, rfl, rfl, fun h => ?_⟩
      cases hspawn : s.spawn with
      | none => exact h.kept hstep
      | some t => exact h.step hc.reachable (hc.spawn t hspawn).2 hstep
  | finishPanics =>
      have hb := (beside_panicFinish hc hs).1
      rw [TaskState.step, panicFinish] at hs
      split at hs
      · cases hs
      · split at hs
        · cases hs
        · obtain ⟨cfg, hstep, rfl⟩ := Option.map_eq_some_iff.mp hs
          exact ⟨hb, rfl, rfl, fun h => h.kept hstep⟩
  | worker effect => exact absurd rfl (ha effect)
  | tick duration =>
      obtain rfl := Option.some.inj hs
      exact ⟨beside_frame hc (Nat.le_add_right _ _) rfl fun _ => rfl, rfl, rfl, id⟩
  | cancel | dropWait _ =>
      obtain rfl := Option.some.inj hs
      exact ⟨beside_frame hc le_rfl rfl fun _ => rfl, rfl, rfl, id⟩
  | observe snapshot =>
      simp only [TaskState.step] at hs
      split at hs <;> obtain rfl := Option.some.inj hs <;>
        exact ⟨beside_frame hc le_rfl rfl fun _ => rfl, rfl, rfl, id⟩
  | observePanics =>
      simp only [TaskState.step, Option.ite_none_right_eq_some] at hs
      obtain ⟨hsource, hs⟩ := hs
      obtain rfl := Option.some.inj hs
      refine ⟨beside_frame hc le_rfl rfl fun hn => ?_, rfl, rfl, id⟩
      rw [hsource] at hn
      cases hn
  | wait w =>
      simp only [TaskState.step, Option.ite_none_right_eq_some] at hs
      obtain rfl := Option.some.inj hs.2
      exact ⟨beside_frame hc le_rfl rfl fun _ => rfl, rfl, rfl, id⟩
  | runWait w =>
      obtain ⟨_, -, hs⟩ := Option.bind_eq_some_iff.mp hs
      obtain ⟨_, -, rfl⟩ := Option.map_eq_some_iff.mp hs
      exact ⟨beside_frame hc le_rfl rfl fun _ => rfl, rfl, rfl, id⟩

/-- What the worker looked at stays so while others act. -/
theorem LookedAfter.beside {cleanup : CleanupResult} (hb : Beside s s')
    (hexit : s'.exit = s.exit) (hlooked : s'.lookedAt = s.lookedAt) (h : s.LookedAfter cleanup) :
    s'.LookedAfter cleanup := by
  obtain ⟨looked, t, hl, hsuf, hf, ho, hsaw⟩ := h
  refine ⟨looked, t, hlooked.trans hl, hsuf.trans hb.history, hb.finish.trans hf, ?_, ?_⟩
  · rwa [hb.scope]
  · rw [hb.observation, hexit]
    exact hsaw

/-- Only a step of the worker touches the exit it has seen. -/
theorem ExitInv.beside {a : TaskAction} (hi : s.ExitInv) (ha : ∀ effect, a ≠ .worker effect)
    (hs : s.step a = some s') : s'.ExitInv := by
  obtain ⟨hb, hexit, hlooked, haw⟩ := step_beside hi.task.calls ha hs
  refine ⟨hi.task.beside ha hs, haw hi.awaited, fun e he => ?_, ?_⟩
  · obtain ⟨a, ho, hsig⟩ := hi.exit e (hexit ▸ he)
    exact ⟨a, hb.observation.trans ho, hsig.mono hb.history⟩
  · have h := hi.looked
    have hafter : ∀ {cleanup}, s.LookedAfter cleanup → s'.LookedAfter cleanup :=
      fun h => h.beside hb hexit hlooked
    rw [hb.worker]
    cases hw : s.worker <;> rw [hw] at h
    case closing | collecting | checking | polling | freezing | publishing => exact hafter h
    case done =>
      obtain ⟨r, l, hs, hr, hl⟩ := h
      exact ⟨r, l, hb.statuses.trans hs, hr.trans hexit.symm, hafter hl⟩
    all_goals trivial

/-! ### Steps of the worker -/

/-- An exit that a future of the task shows was signalled. -/
theorem ExitInv.shown {a : SpawnObservation} {e : ProcessExit} (hi : s.ExitInv)
    (ha : s.IsSent a) (he : s.cfg.shared.waiters.poll a.exit = some e) :
    Happened s.cfg.shared.history (.exitSignalled a.pid e) := by
  obtain ⟨o, ho, hpid, hexit⟩ := ha
  obtain ⟨ch, hch, hchp, -⟩ := hi.awaited o ho
  rw [hexit, hch] at he
  rw [hpid, ← hchp]
  exact (inv_of_reachable hi.task.calls.reachable).signals.cell he

/-- **A worker that looks after a signal finds an exit.** -/
theorem ExitInv.looks {a : SpawnObservation} (hi : s.ExitInv) (ha : s.IsSent a)
    (hsig : Signalled s.cfg.shared.history a.pid) :
    s.cfg.shared.waiters.poll a.exit ≠ none := by
  obtain ⟨o, ho, hpid, hexit⟩ := ha
  obtain ⟨ch, hch, -, haw⟩ := hi.awaited o ho
  rw [hexit, hch]
  exact Option.isSome_iff_ne_none.mp (haw.signalled (hpid ▸ hsig))

/-- The observation of a task was handed over. -/
theorem TaskInv.isSent {a : SpawnObservation} (h : s.Lived s.statuses)
    (ha : s.observation = some a) : s.IsSent a := by
  rcases h with ⟨-, ho, -⟩ | ⟨a', _, -, ho, hsent, -⟩
  · rw [ha] at ho
    cases ho
  · obtain rfl := Option.some.inj (ha.symm.trans ho)
    exact hsent

/-- A step that finds no exit. -/
theorem ExitInv.goes (hi : s.ExitInv) (ht : s'.TaskInv) (hcfg : s'.cfg = s.cfg)
    (hsent : s'.sent = s.sent) (hexit : s'.exit = s.exit)
    (hobs : s'.observation = s.observation) (hl : s'.Looked s'.worker) : s'.ExitInv := by
  refine ⟨ht, ?_, fun e he => ?_, hl⟩
  · rw [hcfg, hsent]
    exact hi.awaited
  · rw [hcfg, hobs]
    exact hi.exit e (hexit ▸ he)

/-- A step that starts a call. -/
theorem ExitInv.calls {call : Call} {cfg : Config Res Ret Inner} (hi : s.ExitInv)
    (hc : s.call call = some cfg) (ht : s'.TaskInv) (hcfg : s'.cfg = cfg)
    (hsent : s'.sent = s.sent) (hexit : s'.exit = s.exit)
    (hobs : s'.observation = s.observation) (hl : s'.Looked s'.worker) : s'.ExitInv := by
  refine ⟨ht, ?_, fun e he => ?_, hl⟩
  · rw [hcfg, hsent]
    exact hi.awaited.kept hc
  · obtain ⟨a, ho, hsig⟩ := hi.exit e (hexit ▸ he)
    rw [hcfg, hobs]
    exact ⟨a, ho, hsig.mono (step_suffix hc)⟩

/-- **The steps of the worker.** Where it looks for the exit for the first time, it has seen none
before. -/
theorem ExitInv.work {effect : Effect} (hi : s.ExitInv) (hs : s.work effect = some s') :
    s'.ExitInv := by
  have ht := hi.task.work hs
  have hp := hi.task.placed
  have hl := hi.looked
  cases hw : s.worker <;> rw [hw] at hp hl <;>
    cases effect <;> simp only [TaskState.work, hw, reduceCtorEq] at hs
  case idle.go | timing.go =>
    split at hs <;> obtain rfl := Option.some.inj hs <;> exact hi.goes ht rfl rfl rfl rfl trivial
  case timing.panic | arming.go | arming.panic | completing.elapsed | completing.panic
      | naming.go | looking.go | running.elapsed | running.panic =>
    obtain rfl := Option.some.inj hs
    exact hi.goes ht rfl rfl rfl rfl trivial
  case spawning.go | finishing.go =>
    obtain ⟨cfg, hcall, rfl⟩ := Option.map_eq_some_iff.mp hs
    exact hi.calls hcall ht rfl rfl rfl rfl trivial
  case completing.completed =>
    rw [complete] at hs
    split at hs
    · split at hs <;> obtain rfl := Option.some.inj hs <;> exact hi.goes ht rfl rfl rfl rfl trivial
    · obtain rfl := Option.some.inj hs
      exact hi.goes ht rfl rfl rfl rfl trivial
    · cases hs
  case completing.stopped | running.stopped =>
    split at hs
    · obtain rfl := Option.some.inj hs
      exact hi.goes ht rfl rfl rfl rfl trivial
    · cases hs
  case installing.go a e =>
    rw [hp.2.2.1, if_neg Bool.false_ne_true] at hs
    obtain rfl := Option.some.inj hs
    exact hi.goes ht rfl rfl rfl rfl trivial
  case announcing.go a osPid e =>
    have hnone : s.exit = none := by
      cases he : s.exit with
      | none => rfl
      | some x =>
          obtain ⟨a', ho, -⟩ := hi.exit x he
          rw [hp.1.2.1] at ho
          cases ho
    cases e <;> obtain rfl := Option.some.inj hs <;>
      exact ⟨ht, hi.awaited, fun x hx => (by cases hnone.symm.trans hx), trivial⟩
  case running.ended =>
    obtain ⟨exit, he, rfl⟩ := Option.map_eq_some_iff.mp hs
    obtain ⟨a, ho, he⟩ := Option.bind_eq_some_iff.mp he
    refine ⟨ht, hi.awaited, fun x hx => ⟨a, ho, ?_⟩, trivial⟩
    obtain rfl := Option.some.inj hx
    exact hi.shown (TaskInv.isSent (.inr hp) ho) he
  case cleaning.go cause =>
    obtain ⟨cleanup, -, rfl⟩ := Option.map_eq_some_iff.mp hs
    exact hi.goes ht rfl rfl rfl rfl trivial
  case recovering.go e =>
    split at hs <;> obtain rfl := Option.some.inj hs <;> exact hi.goes ht rfl rfl rfl rfl trivial
  case observing.go e =>
    obtain ⟨hlived, ⟨t, hf, ho⟩, -⟩ := hp
    obtain rfl := Option.some.inj hs
    refine ⟨ht, hi.awaited, fun x hx => ?_, s.cfg.shared.history, t, rfl, List.suffix_refl _, hf,
      ho, fun a ha hsig hn => ?_⟩
    · rcases (Option.orElse_eq_some _ _ _).mp hx with hx | ⟨-, hx⟩
      · exact hi.exit x hx
      · obtain ⟨a, ha, hx⟩ := Option.bind_eq_some_iff.mp hx
        exact ⟨a, ha, hi.shown (TaskInv.isSent hlived ha) hx⟩
    · obtain ⟨-, hn⟩ := (Option.orElse_eq_none _ _).mp hn
      have ha' : s.observation = some a := ha
      rw [ha', Option.bind_some] at hn
      exact hi.looks (TaskInv.isSent hlived ha) hsig hn
  case closing.go | closing.panic | polling.elapsed | polling.slept | polling.panic =>
    obtain rfl := Option.some.inj hs
    exact hi.goes ht rfl rfl rfl rfl hl
  case collecting.go e again =>
    split at hs
    · cases hs
    · obtain rfl := Option.some.inj hs
      cases again <;> exact hi.goes ht rfl rfl rfl rfl hl
  case collecting.panic e again =>
    split at hs
    · obtain rfl := Option.some.inj hs
      exact hi.goes ht rfl rfl rfl rfl hl
    · cases hs
  case collecting.read e again snapshot =>
    split at hs
    · obtain rfl := Option.some.inj hs
      cases again <;> exact hi.goes ht rfl rfl rfl rfl hl
    · cases hs
  case checking.go e output =>
    obtain rfl := Option.some.inj hs
    refine hi.goes ht rfl rfl rfl rfl ?_
    cases hsource : s.output.source <;> exact hl
  case polling.go e output =>
    split at hs
    · obtain rfl := Option.some.inj hs
      exact hi.goes ht rfl rfl rfl rfl hl
    · cases hs
  case freezing.go e failed =>
    obtain rfl := Option.some.inj hs
    exact hi.goes ht rfl rfl rfl rfl hl
  case publishing.go e output =>
    obtain rfl := Option.some.inj hs
    exact hi.goes ht rfl rfl rfl rfl ⟨_, _, rfl, rfl, hl⟩

/-! ### Runs -/

/-- **The invariant of the exit holds in every state of a task.** -/
theorem exitInv_of_reaches {cfg : Config Res Ret Inner} {now : Instant} {spec : ProcessSpec}
    {options : BackgroundTaskOptions} (hr : Reachable cfg)
    (h₀ : TaskState.start cfg now spec options = some s₀) (h : Reaches step s₀ s) :
    s.ExitInv := by
  refine h.invariant ?_ fun s a s' hi hs => ?_
  · have ht := taskInv_of_reaches hr h₀ .initial
    rw [TaskState.start] at h₀
    split at h₀
    case h_1 => cases h₀
    split at h₀
    case h_2 => cases h₀
    obtain rfl := Option.some.inj h₀
    refine ⟨ht, fun o ho => ?_, fun e he => ?_, trivial⟩
    · cases ho
    · cases he
  · by_cases ha : ∃ effect, a = .worker effect
    · obtain ⟨effect, rfl⟩ := ha
      exact hi.work hs
    · exact hi.beside (fun effect heq => ha ⟨effect, heq⟩) hs

/-- A verified cleanup rests on evidence for the attached process. -/
theorem TaskInv.evidence_of_verified {r : BackgroundTaskResult} (hi : s.TaskInv)
    (hm : .finished r ∈ s.statuses) (hv : r.cleanupVerified = true) (hp : r.process = some p) :
    HasEvidence s.cfg.shared.history p := by
  obtain ⟨t, os, -, hat⟩ := (hi.process_iff hm p).mp hp
  obtain ⟨-, l, -, -, ⟨t', -, ho⟩, -, -⟩ := hi.published hm
  have hl := (inv_of_reachable hi.calls.reachable).lawful
  cases hcl : r.cleanup with
  | error e => simp [BackgroundTaskResult.cleanupVerified, hcl] at hv
  | ok report =>
      have hall : report.allVerified = true := by
        simpa [BackgroundTaskResult.cleanupVerified, hcl] using hv
      rw [hcl] at ho
      cases ho with
      | panicked _ _ heq => cases heq
      | returned _ hret =>
          obtain ⟨_, older, hsuf, hj⟩ := hl.of_happened ⟨t', hret⟩
          have hc : Happened older (.committed s.scope report) := (hj.1 report rfl).2 hall
          exact hl.evidence_of_committed ⟨report, hc.mono hsuf⟩ ⟨t, hat⟩

/-- What the result of a task says of the exit of the process. -/
structure ReportsExit (s : TaskState) (r : BackgroundTaskResult) (p : ProcessId) : Prop where
  /-- A verified exit of the process is recorded. -/
  evidence : HasEvidence s.cfg.shared.history p
  /-- A reported exit is one of the process that was signalled. It is verified, unless the
  monitor recorded an unverified one. -/
  signalled : ∀ e, r.exit = some e → e.pid = p ∧
    Happened s.cfg.shared.history (.exitSignalled p e) ∧
    (e.Verified ∨ ∃ c x, Happened s.cfg.shared.history (.reaped c p x) ∧ ¬ x.Verified)
  /-- The worker looked after the cleanup, and reports an exit if one was signalled by then. -/
  looked : ∃ looked t, s.lookedAt = some looked ∧ looked <:+ s.cfg.shared.history ∧
    s.finish = some t ∧ CleanupOver t s.scope looked r.cleanup ∧
    (Signalled looked p → r.exit ≠ none)

/-- A signalled exit is verified, unless the monitor recorded an unverified one. -/
theorem verified_or_reaped {h : History} {e : ProcessExit} (hl : Lawful h)
    (hs : Happened h (.exitSignalled p e)) :
    e.Verified ∨ ∃ c x, Happened h (.reaped c p x) ∧ ¬ x.Verified := by
  obtain ⟨_, older, hsuf, -, hiff, c, x, hr⟩ := hl.of_happened hs
  by_cases hx : x.Verified
  · exact .inl (hiff.mpr ⟨c, x, hx, .inl hr⟩)
  · exact .inr ⟨c, x, hr.mono hsuf, hx⟩

/-- **The exit of a cleaned-up task.** -/
theorem background_task_exit {cfg : Config Res Ret Inner} {now : Instant} {spec : ProcessSpec}
    {options : BackgroundTaskOptions} (hr : Reachable cfg)
    (h₀ : TaskState.start cfg now spec options = some s₀) (h : Reaches step s₀ s)
    (r : BackgroundTaskResult) (hm : .finished r ∈ s.statuses)
    (hv : r.cleanupVerified = true) (p : ProcessId) (hp : r.process = some p) :
    s.ReportsExit r p := by
  have hi := exitInv_of_reaches hr h₀ h
  have hlawful := (inv_of_reachable hi.task.calls.reachable).lawful
  obtain ⟨hd, l, hst, -, -, -, hproc⟩ := hi.task.published hm
  have hl := hi.looked
  rw [hd] at hl
  obtain ⟨r', _, hst', hexit, looked, t, hlook, hsuf, hf, ho, hsaw⟩ := hl
  obtain rfl : r = r' :=
    BackgroundTaskStatus.finished.inj (List.cons.inj (hst.symm.trans hst')).1
  obtain ⟨a, ha, rfl⟩ := Option.map_eq_some_iff.mp (hproc.symm.trans hp)
  refine ⟨hi.task.evidence_of_verified hm hv hp, fun e he => ?_, looked, t, hlook, hsuf, hf, ho,
    fun hsig => hexit ▸ hsaw a ha hsig⟩
  obtain ⟨a', ha', hsig⟩ := hi.exit e (hexit ▸ he)
  obtain rfl := Option.some.inj (ha.symm.trans ha')
  exact ⟨hlawful.pid_of_signalled hsig, hsig, verified_or_reaped hlawful hsig⟩

/-! ### Runs that miss the exit -/

/-- The monitor records the exit, and has not signalled it when the task is cancelled. -/
def unseenTask : List TaskAction :=
  supervised (steps 2 1 ++ [.run 2 (.waited (some ⟨some 0, none, false⟩))] ++ steps 2 1) ++
  [.cancel] ++ worked [.stopped, .go]

/-- The monitor fails to reap the process, and signals that; the worker asks for the
cleanup. -/
def reapFailedTask : List TaskAction :=
  supervised (steps 2 1 ++ [.run 2 (.waited none)] ++ steps 2 6) ++ worked [.ended, .go]

/-- The cleanup recovers the exit, and commits the scope. -/
def recoverTask : List TaskAction :=
  supervised (steps 3 8 ++ steps 4 5 ++ [.run 4 (.waited (some ⟨some 0, none, false⟩))] ++
    steps 4 4 ++ [.run 3 (.joined 4)] ++ steps 3 1 ++
    [.run 3 (.cleaned (.ok ())), .run 3 (.order [(1, .gracefulSuccess)]),
      .run 3 (.order [(1, .gracefulSuccess)])] ++ steps 3 13)

/-- The result of a settled task. -/
def published (s : TaskState) : Option BackgroundTaskResult :=
  match s.statuses with
  | .finished r :: _ => some r
  | _ => none

/-- The run from a new task is a run that publishes a result with this predicate. -/
def publishes (run : List TaskAction) (P : BackgroundTaskResult → Bool) : Bool :=
  freshTask.any fun s₀ => (follow step s₀ run).any fun s => (published s).any P

/-- A schedule that publishes such a result gives a run that does. -/
theorem exists_published {run : List TaskAction} {P : BackgroundTaskResult → Bool}
    (h : publishes run P = true) : ∃ s₀ s r, freshTask = some s₀ ∧ Reaches step s₀ s ∧
      .finished r ∈ s.statuses ∧ P r = true := by
  obtain ⟨s₀, h₀, h⟩ := (Option.any_eq_true _ _).mp h
  obtain ⟨s, hf, h⟩ := (Option.any_eq_true _ _).mp h
  obtain ⟨r, hr, hP⟩ := (Option.any_eq_true _ _).mp h
  refine ⟨s₀, s, r, h₀, .of_follow hf, ?_, hP⟩
  rw [published] at hr
  split at hr
  · next hs =>
      obtain rfl := Option.some.inj hr
      exact hs ▸ List.mem_cons_self
  · cases hr

/-- The result is cleaned up, and its process is the first one. -/
def cleanedUp (r : BackgroundTaskResult) : Bool :=
  r.cleanupVerified && r.process == some 1

set_option maxRecDepth 10000 in
/-- The schedule of a process that exits in time: its exit is in the result. -/
theorem exitTask_reports : publishes (spawnTask ++ exitTask ++ cleanTask ++ publishTask)
    (fun r => cleanedUp r && r.exit.isSome) = true := by
  decide +kernel

/-- A process that was seen to exit is reported with this exit. -/
theorem exited_task_reports_exit : ∃ s₀ s r, freshTask = some s₀ ∧ Reaches step s₀ s ∧
    .finished r ∈ s.statuses ∧ cleanedUp r = true ∧ s.ReportsExit r 1 := by
  obtain ⟨s₀, s, r, h₀, h, hm, hP⟩ := exists_published exitTask_reports
  obtain ⟨hc, -⟩ := Bool.and_eq_true_iff.mp hP
  obtain ⟨hv, hp⟩ := Bool.and_eq_true_iff.mp hc
  exact ⟨s₀, s, r, h₀, h, hm, hc, background_task_exit .initial h₀ h r hm hv 1 (eq_of_beq hp)⟩

set_option maxRecDepth 10000 in
/-- The schedule of a process whose exit is dispatched too late: the result has none. -/
theorem unseenTask_misses : publishes (spawnTask ++ unseenTask ++ cleanTask ++ publishTask)
    (fun r => cleanedUp r && r.exit.isNone) = true := by
  decide +kernel

set_option maxRecDepth 10000 in
/-- The schedule of a process that cannot be reaped: the result has its unverified exit. -/
theorem reapFailedTask_reports :
    publishes (spawnTask ++ reapFailedTask ++ recoverTask ++ publishTask)
      (fun r => cleanedUp r && r.exit.any fun e => !e.outcome.isVerified) = true := by
  decide +kernel

/-- A task that is cleaned up and reports no exit, and one that reports an unverified one. -/
theorem cleaned_up_task_misses_exit :
    (∃ s₀ s r, freshTask = some s₀ ∧ Reaches step s₀ s ∧ .finished r ∈ s.statuses ∧
      r.cleanupVerified = true ∧ r.process = some 1 ∧ r.exit = none) ∧
    ∃ s₀ s r, freshTask = some s₀ ∧ Reaches step s₀ s ∧ .finished r ∈ s.statuses ∧
      r.cleanupVerified = true ∧ r.process = some 1 ∧ ∃ e, r.exit = some e ∧ ¬ e.Verified := by
  refine ⟨?_, ?_⟩
  · obtain ⟨s₀, s, r, h₀, h, hm, hP⟩ := exists_published unseenTask_misses
    obtain ⟨hc, he⟩ := Bool.and_eq_true_iff.mp hP
    obtain ⟨hv, hp⟩ := Bool.and_eq_true_iff.mp hc
    exact ⟨s₀, s, r, h₀, h, hm, hv, eq_of_beq hp, Option.isNone_iff_eq_none.mp he⟩
  · obtain ⟨s₀, s, r, h₀, h, hm, hP⟩ := exists_published reapFailedTask_reports
    obtain ⟨hc, he⟩ := Bool.and_eq_true_iff.mp hP
    obtain ⟨hv, hp⟩ := Bool.and_eq_true_iff.mp hc
    obtain ⟨e, he, hn⟩ := (Option.any_eq_true _ _).mp he
    refine ⟨s₀, s, r, h₀, h, hm, hv, eq_of_beq hp, e, he, fun hver => ?_⟩
    rw [hver] at hn
    cases hn

end TaskState

end Shepherd
