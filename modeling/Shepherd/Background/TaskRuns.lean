import Shepherd.Background.TaskTrack

/-!
# Background Tasks Settle Once

What holds in every state of a background task, whatever the supervisor, the clock, the
capture and the observers do.

* `Placed` — what the fields of the task hold, place by place of its worker.
* `Timed` — a task that was cancelled, or whose time had run out, when its worker first ran
  starts no spawn.
* `Calls` — its two supervisor calls keep to their watches.
* `Waiting` — what a call of `wait` has seen.

Together they are the invariant `TaskInv`. A step of the worker is checked place by place
(`TaskInv.work`); every other step leaves the worker's fields alone (`Beside`). The results
are read off the invariant: the task settles once, with the process its spawn attached
(`background_task_settles_once`).
-/

open Std

namespace Shepherd

open Conc

variable {t : Tid} {c : ProcessScopeId} {p : ProcessId} {os : OsIdentity} {e : Ending}
  {h : History}

namespace TaskState

variable {s s' s₀ : TaskState} {l : List BackgroundTaskStatus}

/-! ### What the fields hold -/

/-- Nothing was taken over. -/
def Unattached (s : TaskState) (l : List BackgroundTaskStatus) : Prop :=
  s.taken = false ∧ s.observation = none ∧ s.output.source = false ∧ s.poisoned = false ∧
    l = [.starting]

/-- The observation is the one that the spawn handed over, up to the capture. -/
def IsSent (s : TaskState) (a : SpawnObservation) : Prop :=
  ∃ o, s.sent = some o ∧ a.pid = o.pid ∧ a.exit = o.exit

/-- The observation is being taken over. -/
def Taking (s : TaskState) (a : SpawnObservation) : Prop :=
  s.taken = true ∧ s.observation = none ∧ s.IsSent a ∧ s.statuses = [.starting]

/-- The observation was taken over. -/
def Attached (s : TaskState) (l : List BackgroundTaskStatus) : Prop :=
  ∃ a osPid, s.taken = true ∧ s.observation = some a ∧ s.IsSent a ∧
    l = [.running a.pid osPid, .starting]

/-- The task has lived through these statuses. -/
def Lived (s : TaskState) (l : List BackgroundTaskStatus) : Prop :=
  s.Unattached l ∨ s.Attached l

/-- The cleanup is over, with this result. -/
def Ended (s : TaskState) (cleanup : CleanupResult) : Prop :=
  ∃ t, s.finish = some t ∧ CleanupOver t s.scope s.cfg.shared.history cleanup

/-- Without an observation there is no attached process. -/
def Recovered (s : TaskState) : Prop :=
  s.observation = none → ∀ t, s.spawn = some t → AttachedNone t s.cfg.shared.history

/-- The task was not cancelled and had time left when its worker first ran. -/
def InTime (s : TaskState) : Prop :=
  ∃ now, s.firstRan = some (false, now) ∧ s.options.timeout - (now - s.admittedAt) ≠ 0

/-- What is known at a place of the worker. -/
def Placed (s : TaskState) : WorkerAt → Prop
  | .idle | .timing | .arming | .spawning => s.Unattached s.statuses ∧ s.spawn = none
  | .completing => s.Unattached s.statuses
  | .naming a e | .installing a e =>
      s.Taking a ∧ s.output.source = false ∧ s.poisoned = false ∧
        ∀ e', e = some e' → s.Ended e'.cleanup
  | .looking a e | .announcing a _ e => s.Taking a ∧ ∀ e', e = some e' → s.Ended e'.cleanup
  | .running => s.Attached s.statuses
  | .finishing _ => s.Lived s.statuses
  | .cleaning _ => s.Lived s.statuses ∧ s.finish ≠ none
  | .recovering e => s.Lived s.statuses ∧ s.Ended e.cleanup
  | .observing e | .closing e | .collecting e _ | .checking e _ | .polling e _
  | .freezing e _ | .publishing e _ => s.Lived s.statuses ∧ s.Ended e.cleanup ∧ s.Recovered
  | .done => ∃ r l, s.statuses = .finished r :: l ∧ s.Lived l ∧ s.Ended r.cleanup ∧
      s.Recovered ∧ r.process = s.observation.map fun a => a.pid

/-- What is known of the time. -/
def Timed (s : TaskState) : WorkerAt → Prop
  | .idle => s.firstRan = none ∧ s.spawn = none
  | .timing => (∃ now ≤ s.now, s.firstRan = some (false, now)) ∧ s.spawn = none
  | .arming | .spawning => s.InTime
  | _ => s.spawn = none ∨ s.InTime

/-- What is known of a call of `wait`. -/
def Waiting (s : TaskState) : WaitAt → Prop
  | .looking => True
  | .awaiting seen => seen ≤ s.statuses.length ∧ (s.worker = .done → seen ≠ s.statuses.length)
  | .returned r => s.worker = .done ∧ s.statuses.head? = some (.finished r)

/-- The two calls of the task keep to their watches. -/
structure Calls (s : TaskState) : Prop where
  reachable : Reachable s.cfg
  unsent : s.spawn = none → s.sent = none
  spawn : ∀ t, s.spawn = some t → t < s.cfg.shared.nextTask ∧ SpawnWatched t s.scope s.cfg s.sent
  finish : ∀ t, s.finish = some t → t < s.cfg.shared.nextTask ∧ FinishWatched t s.scope s.cfg

/-- **The invariant of a background task.** -/
structure TaskInv (s : TaskState) : Prop where
  calls : s.Calls
  placed : s.Placed s.worker
  timed : s.Timed s.worker
  waiting : ∀ w at', s.waits w = some at' → s.Waiting at'

/-! ### Steps beside the worker -/

/-- A step that leaves the fields of the worker alone. -/
structure Beside (s s' : TaskState) : Prop where
  worker : s'.worker = s.worker
  scope : s'.scope = s.scope
  taken : s'.taken = s.taken
  observation : s'.observation = s.observation
  statuses : s'.statuses = s.statuses
  spawn : s'.spawn = s.spawn
  finish : s'.finish = s.finish
  firstRan : s'.firstRan = s.firstRan
  options : s'.options = s.options
  admittedAt : s'.admittedAt = s.admittedAt
  source : s'.output.source = s.output.source
  poisoned : s.output.source = false → s'.poisoned = s.poisoned
  now : s.now ≤ s'.now
  sent : ∀ o, s.sent = some o → s'.sent = some o
  history : s.cfg.shared.history <:+ s'.cfg.shared.history
  calls : s'.Calls

namespace Beside

/-- An admission that was sent stays sent. -/
theorem isSent {a : SpawnObservation} (hb : Beside s s') (h : s.IsSent a) : s'.IsSent a := by
  obtain ⟨o, ho, hsame⟩ := h
  exact ⟨o, hb.sent o ho, hsame⟩

/-- What is said of an unattached task stays so. -/
theorem unattached (hb : Beside s s') (h : s.Unattached l) : s'.Unattached l := by
  obtain ⟨ht, ho, hs, hp, hl⟩ := h
  refine ⟨hb.taken.trans ht, hb.observation.trans ho, hb.source.trans hs, ?_, hl⟩
  exact (hb.poisoned hs).trans hp

/-- An admission that is being taken stays so. -/
theorem taking {a : SpawnObservation} (hb : Beside s s') (h : s.Taking a) : s'.Taking a := by
  obtain ⟨ht, ho, hs, hl⟩ := h
  exact ⟨hb.taken.trans ht, hb.observation.trans ho, hb.isSent hs, hb.statuses.trans hl⟩

/-- What is said of an attached task stays so. -/
theorem attached (hb : Beside s s') (h : s.Attached l) : s'.Attached l := by
  obtain ⟨a, osPid, ht, ho, hs, hl⟩ := h
  exact ⟨a, osPid, hb.taken.trans ht, hb.observation.trans ho, hb.isSent hs, hl⟩

/-- What is said of a task that lives stays so. -/
theorem lived (hb : Beside s s') (h : s.Lived l) : s'.Lived l :=
  h.imp hb.unattached hb.attached

/-- A cleanup that ended has ended ever after. -/
theorem ended {cleanup : CleanupResult} (hb : Beside s s') (h : s.Ended cleanup) :
    s'.Ended cleanup := by
  obtain ⟨t, ht, ho⟩ := h
  exact ⟨t, hb.finish.trans ht, by rw [hb.scope]; exact ho.mono hb.history⟩

/-- A task that was in time was so ever after. -/
theorem inTime (hb : Beside s s') (h : s.InTime) : s'.InTime := by
  obtain ⟨now, hf, ht⟩ := h
  exact ⟨now, hb.firstRan.trans hf, by rw [hb.options, hb.admittedAt]; exact ht⟩

/-- Nothing is attached once the scope drained. -/
theorem recovered {cleanup : CleanupResult} (hb : Beside s s') (he : s.Ended cleanup)
    (h : s.Recovered) : s'.Recovered := by
  intro hnone t ht
  obtain ⟨_, -, ho⟩ := he
  have hown := h (hb.observation.symm.trans hnone) t (hb.spawn.symm.trans ht)
  have hi := inv_of_reachable hb.calls.reachable
  intro c p os hm
  cases ((hb.calls.spawn t ht).2.admission hb.calls.reachable) with
  | before _ own => exact own c p os hm
  | attached _ _ _ _ _ hn =>
      rw [hb.scope] at hn
      exact hn (ho.drained.mono hb.history)
  | sent observed os' _ own =>
      obtain ⟨rfl, -, -⟩ := (own c p os).mp hm
      refine hown _ p os (hi.lawful.attached_of_drained hb.history (c := s'.scope) ?_ hm)
      rw [hb.scope]
      exact ho.drained

/-- What the fields of the worker hold at its place stays so. -/
theorem placed (hb : Beside s s') (h : s.Placed s.worker) : s'.Placed s'.worker := by
  rw [hb.worker]
  cases hw : s.worker <;> rw [hw] at h
  case idle | timing | arming | spawning =>
    refine ⟨?_, hb.spawn.trans h.2⟩
    rw [hb.statuses]
    exact hb.unattached h.1
  case completing =>
    simp only [Placed, hb.statuses]
    exact hb.unattached h
  case naming | installing =>
    obtain ⟨ht, hs, hp, he⟩ := h
    exact ⟨hb.taking ht, hb.source.trans hs, (hb.poisoned hs).trans hp,
      fun e' he' => hb.ended (he e' he')⟩
  case looking | announcing =>
    exact ⟨hb.taking h.1, fun e' he' => hb.ended (h.2 e' he')⟩
  case running =>
    simp only [Placed, hb.statuses]
    exact hb.attached h
  case finishing =>
    simp only [Placed, hb.statuses]
    exact hb.lived h
  case cleaning =>
    simp only [Placed, hb.statuses, hb.finish]
    exact ⟨hb.lived h.1, h.2⟩
  case recovering =>
    simp only [Placed, hb.statuses]
    exact ⟨hb.lived h.1, hb.ended h.2⟩
  case observing | closing | collecting | checking | polling | freezing | publishing =>
    simp only [Placed, hb.statuses]
    exact ⟨hb.lived h.1, hb.ended h.2.1, hb.recovered h.2.1 h.2.2⟩
  case done =>
    obtain ⟨r, l, hs, hl, he, hr, hp⟩ := h
    refine ⟨r, l, hb.statuses.trans hs, hb.lived hl, hb.ended he, hb.recovered he hr, ?_⟩
    rw [hb.observation]
    exact hp

/-- What the worker knows of the time stays so. -/
theorem timed (hb : Beside s s') (h : s.Timed s.worker) : s'.Timed s'.worker := by
  rw [hb.worker]
  cases hw : s.worker <;> rw [hw] at h
  case idle => exact ⟨hb.firstRan.trans h.1, hb.spawn.trans h.2⟩
  case timing =>
    obtain ⟨⟨now, hle, hf⟩, hn⟩ := h
    exact ⟨⟨now, hle.trans hb.now, hb.firstRan.trans hf⟩, hb.spawn.trans hn⟩
  case arming | spawning => exact hb.inTime h
  all_goals exact h.imp hb.spawn.trans hb.inTime

/-- What a waiter knows stays so. -/
theorem waiting {at' : WaitAt} (hb : Beside s s') (h : s.Waiting at') : s'.Waiting at' := by
  cases at' with
  | looking => trivial
  | awaiting seen =>
      simp only [Waiting, hb.worker, hb.statuses]
      exact h
  | returned r =>
      simp only [Waiting, hb.worker, hb.statuses]
      exact h

/-- **Steps beside the worker keep the invariant.** -/
theorem inv (hb : Beside s s') (hw : ∀ w at', s'.waits w = some at' → s.Waiting at')
    (h : s.TaskInv) : s'.TaskInv :=
  ⟨hb.calls, hb.placed h.placed, hb.timed h.timed, fun w at' hat => hb.waiting (hw w at' hat)⟩

end Beside

/-- A step of the supervisor keeps the calls of the task, unless it drops the cleanup. -/
theorem Calls.step {cfg : Config Res Ret Inner} {l : Label Answer Call} (hc : s.Calls)
    (hs : supervisor.step s.cfg l = some cfg) (hd : ∀ t, s.finish = some t → l ≠ .drop t)
    {sent : Option SpawnObservation}
    (hsent : ∀ t, s.spawn = some t → sent = s.cfg.record transfer t l s.sent)
    (hnone : s.spawn = none → sent = s.sent) : Calls { s with cfg, sent } where
  reachable := hc.reachable.step hs
  unsent hn := (hnone hn).trans (hc.unsent hn)
  spawn t ht := by
    obtain ⟨hlt, hw⟩ := hc.spawn t ht
    refine ⟨hlt.trans_le (supervisor.step_next hs), ?_⟩
    have hw' := hw.step hc.reachable hs hlt
    rw [← hsent t ht] at hw'
    exact hw'
  finish t ht := by
    obtain ⟨hlt, hw⟩ := hc.finish t ht
    exact ⟨hlt.trans_le (supervisor.step_next hs), hw.step hc.reachable hs (hd t ht) hlt⟩

/-- A step of the supervisor is one beside the worker. -/
theorem beside_supervise {l : Label Answer Call} (hc : s.Calls) (hs : s.supervise l = some s') :
    Beside s s' := by
  rw [supervise, Option.ite_none_right_eq_some] at hs
  obtain ⟨hl, hs⟩ := hs
  obtain ⟨cfg, hstep, rfl⟩ := Option.map_eq_some_iff.mp hs
  refine ⟨rfl, rfl, rfl, rfl, rfl, rfl, rfl, rfl, rfl, rfl, rfl, fun _ => rfl, le_rfl,
    fun o ho => ?_, step_suffix hstep, hc.step hstep (fun t ht heq => ?_) (fun t ht => ?_)
      fun hn => ?_⟩
  · cases hspawn : s.spawn with
    | none => exact ho
    | some t =>
        have hw := (hc.spawn t hspawn).2
        rw [ho] at hw
        simp only [ho]
        exact hw.keeps hc.reachable hstep
  · subst heq
    simp [leavesOwner, ht] at hl
  · simp only [ht]
  · simp only [hn]

/-- A panic of the cleanup is a step beside the worker. -/
theorem beside_panicFinish (hc : s.Calls) (hs : s.panicFinish = some s') :
    Beside s s' ∧ s'.waits = s.waits := by
  rw [panicFinish] at hs
  split at hs
  case h_1 => cases hs
  next t hf =>
  split at hs
  case h_1 => cases hs
  next hn =>
  obtain ⟨cfg, hstep, rfl⟩ := Option.map_eq_some_iff.mp hs
  refine ⟨⟨rfl, rfl, rfl, rfl, rfl, rfl, rfl, rfl, rfl, rfl, rfl, fun _ => rfl, le_rfl,
    fun o ho => ho, step_suffix hstep, hc.reachable.step hstep, hc.unsent, fun t' ht' => ?_,
    fun t' ht' => ?_⟩, rfl⟩
  · obtain ⟨hlt, hw⟩ := hc.spawn t' ht'
    exact ⟨hlt.trans_le (supervisor.step_next hstep), hw.step hc.reachable hstep hlt⟩
  · obtain rfl : t = t' := Option.some.inj (hf.symm.trans ht')
    obtain ⟨hlt, hw⟩ := hc.finish t hf
    exact ⟨hlt.trans_le (supervisor.step_next hstep), hw.panics hc.reachable hstep fun c' k u =>
      hn c' k u⟩

/-- A step of the clock or of the observers. -/
theorem beside_frame {now : Instant} {stop poisoned : Bool} {output : Output}
    {waits : ℕ → Option WaitAt} (hc : s.Calls) (hnow : s.now ≤ now)
    (hsource : output.source = s.output.source)
    (hpoisoned : s.output.source = false → poisoned = s.poisoned) :
    Beside s { s with now, stop, output, poisoned, waits } :=
  ⟨rfl, rfl, rfl, rfl, rfl, rfl, rfl, rfl, rfl, rfl, hsource, hpoisoned, hnow, fun _ h => h,
    List.suffix_refl _, ⟨hc.reachable, hc.unsent, hc.spawn, hc.finish⟩⟩

/-- Only a worker that is done has published a result. -/
theorem TaskInv.done_of_finished {r : BackgroundTaskResult} (hi : s.TaskInv)
    (hs : s.statuses = .finished r :: l) : s.worker = .done := by
  have hlived : ¬ s.Lived s.statuses := by
    rw [hs]
    rintro (⟨-, -, -, -, hl⟩ | ⟨_, _, -, -, -, hl⟩) <;> cases hl
  have htaking : ∀ a, ¬ s.Taking a := fun a ⟨_, _, _, hl⟩ => by
    rw [hs] at hl
    cases hl
  have hp := hi.placed
  cases hw : s.worker <;> rw [hw] at hp
  case idle | timing | arming | spawning => exact absurd (.inl hp.1) hlived
  case completing => exact absurd (.inl hp) hlived
  case naming | installing | looking | announcing => exact absurd hp.1 (htaking _)
  case running => exact absurd (.inr hp) hlived
  case finishing => exact absurd hp hlived
  all_goals exact absurd hp.1 hlived

/-- What a step of `wait` has seen. -/
theorem TaskInv.lookFor {at' at'' : WaitAt} (hi : s.TaskInv) (hl : s.lookFor at' = some at'') :
    s.Waiting at'' := by
  cases at' with
  | looking =>
      simp only [TaskState.lookFor] at hl
      split at hl
      · next r l hs =>
          obtain rfl := Option.some.inj hl
          exact ⟨hi.done_of_finished hs, by rw [hs]; rfl⟩
      · next hn =>
          obtain rfl := Option.some.inj hl
          refine ⟨le_rfl, fun hw => ?_⟩
          have hp := hi.placed
          rw [hw] at hp
          obtain ⟨r, l, hs, -⟩ := hp
          exact absurd hs (hn r l)
  | awaiting seen =>
      simp only [TaskState.lookFor] at hl
      split at hl
      · cases hl
      · obtain rfl := Option.some.inj hl
        trivial
  | returned r => cases hl

/-- A waiter moves, and knows what its place says. -/
theorem TaskInv.setWait {w : ℕ} {at' : Option WaitAt} (hi : s.TaskInv)
    (hat : ∀ x, at' = some x → s.Waiting x) : (s.setWait w at').TaskInv := by
  refine Beside.inv (beside_frame hi.calls le_rfl rfl fun _ => rfl) (fun w' x hx => ?_) hi
  simp only [TaskState.setWait, Function.update_apply] at hx
  split at hx
  · exact hat x hx
  · exact hi.waiting w' x hx

/-- **The steps beside the worker.** -/
theorem TaskInv.beside {a : TaskAction} (hi : s.TaskInv) (ha : ∀ effect, a ≠ .worker effect)
    (hs : s.step a = some s') : s'.TaskInv := by
  have hc := hi.calls
  cases a with
  | supervisor l =>
      have hb := beside_supervise hc hs
      rw [step, supervise, Option.ite_none_right_eq_some] at hs
      obtain ⟨cfg, -, rfl⟩ := Option.map_eq_some_iff.mp hs.2
      exact hb.inv hi.waiting hi
  | finishPanics =>
      obtain ⟨hb, hw⟩ := beside_panicFinish hc hs
      exact hb.inv (fun w at' hat => hi.waiting w at' (hw ▸ hat)) hi
  | worker effect => exact absurd rfl (ha effect)
  | tick duration =>
      obtain rfl := Option.some.inj hs
      exact Beside.inv (beside_frame hc (Nat.le_add_right _ _) rfl fun _ => rfl) hi.waiting hi
  | cancel =>
      obtain rfl := Option.some.inj hs
      exact Beside.inv (beside_frame hc le_rfl rfl fun _ => rfl) hi.waiting hi
  | observe snapshot =>
      simp only [step] at hs
      split at hs
      · obtain rfl := Option.some.inj hs
        exact Beside.inv (beside_frame hc le_rfl rfl fun _ => rfl) hi.waiting hi
      · obtain rfl := Option.some.inj hs
        exact hi
  | observePanics =>
      simp only [step, Option.ite_none_right_eq_some] at hs
      obtain ⟨hsource, hs⟩ := hs
      obtain rfl := Option.some.inj hs
      refine Beside.inv (beside_frame hc le_rfl rfl fun hn => ?_) hi.waiting hi
      rw [hsource] at hn
      cases hn
  | wait w =>
      simp only [step, Option.ite_none_right_eq_some] at hs
      obtain ⟨-, hs⟩ := hs
      obtain rfl := Option.some.inj hs
      refine hi.setWait fun x hx => ?_
      obtain rfl := Option.some.inj hx
      trivial
  | runWait w =>
      obtain ⟨at', -, hs⟩ := Option.bind_eq_some_iff.mp hs
      obtain ⟨at'', hl, rfl⟩ := Option.map_eq_some_iff.mp hs
      refine hi.setWait fun x hx => ?_
      obtain rfl := Option.some.inj hx
      exact hi.lookFor hl
  | dropWait w =>
      obtain rfl := Option.some.inj hs
      refine hi.setWait fun x hx => ?_
      cases hx

/-! ### Steps of the worker -/

/-- A step of the worker that publishes nothing and calls nobody. -/
theorem TaskInv.goes {worker : WorkerAt} {taken poisoned : Bool} {output : Output}
    {observation : Option SpawnObservation} {exit : Option ProcessExit} {osPid : Option ℕ}
    {firstRan : Option (Bool × Instant)} {lookedAt : Option History} (hi : s.TaskInv)
    (hd : s.worker ≠ .done) (hd' : worker ≠ .done)
    (hp : Placed { s with worker, taken, poisoned, output, observation, exit, osPid, firstRan,
                          lookedAt } worker)
    (ht : Timed { s with worker, taken, poisoned, output, observation, exit, osPid, firstRan,
                         lookedAt } worker) :
    TaskInv { s with worker, taken, poisoned, output, observation, exit, osPid, firstRan,
                     lookedAt } := by
  obtain ⟨hr, hu, hsp, hf⟩ := hi.calls
  refine ⟨⟨hr, hu, hsp, hf⟩, hp, ht, fun w at' hat => ?_⟩
  have hwait := hi.waiting w at' hat
  cases at' with
  | looking => trivial
  | awaiting seen => exact ⟨hwait.1, fun hw => absurd hw hd'⟩
  | returned r => exact absurd hwait.1 hd

/-- A step of the worker that publishes a status. -/
theorem TaskInv.publishes {worker : WorkerAt} {status : BackgroundTaskStatus}
    {observation : Option SpawnObservation} (hi : s.TaskInv) (hd : s.worker ≠ .done)
    (hp : Placed { s with worker, statuses := status :: s.statuses, observation } worker)
    (ht : Timed { s with worker, statuses := status :: s.statuses, observation } worker) :
    TaskInv { s with worker, statuses := status :: s.statuses, observation } := by
  obtain ⟨hr, hu, hsp, hf⟩ := hi.calls
  refine ⟨⟨hr, hu, hsp, hf⟩, hp, ht, fun w at' hat => ?_⟩
  have hwait := hi.waiting w at' hat
  cases at' with
  | looking => trivial
  | awaiting seen =>
      refine ⟨hwait.1.trans (Nat.le_succ _), fun _ => ?_⟩
      exact Nat.ne_of_lt (Nat.lt_succ_of_le hwait.1)
  | returned r => exact absurd hwait.1 hd

/-- The worker starts a call. -/
theorem TaskInv.calls_start {call : Call} {cfg : Config Res Ret Inner} {worker : WorkerAt}
    {spawn finish : Option Tid} (hi : s.TaskInv) (hd : s.worker ≠ .done) (hd' : worker ≠ .done)
    (hs : s.call call = some cfg)
    (hspawn : spawn = s.spawn ∨ spawn = some s.cfg.shared.nextTask ∧ s.sent = none ∧
      ∃ spec, call = .spawn s.scope spec true)
    (hfinish : finish = s.finish ∨ finish = some s.cfg.shared.nextTask ∧
      ∃ opts, call = .finish s.scope opts false)
    (hp : Placed { s with cfg, worker, spawn, finish } worker)
    (ht : Timed { s with cfg, worker, spawn, finish } worker) :
    TaskInv { s with cfg, worker, spawn, finish } := by
  have hr := hi.calls.reachable
  have hlt : s.cfg.shared.nextTask < cfg.shared.nextTask := by
    cases supervisor.step_shared hs with
    | start hsh => exact hsh ▸ Nat.lt_succ_self _
  refine ⟨⟨hr.step hs, fun hn => ?_, fun t ht => ?_, fun t ht => ?_⟩, hp, ht, fun w at' hat => ?_⟩
  · rcases hspawn with rfl | ⟨rfl, -, -⟩
    · exact hi.calls.unsent hn
    · cases hn
  · rcases hspawn with rfl | ⟨rfl, hsent, spec, rfl⟩
    · obtain ⟨hlt', hw⟩ := hi.calls.spawn t ht
      exact ⟨hlt'.trans hlt, hw.step hr hs hlt'⟩
    · obtain rfl := Option.some.inj ht
      refine ⟨hlt, ?_⟩
      rw [hsent]
      exact SpawnWatched.start (inv_of_reachable hr) hs
  · rcases hfinish with rfl | ⟨rfl, opts, rfl⟩
    · obtain ⟨hlt', hw⟩ := hi.calls.finish t ht
      exact ⟨hlt'.trans hlt, hw.step hr hs nofun hlt'⟩
    · obtain rfl := Option.some.inj ht
      exact ⟨hlt, FinishWatched.start hs⟩
  · have hwait := hi.waiting w at' hat
    cases at' with
    | looking => trivial
    | awaiting seen => exact ⟨hwait.1, fun hw => absurd hw hd'⟩
    | returned r => exact absurd hwait.1 hd

/-- Whatever was handed over is with the worker once the cleanup is over. -/
theorem recovered_of_admission {cleanup : CleanupResult} (hc : s.Calls)
    (hl : s.Lived s.statuses) (he : s.Ended cleanup)
    (hn : s.observation = none → s.admission = none) : s.Recovered := by
  intro hobs t ht
  have hsent : s.sent = none := by
    rcases hl with ⟨htaken, -⟩ | ⟨_, _, -, ho, -⟩
    · have := hn hobs
      rwa [admission, htaken, if_neg Bool.false_ne_true] at this
    · rw [hobs] at ho
      cases ho
  obtain ⟨_, -, ho⟩ := he
  rcases ((hc.spawn t ht).2.admission hc.reachable).of_drained ho.drained with
    ⟨_, _, -, hx⟩ | ⟨-, hown⟩
  · rw [hsent] at hx
    cases hx
  · exact hown

/-- An admission that the task has was sent by its spawn. -/
theorem isSent_of_admission {a : SpawnObservation} (ha : s.admission = some a) : s.IsSent a := by
  rw [admission] at ha
  split at ha
  · cases ha
  · exact ⟨a, ha, rfl, rfl⟩

/-- The worker saw its cleanup end. -/
theorem ended_of_cleaned {cleanup : CleanupResult} (hc : s.Calls)
    (hcl : s.cleaned = some cleanup) : s.Ended cleanup := by
  rw [cleaned] at hcl
  cases hf : s.finish with
  | none =>
      rw [hf] at hcl
      cases hcl
  | some t =>
      rw [hf, Option.bind_some] at hcl
      obtain ⟨-, hw⟩ := hc.finish t hf
      refine ⟨t, hf, ?_⟩
      split at hcl
      · next hret =>
          obtain rfl := Option.some.inj hcl
          rcases hw.over hc.reachable hret with ⟨result, heq, ho⟩ | ⟨heq, -⟩
          · obtain ⟨-, rfl⟩ := Ret.finished.inj heq
            exact ho
          · cases heq
      · next hret =>
          obtain rfl := Option.some.inj hcl
          rcases hw.over hc.reachable hret with ⟨result, heq, -⟩ | ⟨-, ho⟩
          · cases heq
          · exact ho
      · cases hcl

/-- **The steps of the worker.** -/
theorem TaskInv.work {effect : Effect} (hi : s.TaskInv) (hs : s.work effect = some s') :
    s'.TaskInv := by
  have hp := hi.placed
  have ht := hi.timed
  have hd : ∀ {w}, s.worker = w → w ≠ .done → s.worker ≠ .done := fun h hn => h ▸ hn
  cases hw : s.worker <;> rw [hw] at hp ht <;>
    cases effect <;> simp only [TaskState.work, hw, reduceCtorEq] at hs
  case idle.go =>
    split at hs
    · obtain rfl := Option.some.inj hs
      exact hi.goes (hd hw nofun) nofun (.inl hp.1) (.inl hp.2)
    · next hstop =>
        obtain rfl := Option.some.inj hs
        refine hi.goes (hd hw nofun) nofun hp ⟨⟨s.now, le_rfl, ?_⟩, hp.2⟩
        simp only [hstop]
  case timing.go =>
    obtain ⟨⟨now, hle, hf⟩, hn⟩ := ht
    split at hs
    · obtain rfl := Option.some.inj hs
      exact hi.goes (hd hw nofun) nofun (.inl hp.1) (.inl hn)
    · next htime =>
        obtain rfl := Option.some.inj hs
        refine hi.goes (hd hw nofun) nofun hp ⟨now, hf, fun hz => htime ?_⟩
        have hz' : s.options.timeout - (now - s.admittedAt) = 0 := hz
        exact Nat.sub_eq_zero_of_le ((Nat.le_of_sub_eq_zero hz').trans (Nat.sub_le_sub_right hle _))
  case timing.panic =>
    obtain rfl := Option.some.inj hs
    exact hi.goes (hd hw nofun) nofun (.inl hp.1) (.inl ht.2)
  case arming.go =>
    obtain rfl := Option.some.inj hs
    exact hi.goes (hd hw nofun) nofun hp ht
  case arming.panic =>
    obtain rfl := Option.some.inj hs
    exact hi.goes (hd hw nofun) nofun (.inl hp.1) (.inr ht)
  case spawning.go =>
    obtain ⟨cfg, hcall, rfl⟩ := Option.map_eq_some_iff.mp hs
    exact hi.calls_start (hd hw nofun) nofun hcall
      (.inr ⟨rfl, hi.calls.unsent hp.2, _, rfl⟩) (.inl rfl) hp.1 (.inr ht)
  case completing.completed =>
    have hplace := hp
    obtain ⟨-, hobs, hsource, hpoisoned, hl⟩ := hp
    have hstop : ∀ cause, TaskInv (s.stopFor cause) := fun cause =>
      hi.goes (hd hw nofun) nofun (.inl hplace) ht
    rw [complete] at hs
    split at hs
    · split at hs
      · next a ha =>
          have hsent := isSent_of_admission ha
          obtain rfl := Option.some.inj hs
          exact hi.goes (hd hw nofun) nofun ⟨⟨rfl, hobs, hsent, hl⟩, hsource, hpoisoned, nofun⟩ ht
      · obtain rfl := Option.some.inj hs
        exact hstop _
    · obtain rfl := Option.some.inj hs
      exact hstop _
    · cases hs
  case completing.stopped =>
    split at hs
    · obtain rfl := Option.some.inj hs
      exact hi.goes (hd hw nofun) nofun (.inl hp) ht
    · cases hs
  case completing.elapsed | completing.panic =>
    obtain rfl := Option.some.inj hs
    exact hi.goes (hd hw nofun) nofun (.inl hp) ht
  case naming.go a e =>
    obtain rfl := Option.some.inj hs
    exact hi.goes (hd hw nofun) nofun hp ht
  case installing.go a e =>
    obtain ⟨htaking, hsource, hpoisoned, he⟩ := hp
    rw [hpoisoned, if_neg Bool.false_ne_true] at hs
    obtain rfl := Option.some.inj hs
    exact hi.goes (hd hw nofun) nofun ⟨htaking, he⟩ ht
  case looking.go a e =>
    obtain rfl := Option.some.inj hs
    exact hi.goes (hd hw nofun) nofun hp ht
  case announcing.go a osPid e =>
    obtain ⟨⟨htaken, hobs, hsent, hl⟩, he⟩ := hp
    cases e with
    | none =>
        obtain rfl := Option.some.inj hs
        exact hi.publishes (hd hw nofun) ⟨a, osPid, htaken, rfl, hsent, congrArg _ hl⟩ ht
    | some e =>
        obtain rfl := Option.some.inj hs
        exact hi.publishes (hd hw nofun)
          ⟨.inr ⟨a, osPid, htaken, rfl, hsent, congrArg _ hl⟩, he e rfl, nofun⟩ ht
  case running.ended =>
    obtain ⟨exit, -, rfl⟩ := Option.map_eq_some_iff.mp hs
    exact hi.goes (hd hw nofun) nofun (.inr hp) ht
  case running.stopped =>
    split at hs
    · obtain rfl := Option.some.inj hs
      exact hi.goes (hd hw nofun) nofun (.inr hp) ht
    · cases hs
  case running.elapsed | running.panic =>
    obtain rfl := Option.some.inj hs
    exact hi.goes (hd hw nofun) nofun (.inr hp) ht
  case finishing.go cause =>
    obtain ⟨cfg, hcall, rfl⟩ := Option.map_eq_some_iff.mp hs
    exact hi.calls_start (hd hw nofun) nofun hcall (.inl rfl) (.inr ⟨rfl, _, rfl⟩) ⟨hp, nofun⟩ ht
  case cleaning.go cause =>
    obtain ⟨cleanup, hcl, rfl⟩ := Option.map_eq_some_iff.mp hs
    have hended := ended_of_cleaned hi.calls hcl
    exact hi.goes (hd hw nofun) nofun ⟨hp.1, hended⟩ ht
  case recovering.go e =>
    obtain ⟨hl, he⟩ := hp
    split at hs
    · next a hobs ha =>
        have hsent := isSent_of_admission ha
        rcases hl with ⟨-, -, hsource, hpoisoned, hl⟩ | ⟨_, _, -, ho, -⟩
        · obtain rfl := Option.some.inj hs
          refine hi.goes (hd hw nofun) nofun ⟨⟨rfl, hobs, hsent, hl⟩, hsource, hpoisoned, ?_⟩ ht
          intro e' he'
          obtain rfl := Option.some.inj he'
          exact he
        · rw [hobs] at ho
          cases ho
    · next hn =>
        have hrec : s.Recovered := by
          refine recovered_of_admission hi.calls hl he fun hobs => ?_
          cases ha : s.admission with
          | none => rfl
          | some a => exact absurd ha (hn a hobs)
        obtain rfl := Option.some.inj hs
        exact hi.goes (hd hw nofun) nofun ⟨hl, he, hrec⟩ ht
  case observing.go e =>
    obtain rfl := Option.some.inj hs
    exact hi.goes (hd hw nofun) nofun hp ht
  case closing.go e | closing.panic e =>
    obtain rfl := Option.some.inj hs
    exact hi.goes (hd hw nofun) nofun hp ht
  case collecting.go e again =>
    split at hs
    · cases hs
    · obtain rfl := Option.some.inj hs
      split <;> exact hi.goes (hd hw nofun) nofun hp ht
  case collecting.panic e again =>
    obtain ⟨hl, he, hrec⟩ := hp
    split at hs
    · next hsource =>
        obtain rfl := Option.some.inj hs
        refine hi.goes (hd hw nofun) nofun ⟨hl.imp (fun hu => ?_) id, he, hrec⟩ ht
        rw [hu.2.2.1] at hsource
        cases hsource
    · cases hs
  case collecting.read e again snapshot =>
    split at hs
    · obtain rfl := Option.some.inj hs
      split <;> exact hi.goes (hd hw nofun) nofun hp ht
    · cases hs
  case checking.go e output =>
    obtain rfl := Option.some.inj hs
    split <;> exact hi.goes (hd hw nofun) nofun hp ht
  case polling.go e output =>
    split at hs
    · obtain rfl := Option.some.inj hs
      exact hi.goes (hd hw nofun) nofun hp ht
    · cases hs
  case polling.elapsed e output | polling.slept e output | polling.panic e output =>
    obtain rfl := Option.some.inj hs
    exact hi.goes (hd hw nofun) nofun hp ht
  case freezing.go e failed =>
    obtain rfl := Option.some.inj hs
    obtain ⟨hl, he, hrec⟩ := hp
    refine hi.goes (hd hw nofun) nofun ⟨hl.imp (fun hu => ?_) id, he, hrec⟩ ht
    exact ⟨hu.1, hu.2.1, rfl, hu.2.2.2⟩
  case publishing.go e output =>
    obtain rfl := Option.some.inj hs
    obtain ⟨hl, he, hrec⟩ := hp
    exact hi.publishes (hd hw nofun) ⟨_, _, rfl, hl, he, hrec, rfl⟩ ht

/-! ### Runs -/

/-- **The invariant holds in every state of a task.** -/
theorem taskInv_of_reaches {cfg : Config Res Ret Inner} {now : Instant} {spec : ProcessSpec}
    {options : BackgroundTaskOptions} (hr : Reachable cfg)
    (h₀ : TaskState.start cfg now spec options = some s₀) (h : Reaches step s₀ s) :
    s.TaskInv := by
  refine h.invariant ?_ fun s a s' hi hs => ?_
  · rw [TaskState.start] at h₀
    split at h₀
    case h_1 => cases h₀
    next cfg' hf =>
    split at h₀
    case h_2 => cases h₀
    obtain rfl := Option.some.inj h₀
    refine ⟨⟨hr.follow hf, fun _ => rfl, fun t ht => ?_, fun t ht => ?_⟩,
      ⟨⟨rfl, rfl, rfl, rfl, rfl⟩, rfl⟩, ⟨rfl, rfl⟩, fun w at' hat => ?_⟩
    · cases ht
    · cases ht
    · cases hat
  · by_cases ha : ∃ effect, a = .worker effect
    · obtain ⟨effect, rfl⟩ := ha
      exact hi.work hs
    · exact hi.beside (fun effect heq => ha ⟨effect, heq⟩) hs

end TaskState

/-- How far the worker is from its result. -/
def WorkerAt.rank : WorkerAt → ℕ
  | .done => 0
  | .publishing _ _ => 1
  | .freezing _ _ => 2
  | .polling _ _ => 3
  | .checking _ _ | .collecting _ true => 4
  | .collecting _ false => 5
  | .closing _ => 6
  | .observing _ => 7
  | .announcing _ _ (some _) => 8
  | .looking _ (some _) => 9
  | .installing _ (some _) => 10
  | .naming _ (some _) => 11
  | .recovering _ => 12
  | .cleaning _ => 13
  | .finishing _ => 14
  | .running => 15
  | .announcing _ _ none => 16
  | .looking _ none => 17
  | .installing _ none => 18
  | .naming _ none => 19
  | .completing => 20
  | .spawning => 21
  | .arming => 22
  | .timing => 23
  | .idle => 24

namespace TaskState

variable {s s' s₀ : TaskState} {l : List BackgroundTaskStatus}

/-- The worker waits for `owner.finish`, which has not returned. -/
def AwaitsCleanup (s : TaskState) : Prop :=
  ∃ cause t, s.worker = .cleaning cause ∧ s.finish = some t ∧
    ∀ v, (t, .returned v) ∉ s.cfg.shared.history

/-- A cleanup that has returned is seen. -/
theorem Calls.cleaned (hc : s.Calls) (hf : s.finish = some t) {v : Ret}
    (hm : (t, .returned v) ∈ s.cfg.shared.history) : s.cleaned ≠ none := by
  obtain ⟨-, hw⟩ := hc.finish t hf
  obtain ⟨v, hv⟩ := returnOf_of_mem hm
  rw [TaskState.cleaned, hf, Option.bind_some, hv]
  rcases hw.over hc.reachable hv with ⟨result, rfl, -⟩ | ⟨rfl, -⟩
  · nofun
  · nofun

/-- **The worker can always go on**, unless it waits for the cleanup. -/
theorem TaskInv.goes_on (hi : s.TaskInv) (hd : s.worker ≠ .done) (hc : ¬ s.AwaitsCleanup) :
    ∃ effect, (s.work effect).any fun s' => s'.worker.rank < s.worker.rank := by
  have hp := hi.placed
  cases hw : s.worker <;> rw [hw] at hp
  case idle | timing =>
    refine ⟨.go, ?_⟩
    simp only [TaskState.work, hw]
    split <;> rfl
  case arming | spawning =>
    refine ⟨.go, ?_⟩
    simp only [TaskState.work, hw]
    rfl
  case completing | running | polling =>
    refine ⟨.elapsed, ?_⟩
    simp only [TaskState.work, hw]
    rfl
  case naming a e | looking a e | announcing a _ e =>
    refine ⟨.go, ?_⟩
    simp only [TaskState.work, hw]
    cases e <;> rfl
  case installing a e =>
    refine ⟨.go, ?_⟩
    simp only [TaskState.work, hw, hp.2.2.1]
    cases e <;> rfl
  case finishing | observing | closing | publishing | freezing =>
    refine ⟨.go, ?_⟩
    simp only [TaskState.work, hw]
    rfl
  case cleaning cause =>
    refine ⟨.go, ?_⟩
    simp only [TaskState.work, hw]
    cases hcl : s.cleaned with
    | some cleanup => rfl
    | none =>
        obtain ⟨t, hf⟩ := Option.ne_none_iff_exists'.mp hp.2
        exact absurd ⟨cause, t, hw, hf, fun v hm => hi.calls.cleaned hf hm hcl⟩ hc
  case recovering e =>
    refine ⟨.go, ?_⟩
    simp only [TaskState.work, hw]
    split <;> rfl
  case collecting e again =>
    cases hsource : s.output.source with
    | true =>
        refine ⟨.read ⟨[], [], 0, true, true, []⟩, ?_⟩
        simp only [TaskState.work, hw, hsource]
        cases again <;> rfl
    | false =>
        refine ⟨.go, ?_⟩
        simp only [TaskState.work, hw, hsource]
        cases again <;> rfl
  case checking e output =>
    refine ⟨.go, ?_⟩
    simp only [TaskState.work, hw]
    split <;> rfl
  case done => exact absurd hw hd

/-- The worker's own steps lead to the result, or to the wait for the cleanup. -/
theorem TaskInv.settles (hi : s.TaskInv) : ∃ (effects : List Effect) (s' : TaskState),
    follow step s (effects.map .worker) = some s' ∧ (s'.worker = .done ∨ s'.AwaitsCleanup) := by
  induction hn : s.worker.rank using Nat.strong_induction_on generalizing s with
  | _ n ih =>
      by_cases hd : s.worker = .done
      · exact ⟨[], s, rfl, .inl hd⟩
      by_cases hc : s.AwaitsCleanup
      · exact ⟨[], s, rfl, .inr hc⟩
      obtain ⟨effect, he⟩ := hi.goes_on hd hc
      obtain ⟨s₁, hs₁, hlt⟩ := (Option.any_eq_true ..).mp he
      have hi₁ : s₁.TaskInv := hi.work hs₁
      obtain ⟨effects, s', hf, hs'⟩ := ih _ (hn ▸ of_decide_eq_true hlt) hi₁ rfl
      refine ⟨effect :: effects, s', ?_, hs'⟩
      simp only [List.map_cons, follow, step, hs₁, Option.bind_some, hf]

/-- The statuses before the result, newest first: `Starting`, then `Running` at most once. -/
def Unfinished (l : List BackgroundTaskStatus) : Prop :=
  l = [.starting] ∨ ∃ process osPid, l = [.running process osPid, .starting]

/-- A task that lives has published no result. -/
theorem Lived.unfinished (h : s.Lived l) : Unfinished l := by
  rcases h with ⟨-, -, -, -, hl⟩ | ⟨a, osPid, -, -, -, hl⟩
  · exact .inl hl
  · exact .inr ⟨a.pid, osPid, hl⟩

/-- A result is not among unfinished statuses. -/
theorem Unfinished.not_mem {r : BackgroundTaskResult} (h : Unfinished l) :
    .finished r ∉ l := by
  rcases h with rfl | ⟨_, _, rfl⟩ <;> simp

/-- As long as the worker is not done, there is no result. -/
theorem TaskInv.unfinished (hi : s.TaskInv) (hd : s.worker ≠ .done) : Unfinished s.statuses := by
  have hp := hi.placed
  have htaking : ∀ {a}, s.Taking a → Unfinished s.statuses := fun h => .inl h.2.2.2
  cases hw : s.worker <;> rw [hw] at hp
  case idle | timing | arming | spawning => exact Lived.unfinished (s := s) (.inl hp.1)
  case completing => exact Lived.unfinished (s := s) (.inl hp)
  case naming | installing | looking | announcing => exact htaking hp.1
  case running => exact Lived.unfinished (s := s) (.inr hp)
  case finishing => exact hp.unfinished
  case done => exact absurd hw hd
  all_goals exact hp.1.unfinished

/-- A published result: the worker is done, and the cleanup is over. -/
theorem TaskInv.published {r : BackgroundTaskResult} (hi : s.TaskInv)
    (hm : .finished r ∈ s.statuses) : s.worker = .done ∧
      ∃ l, s.statuses = .finished r :: l ∧ s.Lived l ∧ s.Ended r.cleanup ∧ s.Recovered ∧
        r.process = s.observation.map fun a => a.pid := by
  have hd : s.worker = .done := by
    by_contra hd
    exact (hi.unfinished hd).not_mem hm
  have hp := hi.placed
  rw [hd] at hp
  obtain ⟨r', l, hs, hl, hrest⟩ := hp
  rw [hs] at hm
  rcases List.mem_cons.mp hm with heq | hm
  · obtain rfl := BackgroundTaskStatus.finished.inj heq
    exact ⟨hd, l, hs, hl, hrest⟩
  · exact absurd hm hl.unfinished.not_mem

/-- Nothing is published after the result. -/
theorem step_done {a : TaskAction} (hd : s.worker = .done) (hs : s.step a = some s') :
    s'.worker = .done ∧ s'.statuses = s.statuses := by
  cases a with
  | supervisor l =>
      rw [step, supervise, Option.ite_none_right_eq_some] at hs
      obtain ⟨_, -, rfl⟩ := Option.map_eq_some_iff.mp hs.2
      exact ⟨hd, rfl⟩
  | finishPanics =>
      rw [step, panicFinish] at hs
      split at hs
      · cases hs
      · split at hs
        · cases hs
        · obtain ⟨_, -, rfl⟩ := Option.map_eq_some_iff.mp hs
          exact ⟨hd, rfl⟩
  | worker effect =>
      simp only [step, TaskState.work, hd, reduceCtorEq] at hs
  | tick _ | cancel | dropWait _ =>
      obtain rfl := Option.some.inj hs
      exact ⟨hd, rfl⟩
  | observe snapshot =>
      simp only [step] at hs
      split at hs <;> obtain rfl := Option.some.inj hs <;> exact ⟨hd, rfl⟩
  | observePanics | wait _ =>
      simp only [step, Option.ite_none_right_eq_some] at hs
      obtain rfl := Option.some.inj hs.2
      exact ⟨hd, rfl⟩
  | runWait w =>
      obtain ⟨_, -, hs⟩ := Option.bind_eq_some_iff.mp hs
      obtain ⟨_, -, rfl⟩ := Option.map_eq_some_iff.mp hs
      exact ⟨hd, rfl⟩

/-- A worker that is done publishes nothing more. -/
theorem statuses_of_done (hd : s.worker = .done) (h : Reaches step s s') :
    s'.statuses = s.statuses := by
  have hinv : s'.worker = .done ∧ s'.statuses = s.statuses :=
    h.invariant (I := fun x => x.worker = .done ∧ x.statuses = s.statuses) ⟨hd, rfl⟩
      fun x a x' hx hs => ⟨(step_done hx.1 hs).1, (step_done hx.1 hs).2.trans hx.2⟩
  exact hinv.2

/-- A pending `wait` has the result within two of its own steps. -/
theorem TaskInv.wait_returns {r : BackgroundTaskResult} {w : ℕ} {at' : WaitAt} (hi : s.TaskInv)
    (hm : .finished r ∈ s.statuses) (hat : s.waits w = some at') :
    ∃ n ≤ 2, ∃ s', follow step s (List.replicate n (.runWait w)) = some s' ∧
      s'.waits w = some (.returned r) := by
  obtain ⟨hd, l, hs, -⟩ := hi.published hm
  have hlook : ∀ x : TaskState, x.statuses = s.statuses → x.waits w = some .looking →
      x.step (.runWait w) = some (x.setWait w (some (.returned r))) := fun x hx hw => by
    simp [step, hw, TaskState.lookFor, hx, hs]
  have hset : ∀ (x : TaskState) at'', (x.setWait w at'').waits w = at'' := fun x at'' => by
    simp [TaskState.setWait]
  have hwait := hi.waiting w at' hat
  cases at' with
  | looking =>
      refine ⟨1, by omega, _, ?_, hset s _⟩
      simp only [List.replicate, follow, hlook s rfl hat, Option.bind_some]
  | awaiting seen =>
      have hstep : s.step (.runWait w) = some (s.setWait w (some .looking)) := by
        simp [step, hat, TaskState.lookFor, (hwait.2 hd).symm]
      refine ⟨2, le_rfl, _, ?_, hset (s.setWait w (some .looking)) _⟩
      simp only [List.replicate, follow, hstep, Option.bind_some,
        hlook (s.setWait w (some .looking)) rfl (hset s _)]
  | returned r' =>
      refine ⟨0, by omega, s, rfl, ?_⟩
      have hr := hwait.2
      rw [hs, List.head?_cons] at hr
      rw [hat, ← BackgroundTaskStatus.finished.inj (Option.some.inj hr)]

/-- **The right process**: the one that the spawn of the task attached. -/
theorem TaskInv.process_iff {r : BackgroundTaskResult} (hi : s.TaskInv)
    (hm : .finished r ∈ s.statuses) (p : ProcessId) : r.process = some p ↔
      ∃ t os, s.spawn = some t ∧ (t, .attached s.scope p os) ∈ s.cfg.shared.history := by
  obtain ⟨-, l, -, hl, -, hrec, hp⟩ := hi.published hm
  rw [hp]
  cases hobs : s.observation with
  | none =>
      refine ⟨nofun, ?_⟩
      rintro ⟨t, os, ht, hat⟩
      exact absurd hat (hrec hobs t ht s.scope p os)
  | some a =>
      rcases hl with ⟨-, ho, -⟩ | ⟨a', _, -, ho, ⟨o, hsent, hpid, -⟩, -⟩
      · rw [hobs] at ho
        cases ho
      obtain rfl := Option.some.inj (hobs.symm.trans ho)
      cases hspawn : s.spawn with
      | none =>
          rw [hi.calls.unsent hspawn] at hsent
          cases hsent
      | some t =>
          have hadm := (hi.calls.spawn t hspawn).2.admission hi.calls.reachable
          rw [hsent] at hadm
          cases hadm with
          | before hx => cases hx
          | attached _ _ hx => cases hx
          | sent observed os hx own =>
              obtain rfl := Option.some.inj hx
              rw [Option.map_some, Option.some.injEq, hpid]
              constructor
              · rintro rfl
                exact ⟨t, os, rfl, (own _ _ _).mpr ⟨rfl, rfl, rfl⟩⟩
              · rintro ⟨t', os', ht', hat⟩
                obtain rfl := Option.some.inj ht'
                exact ((own _ _ _).mp hat).2.1.symm

/-- A worker that was to stop, or out of time, at its first poll has spawned nothing. -/
theorem TaskInv.inTime (hi : s.TaskInv) {stop : Bool} {now : Instant}
    (hf : s.firstRan = some (stop, now))
    (hl : stop = true ∨ s.options.timeout - (now - s.admittedAt) = 0) : s.spawn = none := by
  have hn : ¬ s.InTime := by
    rintro ⟨now', hf', ht⟩
    obtain ⟨rfl, rfl⟩ := Prod.mk.inj (Option.some.inj (hf.symm.trans hf'))
    exact hl.elim nofun ht
  have ht := hi.timed
  cases hw : s.worker <;> rw [hw] at ht
  case idle | timing => exact ht.2
  case arming | spawning => exact absurd ht hn
  all_goals exact ht.resolve_right hn

/-- What it means that a background task settles once. -/
structure SettlesOnce (s : TaskState) : Prop where
  /-- The statuses are `Starting`, then `Running` at most once, then `Finished`. -/
  sequence : Unfinished s.statuses ∨ ∃ r l, s.statuses = .finished r :: l ∧ Unfinished l
  /-- `Finished` is the last status. -/
  last : ∀ r, .finished r ∈ s.statuses → ∀ s', Reaches step s s' → s'.statuses = s.statuses
  /-- It is published after the cleanup returned, or its unwinding was over. -/
  cleanup : ∀ r, .finished r ∈ s.statuses → s.Ended r.cleanup
  /-- The steps of the worker lead to it, unless the cleanup does not return. -/
  settles : ∃ (effects : List Effect) (s' : TaskState),
    follow step s (effects.map .worker) = some s' ∧ (s'.worker = .done ∨ s'.AwaitsCleanup)
  finished : s.worker = .done ↔ ∃ r, .finished r ∈ s.statuses
  /-- Every `wait` returns that result. -/
  returned : ∀ w r, s.waits w = some (.returned r) → .finished r ∈ s.statuses
  waits : ∀ r, .finished r ∈ s.statuses → ∀ w at', s.waits w = some at' → ∃ n ≤ 2, ∃ s',
    follow step s (List.replicate n (.runWait w)) = some s' ∧ s'.waits w = some (.returned r)
  /-- The process is the one that the task's spawn attached to its scope. -/
  process : ∀ r, .finished r ∈ s.statuses → ∀ p, r.process = some p ↔
    ∃ t os, s.spawn = some t ∧ (t, .attached s.scope p os) ∈ s.cfg.shared.history
  /-- It is the one in the scope, when nobody else spawns there. -/
  alone : (∀ t p os, (t, .attached s.scope p os) ∈ s.cfg.shared.history → s.spawn = some t) →
    ∀ r, .finished r ∈ s.statuses → ∀ p, r.process = some p ↔
      ∃ os, Happened s.cfg.shared.history (.attached s.scope p os)
  /-- Cancelled, or out of time, when the worker first ran: no spawn. -/
  unspawned : ∀ stop now, s.firstRan = some (stop, now) →
    stop = true ∨ s.options.timeout - (now - s.admittedAt) = 0 → s.spawn = none

/-- **A background task settles once, with the right process.** -/
theorem background_task_settles_once {cfg : Config Res Ret Inner} {now : Instant}
    {spec : ProcessSpec} {options : BackgroundTaskOptions} (hr : Reachable cfg)
    (h₀ : TaskState.start cfg now spec options = some s₀) (h : Reaches step s₀ s) :
    s.SettlesOnce := by
  have hi := taskInv_of_reaches hr h₀ h
  refine ⟨?_, fun r hm s' h' => ?_, fun r hm => ?_, hi.settles, ⟨fun hd => ?_, fun ⟨r, hm⟩ => ?_⟩,
    fun w r hw => ?_, fun r hm w at' hat => hi.wait_returns hm hat,
    fun r hm p => hi.process_iff hm p, fun halone r hm p => ?_, fun _ _ hf hl => hi.inTime hf hl⟩
  · by_cases hd : s.worker = .done
    · have hp := hi.placed
      rw [hd] at hp
      obtain ⟨r, l, hs, hl, -⟩ := hp
      exact .inr ⟨r, l, hs, hl.unfinished⟩
    · exact .inl (hi.unfinished hd)
  · exact statuses_of_done (hi.published hm).1 h'
  · obtain ⟨-, _, -, -, he, -⟩ := hi.published hm
    exact he
  · have hp := hi.placed
    rw [hd] at hp
    obtain ⟨r, l, hs, -⟩ := hp
    exact ⟨r, hs ▸ List.mem_cons_self⟩
  · exact (hi.published hm).1
  · exact List.mem_of_head? (hi.waiting w _ hw).2
  · rw [hi.process_iff hm]
    constructor
    · rintro ⟨t, os, -, hat⟩
      exact ⟨os, t, hat⟩
    · rintro ⟨os, t, hat⟩
      exact ⟨t, os, halone t p os hat, hat⟩

/-! ### A run -/

/-- Steps of the supervisor. -/
def supervised (ls : List (Label Answer Call)) : List TaskAction :=
  ls.map .supervisor

/-- Steps of the worker. -/
def worked (effects : List Effect) : List TaskAction :=
  effects.map .worker

/-- A task in a new supervisor. -/
def freshTask : Option TaskState :=
  TaskState.start (Machine.initial Inner.new) 0 (.new []) ⟨100, 16, .default⟩

/-- The worker spawns a process and takes it over. -/
def spawnTask : List TaskAction :=
  worked [.go, .go, .go, .go] ++
  supervised (steps 1 6 ++ [.run 1 (.spawned (.ok ⟨100, .unavailable⟩))] ++ steps 1 2 ++
    [.run 1 (.instant 0)] ++ steps 1 1 ++ [.run 1 (.output none)] ++ steps 1 7) ++
  worked [.completed, .go, .go, .go, .go]

/-- The process exits, and the exit is signalled; the worker sees it and asks for the
cleanup. -/
def exitTask : List TaskAction :=
  supervised (steps 2 1 ++ [.run 2 (.waited (some ⟨some 0, none, false⟩))] ++ steps 2 7) ++
  worked [.ended, .go]

/-- The cleanup commits the scope. -/
def cleanTask : List TaskAction :=
  supervised (steps 3 8 ++ steps 4 1 ++ [.run 3 (.joined 4)] ++ steps 3 1 ++
    [.run 3 (.cleaned (.ok ())), .run 3 (.order [(1, .exitedNaturally)]),
      .run 3 (.order [(1, .exitedNaturally)])] ++ steps 3 13)

/-- The worker collects the output and publishes the result. -/
def publishTask : List TaskAction :=
  worked [.go, .go, .go, .go, .go, .go, .go, .go]

/-- The process of a published result. -/
def publishedProcess (s : TaskState) : Option ProcessId :=
  match s.statuses with
  | .finished r :: _ => r.process
  | _ => none

set_option maxRecDepth 10000 in
/-- The schedule of a task that comes to its end: the result names its process. -/
theorem publishTask_publishes : freshTask.any (fun s₀ =>
    (follow step s₀ (spawnTask ++ exitTask ++ cleanTask ++ publishTask)).any fun s =>
      publishedProcess s = some 1) = true := by
  decide +kernel

/-- That task settles once. -/
theorem spawned_task_settles : ∃ s₀ s, freshTask = some s₀ ∧ Reaches step s₀ s ∧
    publishedProcess s = some 1 ∧ s.SettlesOnce := by
  obtain ⟨s₀, h₀, hP⟩ := (Option.any_eq_true _ _).mp publishTask_publishes
  obtain ⟨s, hf, hP⟩ := (Option.any_eq_true _ _).mp hP
  have h : Reaches step s₀ s := .of_follow hf
  exact ⟨s₀, s, h₀, h, of_decide_eq_true hP, background_task_settles_once .initial h₀ h⟩

end TaskState

end Shepherd
