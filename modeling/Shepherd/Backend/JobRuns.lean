import Shepherd.Backend.JobExits

/-!
# Runs of the Windows Backend

What the Windows backend promises over all runs of its calls and workers, with processes that
fork and end at any time and system calls that fail at any time.
-/

namespace Shepherd

open Conc

namespace JobReader

variable {r r' : JobReader} {n : ℕ}

/-- A call of `wait` does not set the flag. -/
theorem killed_of_call {a : ReaderAction} (ha : a.call = some n) (hs : r.step a = some r') :
    r'.killed = r.killed := by
  have hchanged : ∀ m seen, r.changed m seen = some r' → r'.killed = r.killed := by
    intro m seen h
    rw [changed] at h
    split at h
    · obtain rfl := Option.some.inj h
      rfl
    · split at h
      · obtain rfl := Option.some.inj h
        rfl
      · cases h
  cases a with
  | start m =>
      rw [step, Option.ite_none_right_eq_some] at hs
      obtain ⟨-, ⟨⟩⟩ := hs
      rfl
  | drop m =>
      rw [step] at hs
      split at hs
      · rw [Option.ite_none_right_eq_some] at hs
        obtain ⟨-, ⟨⟩⟩ := hs
        rfl
      · cases hs
  | run m =>
      obtain ⟨c, -, hr⟩ := Option.bind_eq_some_iff.mp hs
      cases c with
      | awaitingRetry seen => exact hchanged m seen hr
      | awaiting seen => exact hchanged m seen hr
      | removing exit =>
          obtain rfl := Option.some.inj hr
          rfl
      | returned result => exact absurd hr (by simp [runCall])
      | dropped => exact absurd hr (by simp [runCall])
      | _ =>
          rw [runCall] at hr
          split at hr <;> obtain rfl := Option.some.inj hr <;> rfl
  | _ => cases ha

end JobReader

namespace JobState

variable {s s' : JobState} {p q n m : ℕ} {scope : ProcessScopeId} {op : KillOp}

/-! ### Who is to blame -/

/-- A kill of the scope was called. -/
def KillCalled (s : JobState) (scope : ProcessScopeId) : Prop :=
  ∃ n op stage, s.kills n = some (op, stage) ∧ op.covers scope = true

/-- A signal to the process was called. -/
def SignalCalled (s : JobState) (p : ℕ) : Prop :=
  ∃ n stage, s.signals n = some (p, stage)

/-- Somebody called what ended or terminated the process; the close of a job in a cleanup never
does. -/
def Accounted (s : JobState) (p : ℕ) (x : OsProc JobObject JobExit) (e : JobExit) : Prop :=
  match e.cause with
  | .own | .setup => True
  | .job => e.code = KILLED ∧ ∃ job, x.container = some job ∧ s.KillCalled job.scope
  | .process => e.code = KILLED ∧ s.SignalCalled p
  | .closed => False

/-- **The invariant of the blame.** -/
structure Blamed (s : JobState) : Prop where
  settled : ∀ p x e, s.procs[p]? = some x → x.phase.exit = some e → s.Accounted p x e
  flagged : ∀ p r, s.readers p = some r → r.killed = true →
    s.KillCalled r.scope ∨ s.SignalCalled p

/-- A new backend has nothing to account for. -/
theorem blamed_new : new.Blamed where
  settled := nofun
  flagged := nofun

/-- Calls are not forgotten. -/
structure Remembers (s s' : JobState) : Prop where
  kills : ∀ scope, s.KillCalled scope → s'.KillCalled scope
  signals : ∀ p, s.SignalCalled p → s'.SignalCalled p

/-- A step that leaves the calls alone forgets none. -/
theorem Remembers.of_eq (hk : s'.kills = s.kills) (hs : s'.signals = s.signals) :
    s.Remembers s' where
  kills scope := by
    rintro ⟨n, op, stage, hn, hc⟩
    exact ⟨n, op, stage, hk ▸ hn, hc⟩
  signals p := by
    rintro ⟨n, stage, hn⟩
    exact ⟨n, stage, hs ▸ hn⟩

/-- A kill that goes on is remembered. -/
theorem Remembers.setKill {t : JobState} {stage : JobKill} (hk : t.kills = s.kills)
    (hs : t.signals = s.signals) (hop : ∀ c, s.kills n = some c → c.1 = op) :
    s.Remembers (t.setKill n op stage) where
  kills scope := by
    rintro ⟨m, op', stage', hm, hc⟩
    by_cases hmn : m = n
    · subst hmn
      obtain rfl : op' = op := hop _ hm
      exact ⟨m, op', stage, Function.update_self .., hc⟩
    · exact ⟨m, op', stage', (Function.update_of_ne hmn ..).trans (hk ▸ hm), hc⟩
  signals p := by
    rintro ⟨m, stage', hm⟩
    exact ⟨m, stage', hs ▸ hm⟩

/-- A signal that goes on is remembered. -/
theorem Remembers.setSignal {t : JobState} {stage : JobSignal} (hk : t.kills = s.kills)
    (hs : t.signals = s.signals) (hp : ∀ c, s.signals n = some c → c.1 = p) :
    s.Remembers (t.setSignal n p stage) where
  kills scope := by
    rintro ⟨m, op, stage', hm, hc⟩
    exact ⟨m, op, stage', hk ▸ hm, hc⟩
  signals q := by
    rintro ⟨m, stage', hm⟩
    by_cases hmn : m = n
    · subst hmn
      obtain rfl : q = p := hp _ hm
      exact ⟨m, stage, Function.update_self ..⟩
    · exact ⟨m, stage', (Function.update_of_ne hmn ..).trans (hs ▸ hm)⟩

/-- An end stays accounted for while the calls are remembered. -/
theorem Accounted.mono {x x' : OsProc JobObject JobExit} {e : JobExit} (h : s.Accounted p x e)
    (hr : s.Remembers s') (hc : x'.container = x.container) : s'.Accounted p x' e := by
  unfold Accounted at h ⊢
  split
  · trivial
  · trivial
  · next hcause =>
      rw [hcause] at h
      obtain ⟨hcode, job, hjob, hk⟩ := h
      exact ⟨hcode, job, hc.trans hjob, hr.kills _ hk⟩
  · next hcause =>
      rw [hcause] at h
      exact ⟨h.1, hr.signals p h.2⟩
  · next hcause => rwa [hcause] at h

/-- How a process ends was settled before, or is settled by somebody. -/
def Settles (s s' : JobState) : Prop :=
  ∀ p x' e, s'.procs[p]? = some x' → x'.phase.exit = some e →
    (∃ x, s.procs[p]? = some x ∧ x.phase.exit = some e ∧ x'.container = x.container) ∨
      s'.Accounted p x' e

/-- A flag that is set was set before, or somebody sets it. -/
def Flags (s s' : JobState) : Prop :=
  ∀ p r', s'.readers p = some r' → r'.killed = true →
    (∃ r, s.readers p = some r ∧ r.killed = true ∧ r'.scope = r.scope) ∨
      s'.KillCalled r'.scope ∨ s'.SignalCalled p

/-- A step that leaves the processes alone ends none. -/
theorem Settles.of_eq (h : s'.procs = s.procs) : s.Settles s' :=
  fun _ x' _ hx' he => .inl ⟨x', h ▸ hx', he, rfl⟩

/-- A step that leaves the readers alone flags none. -/
theorem Flags.of_eq (h : s'.readers = s.readers) : s.Flags s' :=
  fun _ r' hr' hk => .inl ⟨r', h ▸ hr', hk, rfl⟩

/-- A process that ends by itself is accounted for, if its end is. -/
theorem settles_finish {e : JobExit} (hp : s'.procs = s.procs.finish q e)
    (hacc : ∀ x, s'.Accounted q x e) : s.Settles s' := by
  intro p x' e' hx' he'
  rw [hp, OsProcs.getElem?_finish] at hx'
  obtain ⟨x, hx, rfl⟩ := Option.map_eq_some_iff.mp hx'
  split at he'
  · next heq =>
      subst heq
      rcases OsProc.exit_cases he' with hold | ⟨-, rfl⟩
      · exact .inl ⟨x, hx, hold, by split <;> rfl⟩
      · exact .inr (hacc _)
  · exact .inl ⟨x, hx, he', by split <;> rfl⟩

/-- A process whose termination begins is accounted for, if that is. -/
theorem settles_doom {e : JobExit} (hp : s'.procs = s.procs.doom q e)
    (hacc : ∀ x, s'.Accounted q x e) : s.Settles s' := by
  intro p x' e' hx' he'
  rw [hp, OsProcs.getElem?_doom] at hx'
  obtain ⟨x, hx, rfl⟩ := Option.map_eq_some_iff.mp hx'
  split at he'
  · next heq =>
      subst heq
      rcases OsProc.exit_cases ((x.exit_doom e).symm.trans he') with hold | ⟨-, rfl⟩
      · exact .inl ⟨x, hx, hold, by split <;> rfl⟩
      · exact .inr (hacc _)
  · exact .inl ⟨x, hx, he', by split <;> rfl⟩

/-- The termination of jobs is accounted for, if it is for each process in them. -/
theorem settles_terminate {P : JobObject → Bool} {e : JobExit}
    (hp : s'.procs = s.procs.terminate P e)
    (hacc : ∀ p x, s.procs[p]? = some x → x.phase.isLive = true → x.isIn P = true →
      s'.Accounted p x e) : s.Settles s' := by
  intro p x' e' hx' he'
  rw [hp, OsProcs.getElem?_terminate] at hx'
  obtain ⟨x, hx, rfl⟩ := Option.map_eq_some_iff.mp hx'
  split at he'
  · next hin =>
      rcases OsProc.exit_cases ((x.exit_doom e).symm.trans he') with hold | ⟨hnone, rfl⟩
      · exact .inl ⟨x, hx, hold, by rw [if_pos hin]; rfl⟩
      · refine .inr ?_
        rw [if_pos hin]
        exact (hacc p x hx (Phase.isLive_of_exit hnone) hin).mono (.of_eq rfl rfl) rfl
  · next hin => exact .inl ⟨x, hx, he', by rw [if_neg hin]⟩

/-- A step that forgets no call, and accounts for what it ends and flags. -/
theorem Blamed.remember (h : s.Blamed) (hr : s.Remembers s') (hp : s.Settles s')
    (hf : s.Flags s') : s'.Blamed where
  settled p x' e hx' he := by
    rcases hp p x' e hx' he with ⟨x, hx, hxe, hc⟩ | hnew
    · exact (h.settled p x e hx hxe).mono hr hc
    · exact hnew
  flagged p r' hr' hk := by
    rcases hf p r' hr' hk with ⟨r, hr₀, hk₀, hscope⟩ | hnew
    · rw [hscope]
      exact (h.flagged p r hr₀ hk₀).imp (hr.kills _) (hr.signals p)
    · exact hnew

/-- One reader changes that had its flag, or none. -/
theorem Flags.one {r r' : JobReader} (hr : s.readers p = some r) (hk : r'.killed = r.killed)
    (hscope : r'.scope = r.scope) (h : s'.readers = (s.setReader p r').readers) :
    s.Flags s' := by
  intro q r₁ hq hkilled
  rw [h] at hq
  rcases of_setReader hq with ⟨rfl, rfl⟩ | ⟨-, hq⟩
  · exact .inl ⟨r, hr, hk ▸ hkilled, hscope⟩
  · exact .inl ⟨r₁, hq, hkilled, rfl⟩

/-- **Every move is accounted for.** -/
theorem Blamed.move (h : s.Blamed) (hc : s.Confined) (hm : s.Move s') : s'.Blamed := by
  cases hm with
  | @forks parent procs hf =>
      refine h.remember (.of_eq rfl rfl) (fun p x' e hx' he => ?_) (.of_eq rfl)
      obtain ⟨container, hparent, rfl⟩ := OsProcs.fork_eq hf
      have hx' : (s.procs ++ [⟨container, .running⟩])[p]? = some x' := hx'
      rw [List.getElem?_append] at hx'
      split at hx'
      · exact .inl ⟨x', hx', he, rfl⟩
      · rw [List.getElem?_singleton] at hx'
        split at hx'
        · obtain rfl := Option.some.inj hx'
          cases he
        · cases hx'
  | exits q code =>
      exact h.remember (.of_eq rfl rfl) (settles_finish rfl fun _ => trivial) (.of_eq rfl)
  | creates scope =>
      refine h.remember (.of_eq rfl rfl) (fun p x' e hx' he => ?_) (.of_eq rfl)
      have hx' := (OsProcs.getElem?_create ..).symm.trans hx'
      split at hx'
      · obtain rfl := Option.some.inj hx'
        cases he
      · exact .inl ⟨x', hx', he, rfl⟩
  | @spawnAssigns p scope job hp hj =>
      obtain ⟨x₀, hx₀, hnone⟩ := hc.spawns p _ hp
      refine h.remember (.of_eq rfl rfl) (fun q x' e hx' he => ?_) (.of_eq rfl)
      by_cases hq : p = q
      · subst hq
        obtain rfl := Option.some.inj ((OsProcs.getElem?_assign_self hx₀).symm.trans hx')
        refine .inr ?_
        have hacc := h.settled p x₀ e hx₀ he
        unfold Accounted at hacc ⊢
        split
        · trivial
        · trivial
        · next hcause =>
            rw [hcause] at hacc
            obtain ⟨-, job', hjob', -⟩ := hacc
            cases hnone.symm.trans hjob'
        · next hcause =>
            rw [hcause] at hacc
            exact hacc
        · next hcause => rwa [hcause] at hacc
      · exact .inl ⟨x', (OsProcs.getElem?_assign_of_ne hq).symm.trans hx', he, rfl⟩
  | @spawnResumes p scope hp =>
      refine h.remember (.of_eq rfl rfl) (fun q x' e hx' he => ?_) (.of_eq rfl)
      obtain ⟨x, hx, rfl⟩ := Option.map_eq_some_iff.mp
        ((OsProcs.getElem?_resume s.procs p q).symm.trans hx')
      refine .inl ⟨x, hx, ?_, by split <;> rfl⟩
      split at he
      · exact x.exit_resume.symm.trans he
      · exact he
  | @spawnInserts p scope hp =>
      refine h.remember (.of_eq rfl rfl) (.of_eq rfl) fun q r' hr' hk => ?_
      rcases of_setReader hr' with ⟨rfl, rfl⟩ | ⟨-, hr'⟩
      · cases hk
      · exact .inl ⟨r', hr', hk, rfl⟩
  | spawnKills hp =>
      exact h.remember (.of_eq rfl rfl) (settles_doom rfl fun _ => trivial) (.of_eq rfl)
  | killGoesOn hn _ =>
      exact h.remember (.setKill rfl rfl fun c hc => (hn c hc).1) (.of_eq rfl) (.of_eq rfl)
  | @killFlags n op hn =>
      refine h.remember (.setKill rfl rfl fun c hc => ?_) (.of_eq rfl) fun q r' hr' hk => ?_
      · obtain rfl := Option.some.inj (hn.symm.trans hc)
        rfl
      · obtain ⟨r, hr, rfl⟩ := of_forSlots (f := JobReader.flag) hr'
        rw [visit] at hk ⊢
        split
        · next hcov =>
            rw [Bool.and_eq_true] at hcov
            exact .inr (.inl ⟨n, op, _, Function.update_self .., hcov.2⟩)
        · next hnot =>
            rw [if_neg hnot] at hk
            exact .inl ⟨r, hr, hk, rfl⟩
  | @killTerminates n op hn failed =>
      refine h.remember (.setKill rfl rfl fun c hc => ?_)
        (settles_terminate rfl fun p x _ _ hin => ?_) (.of_eq rfl)
      · obtain rfl := Option.some.inj (hn.symm.trans hc)
        rfl
      · obtain ⟨job, hjob, hv⟩ := OsProc.isIn_iff.mp hin
        simp only [victim, Bool.and_eq_true] at hv
        exact ⟨rfl, job, hjob, n, op, _, Function.update_self .., hv.1.2⟩
  | @killQueues n op ok hn =>
      refine h.remember (.setKill rfl rfl fun c hc => ?_) (.of_eq rfl) fun q r' hr' hk => ?_
      · obtain rfl := Option.some.inj (hn.symm.trans hc)
        rfl
      · obtain ⟨r, hr, rfl⟩ := of_forSlots hr'
        refine .inl ⟨r, hr, ?_, ?_⟩
        · rw [visit, offer] at hk
          split at hk
          · split at hk <;> exact hk
          · exact hk
        · rw [visit, offer]
          split
          · split <;> rfl
          · rfl
  | @killFinds n scope left job hn =>
      refine h.remember (.setKill rfl rfl fun c hc => ?_) (.of_eq rfl) (.of_eq rfl)
      obtain rfl := Option.some.inj (hn.symm.trans hc)
      rfl
  | @killRemoves n scope hn =>
      obtain ⟨job, hj, ha⟩ := hc.kills n _ _ hn scope rfl
      refine h.remember (.setKill rfl rfl fun c hc => ?_)
        (settles_terminate rfl fun p x hx hl hin => ?_) (.of_eq rfl)
      · obtain rfl := Option.some.inj (hn.symm.trans hc)
        rfl
      · obtain ⟨job', hjob', hclosed⟩ := OsProc.isIn_iff.mp hin
        obtain rfl : job = job' :=
          Option.some.inj (hj.symm.trans (of_decide_eq_true hclosed))
        have := OsProcs.active_eq_zero.mp ha p x hx (OsProc.isIn_iff.mpr ⟨job, hjob', by simp⟩)
        rw [hl] at this
        cases this
  | signalGoesOn hn _ =>
      exact h.remember (.setSignal rfl rfl fun c hc => (hn c hc).1) (.of_eq rfl) (.of_eq rfl)
  | @signalLocks p n hn =>
      refine h.remember (.setSignal rfl rfl fun c hc => ?_) (.of_eq rfl) (.of_eq rfl)
      obtain rfl := Option.some.inj (hn.symm.trans hc)
      rfl
  | @signalFlags p n r hn hr =>
      refine h.remember (.setSignal rfl rfl fun c hc => ?_) (.of_eq rfl) fun q r' hr' hk => ?_
      · obtain rfl := Option.some.inj (hn.symm.trans hc)
        rfl
      · rcases of_setReader hr' with ⟨rfl, rfl⟩ | ⟨-, hr'⟩
        · exact .inr (.inr ⟨n, _, Function.update_self ..⟩)
        · exact .inl ⟨r', hr', hk, rfl⟩
  | @signalTerminates p n hn =>
      refine h.remember (.setSignal rfl rfl fun c hc => ?_)
        (settles_doom rfl fun _ => ⟨rfl, n, _, Function.update_self ..⟩) (.of_eq rfl)
      obtain rfl := Option.some.inj (hn.symm.trans hc)
      rfl
  | @signalFails p n hn =>
      refine h.remember (.setSignal rfl rfl fun c hc => ?_) (.of_eq rfl) (.of_eq rfl)
      obtain rfl := Option.some.inj (hn.symm.trans hc)
      rfl
  | works hr _ hs =>
      obtain ⟨-, hscope, hk, -⟩ := JobReader.work_frame hs
      exact h.remember (.of_eq rfl rfl) (.of_eq rfl) (.one hr hk hscope rfl)
  | waitsInside _ hr ha hs =>
      have hk := JobReader.killed_of_call ha hs
      have hscope := (JobReader.idles_of_call ha hs).scope
      split
      · exact h.remember (.of_eq rfl rfl) (.of_eq rfl) (.one hr hk hscope rfl)
      · exact h.remember (.of_eq rfl rfl) (.of_eq rfl) (.one hr hk hscope rfl)
  | waits hr ha hs =>
      exact h.remember (.of_eq rfl rfl) (.of_eq rfl)
        (.one hr (JobReader.killed_of_call ha hs) (JobReader.idles_of_call ha hs).scope rfl)
  | _ => exact h.remember (.of_eq rfl rfl) (.of_eq rfl) (.of_eq rfl)

/-! ### All invariants -/

/-- **The invariant of the backend.** -/
structure Inv (s : JobState) : Prop where
  exclusive : s.Exclusive
  confined : s.Confined
  attended : s.Attended
  unkilled : s.Unkilled
  blamed : s.Blamed

/-- In a new backend nobody is inside the mutex. -/
theorem exclusive_new : new.Exclusive := by
  intro holder h
  cases holder with
  | spawn p =>
      obtain ⟨_, h, _⟩ := h
      cases h
  | kill n =>
      obtain ⟨_, _, h, _⟩ := h
      cases h
  | signal n =>
      obtain ⟨_, _, h, _⟩ := h
      cases h
  | wait p n =>
      obtain ⟨_, _, h, _⟩ := h
      cases h

/-- The invariant of a new backend. -/
theorem inv_new : new.Inv where
  exclusive := exclusive_new
  confined := confined_new
  attended := attended_new
  unkilled := nofun
  blamed := blamed_new

/-- Every move keeps the invariant. -/
theorem Inv.move (h : s.Inv) (hm : s.Move s') : s'.Inv where
  exclusive := h.exclusive.move hm
  confined := h.confined.move h.exclusive hm
  attended := h.attended.move h.exclusive h.confined h.unkilled hm
  unkilled := h.unkilled.move h.exclusive h.confined h.attended hm
  blamed := h.blamed.move h.confined hm

/-- A step of the backend is a move. -/
theorem move_of_step {a : JobAction} (hs : s.step a = some s') : s.Move s' := by
  rw [step, Option.ite_none_left_eq_some] at hs
  exact move_of_act hs.2

/-- **The invariant holds in every run of the backend.** -/
theorem inv_of_reaches (h : Reaches JobState.step new s) : s.Inv :=
  h.invariant inv_new fun _ _ _ hi hs => hi.move (move_of_step hs)

/-! ### What is dead -/

/-- Whatever is in the jobs of these scopes has ended, or is being terminated. -/
def Dying (s : JobState) (scopes : ProcessScopeId → Bool) : Prop :=
  ∀ (p : ℕ) (x : OsProc JobObject JobExit) (job : JobObject), s.procs[p]? = some x →
    x.container = some job → scopes job.scope = true → x.phase.exit.isSome = true

/-- Nothing in the jobs of these scopes is live. -/
def Dead (s : JobState) (scopes : ProcessScopeId → Bool) : Prop :=
  ∀ (p : ℕ) (x : OsProc JobObject JobExit) (job : JobObject), s.procs[p]? = some x →
    x.container = some job → scopes job.scope = true → x.phase.isLive = false

/-- A scope without a job is dead. -/
theorem Confined.dead (h : s.Confined) (hj : s.jobs scope = none) : s.Dead (· == scope) := by
  intro p x job hp hc hscope
  rw [← Bool.not_eq_true]
  intro hl
  have hheld := h.contained.held p x job hp hl hc
  rw [Held, beq_iff_eq.mp hscope, hj] at hheld
  cases hheld

/-- A kill whose calls succeeded spares nothing. -/
theorem Confined.dying_of_kill (h : s.Confined) (hn : s.kills n = some (op, .queueing true)) :
    s.Dying op.covers :=
  fun p x job hp hc hcov => h.kills n op _ hn p x hp (OsProc.isIn_iff.mpr ⟨job, hc, hcov⟩)

/-- **What a move does to processes**: none is gone, and how one ends stays settled. -/
theorem grows_of_move (hm : s.Move s') : OsProcs.Grows s.procs s'.procs := by
  cases hm with
  | forks hf => exact .fork hf
  | exits p code => exact .finish _ _ _
  | creates scope => exact .create _
  | spawnAssigns => exact .assign _ _ _
  | spawnResumes => exact .resume _ _
  | spawnKills => exact .doom _ _ _
  | killTerminates => exact .terminate _ _ _
  | killRemoves => exact .terminate _ _ _
  | signalTerminates => exact .doom _ _ _
  | waitsInside => split <;> exact .refl _
  | _ => exact .refl _

/-- **What runs do to processes.** -/
theorem grows_of_reaches (h : Reaches JobState.step s s') :
    OsProcs.Grows s.procs s'.procs :=
  h.invariant (I := fun t => OsProcs.Grows s.procs t.procs) (.refl _)
    fun _ _ _ hi hs => hi.trans (grows_of_move (move_of_step hs))

/-- **A cleanup that succeeds leaves nothing live** in its scope. -/
theorem dead_of_cleanup (h : s'.Confined) (hm : s.Move s')
    (hn' : s'.kills n = some (.cleanupScope scope, .returned true))
    (hn : s.kills n ≠ s'.kills n) : s'.Dead (· == scope) := by
  refine h.dead ?_
  cases hm with
  | killGoesOn _ _ hj =>
      rcases of_setKill hn' with ⟨rfl, rfl, heq⟩ | ⟨hne, hold⟩
      · exact hj scope rfl heq.symm
      · exact absurd (hold.trans hn'.symm) hn
  | killFlags =>
      rcases of_setKill hn' with ⟨-, -, heq⟩ | ⟨-, hold⟩
      · cases heq
      · exact absurd (hold.trans hn'.symm) hn
  | killTerminates =>
      rcases of_setKill hn' with ⟨-, -, heq⟩ | ⟨-, hold⟩
      · cases heq
      · exact absurd (hold.trans hn'.symm) hn
  | @killQueues m op ok =>
      rcases of_setKill hn' with ⟨-, rfl, heq⟩ | ⟨-, hold⟩
      · cases ok <;> cases heq
      · exact absurd (hold.trans hn'.symm) hn
  | killFinds =>
      rcases of_setKill hn' with ⟨-, -, heq⟩ | ⟨-, hold⟩
      · cases heq
      · exact absurd (hold.trans hn'.symm) hn
  | killRemoves =>
      rcases of_setKill hn' with ⟨-, heq, -⟩ | ⟨-, hold⟩
      · obtain rfl := KillOp.cleanupScope.inj heq
        exact Function.update_self ..
      · exact absurd (hold.trans hn'.symm) hn
  | waitsInside =>
      split at hn
      · exact absurd rfl hn
      · exact absurd rfl hn
  | _ => exact absurd rfl hn

/-! ### Disposal -/

/-- The backend is gone, nothing runs, and no slot is left. -/
structure Disposed (s : JobState) : Prop where
  disposed : s.disposed = true
  still : ∀ (p : ℕ) (x : OsProc JobObject JobExit), s.procs[p]? = some x → x.phase ≠ .running
  unregistered : ∀ p r, s.readers p = some r → r.registered = false

/-- **The close of the last handle** terminates everything that runs. -/
theorem Confined.disposed (h : s.Confined) (code : UInt32) : (s.dispose code).Disposed where
  disposed := rfl
  still p x hp := by
    have hdoomed := OsProcs.doomed_terminate s.procs (fun job => decide (s.Held job))
      ⟨code, .closed⟩
    exact h.contained.terminate.stopped (fun job hj => decide_eq_true hj) hdoomed hp
  unregistered p r hr := by
    obtain ⟨r₀, -, rfl⟩ := Option.map_eq_some_iff.mp hr
    rfl

/-- What was disposed of stays so, whatever the process tables do. -/
theorem Disposed.step (h : s.Disposed) {a : JobAction} (hs : s.step a = some s') :
    s'.Disposed := by
  rw [JobState.step, h.disposed, Bool.true_and, Option.ite_none_left_eq_some] at hs
  obtain ⟨hact, hs⟩ := hs
  cases a with
  | fork parent =>
      obtain ⟨procs, hf, rfl⟩ := Option.map_eq_some_iff.mp hs
      obtain ⟨container, hparent, -⟩ := OsProcs.fork_eq hf
      exact absurd rfl (h.still parent _ hparent)
  | exit p code =>
      obtain rfl := Option.some.inj hs
      refine { h with still := fun q x hq hr => ?_ }
      obtain ⟨x₀, hx₀, rfl⟩ := Option.map_eq_some_iff.mp
        ((OsProcs.getElem?_finish ..).symm.trans hq)
      split at hr
      · cases hr
      · exact h.still q x₀ hx₀ hr
  | work p status =>
      obtain ⟨r, hr, hs⟩ := Option.bind_eq_some_iff.mp hs
      rw [Option.ite_none_right_eq_some] at hs
      obtain ⟨r', hr', rfl⟩ := Option.map_eq_some_iff.mp hs.2
      refine { h with unregistered := fun q r₁ hq => ?_ }
      rcases of_setReader hq with ⟨rfl, rfl⟩ | ⟨-, hq⟩
      · exact (JobReader.work_frame hr').2.2.2.trans (h.unregistered q r hr)
      · exact h.unregistered q r₁ hq
  | _ => exact absurd rfl hact

/-- What was disposed of stays so over a run. -/
theorem Disposed.of_reaches (h : s.Disposed) (hr : Reaches JobState.step s s') : s'.Disposed :=
  hr.invariant h fun _ _ _ hi hs => hi.step hs

/-! ### Runs of one reader -/

/-- A reader takes a step of its own in a move of the backend, or none. -/
theorem Attended.reader_move (h : s.Attended) (hm : s.Move s') {r : JobReader}
    (hr : s.readers p = some r) :
    ∃ r', s'.readers p = some r' ∧ (r' = r ∨ ∃ a, r.step a = some r') := by
  have hserve : s.Serves s' →
      ∃ r', s'.readers p = some r' ∧ (r' = r ∨ ∃ a, r.step a = some r') := by
    intro hserve
    rcases hserve p with ⟨hnone, -⟩ | ⟨r₀, r', hr₀, hr', hstep⟩
    · cases hnone.symm.trans hr
    · obtain rfl := Option.some.inj (hr.symm.trans hr₀)
      exact ⟨r', hr', hstep.imp id fun ⟨a, ha, _⟩ => ⟨a, ha⟩⟩
  have hone : ∀ q r₁ r₂ a, s.readers q = some r₁ → r₁.step a = some r₂ →
      ∃ r', (s.setReader q r₂).readers p = some r' ∧ (r' = r ∨ ∃ a, r.step a = some r') := by
    intro q r₁ r₂ a hq hs
    by_cases hpq : p = q
    · subst hpq
      obtain rfl := Option.some.inj (hr.symm.trans hq)
      exact ⟨r₂, Function.update_self .., .inr ⟨a, hs⟩⟩
    · exact ⟨r, (Function.update_of_ne hpq ..).trans hr, .inl rfl⟩
  cases hm with
  | @spawnInserts q scope hq =>
      have hne : p ≠ q := by
        rintro rfl
        cases (h.fresh p _ hq rfl).symm.trans hr
      exact ⟨r, (Function.update_of_ne hne ..).trans hr, .inl rfl⟩
  | killFlags => exact hserve (.loop (fun r => .inr (flag_step r)) rfl)
  | killQueues => exact hserve (.loop offer_step rfl)
  | signalFlags _ hq => exact hone _ _ _ .flag hq rfl
  | works hq _ hs => exact hone _ _ _ _ hq hs
  | waitsInside _ hq _ hs =>
      split
      · exact hone _ _ _ _ hq hs
      · exact hone _ _ _ _ hq hs
  | waits hq _ hs => exact hone _ _ _ _ hq hs
  | _ => exact ⟨r, hr, .inl rfl⟩

/-- **A run of the backend is a run of each of its readers.** -/
theorem Inv.reader_reaches (h : s.Inv) (hr : Reaches JobState.step s s') {r : JobReader}
    (hp : s.readers p = some r) :
    ∃ r', s'.readers p = some r' ∧ Reaches JobReader.step r r' := by
  have hrun : s'.Inv ∧ ∃ r', s'.readers p = some r' ∧ Reaches JobReader.step r r' := by
    refine hr.invariant
      (I := fun t => t.Inv ∧ ∃ r', t.readers p = some r' ∧ Reaches JobReader.step r r')
      ⟨h, r, hp, .initial⟩ fun t a t' ht hs => ⟨ht.1.move (move_of_step hs), ?_⟩
    obtain ⟨hi, r₁, hr₁, hreach⟩ := ht
    obtain ⟨r₂, hr₂, rfl | ⟨b, hb⟩⟩ := hi.attended.reader_move (move_of_step hs) hr₁
    · exact ⟨r₂, hr₂, hreach⟩
    · exact ⟨r₂, hr₂, hreach.next b hb⟩
  exact hrun.2

/-- A process that was killed has the exit code of a kill. -/
theorem Accounted.code_of_isKill {x : OsProc JobObject JobExit} {e : JobExit}
    (h : s.Accounted p x e) (hk : e.cause.isKill = true) : e.code = KILLED := by
  unfold Accounted at h
  split at h
  · next hcause =>
      rw [hcause] at hk
      cases hk
  · next hcause =>
      rw [hcause] at hk
      cases hk
  · exact h.1
  · exact h.1
  · exact h.elim

/-- A kill leaves a token for every worker that it offers one to. -/
theorem token_of_kill {ok : Bool} {failed : List ProcessScopeId} {r : JobReader}
    (hk : s.kills n = some (op, .queueing ok)) (hs : s.step (.runKill n failed) = some s')
    (hr : s'.readers p = some r) (hreg : r.registered = true) (hcov : op.covers r.scope = true)
    (hw : r.worker ≠ .stopped) : 0 < r.tokens := by
  rw [step, Option.ite_none_left_eq_some] at hs
  obtain ⟨-, hs⟩ := hs
  rw [act, hk, Option.bind_some] at hs
  obtain rfl := Option.some.inj hs
  obtain ⟨r₀, -, rfl⟩ := of_forSlots hr
  rw [visit] at hreg hcov hw ⊢
  split
  · rw [offer]
    split
    · next hvisit hstopped =>
        rw [if_pos hvisit, offer, if_pos hstopped] at hw
        exact absurd hstopped hw
    · exact Nat.one_pos
  · next hvisit =>
      rw [if_neg hvisit] at hreg hcov
      exact absurd (by rw [hreg, hcov]; rfl) hvisit

/-! ### Schedules -/

/-- A root that is set up in a scope. -/
def rootOf (p : ℕ) (scope : ProcessScopeId) : List JobAction :=
  .spawn scope :: List.replicate 7 (.setup p true)

/-- A native wait that fails, up to the wait for a retry token. -/
def failedWait (p : ℕ) : List JobAction :=
  List.replicate 5 (.work p (.error "wait"))

/-- A root forks, its native wait fails, and its scope is killed. -/
def killedScope : List JobAction :=
  rootOf 0 1 ++ [.fork 0] ++ failedWait 0 ++
    [.kill 0 (.hardKillScope 1), .runKill 0 [], .runKill 0 []]

end JobState

open JobState

variable {s s₁ s₂ : JobState}

/-- **Jobs contain what runs**, in every run of the backend. What runs is in a job whose handle is
in the registry. Once the system calls of a kill have succeeded, whatever is in its scopes has
ended or is being terminated until it gives the mutex back, and nothing of it ever runs again. A
cleanup that succeeds leaves nothing live in its scope, not even what is being terminated. When
the backend is dropped, nothing runs any more, and no worker waits for a token. -/
theorem job_backend_contains_processes (h : Reaches JobState.step new s) :
    (∀ (p : ℕ) (x : OsProc JobObject JobExit), s.procs[p]? = some x → x.phase = .running →
      ∃ job, x.container = some job ∧ s.jobs job.scope = some job) ∧
    (∀ n op, s.kills n = some (op, .queueing true) → s.Dying op.covers ∧
      ∀ s', Reaches JobState.step s s' → ∀ (p : ℕ) (x : OsProc JobObject JobExit) (job : JobObject),
        s.procs[p]? = some x → x.container = some job → op.covers job.scope = true →
        ∃ x', s'.procs[p]? = some x' ∧ x'.phase ≠ .running) ∧
    (∀ a s' n scope, s.step a = some s' →
      s'.kills n = some (.cleanupScope scope, .returned true) → s.kills n ≠ s'.kills n →
      s'.Dead (· == scope)) ∧
    (∀ code s', Reaches JobState.step (s.dispose code) s' →
      (∀ (p : ℕ) (x : OsProc JobObject JobExit), s'.procs[p]? = some x → x.phase ≠ .running) ∧
      ∀ p r, s'.readers p = some r → r.worker ≠ .stopped → r.Runs) := by
  have hi := inv_of_reaches h
  refine ⟨fun p x hp hr => hi.confined.contained.running hp hr,
    fun n op hn => ?_, fun a s' n scope hs hn' hn => ?_, fun code s' hr => ?_⟩
  · have hdying := hi.confined.dying_of_kill hn
    exact ⟨hdying, fun s' hr p x job hp hc hcov =>
      (grows_of_reaches hr).not_running hp (hdying p x job hp hc hcov)⟩
  · have hm := move_of_step hs
    exact dead_of_cleanup (hi.move hm).confined hm hn' hn
  · have hd := (hi.confined.disposed code).of_reaches hr
    refine ⟨hd.still, fun p r hp hw => JobReader.runs_iff.mpr ⟨hw, fun ⟨_, _, hreg⟩ => ?_⟩⟩
    cases (hd.unregistered p r hp).symm.trans hreg

/-- The kill reaches the fork as well, which is still live, while the worker of the root waits for
a token. -/
theorem killed_scope_is_dying : ∃ s, Reaches JobState.step new s ∧
    (s.procs.length = 2 ∧ s.procs.active (fun job => job.scope == 1) = 2 ∧
      s.kills 0 = some (.hardKillScope 1, .queueing true)) ∧
    s.Dying (KillOp.hardKillScope 1).covers := by
  obtain ⟨s, hs, hP⟩ := Reaches.exists_of_follow JobState.step new killedScope
    (fun s => s.procs.length = 2 && (s.procs.active (fun job => job.scope == 1) = 2 &&
      s.kills 0 = some (.hardKillScope 1, .queueing true))) (by decide +kernel)
  simp only [Bool.and_eq_true, decide_eq_true_eq] at hP
  exact ⟨s, hs, hP, ((job_backend_contains_processes hs).2.1 0 _ hP.2.2).1⟩

/-- **The exits of jobs are accounted for.** A process that a job or a signal ended has the exit
code of a kill, and a kill of the scope of its job or a signal to it was called; the close of a
job in a cleanup ends nothing. An exit that is published is that of the process, and its signal is
`Kill` when the backend killed it, and only when the code is that of a kill and somebody had called
one. -/
theorem job_exits_are_accounted_for (h : Reaches JobState.step new s) :
    (∀ (p : ℕ) (x : OsProc JobObject JobExit) (e : JobExit), s.procs[p]? = some x →
      x.phase = .ended e → s.Accounted p x e) ∧
    (∀ p r raw, s.readers p = some r → r.Exited raw →
      ∃ (x : OsProc JobObject JobExit) (e : JobExit), s.procs[p]? = some x ∧ x.phase = .ended e ∧
        raw.code = some e.code.toInt32.toInt ∧
        (e.cause.isKill = true → raw.signal = some .kill) ∧
        (raw.signal = some .kill →
          e.code = KILLED ∧ (s.KillCalled r.scope ∨ s.SignalCalled p))) := by
  have hi := inv_of_reaches h
  have hended : ∀ (p : ℕ) (x : OsProc JobObject JobExit) (e : JobExit), s.procs[p]? = some x →
      x.phase = .ended e → s.Accounted p x e :=
    fun p x e hx he => hi.blamed.settled p x e hx (by rw [he]; rfl)
  refine ⟨hended, fun p r raw hr hraw => ?_⟩
  obtain ⟨x, hx, ha⟩ := hi.attended.attends p r hr
  obtain ⟨e, killed, he, rfl, hset, hkill⟩ := ha.exited raw hraw
  refine ⟨x, e, hx, he, rfl, fun hk => ?_, fun hsignal => ?_⟩
  · have hcode := (hended p x e hx he).code_of_isKill hk
    rw [rawExit, hkill hk, hcode]
    rfl
  · rw [rawExit] at hsignal
    split at hsignal
    · next hboth =>
        rw [Bool.and_eq_true, beq_iff_eq] at hboth
        exact ⟨hboth.2, hi.blamed.flagged p r hr (hset hboth.1)⟩
    · cases hsignal

/-- After the kill the worker has its token, and reaps the root once it has ended; a call of
`wait` returns the exit. -/
def reapedRoot : List JobAction :=
  killedScope ++ [.runKill 0 [], .exit 0 0] ++ List.replicate 4 (.work 0 (.ok KILLED)) ++
    .startWait 0 0 :: List.replicate 3 (.runWait 0 0)

/-- The exit of a killed root that `wait` returned says `Kill`, and the kill is remembered. -/
theorem reaped_root_is_accounted_for : ∃ s r raw, Reaches JobState.step new s ∧
    s.readers 0 = some r ∧ r.calls 0 = some (.returned (.ok raw)) ∧
    raw.signal = some .kill ∧ (s.KillCalled 1 ∨ s.SignalCalled 0) := by
  obtain ⟨s, hs, hP⟩ := Reaches.exists_of_follow JobState.step new reapedRoot
    (fun s => (s.readers 0).any fun r =>
      r.scope = 1 && r.log.head? = some (.ok (rawExit true KILLED)) &&
        r.calls 0 = some (.returned (.ok (rawExit true KILLED)))) (by decide +kernel)
  obtain ⟨r, hr, hP⟩ := (Option.any_eq_true ..).mp hP
  simp only [Bool.and_eq_true, decide_eq_true_eq] at hP
  obtain ⟨⟨hscope, hlog⟩, hcall⟩ := hP
  obtain ⟨x, e, -, -, -, -, hblame⟩ := (job_exits_are_accounted_for hs).2 0 r _ hr hlog
  exact ⟨s, r, _, hs, hr, hcall, rfl, hscope ▸ (hblame rfl).2⟩

/-- **No call of `wait` is left behind**, in every run of the backend. A call that is suspended
and has seen every publication has a worker that goes on and is not about to leave its loop; a
call that returns an exit returns the last publication; and a call that returns an error returns
one that was published, unless the root was unknown: that the channel of its worker is closed it
never finds. -/
theorem job_waits_are_answered (h : Reaches JobState.step new s) (p : ℕ) (r : JobReader)
    (hr : s.readers p = some r) :
    (∀ n c seen, r.calls n = some c → c.suspended = some seen → seen = r.log.length →
      r.Runs ∧ r.worker.isLeaving = false) ∧
    (∀ n raw, r.calls n = some (.returned (.ok raw)) → r.Exited raw) ∧
    (∀ n m, r.calls n = some (.returned (.error m)) →
      m = "unknown process handle" ∨ .error m ∈ r.log) := by
  have hi := JobReader.inv_of_reaches ((inv_of_reaches h).attended.reached p r hr)
  exact ⟨fun n c seen hc hs hseen => hi.runs hc hs hseen, fun n raw hc => hi.knows n _ hc,
    fun n m hc => hi.knows n _ hc⟩

/-- A call finds the error of a failed wait, offers its token and is suspended. -/
theorem suspended_wait_is_answered : ∃ s r, Reaches JobState.step new s ∧
    s.readers 0 = some r ∧ r.calls 0 = some (.awaitingRetry 1) ∧ r.log.length = 1 ∧ r.Runs := by
  obtain ⟨s, hs, hP⟩ := Reaches.exists_of_follow JobState.step new
    (rootOf 0 1 ++ failedWait 0 ++ .startWait 0 0 :: List.replicate 2 (.runWait 0 0))
    (fun s => (s.readers 0).any fun r =>
      r.calls 0 = some (.awaitingRetry 1) && r.log.length = 1) (by decide +kernel)
  obtain ⟨r, hr, hP⟩ := (Option.any_eq_true ..).mp hP
  simp only [Bool.and_eq_true, decide_eq_true_eq] at hP
  have := (job_waits_are_answered hs 0 r hr).1 0 _ 1 hP.1 rfl hP.2.symm
  exact ⟨s, r, hs, hr, hP.1, hP.2, this.1⟩

/-- **A wait never returns the failure that it found**: a call that finds an error after `seen`
publications returns, if it does, one that is newer. -/
theorem job_wait_returns_newer {p n seen : ℕ} {r₁ r₂ : JobReader}
    {result : Except String RawExit} (h : Reaches JobState.step new s₁)
    (hr₁ : s₁.readers p = some r₁) (hfound : r₁.calls n = some (.retrying seen))
    (hrun : Reaches JobState.step s₁ s₂) (hr₂ : s₂.readers p = some r₂)
    (hret : r₂.calls n = some (.returned result)) :
    result ∈ r₂.log.take (r₂.log.length - seen) := by
  have hi := inv_of_reaches h
  obtain ⟨r', hr', hreach⟩ := hi.reader_reaches hrun hr₁
  obtain rfl := Option.some.inj (hr'.symm.trans hr₂)
  exact JobReader.returns_newer (hi.attended.reached p r₁ hr₁) hfound hreach hret

/-- A call finds the error of the first wait; the kill of the scope lets the second one succeed. -/
theorem retried_wait_is_newer : ∃ s r, Reaches JobState.step new s ∧ s.readers 0 = some r ∧
    r.calls 0 = some (.returned (.ok (rawExit true KILLED))) ∧
    .ok (rawExit true KILLED) ∈ r.log.take (r.log.length - 1) := by
  obtain ⟨s₁, s₂, hs₁, hs₂, hP⟩ := Reaches.exists_of_follow_follow JobState.step new
    (rootOf 0 1 ++ failedWait 0 ++ [.startWait 0 0, .runWait 0 0])
    ([.runWait 0 0, .kill 0 .hardKillAll, .runKill 0 [], .runKill 0 [], .runKill 0 [], .exit 0 0] ++
      List.replicate 4 (.work 0 (.ok KILLED)) ++ List.replicate 3 (.runWait 0 0))
    (fun s₁ s₂ => (s₁.readers 0).any (fun r => r.calls 0 = some (.retrying 1)) &&
      (s₂.readers 0).any fun r => r.calls 0 = some (.returned (.ok (rawExit true KILLED))))
    (by decide +kernel)
  rw [Bool.and_eq_true] at hP
  obtain ⟨r₁, hr₁, hfound⟩ := (Option.any_eq_true ..).mp hP.1
  obtain ⟨r₂, hr₂, hret⟩ := (Option.any_eq_true ..).mp hP.2
  exact ⟨s₂, r₂, hs₁.trans hs₂, hr₂, of_decide_eq_true hret,
    job_wait_returns_newer hs₁ hr₁ (of_decide_eq_true hfound) hs₂ hr₂ (of_decide_eq_true hret)⟩

/-- **A kill has a failed worker wait again.** When a kill offers its tokens to the root, the
worker does not wait for a token before it has begun a native wait after the kill. -/
theorem job_kill_starts_a_wait {n p : ℕ} {op : KillOp} {ok : Bool} {failed : List ProcessScopeId}
    {r₁ r₂ : JobReader} (h : Reaches JobState.step new s)
    (hk : s.kills n = some (op, .queueing ok)) (hs : s.step (.runKill n failed) = some s₁)
    (hr₁ : s₁.readers p = some r₁) (hreg : r₁.registered = true)
    (hcov : op.covers r₁.scope = true) (hw : r₁.worker ≠ .stopped)
    (hrun : Reaches JobState.step s₁ s₂) (hr₂ : s₂.readers p = some r₂)
    (hempty : r₂.tokens = 0) : r₁.waits < r₂.waits := by
  have hi := inv_of_reaches (h.next _ hs)
  obtain ⟨r', hr', hreach⟩ := hi.reader_reaches hrun hr₁
  obtain rfl := Option.some.inj (hr'.symm.trans hr₂)
  exact JobReader.begins_wait_of_token (token_of_kill hk hs hr₁ hreg hcov hw) hreach hempty

/-- The worker fails again after the kill, in a wait of its own. -/
theorem killed_root_is_waited_for : ∃ s r, Reaches JobState.step new s ∧
    s.readers 0 = some r ∧ r.worker = .receiving ∧ 1 < r.waits := by
  obtain ⟨s, hs, hP⟩ := Reaches.exists_of_follow JobState.step new killedScope
    (fun s => s.kills 0 = some (.hardKillScope 1, .queueing true) &&
      (s.step (.runKill 0 [])).any fun s₁ =>
        ((s₁.readers 0).any fun r =>
          r.registered && r.scope = 1 && r.worker = .receiving && r.waits = 1) &&
        (follow JobState.step s₁ (failedWait 0)).any fun s₂ =>
          (s₂.readers 0).any fun r => r.worker = .receiving && r.tokens = 0)
    (by decide +kernel)
  rw [Bool.and_eq_true, decide_eq_true_eq] at hP
  obtain ⟨hk, hP⟩ := hP
  obtain ⟨s₁, hs₁, hP⟩ := (Option.any_eq_true ..).mp hP
  rw [Bool.and_eq_true] at hP
  obtain ⟨r₁, hr₁, hP₁⟩ := (Option.any_eq_true ..).mp hP.1
  obtain ⟨s₂, hs₂, hP₂⟩ := (Option.any_eq_true ..).mp hP.2
  obtain ⟨r₂, hr₂, hP₂⟩ := (Option.any_eq_true ..).mp hP₂
  simp only [Bool.and_eq_true, decide_eq_true_eq] at hP₁ hP₂
  obtain ⟨⟨⟨hreg, hscope⟩, hworker⟩, hwaits⟩ := hP₁
  have hreach : Reaches JobState.step s₁ s₂ := .of_follow hs₂
  have := job_kill_starts_a_wait hs hk hs₁ hr₁ hreg (by rw [hscope]; rfl) (by rw [hworker]; nofun)
    hreach hr₂ hP₂.2
  exact ⟨s₂, r₂, (hs.next _ hs₁).trans hreach, hr₂, hP₂.1, hwaits ▸ this⟩

end Shepherd
