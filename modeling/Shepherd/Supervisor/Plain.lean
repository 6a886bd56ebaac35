import Shepherd.Conc.Ghost
import Shepherd.Supervisor.Soundness

/-!
# Plain Programs

Some operations are rare: an observed scope's owner is taken by the calls that consume it, a
spawn notes the time and keeps the capture of its process, and a monitor records the exit,
retains the capture and removes what is noted. Every other program of the supervisor is
**plain**: it performs none of them.

* `Plain` — with one lemma for each program, in the order of the code.
* `Role.performs`, `Role.returns` — what a role performs beside plain operations, and what it
  alone returns (`all_role`); what runs when it is dropped is plain (`all_unwind`).
-/

open Std

namespace Shepherd

open Conc

variable {α β : Type} {c : ProcessScopeId} {p : ProcessId} {opts : TerminateOptions}

/-- Neither takes an owner nor belongs to a spawn or a monitor alone. -/
def Op.plain : Op → Bool
  | .takeOwner _ | .insertSpawnTime _ | .keepOutput _ _ | .recordMonitored _ _ _
  | .removeSample _ | .retainCompletedOutput _ | .removeSpawnTime _ => false
  | .orObserve _ o | .orElapsed o => o.plain
  | _ => true

/-- Every operation of the program is plain. -/
abbrev Plain (p : Code α) : Prop :=
  p.All (fun o => o.plain = true) fun _ => True

namespace Plain

/-- A program is plain if its first operation and all its continuations are. -/
theorem op {o : Op} {k : Res o → Code α} (ho : o.plain = true) (hk : ∀ r, Plain (k r)) :
    Plain (.op o k) :=
  ⟨ho, hk⟩

/-- A program that begins with a plain operation is plain if its rest is. -/
theorem step {o : Op} {f : Res o → Code α} (ho : o.plain = true) (hf : ∀ r, Plain (f r)) :
    Plain (Shepherd.act o >>= f) :=
  ⟨ho, hf⟩

/-- A program that performs nothing is plain. -/
theorem pure (v : α) : Plain (.pure v) :=
  trivial

/-- Plain programs in a row are plain. -/
theorem bind {p : Code α} {f : α → Code β} (hp : Plain p) (hf : ∀ v, Plain (f v)) :
    Plain (p >>= f) :=
  Prog.All.bind hp fun v _ => hf v

/-- A plain operation alone. -/
theorem act {o : Op} (ho : o.plain = true) : Plain (act o) :=
  ⟨ho, fun _ => trivial⟩

/-- Handing events to the handlers, in turn, is plain. -/
theorem dispatch (events : List DomainEvent) : Plain (dispatch events) := by
  induction events with
  | nil => exact pure ()
  | cons ev rest ih => exact step rfl fun _ => step rfl fun _ => step rfl fun _ => ih

/-- A race with an observer performs the operations of the program alone, so it is plain with it; by
induction on the program. -/
theorem race (observer : WaitFuture) {p : Code (Except TerminateError ProcessExit)}
    (hp : Plain p) : Plain (race observer p) := by
  induction p with
  | pure v => exact pure v
  | op o k ih =>
      rw [Shepherd.race]
      split
      · refine op hp.1 fun r => ?_
        cases r with
        | inl exit =>
            dsimp only
            split
            · exact pure _
            · exact hp
        | inr r => exact ih r (hp.2 r)
      · exact op hp.1 fun r => ih r (hp.2 r)

/-- A program under a timeout performs its own operations or stops, so it is plain with it; by
induction on the program. -/
theorem within {p : Code α} (hp : Plain p) : Plain (within p) := by
  induction p with
  | pure v => exact pure _
  | op o k ih =>
      rw [Shepherd.within]
      split
      · refine op hp.1 fun r => ?_
        cases r with
        | none => exact pure _
        | some r => exact ih r (hp.2 r)
      · exact op hp.1 fun r => ih r (hp.2 r)

/-- The kill of a process that could not be attached. -/
theorem killOrphan (os : OsIdentity) : Plain (killOrphan os) :=
  step rfl fun _ => step rfl fun _ => step rfl fun _ => pure _

/-- The start of the sampler, with or without a place for it. -/
theorem startSampler : Plain startSampler := by
  refine step rfl fun r => ?_
  split
  · exact pure _
  · exact step rfl fun _ => pure _

/-! ### Waiting for and terminating a process -/

/-- `wait` looks at the waiters only. -/
theorem wait (p : ProcessId) : Plain (wait p) := by
  refine step rfl fun r => ?_
  split
  · exact pure _
  · refine step rfl fun r => ?_
    split
    · exact pure _
    · exact pure _
    · exact pure _
    · exact step rfl fun _ => pure _

/-- A retry that recovers an exit dispatches it, which is plain. -/
theorem recordRecoveredExit (raw : RawExit) : Plain (recordRecoveredExit c p raw) := by
  refine step rfl fun r => ?_
  split
  · exact pure _
  · exact bind (dispatch _) fun _ => pure _

/-- The retry of a wait after a forced kill. -/
theorem retryForced (os : OsIdentity) : Plain (retryForced c p os opts) := by
  refine step rfl fun r => ?_
  split
  · exact recordRecoveredExit _
  · exact pure _
  · exact pure _

/-- The retry for a process whose wait had failed, which signals first. -/
theorem retryQuarantined (os : OsIdentity) (graceful : Signal) :
    Plain (retryQuarantined c p os graceful opts) := by
  refine step rfl fun _ => step rfl fun _ => step rfl fun r => ?_
  split
  · exact recordRecoveredExit _
  · exact step rfl fun _ => step rfl fun _ => step rfl fun _ => retryForced os
  · exact step rfl fun _ => retryForced os

/-- The part of a termination behind its first signal. -/
theorem terminateSignalled (os : OsIdentity) (graceful : Signal) (exitFuture : WaitFuture) :
    Plain (terminateSignalled c p os graceful exitFuture opts) := by
  refine step rfl fun _ => step rfl fun r => ?_
  split
  · exact pure _
  · refine step rfl fun _ => step rfl fun _ => step rfl fun r => ?_
    split
    · exact pure _
    · exact pure _

/-- `terminate` takes no owner and records no exit of its own. -/
theorem terminate (p : ProcessId) (opts : TerminateOptions) : Plain (terminate p opts) := by
  refine step rfl fun r => ?_
  split
  · exact pure _
  · refine step rfl fun r => ?_
    split
    · exact pure _
    · exact pure _
    · exact pure _
    · exact pure _
    · split
      · exact retryQuarantined _ _
      · refine bind (dispatch _) fun _ => step rfl fun r => ?_
        split
        · split
          · exact pure _
          · exact retryQuarantined _ _
        · exact terminateSignalled _ _ _

/-! ### Terminating a scope -/

/-- A termination worker performs what `terminate` does. -/
theorem worker (observer : WaitFuture) : Plain (worker p observer opts) := by
  refine step rfl fun r => ?_
  split
  · split
    · exact pure _
    · exact terminate p opts
  · exact race observer (terminate p opts)

/-- One worker for each live process; by induction on the list. -/
theorem startWorkers (live : List (ProcessId × WaitFuture)) :
    Plain (startWorkers c opts live) := by
  induction live with
  | nil => exact pure _
  | cons po rest ih => exact step rfl fun _ => bind ih fun _ => pure _

/-- The loop that joins the workers, whatever its order; by induction on how many are left. -/
theorem joinWorkers (n : ℕ) (workers : List Tid) : Plain (joinWorkers c n workers) := by
  induction n generalizing workers with
  | zero => exact pure _
  | succ n ih =>
      refine step rfl fun r => ?_
      obtain ⟨w, result⟩ := r
      dsimp only
      split
      · exact step rfl fun _ => ih _
      · exact step rfl fun _ => ih _
      · exact pure _

/-- A second look at one process whose outcome is not verified. -/
theorem reobserveOne (p : ProcessId) : Plain (reobserveOne opts p) := by
  rw [Shepherd.reobserveOne]
  split
  · exact within (wait p)
  · exact bind (wait p) fun _ => pure _

/-- A second look at all outcomes; by induction on the outcomes. -/
theorem reobserve (outcomes : List (ProcessId × TerminationOutcome)) :
    Plain (reobserve opts outcomes) := by
  induction outcomes with
  | nil => exact pure _
  | cons po rest ih =>
      obtain ⟨p, outcome⟩ := po
      rw [Shepherd.reobserve]
      split
      · exact bind ih fun _ => pure _
      · refine bind (reobserveOne p) fun r => ?_
        split
        · exact bind ih fun _ => pure _
        · exact bind ih fun _ => pure _

/-- The six steps that take a committed scope out of the stores. -/
theorem retireScope (report : ScopeTerminationReport) : Plain (retireScope c report) :=
  step rfl fun _ => step rfl fun _ => step rfl fun _ => step rfl fun _ => step rfl fun _ =>
    step rfl fun _ => pure _

/-- A commit, of an observed scope or not. -/
theorem commit (report : ScopeTerminationReport) : Plain (commit c report) := by
  refine step rfl fun _ => step rfl fun r => ?_
  split
  · exact step rfl fun _ => step rfl fun _ => retireScope report
  · exact retireScope report

/-- A termination from its containment sweep on. -/
theorem concludeScope (c : ProcessScopeId) (opts : TerminateOptions) :
    Plain (concludeScope c opts) := by
  refine step rfl fun r => ?_
  split
  · exact pure _
  · refine step rfl fun _ => bind (reobserve _) fun _ => step rfl fun _ => ?_
    dsimp only
    split
    · exact bind (commit _) fun _ => pure _
    · exact pure _

/-- A termination of a scope under the operation lock. -/
theorem terminateScopeSerialized (c : ProcessScopeId) (opts : TerminateOptions) :
    Plain (terminateScopeSerialized c opts) := by
  refine step rfl fun r => ?_
  split
  · exact pure _
  · refine step rfl fun r => ?_
    split
    · exact pure _
    · refine bind (dispatch _) fun _ => bind (startWorkers _) fun _ => bind (joinWorkers _ _)
        fun r => ?_
      split
      · exact concludeScope c opts
      · exact pure _

/-- A termination that takes and releases the operation lock. -/
theorem terminateScopeOperation (c : ProcessScopeId) (opts : TerminateOptions) :
    Plain (terminateScopeOperation c opts) := by
  refine step rfl fun r => ?_
  split
  · exact step rfl fun _ => pure _
  · exact bind (terminateScopeSerialized c opts) fun _ => step rfl fun _ => pure _

/-- `terminate_scope`, which may find the report of an earlier commit. -/
theorem terminateScope (c : ProcessScopeId) (opts : TerminateOptions) :
    Plain (terminateScope c opts) := by
  refine step rfl fun r => ?_
  split
  · exact pure _
  · refine step rfl fun r => ?_
    split
    · exact terminateScopeOperation c opts
    · refine step rfl fun r => ?_
      split
      · exact pure _
      · exact pure _

/-! ### Observed scopes -/

/-- The end of a cleanup: a publication, behind a hard kill if it is unverified. -/
theorem completeCleanup (result : CleanupResult) : Plain (completeCleanup c result) := by
  refine step rfl fun r => ?_
  split
  · exact step rfl fun _ => pure _
  · split
    · exact step rfl fun _ => pure _
    · exact step rfl fun _ => step rfl fun _ => pure _

/-- The cleanup of an observed scope. -/
theorem finishScopeCleanup (c : ProcessScopeId) (opts : TerminateOptions) :
    Plain (finishScopeCleanup c opts) := by
  refine step rfl fun r => ?_
  split
  · exact completeCleanup _
  · exact bind (terminateScope c opts) fun _ => completeCleanup _

/-- The backstop of a cleanup that does not come to its end. -/
theorem dropBackstop (c : ProcessScopeId) : Plain (dropBackstop c) := by
  refine step rfl fun r => ?_
  split
  · exact pure _
  · exact step rfl fun _ => step rfl fun _ => pure _

/-- The publication for a cleanup worker that failed. -/
theorem publishWorkerError (c : ProcessScopeId) (withScope : Bool) :
    Plain (publishWorkerError c withScope) := by
  rw [Shepherd.publishWorkerError]
  split
  · exact act rfl
  · exact pure _

/-- Waiting for the result of a cleanup. -/
theorem waitScopeCleanup (c : ProcessScopeId) : Plain (waitScopeCleanup c) := by
  refine step rfl fun r => ?_
  split
  · exact act rfl
  · exact pure _

/-! ### Shutdown -/

/-- The scopes of a shutdown are terminated in turn; by induction on the list. -/
theorem shutdownScopes (scopes : List ProcessScopeId) : Plain (shutdownScopes scopes) := by
  induction scopes with
  | nil => exact pure _
  | cons c rest ih =>
      refine bind (terminateScopeOperation c .default) fun r => ?_
      split
      · exact bind ih fun _ => pure _
      · exact bind ih fun _ => pure _

/-- The join of the sampler at the end of a shutdown. -/
theorem joinSampler : Plain joinSampler := by
  refine step rfl fun r => ?_
  split
  · exact step rfl fun _ => step rfl fun _ => step rfl fun _ => pure _
  · exact step rfl fun _ => pure _

/-- The drop of the guard of the supervisor kills what is left, which is plain. -/
theorem dropCleanupGuard : Plain dropCleanupGuard :=
  step rfl fun _ => step rfl fun _ => step rfl fun _ => pure _

end Plain

/-! ### Roles -/

/-- The operations of a role: plain ones, and those that only this role performs. -/
def Role.performs (role : Role) (o : Op) : Prop :=
  o.plain = true ∨
    match role with
    | .call (.spawn _ _ admission) => ∃ p, o = .insertSpawnTime p ∨ o = .keepOutput p admission
    | .call (.finish c _ _) | .call (.dropOwner c _) => o = .takeOwner c
    | .monitor c p _ =>
        (∃ result, o = .recordMonitored c p result) ∨ o = .removeSample p ∨
          o = .retainCompletedOutput p ∨ o = .removeSpawnTime p
    | _ => False

/-- A `finish` and a `take_output` alone return what they do. -/
def Role.returns (role : Role) (v : Ret) : Prop :=
  match v with
  | .finished c _ => ∃ opts withScope, role = .call (.finish c opts withScope)
  | .tookOutput p _ => role = .call (.takeOutput p)
  | _ => True

/-- A condition on all operations of a program, and on its results, from its first operation on. -/
theorem all_step {φ : Op → Prop} {ψ : α → Prop} {o : Op} {f : Res o → Code α} (ho : φ o)
    (hf : ∀ r, (f r).All φ ψ) : (act o >>= f).All φ ψ :=
  ⟨ho, hf⟩

/-- Such a condition over two programs in a row; only the second has the result. -/
theorem all_bind {φ : Op → Prop} {ψ : β → Prop} {p : Code α} {f : α → Code β}
    (hp : p.All φ fun _ => True) (hf : ∀ v, (f v).All φ ψ) : (p >>= f).All φ ψ :=
  Prog.All.bind hp fun v _ => hf v

/-- A plain program performs what any role does. -/
theorem all_performs {role : Role} {p : Code α} (hp : Plain p) :
    p.All role.performs fun _ => True :=
  hp.mono (fun _ => .inl) fun _ _ => trivial

/-- A plain program whose result is returned. -/
theorem all_returns {role : Role} {p : Code α} {f : α → Ret} (hp : Plain p)
    (hf : ∀ v, role.returns (f v)) : (p >>= fun v => pure (f v)).All role.performs role.returns :=
  all_bind (all_performs hp) hf

section Spawn

variable {spec : ProcessSpec} {admission : Bool} {c' : ProcessScopeId}

/-- An attached process is supervised with operations of its spawn alone, beside plain ones. -/
theorem all_superviseSpawned {os : OsIdentity} {events : List DomainEvent} :
    (superviseSpawned c p os events admission).All
      (Role.performs (.call (.spawn c' spec admission))) fun _ => True := by
  refine all_step (.inr ⟨p, .inl rfl⟩) fun _ => all_step (.inl rfl) fun _ =>
    all_step (.inr ⟨p, .inr rfl⟩) fun _ => all_step (.inl rfl) fun _ => ?_
  refine all_bind (all_performs Plain.startSampler) fun r => ?_
  split
  · exact all_bind (all_performs (Plain.dispatch events)) fun _ => trivial
  · trivial

/-- A spawn, from its call of the backend on, performs operations of its own and plain ones. -/
theorem all_spawnProcess :
    (spawnProcess c spec admission).All
      (Role.performs (.call (.spawn c' spec admission))) fun _ => True := by
  refine all_step (.inl rfl) fun _ => all_step (.inl rfl) fun r => ?_
  cases r with
  | error e => trivial
  | ok os =>
      have hkill : ∀ {e : SpawnError}, (do killOrphan os; return .error e :
          Code (Except SpawnError ProcessId)).All
            (Role.performs (.call (.spawn c' spec admission))) fun _ => True :=
        all_bind (all_performs (Plain.killOrphan os)) fun _ => trivial
      refine all_step (.inl rfl) fun r => ?_
      split
      · exact all_step (.inl rfl) fun _ => hkill
      · refine all_step (.inl rfl) fun r => ?_
        cases r with
        | ok pid events => exact all_superviseSpawned
        | closed => exact hkill
        | unknown => exact hkill

/-- The checks before that call are plain. -/
theorem all_spawnSerialized :
    (spawnSerialized c spec admission).All
      (Role.performs (.call (.spawn c' spec admission))) fun _ => True := by
  refine all_step (.inl rfl) fun r => ?_
  split
  · trivial
  · refine all_step (.inl rfl) fun r => ?_
    cases r with
    | some report => trivial
    | none =>
        refine all_step (.inl rfl) fun r => ?_
        match r with
        | none => trivial
        | some false => trivial
        | some true => exact all_spawnProcess

/-- So are the lock and its release, around the whole `spawn_owned`. -/
theorem all_spawnOwned :
    (spawnOwned c spec admission).All
      (Role.performs (.call (.spawn c' spec admission))) fun _ => True := by
  refine all_step (.inl rfl) fun r => ?_
  split
  · refine all_step (.inl rfl) fun r => ?_
    cases r with
    | some report => exact all_step (.inl rfl) fun _ => trivial
    | none => exact all_bind all_spawnSerialized fun _ => all_step (.inl rfl) fun _ => trivial
  · refine all_step (.inl rfl) fun r => ?_
    cases r with
    | some report => trivial
    | none => trivial

end Spawn

/-- A monitor records the exit, and removes what was noted for its process only. -/
theorem all_monitor {os : OsIdentity} :
    (monitor c p os).All (Role.performs (.monitor c p os)) fun _ => True := by
  refine all_step (.inl rfl) fun _ => all_step (.inl rfl) fun result =>
    all_step (.inr (.inl ⟨result, rfl⟩)) fun r => ?_
  cases r with
  | none => trivial
  | some events =>
      have hrest : (do dispatch events; act (.removeSpawnTime p) : Code Unit).All
          (Role.performs (.monitor c p os)) fun _ => True :=
        all_bind (all_performs (Plain.dispatch events)) fun _ =>
          all_step (f := Prog.pure) (.inr (.inr (.inr (.inr rfl)))) fun _ => trivial
      refine all_step (.inr (.inr (.inl rfl))) fun _ => ?_
      cases result with
      | none => exact hrest
      | some raw => exact all_step (.inr (.inr (.inr (.inl rfl)))) fun _ => hrest

/-- A shutdown is plain, and returns as such. -/
theorem all_shutdown :
    shutdown.All (Role.performs (.call .shutdown)) (Role.returns (.call .shutdown)) := by
  refine all_step (.inl rfl) fun _ => all_step (.inl rfl) fun _ => all_step (.inl rfl) fun r => ?_
  split
  · exact all_step (.inl rfl) fun _ => trivial
  · refine all_bind (all_performs (Plain.shutdownScopes _)) fun r => ?_
    obtain ⟨reports, unverified⟩ := r
    dsimp only
    split
    · exact all_step (.inl rfl) fun _ => trivial
    · exact all_bind (all_performs Plain.joinSampler) fun _ => all_step (.inl rfl) fun _ => trivial

/-- **What a call performs and returns**, call by call. -/
theorem all_code (call : Call) :
    call.code.All (Role.performs (.call call)) (Role.returns (.call call)) := by
  cases call with
  | createScope observed => exact all_returns (Plain.act rfl) fun _ => trivial
  | spawn c spec admission => exact all_bind all_spawnOwned fun _ => trivial
  | wait pid => exact all_returns (Plain.wait pid) fun _ => trivial
  | terminate pid opts => exact all_returns (Plain.terminate pid opts) fun _ => trivial
  | terminateScope c opts => exact all_returns (Plain.terminateScope c opts) fun _ => trivial
  | finish c opts withScope =>
      exact all_step (.inr rfl) fun _ =>
        all_returns (Plain.finishScopeCleanup c opts) fun _ => ⟨opts, withScope, rfl⟩
  | dropOwner c withScope =>
      exact all_step (.inr rfl) fun _ => all_bind (all_performs (Plain.dropBackstop c)) fun _ =>
        all_returns (Plain.publishWorkerError c withScope) fun _ => trivial
  | waitScopeCleanup c => exact all_returns (Plain.waitScopeCleanup c) fun _ => trivial
  | withScopeOptions c => exact all_returns (Plain.act rfl) fun _ => trivial
  | shutdown => exact all_shutdown
  | dropSupervisor => exact all_returns Plain.dropCleanupGuard fun _ => trivial
  | sample pid value => exact all_returns (Plain.act rfl) (f := fun _ => .done) fun _ => trivial
  | takeOutput pid => exact all_returns (Plain.act rfl) fun _ => rfl

/-- **What a role performs and returns.** -/
theorem all_role (role : Role) : role.task.prog.All role.performs role.returns := by
  cases role with
  | call call => exact all_code call
  | monitor c p os => exact all_bind all_monitor fun _ => trivial
  | worker c p observer opts => exact all_returns (Plain.worker observer) fun _ => trivial
  | closing c =>
      exact all_returns (Plain.dispatch [.scopeClosed c]) (f := fun _ => .done) fun _ => trivial

/-- The program of a role begins with an operation. -/
theorem role_op (role : Role) : ∃ o k, role.task.prog = .op o k := by
  cases role with
  | call call => cases call <;> exact ⟨_, _, rfl⟩
  | monitor c p os => exact ⟨_, _, rfl⟩
  | worker c p observer opts => exact ⟨_, _, rfl⟩
  | closing c => exact ⟨_, _, rfl⟩

/-- What runs when a role is dropped is plain. -/
theorem all_unwind {role : Role} {q : Code Ret} (hq : role.task.unwind = some q) :
    (∃ o k, q = .op o k) ∧
      q.All (fun o => o.plain = true) fun v => v = .done ∨ v = .workerFailed := by
  have hunwound : (∃ o k, unwound = .op o k) ∧
      unwound.All (fun o => o.plain = true) fun v => v = .done ∨ v = .workerFailed :=
    ⟨⟨_, _, rfl⟩, all_step rfl fun _ => .inl rfl⟩
  cases role with
  | call call =>
      cases call with
      | finish c opts withScope =>
          obtain rfl := Option.some.inj hq
          exact ⟨⟨_, _, rfl⟩, all_step rfl fun _ => all_bind (Plain.dropBackstop c) fun _ =>
            all_bind (Plain.publishWorkerError c withScope) fun _ => .inl rfl⟩
      | _ => first | (cases hq; done) | exact Option.some.inj hq ▸ hunwound
  | worker c p observer opts =>
      obtain rfl := Option.some.inj hq
      exact ⟨⟨_, _, rfl⟩, all_step rfl fun _ => .inr rfl⟩
  | monitor c p os => cases hq
  | closing c => cases hq

/-! ### Spawns under a watch -/

/-- What a spawn has attached. -/
theorem attached_of_attach {t : Tid} {s s' : Inner} {os : OsIdentity} {spec : ProcessSpec}
    {events : List DomainEvent} (he : s.attach t c os spec = (.ok p events, s')) :
    s'.history = (t, .attached c p os) :: s.history := by
  rw [Inner.attach] at he
  split at he
  · cases he
  · split at he
    · obtain ⟨heq, rfl⟩ := Prod.mk.inj he
      obtain ⟨rfl, -⟩ := Attach.ok.inj heq
      rfl
    · cases he

section Watches

variable {X : Type} {W : Watch Op Answer Inner X} {F G : X → Prop} {t : Tid} {x : X} {s : Inner}

/-- The watch allows every plain operation while `F` holds, and they keep `F`. -/
structure Admits (W : Watch Op Answer Inner X) (F : X → Prop) : Prop where
  holds : ∀ {o x} s, o.plain = true → F x → W.holds o x s
  update : ∀ {o x} a s, o.plain = true → F x → F (W.update o a s x)

/-- A plain program keeps to a watch that admits it. -/
theorem Admits.plain {q : Code α} (hW : Admits W F) (hq : Plain q) (hx : F x) :
    protocol.tracked W t q (fun _ y _ => F y) x s :=
  Protocol.tracked_mono (fun _ _ _ h => h.2)
    (Protocol.tracked_of_all (F := fun x _ => F x) hq (fun _ _ _ hx _ => hx)
      (fun _ a _ _ s _ ho hx _ => hW.update a s ho hx) (fun _ _ s ho hx => hW.holds s ho hx) hx)

/-- One plain operation. -/
theorem Admits.step {o : Op} {f : Res o → Code α} {Q : α → X → Inner → Prop} (hW : Admits W F)
    (ho : o.plain = true) (hx : F x)
    (hf : ∀ r y s', F y → protocol.tracked W t (f r) Q y s') :
    protocol.tracked W t (act o >>= f) Q x s :=
  Protocol.tracked_op fun _ _ _ => ⟨hW.holds _ ho hx, fun a r _ _ _ =>
    hf r _ _ (hW.update a _ ho hx)⟩

variable {spec : ProcessSpec} {admission : Bool}

/-- **A spawn keeps to a watch** that admits plain operations, if it does so from the moment
when it has attached its process. -/
theorem tracked_spawnOwned (hF : Admits W F) (hG : Admits W G) (hFG : ∀ y, F y → G y)
    (hsup : ∀ {s₁ s₂ y os p events} (a : Answer), Inv s₁ → Inv s₂ → F y →
      s₁.attach t c os spec = (.ok p events, s₂) →
      protocol.tracked W t (superviseSpawned c p os events admission) (fun _ z _ => G z)
        (W.update (.attach c os spec) a s₁ y) s₂) (hx : F x) :
    protocol.tracked W t (spawnOwned c spec admission) (fun _ y _ => G y) x s := by
  have hkill : ∀ {os : OsIdentity} {e : SpawnError} {y : X} {s₁ : Inner}, F y →
      protocol.tracked W t (do killOrphan os; return .error e : Code (Except SpawnError ProcessId))
        (fun _ z _ => G z) y s₁ := fun hy =>
    Protocol.tracked_mono (fun _ _ _ h => hFG _ h)
      (hF.plain (Plain.bind (Plain.killOrphan _) fun _ => trivial) hy)
  have hprocess : ∀ {y : X} {s₁ : Inner}, F y →
      protocol.tracked W t (spawnProcess c spec admission) (fun _ z _ => G z) y s₁ := by
    intro y s₁ hy
    refine hF.step rfl hy fun _ y _ hy => hF.step rfl hy fun r y _ hy => ?_
    cases r with
    | error e => exact hFG _ hy
    | ok os =>
        refine hF.step rfl hy fun r y s₂ hy => ?_
        split
        · exact hF.step rfl hy fun _ _ _ hy => hkill hy
        · refine Protocol.tracked_op fun s₃ _ hi₃ => ⟨hF.holds s₃ rfl hy, fun a r s₄ he hi₄ => ?_⟩
          have hy' := hF.update (o := .attach c os spec) a s₃ rfl hy
          cases r with
          | ok p events =>
              simp only [supervisor, exec] at he
              split at he
              · exact hsup a hi₃ hi₄ hy (Option.some.inj he)
              · cases he
          | closed => exact hkill hy'
          | unknown => exact hkill hy'
  have hserialized : ∀ {y : X} {s₁ : Inner}, F y →
      protocol.tracked W t (spawnSerialized c spec admission) (fun _ z _ => G z) y s₁ := by
    intro y s₁ hy
    refine hF.step rfl hy fun r y _ hy => ?_
    split
    · exact hFG _ hy
    · refine hF.step rfl hy fun r y _ hy => ?_
      cases r with
      | some report => exact hFG _ hy
      | none =>
          refine hF.step rfl hy fun r y _ hy => ?_
          rcases r with _ | _ | _
          · exact hFG _ hy
          · exact hFG _ hy
          · exact hprocess hy
  refine hF.step rfl hx fun r y _ hy => ?_
  split
  · refine hF.step rfl hy fun r y _ hy => ?_
    cases r with
    | some report => exact hF.step rfl hy fun _ _ _ hy => hFG _ hy
    | none =>
        refine Protocol.tracked_bind (Protocol.tracked_mono (fun v z s₁ hz => ?_)
          (hserialized hy))
        exact hG.step rfl hz fun _ _ _ hz => hz
  · refine hF.step rfl hy fun r y _ hy => ?_
    cases r with
    | some report => exact hFG _ hy
    | none => exact hFG _ hy

end Watches

end Shepherd
