import Shepherd.Supervisor.Unknown

/-!
# Agreement of Terminations

A termination gets its result from the waiter table, from the registry, or from its own
retries of `backend.wait`. The retries of a quarantined process do not exclude each other: a
retry that gets the exit also uses up the backend's slot, and a retry beside it then fails and
settles for an unverified exit, although the other call has returned a verified one.

`settlesUnheld` rules this step out: a termination settles for an unverified exit only while
no verified exit of the process is held, in the registry or in the waiter table. In the runs
that keep to it, terminations agree.
-/

open Std

namespace Shepherd

open Conc

variable {t : Tid} {o : Op} {a : Answer} {s s' : Inner} {c : ProcessScopeId} {p : ProcessId}
  {h h' : History} {v : Ret}

/-! ### What is held of a process -/

/-- A verified exit of the process is held in the waiter table or in the registry. -/
def Inner.holdsVerified (s : Inner) (p : ProcessId) : Bool :=
  ((s.waiters.tryGet p).any fun e => e.outcome.isVerified) ||
  ((s.registry.scopeOf p).bind s.registry.get).any fun sc =>
    (sc.exitOf p).any fun e => e.outcome.isVerified

/-- The process is tracked in the registry, or its exit is in the waiter table. -/
def Inner.Shows (s : Inner) (p : ProcessId) : Prop :=
  (∃ c proc, Tracked s.registry c p proc) ∨ ∃ e, s.waiters.tryGet p = some e

/-- A process with evidence that still shows does so with a verified exit. -/
theorem Inv.holdsVerified (hi : Inv s) (hev : HasEvidence s.history p) (hsh : s.Shows p) :
    s.holdsVerified p = true := by
  rw [Inner.holdsVerified, Bool.or_eq_true]
  rcases hsh with ⟨c, proc, sc, hsc, hp⟩ | ⟨e, he⟩
  · refine .inr ?_
    cases hof : s.registry.scopeOf p with
    | none =>
        rw [ScopeRegistry.scopeOf_eq_none hof hsc] at hp
        cases hp
    | some c' =>
        obtain ⟨sc', proc', hsc', hp'⟩ := ScopeRegistry.scopeOf_eq_some hof
        obtain ⟨e, he, hv⟩ := hi.processes.evidence ⟨sc', hsc', hp'⟩ hev
        have hex : sc'.exitOf p = some e := ProcessScope.exitOf_eq_some.mpr ⟨proc', hp', he⟩
        simpa [hsc', hex, ProcessExit.Verified] using hv
  · refine .inl ?_
    have hv : e.Verified := by_contra fun hn => hi.signals.unverified he hn hev
    simpa [he, ProcessExit.Verified] using hv

/-! ### Settling for an unverified exit -/

/-- The process for which an operation settles for an unverified exit: the last retry fails
or times out, the force timeout elapses, or the observed exit is unverified. -/
def Inner.settles (s : Inner) : Op → Answer → Option ProcessId
  | .retryWait p _ _, .waited none | .retryWait p _ _, .elapsed
  | .exitOrGiveUp p _ _, .elapsed => some p
  | .exitOrElapsed p f, .observed | .exitOrGiveUp p f _, .observed =>
      if (s.waiters.poll f).any fun e => e.outcome.isVerified then none else some p
  | .orObserve _ o, a | .orElapsed o, a => s.settles o a
  | _, _ => none

/-- A termination settles for an unverified exit only while no verified one is held. -/
def settlesUnheld (cfg : Config Res Ret Inner) (l : Label Answer Call) : Bool :=
  match l with
  | .run t a =>
      match cfg.tasks t with
      | some ⟨.op o _, _⟩ =>
          match cfg.shared.settles o a with
          | some p => !cfg.shared.holdsVerified p
          | none => true
      | _ => true
  | _ => true

/-- The return is that of a termination of the process, by a caller or by a worker. -/
def Ret.terminates (p : ProcessId) (e : ProcessExit) (v : Ret) : Prop :=
  v = .terminated p (.ok e) ∨ ∃ c, v = .worker c p (.ok e)

/-- A call has returned a verified exit of the process. -/
def VerifiedReturn (h : History) (p : ProcessId) : Prop :=
  ∃ e, e.Verified ∧
    (Happened h (.returned (.waited p (.ok e))) ∨ Happened h (.returned (.terminated p (.ok e))))

/-- A termination that returns now, after some call has returned a verified exit, returns a
verified exit too, as long as the process shows. -/
def TerminationsAgree (s : Inner) : Prop :=
  ∀ t v older p e, s.history = (t, .returned v) :: older → v.terminates p e →
    VerifiedReturn older p → s.Shows p → e.Verified

/-- A `backend.wait` that begins after another one has returned `Ok` fails: the slot of the
process was removed. -/
def unixWaits : History → Bool
  | [] => true
  | (t, .waitReturned os (some _)) :: h =>
      (unixWaits h &&
        ((h.dropWhile fun x => x ≠ (t, .waitCalled os)).all fun x => match x.2 with
          | .waitReturned os' (some _) => os' ≠ os
          | _ => true))
  | _ :: h => unixWaits h

/-! ### Steps -/

/-- Whatever shows after a step showed before it. -/
def Inner.Fades (s s' : Inner) : Prop :=
  ∀ p, s'.Shows p → s.Shows p

namespace Inner.Fades

/-- A step that leaves the registry and the waiters alone shows nothing new. -/
theorem same (hr : s'.registry = s.registry) (hw : s'.waiters = s.waiters) : s.Fades s' := by
  intro p hp
  rwa [Shows, hr, hw] at hp

/-- A step after which the registry tracks the same, and the waiters show the same, shows nothing
new. -/
theorem of_agrees (hr : s.registry.Agrees s'.registry)
    (hw : ∀ q, s'.waiters.tryGet q = s.waiters.tryGet q) : s.Fades s' := by
  rintro p (⟨c, proc, ht⟩ | ⟨e, he⟩)
  · obtain ⟨proc', ht', -⟩ := hr.tracked_back ht
    exact .inl ⟨c, proc', ht'⟩
  · exact .inr ⟨e, hw p ▸ he⟩

/-- A registration does not change what the waiters show. -/
theorem tryGet_wait (s : Inner) (p q : ProcessId) :
    (s.waiters.wait p).2.tryGet q = s.waiters.tryGet q :=
  Slots.tryGet_wait s.waiters.wf p q

/-- The registrations for the observers of a scope do not change what the waiters show; by
induction on their list. -/
theorem tryGet_observers (sc : ProcessScope) (ids : List ProcessId) (w : InMemoryWaiters)
    (q : ProcessId) : (Inner.observers sc ids w).2.tryGet q = w.tryGet q := by
  induction ids generalizing w with
  | nil => rfl
  | cons p rest ih =>
      rw [Inner.observers]
      split
      · exact ih w
      · exact (ih _).trans (Slots.tryGet_wait w.wf p q)

/-- A registry tracks what it tracks. -/
theorem agrees_refl (r : ScopeRegistry) : r.Agrees r :=
  ⟨fun hc => ⟨_, hc, fun hp => ⟨_, hp, rfl, rfl⟩, fun hp => ⟨_, hp⟩⟩, fun hc => ⟨_, hc⟩⟩

/-- Keeping a capture shows no process. -/
theorem keepOutput (p : ProcessId) (output : Option ProcessOutput) (admission : Bool) :
    s.Fades (s.keepOutput p output admission) := by
  simp only [Inner.keepOutput]
  split
  · exact of_agrees (agrees_refl _) (tryGet_wait s p)
  · split <;> exact same rfl rfl

/-- Retaining a capture shows no process. -/
theorem retainCompletedOutput (p : ProcessId) : s.Fades (s.retainCompletedOutput p) := by
  rw [Inner.retainCompletedOutput]
  split <;> exact same rfl rfl

/-- Pruning hides a process, if anything. -/
theorem prune (ev : DomainEvent) : s.Fades (s.prune ev) := by
  simp only [Inner.prune]
  split
  · next c p e =>
      split
      · rintro q (⟨c', proc, sc', hsc', hq⟩ | hw)
        · refine .inl ⟨c', proc, ?_⟩
          rw [ScopeRegistry.get_modify] at hsc'
          split at hsc'
          · obtain ⟨sc, hsc, rfl⟩ := Option.map_eq_some_iff.mp hsc'
            rw [ProcessScope.prune_get] at hq
            split at hq
            · cases hq
            · exact ⟨sc, hsc, hq⟩
          · exact ⟨sc', hsc', hq⟩
        · exact .inr hw
      · exact same rfl rfl
  · exact same rfl rfl

/-- The start of a termination shows no process: it changes one that is tracked. -/
theorem beginTermination (p : ProcessId) : s.Fades (s.beginTermination p).2 := by
  rw [Inner.beginTermination]
  repeat' split
  all_goals first
    | exact same rfl rfl
    | exact of_agrees (@ScopeRegistry.agrees_modify _ _ _ (fun sc => sc.requestTermination_id p)
        fun sc _ => sc.agrees_requestTermination p) (tryGet_wait s p)

/-- An escalation changes a process that is tracked. -/
theorem escalate (c : ProcessScopeId) (p : ProcessId) : s.Fades (s.escalate c p) :=
  of_agrees (@ScopeRegistry.agrees_modify _ _ _ (fun sc => sc.escalateTermination_id p)
    fun sc _ => sc.agrees_escalateTermination p) fun _ => rfl

/-- A registration with the waiters shows no exit. -/
theorem registerWait (p : ProcessId) : s.Fades (s.registerWait p).2 := by
  rw [Inner.registerWait]
  repeat' split
  all_goals first
    | exact same rfl rfl
    | exact of_agrees (agrees_refl _) (tryGet_wait s p)

/-- Draining changes a scope whose processes are tracked already. -/
theorem drain (t : Tid) (c : ProcessScopeId) : s.Fades (s.drain t c).2 := by
  rw [Inner.drain]
  split
  · exact same rfl rfl
  · next sc hsc =>
      have hf : s.Fades { s with
          registry := s.registry.modify c (fun sc => sc.beginScopeTermination.2)
            fun sc => sc.beginScopeTermination_id
          waiters := (Inner.observers sc.beginScopeTermination.2
            sc.beginScopeTermination.2.processIds s.waiters).2 } :=
        of_agrees (@ScopeRegistry.agrees_modify _ _ _ (fun sc => sc.beginScopeTermination_id)
          fun sc _ => sc.agrees_beginScopeTermination) (tryGet_observers _ _ s.waiters)
      dsimp only
      split
      · exact hf
      · exact hf

/-- The removal of a scope hides its processes from the registry. -/
theorem removeScope (t : Tid) (c : ProcessScopeId) : s.Fades (s.removeScope t c) := by
  rintro q (⟨c', proc, sc', hsc', hq⟩ | hw)
  · refine .inl ⟨c', proc, sc', ?_, hq⟩
    have hget : (s.registry.remove c).get c' = some sc' := hsc'
    rw [ScopeRegistry.get_remove] at hget
    split at hget
    · cases hget
    · exact hget
  · exact .inr hw

/-- A publication shows no process. -/
theorem publish (t : Tid) (c : ProcessScopeId) (r : CleanupResult) :
    s.Fades (s.publish t c r) := by
  rw [Inner.publish]
  split <;> exact same rfl rfl

/-- A settlement shows no process. -/
theorem settleFor (t : Tid) (p : ProcessId) (e : Option ProcessExit) :
    s.Fades (s.settleFor t p e) := by
  rw [Inner.settleFor]
  split <;> exact same rfl rfl

/-- A sample shows no process. -/
theorem storeSample (p : ProcessId) (x : Sample) : s.Fades (s.storeSample p x) := by
  rw [Inner.storeSample]
  split <;> exact same rfl rfl

end Inner.Fades

/-- A record of a recovered exit, or of a monitored one, that changes anything is an event. -/
theorem storeRecovered_cases (s : Inner) (t : Tid) (c : ProcessScopeId) (p : ProcessId)
    (e : ProcessExit) : (s.storeRecovered t c p e).2 = s ∨
      ∃ ev, (s.storeRecovered t c p e).2.history = (t, ev) :: s.history := by
  rw [Inner.storeRecovered]
  repeat' split
  all_goals first
    | exact .inl rfl
    | exact .inr ⟨_, rfl⟩

/-- Retaining a capture is not logged. -/
theorem retainCompletedOutput_history (s : Inner) (p : ProcessId) :
    (s.retainCompletedOutput p).history = s.history := by
  rw [Inner.retainCompletedOutput]
  split <;> rfl

/-- The state after an operation that returned `x`, which recorded nothing. -/
theorem fades_of_some {α : Type} {r : α} {x : α × Inner} (he : some x = some (r, s'))
    (hx : s.Fades x.2) : s.Fades s' := by
  obtain rfl := Option.some.inj he
  exact hx

/-- An operation that returned some `f y` shows nothing new if no `f y` does. -/
theorem fades_of_map {α β : Type} {r : α} {w : Option β} {f : β → α × Inner}
    (he : w.map f = some (r, s')) (hx : ∀ y, s.Fades (f y).2) : s.Fades s' := by
  obtain ⟨y, -, hy⟩ := Option.map_eq_some_iff.mp he
  exact fades_of_some (congrArg some hy) (hx y)

/-- A step that records nothing only lets exits fade. -/
theorem exec_fades {r : Res o} (he : exec t o a s = some (r, s'))
    (hs : s'.history = s.history) : s.Fades s' := by
  have hnew : s.history.length < s'.history.length → s.Fades s' := fun hlt => by
    rw [hs] at hlt
    exact absurd hlt (Nat.lt_irrefl _)
  induction o generalizing a s s' with
  | orObserve f o ih =>
      obtain ⟨_, -, rfl⟩ | ⟨_, -, hrs⟩ := exec_orObserve he
      · exact .same rfl rfl
      · exact ih hrs hs hnew
  | orElapsed o ih =>
      obtain ⟨-, rfl⟩ | ⟨_, -, hrs⟩ := exec_orElapsed he
      · exact .same rfl rfl
      · exact ih hrs hs hnew
  | createScope observed =>
      unfold exec Inner.createScope at he
      split at he
      case isFalse => cases he
      split at he
      · exact fades_of_some he (.same rfl rfl)
      · obtain rfl := congrArg Prod.snd (Option.some.inj he)
        exact hnew (Nat.lt_succ_self _)
  | attach c os spec =>
      unfold exec Inner.attach at he
      split at he
      case isFalse => cases he
      dsimp only at he
      repeat' split at he
      all_goals
        obtain rfl := congrArg Prod.snd (Option.some.inj he)
        exact hnew (Nat.lt_succ_self _)
  | recordMonitored c p result =>
      unfold exec Inner.recordMonitored at he
      repeat' split at he
      · exact fades_of_some he (.same rfl rfl)
      · exact fades_of_some he (.same rfl rfl)
      · obtain rfl := congrArg Prod.snd (Option.some.inj he)
        exact hnew (Nat.lt_succ_self _)
  | recordRecovered c p raw =>
      obtain rfl := congrArg Prod.snd (Option.some.inj he)
      have hcases := storeRecovered_cases s t c p (recoveredExit p raw)
      unfold Inner.recordRecovered at hnew ⊢
      dsimp only at hnew ⊢
      split
      · next hst =>
          simp only [hst] at hnew
          rcases hcases with heq | ⟨ev, heq⟩
          · rw [heq]
            exact .same rfl rfl
          · exact hnew (by simp [heq])
      · next hst =>
          simp only [hst] at hnew
          refine hnew ?_
          rw [Inner.signalExit, Inner.log_history, List.length_cons, retainCompletedOutput_history]
          rcases hcases with heq | ⟨ev, heq⟩
          · rw [heq]
            exact Nat.lt_succ_self _
          · rw [heq, List.length_cons]
            omega
  | notify ev =>
      obtain rfl := congrArg Prod.snd (Option.some.inj he)
      refine hnew ?_
      unfold Inner.notify
      repeat' split
      all_goals
        simp only [Inner.signalExit, Inner.log_history, List.length_cons]
        omega
  | keepOutput p admission =>
      unfold exec at he
      split at he
      · exact fades_of_some he (.keepOutput _ _ _)
      · cases he
  | retainCompletedOutput p => exact fades_of_some he (.retainCompletedOutput p)
  | prune ev => exact fades_of_some he (.prune ev)
  | beginTermination p => exact fades_of_some he (.beginTermination p)
  | escalate c p => exact fades_of_some he (.escalate c p)
  | registerWait p => exact fades_of_some he (.registerWait p)
  | drain c => exact fades_of_some he (.drain t c)
  | removeScope c => exact fades_of_some he (.removeScope t c)
  | publish c v => exact fades_of_some he (.publish t c v)
  | storeSample p x => exact fades_of_some he (.storeSample p x)
  | exitOrElapsed p f =>
      unfold exec at he
      split at he
      · exact fades_of_map he fun _ => .settleFor t p _
      · exact fades_of_some he (.same rfl rfl)
      · cases he
  | exitOrGiveUp p f timeout =>
      unfold exec at he
      split at he
      · exact fades_of_map he fun _ => .settleFor t p _
      · split at he
        · exact fades_of_some he (.settleFor t p none)
        · cases he
      · cases he
  | _ =>
      unfold exec at he
      repeat' split at he
      all_goals first
        | exact fades_of_some he (.same rfl rfl)
        | exact fades_of_map he fun _ => .same rfl rfl
        | exact absurd he (by simp)

/-- The state after a step that settled for an unverified exit of the process. -/
structure SettledFor (p : ProcessId) (h' : History) (s s' : Inner) : Prop where
  registry : s'.registry = s.registry
  waiters : s'.waiters = s.waiters
  evidence : HasEvidence h' p → HasEvidence s.history p

/-- What is settled is the process of the event, and its exit was not verified. -/
theorem SettledFor.of_settleFor {q : ProcessId} {e : Option ProcessExit} {t' : Tid}
    (hh : (s.settleFor t q e).history = (t', .gaveUp p) :: h')
    (hne : (s.settleFor t q e).history ≠ s.history) :
    (e.any fun e => e.outcome.isVerified) = false ∧ q = p ∧
      SettledFor p h' s (s.settleFor t q e) := by
  rw [Inner.settleFor] at hh hne ⊢
  split
  · next hv =>
      rw [if_pos hv] at hne
      exact absurd rfl hne
  · next hv =>
      rw [if_neg hv] at hh
      obtain ⟨heq, rfl⟩ := List.cons.inj hh
      injection heq with _ hev
      injection hev with hq
      exact ⟨by simpa using hv, hq, rfl, rfl, id⟩

/-- **The step that settles.** A step whose last event is that a termination settled for an
unverified exit is an operation that does so. -/
theorem exec_settles {r : Res o} {t' : Tid} (he : exec t o a s = some (r, s'))
    (hh : s'.history = (t', .gaveUp p) :: h') (hne : s'.history ≠ s.history) :
    s.settles o a = some p ∧ SettledFor p h' s s' := by
  induction o generalizing a s s' with
  | orObserve f o ih =>
      obtain ⟨_, -, rfl⟩ | ⟨_, -, hrs⟩ := exec_orObserve he
      · exact absurd rfl hne
      · exact ih hrs hh hne
  | orElapsed o ih =>
      obtain ⟨-, rfl⟩ | ⟨_, -, hrs⟩ := exec_orElapsed he
      · exact absurd rfl hne
      · exact ih hrs hh hne
  | retryWait q os timeout =>
      simp only [exec] at he
      split at he
      · obtain rfl := congrArg Prod.snd (Option.some.inj he)
        obtain ⟨heq, -⟩ := List.cons.inj hh
        injection heq with _ hev
        cases hev
      · obtain rfl := congrArg Prod.snd (Option.some.inj he)
        obtain ⟨heq, rfl⟩ := List.cons.inj hh
        injection heq with _ hev
        injection hev with hq
        subst hq
        exact ⟨rfl, rfl, rfl, HasEvidence.of_cons rfl⟩
      · split at he
        case isFalse => cases he
        obtain rfl := congrArg Prod.snd (Option.some.inj he)
        obtain ⟨heq, rfl⟩ := List.cons.inj hh
        injection heq with _ hev
        injection hev with hq
        subst hq
        exact ⟨rfl, rfl, rfl, id⟩
      · cases he
  | exitOrElapsed q f =>
      simp only [exec] at he
      split at he
      · obtain ⟨e, hpoll, heq⟩ := Option.map_eq_some_iff.mp he
        obtain ⟨-, rfl⟩ := Prod.mk.inj heq
        obtain ⟨hv, rfl, hs⟩ := SettledFor.of_settleFor hh hne
        refine ⟨?_, hs⟩
        simpa [Inner.settles, hpoll] using hv
      · obtain rfl := congrArg Prod.snd (Option.some.inj he)
        exact absurd rfl hne
      · cases he
  | exitOrGiveUp q f timeout =>
      simp only [exec] at he
      split at he
      · obtain ⟨e, hpoll, heq⟩ := Option.map_eq_some_iff.mp he
        obtain ⟨-, rfl⟩ := Prod.mk.inj heq
        obtain ⟨hv, rfl, hs⟩ := SettledFor.of_settleFor hh hne
        refine ⟨?_, hs⟩
        simpa [Inner.settles, hpoll] using hv
      · split at he
        case isFalse => cases he
        obtain rfl := congrArg Prod.snd (Option.some.inj he)
        obtain ⟨-, rfl, hs⟩ := SettledFor.of_settleFor hh hne
        exact ⟨rfl, hs⟩
      · cases he
  | _ =>
      obtain ⟨-, evs, hev, hk⟩ := exec_ext he
      cases evs with
      | nil => exact absurd hev hne
      | cons ev evs =>
          rw [hev] at hh
          obtain ⟨heq, -⟩ := List.cons.inj hh
          injection heq with _ hev
          subst hev
          exact absurd (hk _ List.mem_cons_self) (by simp [Op.Emits])

/-! ### Runs -/

/-- The last event, up to the return of the task, is that a termination settled for an
unverified exit of the process. -/
def SettledLast (h : History) (p : ProcessId) (h' : History) : Prop :=
  ∃ t, h = (t, .gaveUp p) :: h' ∨ ∃ t' v, h = (t', .returned v) :: (t, .gaveUp p) :: h'

/-- When a termination has just settled, no verified exit of the process shows. -/
def SettledUnheld (s : Inner) : Prop :=
  ∀ p h', SettledLast s.history p h' → HasEvidence h' p → ¬ s.Shows p

/-- An operation that settles only while no verified exit is held. -/
theorem SettledUnheld.exec {r : Res o} (hi : Inv s) (hu : SettledUnheld s)
    (he : exec t o a s = some (r, s'))
    (hcond : ∀ p, s.settles o a = some p → s.holdsVerified p = false) : SettledUnheld s' := by
  intro p h' hlast hev hsh
  by_cases hs : s'.history = s.history
  · rw [hs] at hlast
    exact hu p h' hlast hev (exec_fades he hs p hsh)
  · obtain ⟨t', hh | ⟨t₁, v, hh⟩⟩ := hlast
    · obtain ⟨hset, hst⟩ := exec_settles he hh hs
      have hsh₀ : s.Shows p := by
        rw [Inner.Shows, hst.registry, hst.waiters] at hsh
        exact hsh
      have hv := hi.holdsVerified (hst.evidence hev) hsh₀
      rw [hcond p hset] at hv
      cases hv
    · obtain ⟨-, evs, hevs, hk⟩ := exec_ext he
      cases evs with
      | nil => exact absurd hevs hs
      | cons ev evs =>
          rw [hevs] at hh
          obtain ⟨heq, -⟩ := List.cons.inj hh
          injection heq with _ heq
          subst heq
          exact absurd (hk _ List.mem_cons_self) (not_emits_returned o v)

/-- A return settles for nothing. -/
theorem SettledUnheld.finish (hu : SettledUnheld s) (t : Tid) (v : Ret) :
    SettledUnheld (s.finish t v) := by
  rintro p h' ⟨t', hh | ⟨t₁, v', hh⟩⟩ hev hsh
  · obtain ⟨heq, -⟩ := List.cons.inj hh
    injection heq with _ heq
    cases heq
  · obtain ⟨-, hh⟩ := List.cons.inj hh
    exact hu p h' ⟨t', .inl hh⟩ hev hsh

/-- **In the runs that settle unheld, whatever was settled was not held.** -/
theorem settledUnheld_of_reachable {cfg : Config Res Ret Inner}
    (hr : supervisor.ReachableUnder Inner.new (fun cfg l => settlesUnheld cfg l = true) cfg) :
    SettledUnheld cfg.shared := by
  induction hr with
  | initial =>
      rintro p h' ⟨t, hh | ⟨t', v, hh⟩⟩
      · cases hh
      · cases hh
  | @step cfg cfg' l hrc hcond hs ih =>
      have hi := inv_of_reachable hrc.reachable
      cases supervisor.step_shared hs with
      | @run t a o k u r s₁ htask hexec hsh =>
          simp only [settlesUnheld, htask] at hcond
          have hu₁ : SettledUnheld s₁ := ih.exec hi hexec fun p hp => by
            rw [hp] at hcond
            simpa using hcond
          rcases hsh with ⟨_, _, -, hsh, -⟩ | ⟨v, -, hsh, -⟩
          · exact hsh ▸ hu₁
          · exact hsh ▸ hu₁.finish t v
      | drop _ _ hsh => exact hsh ▸ ih
      | start hsh => exact hsh ▸ ih

/-! ### Agreement -/

/-- **Terminations agree**, in the runs in which they settle for an unverified exit only
while no verified exit of the process is held. -/
theorem terminations_agree {cfg : Config Res Ret Inner}
    (hr : supervisor.ReachableUnder Inner.new (fun cfg l => settlesUnheld cfg l = true) cfg) :
    TerminationsAgree cfg.shared := by
  intro t v older p e heq hv hret hsh
  by_contra hn
  have hi := inv_of_reachable hr.reachable
  have hl : Lawful ((t, .returned v) :: older) := heq ▸ hi.lawful
  have hj : ExitReturn t p e older := by
    have hj : JustifiedReturn t v older := hl.1
    rcases hv with rfl | ⟨c, rfl⟩
    · exact hj.1 e rfl
    · exact hj.2 e rfl
  have hev : HasEvidence older p := by
    obtain ⟨e', hv', hret⟩ := hret
    have hlo : Lawful older := hl.2
    rcases hret with hret | hret
    · obtain ⟨_, l, hs, hj'⟩ := hlo.of_happened hret
      exact (hj'.1 e' rfl hv').mono hs
    · obtain ⟨_, l, hs, hj'⟩ := hlo.of_happened hret
      exact ((hj'.1 e' rfl).1 hv').mono hs
  obtain ⟨h', rfl⟩ := (hj.2 hn).resolve_left fun hx => hx hev
  exact settledUnheld_of_reachable hr p h' ⟨t, .inr ⟨t, v, heq⟩⟩ (hev.of_cons rfl) hsh

/-- A process is spawned, its monitor's wait fails, and the monitor signals that. -/
def quarantine : List (Label Answer Call) :=
  [.start (.createScope false)] ++ steps 0 1 ++
  [.start (.spawn 1 (.new []) false)] ++ steps 1 6 ++
  [.run 1 (.spawned (.ok ⟨100, .unavailable⟩))] ++ steps 1 2 ++
  [.run 1 (.instant 0)] ++ steps 1 1 ++ [.run 1 (.output none)] ++ steps 1 7 ++
  steps 2 1 ++ [.run 2 (.waited none)] ++ steps 2 9

/-- A termination retries, gets the exit and returns it; the next one reads it. -/
def recover : List (Label Answer Call) :=
  [.start (.terminate 1 .default)] ++ steps 3 4 ++
  [.run 3 (.waited (some ⟨some 0, none, false⟩))] ++ steps 3 4 ++
  [.start (.terminate 1 .default)] ++ steps 4 1

/-- A verified exit of the process, of a retry. -/
def retriedExit : ProcessExit :=
  recoveredExit 1 ⟨some 0, none, false⟩

set_option maxRecDepth 10000 in
/-- The schedule of one retry keeps to the condition, and returns its exit. -/
theorem recover_settles_unheld :
    (supervisor.followUnder settlesUnheld (Machine.initial Inner.new)
      (quarantine ++ recover)).any (fun cfg => cfg.shared.history.head? =
        some (4, .returned (.terminated 1 (.ok retriedExit)))) = true := by
  decide +kernel

/-- A termination that recovers an exit agrees with all others. -/
theorem recovered_terminations_agree : ∃ cfg,
    supervisor.ReachableUnder Inner.new (fun cfg l => settlesUnheld cfg l = true) cfg ∧
    (4, .returned (.terminated 1 (.ok retriedExit))) ∈ cfg.shared.history ∧
    TerminationsAgree cfg.shared := by
  obtain ⟨cfg, hf, hP⟩ := (Option.any_eq_true _ _).mp recover_settles_unheld
  have hr : supervisor.ReachableUnder Inner.new (fun cfg l => settlesUnheld cfg l = true) cfg :=
    Machine.ReachableUnder.initial.followUnder hf
  exact ⟨cfg, hr, List.mem_of_mem_head? (of_decide_eq_true hP), terminations_agree hr⟩

/-- Two terminations retry. The first wait of one fails; the other gets the exit and returns
it. The first one kills and waits again, and its wait fails because the slot is gone. -/
def twoRetries : List (Label Answer Call) :=
  [.start (.terminate 1 .default)] ++ steps 3 4 ++ [.run 3 (.waited none)] ++
  [.start (.terminate 1 .default)] ++ steps 4 4 ++
  [.run 4 (.waited (some ⟨some 0, none, false⟩))] ++ steps 4 4 ++ steps 3 3 ++
  [.run 3 (.waited none)]

set_option maxRecDepth 10000 in
/-- The schedule of two retries: the later one settles, and returns an unverified exit while the
waiters show the verified one. -/
theorem twoRetries_disagree :
    (supervisor.follow (Machine.initial Inner.new) (quarantine ++ twoRetries)).any (fun cfg =>
      unixWaits cfg.shared.history &&
      cfg.shared.history.head? =
        some (3, .returned (.terminated 1 (.ok (unverifiedExit 1 .reapFailed)))) &&
      cfg.shared.history.tail.contains (4, .returned (.terminated 1 (.ok retriedExit))) &&
      cfg.shared.waiters.tryGet 1 = some retriedExit) = true := by
  decide +kernel

/-- **Two retries disagree**: one has returned a verified exit, and the other one returns an
unverified exit after that, though the verified one is in the waiter table. -/
theorem concurrent_retries_disagree : ∃ cfg, Reachable cfg ∧
    unixWaits cfg.shared.history = true ∧ ¬ TerminationsAgree cfg.shared := by
  obtain ⟨cfg, hr, hP⟩ := exists_reachable twoRetries_disagree
  obtain ⟨hP, hshown⟩ := Bool.and_eq_true_iff.mp hP
  obtain ⟨hP, hret⟩ := Bool.and_eq_true_iff.mp hP
  obtain ⟨hwaits, hhead⟩ := Bool.and_eq_true_iff.mp hP
  refine ⟨cfg, hr, hwaits, fun hag => ?_⟩
  obtain ⟨older, heq⟩ := List.head?_eq_some_iff.mp (of_decide_eq_true hhead)
  rw [heq] at hret
  have hret : Happened older (.returned (.terminated 1 (.ok retriedExit))) :=
    .of_mem (List.contains_iff_mem.mp hret)
  have hv := hag 3 _ older 1 _ heq (.inl rfl) ⟨retriedExit, by decide, .inr hret⟩
    (.inr ⟨_, of_decide_eq_true hshown⟩)
  exact absurd hv (by decide)

end Shepherd
