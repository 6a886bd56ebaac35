import Shepherd.Supervisor.Protocol

/-!
# Waiting for and Terminating a Process

Specifications of the programs that observe one process: the dispatch of events, `wait`,
`terminate` with its retry path, the termination worker, and the monitor. All of them are
calm: they need no operation lock, so their specifications hold from any state `s₀` that
the caller remembers.

What a lookup under the registry lock can find is said once, by the lemmas `…_result`.
-/

open Std

namespace Shepherd

open Conc

variable {t : Tid} {s s₀ : Inner} {u : Inner → Prop} {c : ProcessScopeId} {p : ProcessId}
  {os : OsIdentity} {h h' : History}

/-! ### Results of lookups -/

/-- A process that nothing tracks and that the waiters do not show. -/
theorem Inv.unknownReturn (hi : Inv s) (hnt : ∀ c proc, ¬ Tracked s.registry c p proc)
    (hg : s.waiters.tryGet p = none) : UnknownReturn p s.history := by
  intro c os ha
  rcases hi.processes.signalled ha with hs | hl | ⟨proc, htr⟩
  · refine .inr (hi.signals.retained.displaced p (mem_signalLog.mpr hs) fun hm => ?_)
    have hsome := (s.waiters.wf.mem_completed p).mp hm
    have hnone : s.waiters.slots.tryGet p = none := hg
    rw [hnone] at hsome
    cases hsome
  · exact .inl hl
  · exact absurd htr (hnt c proc)

/-- A process that no scope is found for is tracked by none. -/
theorem not_tracked {r : ScopeRegistry} (hn : r.scopeOf p = none) (c : ProcessScopeId)
    (proc : Process) : ¬ Tracked r c p proc := by
  rintro ⟨sc, hsc, hp⟩
  rw [ScopeRegistry.scopeOf_eq_none hn hsc] at hp
  cases hp

/-- What `wait` can find. -/
def WaitLookup.Sound (h : History) (p : ProcessId) : WaitLookup → Prop
  | .unowned (some e) | .exited e => e.Verified → HasEvidence h p
  | .unowned none => UnknownReturn p h
  | .registered f => FutureFor h p f

/-- What a registration answers is sound: an exit that it gives was signalled, and a receiver is one
of its process. -/
theorem Inv.registerWait_result (hi : Inv s) (p : ProcessId) :
    (s.registerWait p).1.Sound s.history p := by
  rw [Inner.registerWait]
  split
  · next hn =>
      cases hg : s.waiters.tryGet p with
      | some e => exact hi.signals.evidence_of_tryGet hi.lawful hg
      | none =>
          refine hi.unknownReturn (not_tracked ?_) hg
          cases hso : s.registry.scopeOf p with
          | none => rfl
          | some c =>
              obtain ⟨sc, proc, hsc, -⟩ := ScopeRegistry.scopeOf_eq_some hso
              rw [hso, Option.bind_some, hsc] at hn
              cases hn
  · next sc hsc =>
      obtain ⟨c, -, hsc⟩ := Option.bind_eq_some_iff.mp hsc
      split
      · next e hex =>
          obtain ⟨proc, hp, hpe⟩ := ProcessScope.exitOf_eq_some.mp hex
          exact hi.processes.evidence_of_exit ⟨sc, hsc, hp⟩ hpe
      · exact hi.signals.futureFor hi.lawful p

/-- A registration is not logged. -/
@[simp] theorem Inner.registerWait_history (s : Inner) (p : ProcessId) :
    (s.registerWait p).2.history = s.history := by
  rw [Inner.registerWait]
  repeat' split
  all_goals rfl

/-- The start of a termination is not logged. -/
@[simp] theorem Inner.beginTermination_history (s : Inner) (p : ProcessId) :
    (s.beginTermination p).2.history = s.history := by
  rw [Inner.beginTermination]
  repeat' split
  all_goals rfl

/-- Events that can be dispatched: no `ScopeClosed`, and exits of the processes they name,
verified only with evidence. -/
def Dispatchable (h : History) (events : List DomainEvent) : Prop :=
  ∀ ev ∈ events, (∀ c, ev ≠ .scopeClosed c) ∧
    ∀ c p e, ev = .processReaped c p e → e.pid = p ∧ (e.Verified → HasEvidence h p)

/-- Events that can be dispatched can be dispatched later. -/
theorem Dispatchable.mono {events : List DomainEvent} (hs : h <:+ h')
    (hd : Dispatchable h events) : Dispatchable h' events := by
  refine fun ev hev => ⟨(hd ev hev).1, fun c p e heq => ?_⟩
  obtain ⟨hpid, hv⟩ := (hd ev hev).2 c p e heq
  exact ⟨hpid, fun hver => (hv hver).mono hs⟩

/-- What `terminate` can find. -/
def TerminateLookup.Sound (h : History) (p : ProcessId) : TerminateLookup → Prop
  | .unowned (some e) => e.Verified ↔ HasEvidence h p
  | .unowned none => UnknownReturn p h
  | .verified e => e.Verified ∧ HasEvidence h p
  | .refused _ => True
  | .requested c os _ events quarantined f =>
      Happened h (.attached c p os) ∧ Dispatchable h events ∧
      (quarantined = true → Reaped h p) ∧ FutureFor h p f

/-- What the start of a termination answers is sound. -/
theorem Inv.beginTermination_result (hi : Inv s) (p : ProcessId) :
    (s.beginTermination p).1.Sound s.history p := by
  rw [Inner.beginTermination]
  split
  · next hn =>
      cases hg : s.waiters.tryGet p with
      | none => exact hi.unknownReturn (not_tracked hn) hg
      | some e =>
          refine ⟨hi.signals.evidence_of_tryGet hi.lawful hg, fun hev => ?_⟩
          by_contra hv
          exact hi.signals.unverified hg hv hev
  next c hso =>
  obtain ⟨sc, proc, hsc, hp⟩ := ScopeRegistry.scopeOf_eq_some hso
  simp only [hsc, hp]
  have htr : Tracked s.registry c p proc := ⟨sc, hsc, hp⟩
  split
  · next e he =>
      obtain ⟨hpe, hv⟩ := Option.filter_eq_some_iff.mp he
      exact ⟨hv, hi.processes.evidence_of_exit htr hpe hv⟩
  split
  · trivial
  · next events hok =>
      refine ⟨hi.processes.attached htr, fun ev hev => ?_, fun hq => ?_,
        hi.signals.futureFor hi.lawful p⟩
      · have hreq : ev = .terminationRequested sc.id p := by
          rw [ProcessScope.requestTermination, hp] at hok
          obtain rfl := Except.ok.inj hok
          split at hev
          · exact List.mem_singleton.mp hev
          · cases hev
        subst hreq
        exact ⟨fun _ heq => (by cases heq), fun _ _ _ heq => (by cases heq)⟩
      · obtain ⟨e, hpe⟩ := Option.isSome_iff_exists.mp hq
        rcases hi.processes.exit htr hpe with hx | hx
        · exact ⟨c, e, hx⟩
        · obtain ⟨_, l, hs, -, -, -, hr, -⟩ := hi.lawful.of_happened hx
          exact hr.mono hs

/-! ### Dispatch -/

/-- **The specification of `dispatch`**: its events are handled calmly, and an exit is signalled
before its entry is pruned. -/
theorem wp_dispatch {events : List DomainEvent} (hd : Dispatchable s.history events)
    (hs : Calm t s₀ s) (hu : Await (fun ev => ev.calm = true) t u s₀) :
    WP t u (dispatch events) (fun _ s' => Calm t s₀ s' ∧ s.history <:+ s'.history) s := by
  induction events generalizing s with
  | nil => exact ⟨hs, List.suffix_refl _⟩
  | cons ev rest ih =>
      obtain ⟨hsc, hev⟩ := hd ev List.mem_cons_self
      rw [dispatch, act_bind]
      refine wp_calm rfl (fun _ => rfl) hs hu fun s₁ hr₁ hs₁ hi₁ => ?_
      refine ⟨.of_guard rfl ⟨fun c heq => absurd heq (hsc c), fun c p e heq =>
        ⟨(hev c p e heq).1, fun hv => ((hev c p e heq).2 hv).mono hr₁.suffix⟩⟩,
        fun a r s₂ he hi₂ hs₂ => ?_⟩
      have hsig : ∀ c p e, ev = .processReaped c p e → e.Verified → Signalled s₂.history p := by
        rintro c p e rfl hv
        obtain ⟨-, rfl⟩ := Prod.mk.inj (Option.some.inj he)
        have hver : e.outcome.isVerified = true := hv
        simp only [Inner.notify, hver, if_true]
        exact ⟨e, happened_cons.mpr (.inl rfl)⟩
      have h₂ := hr₁.suffix.trans (exec_suffix he)
      rw [act_bind]
      refine wp_calm rfl (fun _ => rfl) hs₂ hu fun s₃ hr₃ hs₃ hi₃ => ?_
      refine ⟨.of_guard rfl fun c p e heq hv => (hsig c p e heq hv).mono hr₃.suffix,
        fun a r s₄ he hi₄ hs₄ => ?_⟩
      have h₄ := h₂.trans (hr₃.suffix.trans (exec_suffix he))
      rw [act_bind]
      refine wp_calm rfl (fun _ => rfl) hs₄ hu fun s₅ hr₅ hs₅ hi₅ => ⟨.of_guard rfl trivial, ?_⟩
      intro a r s₆ he hi₆ hs₆
      have h₆ := h₄.trans (hr₅.suffix.trans (exec_suffix he))
      refine Protocol.wp_mono (fun _ s' hs' => ⟨hs'.1, h₆.trans hs'.2⟩) (ih ?_ hs₆)
      exact Dispatchable.mono h₆ fun ev' hev' => hd ev' (List.mem_cons_of_mem ev hev')

/-! ### Waiting -/

/-- What `wait` returns. -/
def WaitResult (h : History) (p : ProcessId) (v : Except WaitError ProcessExit) : Prop :=
  (∀ e, v = .ok e → e.Verified → HasEvidence h p) ∧
  ∀ q, v = .error (.unknownProcess q) → UnknownReturn p h

/-- A wait may return an exit that is verified only with evidence. -/
theorem WaitResult.ok {e : ProcessExit} (hv : e.Verified → HasEvidence h p) :
    WaitResult h p (.ok e) := by
  refine ⟨fun e' heq => ?_, fun q heq => by cases heq⟩
  obtain rfl := Except.ok.inj heq
  exact hv

/-- **The specification of `wait`.** -/
theorem wp_wait (hs : Calm t s₀ s) (hu : Await (fun ev => ev.calm = true) t u s₀) :
    WP t u (wait p) (fun v s' => Calm t s₀ s' ∧ WaitResult s'.history p v) s := by
  rw [wait, act_bind]
  refine wp_calm rfl (fun _ => rfl) hs hu fun s₁ hr₁ hs₁ hi₁ => ⟨.of_guard rfl trivial, ?_⟩
  intro a r s₂ he hi₂ hs₂
  obtain ⟨rfl, rfl⟩ := Prod.mk.inj (Option.some.inj he)
  cases hg : s₁.waiters.tryGet p with
  | some e => exact ⟨hs₂, .ok (hi₂.signals.evidence_of_tryGet hi₂.lawful hg)⟩
  | none =>
      dsimp only
      rw [act_bind]
      refine wp_calm rfl (fun _ => rfl) hs₂ hu fun s₃ hr₃ hs₃ hi₃ => ⟨.of_guard rfl trivial, ?_⟩
      intro a r s₄ he hi₄ hs₄
      have hres := hi₃.registerWait_result p
      have heq : s₃.registerWait p = (r, s₄) := Option.some.inj he
      have hh : s₄.history = s₃.history := by
        rw [← Inner.registerWait_history s₃ p, heq]
      rw [heq, ← hh] at hres
      cases r with
      | exited e => exact ⟨hs₄, .ok hres⟩
      | unowned x =>
          cases x with
          | some e => exact ⟨hs₄, .ok hres⟩
          | none => exact ⟨hs₄, fun e heq => (by cases heq), fun q heq => hres⟩
      | registered f =>
          dsimp only
          rw [act_bind]
          refine wp_calm rfl (fun _ => rfl) hs₄ hu fun s₅ hr₅ hs₅ hi₅ => ⟨.of_guard rfl trivial, ?_⟩
          intro a r s₆ he hi₆ hs₆
          obtain ⟨e, hpoll, heq⟩ := Option.map_eq_some_iff.mp he
          obtain ⟨rfl, rfl⟩ := Prod.mk.inj heq
          have hf : FutureFor s₅.history p f := FutureFor.mono hr₅.suffix hres
          exact ⟨hs₆, .ok (hf.evidence hi₆.lawful hi₆.signals hpoll)⟩

/-! ### Terminating -/

/-- What `terminate` returns. -/
def TerminateResult (t : Tid) (h : History) (p : ProcessId)
    (v : Except TerminateError ProcessExit) : Prop :=
  (∀ e, v = .ok e → ExitReturn t p e h) ∧
  ∀ q, v = .error (.unknownProcess q) → UnknownReturn p h

/-- A termination may return an exit of its process. -/
theorem TerminateResult.ok {e : ProcessExit} (hv : ExitReturn t p e h) :
    TerminateResult t h p (.ok e) := by
  refine ⟨fun e' heq => ?_, fun q heq => by cases heq⟩
  obtain rfl := Except.ok.inj heq
  exact hv

/-- A termination may return an error of the domain. -/
theorem TerminateResult.domain (t : Tid) (h : History) (p : ProcessId) (e : DomainError) :
    TerminateResult t h p (.error (.domain e)) :=
  ⟨fun _ heq => (by cases heq), fun _ heq => by cases heq⟩

/-- A verified exit may be returned where there is evidence. -/
theorem ExitReturn.verified {e : ProcessExit} (hv : e.Verified) (hp : HasEvidence h p) :
    ExitReturn t p e h :=
  ⟨fun _ => hp, fun hn => absurd hv hn⟩

/-- An unverified exit may be returned by a task that has given up on the process. -/
theorem ExitReturn.unverified {reason : UnverifiedReason} :
    ExitReturn t p (unverifiedExit p reason) ((t, .gaveUp p) :: h) :=
  ⟨fun hv => absurd hv (by simp [ProcessExit.Verified, unverifiedExit,
    TerminationOutcome.isVerified]), fun _ => .inr ⟨h, rfl⟩⟩

/-- The exit of a future, as a terminating call settles for it. -/
theorem ExitReturn.settleFor {f : WaitFuture} {e : ProcessExit} (hi : Inv s)
    (hf : FutureFor s.history p f) (hpoll : s.waiters.poll f = some e) :
    ExitReturn t p e (s.settleFor t p (some e)).history := by
  by_cases hv : e.Verified
  · have hset : s.settleFor t p (some e) = s := by
      have hver : e.outcome.isVerified = true := hv
      simp [Inner.settleFor, hver]
    rw [hset]
    exact .verified hv (hf.evidence hi.lawful hi.signals hpoll hv)
  · have hset : s.settleFor t p (some e) = s.log t (.gaveUp p) := by
      have hver : e.outcome.isVerified = false := Bool.eq_false_iff.mpr hv
      simp [Inner.settleFor, hver]
    rw [hset]
    exact ⟨fun hx => absurd hx hv, fun _ => .inr ⟨s.history, rfl⟩⟩

/-- A reap is reported for the process and the exit that were recorded. -/
theorem ProcessScope.of_mem_recordReaped {sc : ProcessScope} {q : ProcessId}
    {e e' : ProcessExit} {events : List DomainEvent} (hok : (sc.recordReaped p e).1 = .ok events)
    (hm : .processReaped c q e' ∈ events) : q = p ∧ e' = e := by
  cases hp : sc.get p with
  | none =>
      rw [ProcessScope.recordReaped_unknown e hp] at hok
      cases hok
  | some proc =>
      rcases sc.recordReaped_cases p e hp with ⟨-, hr⟩ | ⟨-, -, hr⟩ | ⟨-, -, -, hr⟩
      all_goals
        rw [hr] at hok
        obtain rfl := Except.ok.inj hok
        simp only [List.mem_cons, List.not_mem_nil, DomainEvent.processReaped.injEq, reduceCtorEq,
          or_false] at hm
      · exact hm.2
      · exact hm.2

/-- What a retry records is verified, with evidence. -/
theorem Inv.recordRecovered_result (hi : Inv s) (t : Tid) (raw : RawExit)
    (ha : Happened s.history (.attached c p os)) {e : ProcessExit} {events : List DomainEvent}
    {s' : Inner} (heq : s.recordRecovered t c p raw = (.ok (e, events), s')) :
    e.Verified ∧ HasEvidence s'.history p ∧ Dispatchable s'.history events := by
  have hv := recoveredExit_verified p raw
  rw [Inner.recordRecovered] at heq
  rcases hi.storeRecovered_cases t ha rfl hv with ⟨e', -, hv', hev, hst⟩ |
    ⟨sc, proc, events', hsc, hp, hun, hnev, hok, hst⟩
  · rw [hst] at heq
    injection heq with h₁ h₂
    injection h₁ with h₁
    obtain ⟨rfl, rfl⟩ := Prod.mk.inj h₁
    subst h₂
    refine ⟨hv', ?_, fun ev hev' => by simp [withoutScopeClosed] at hev'⟩
    rw [Inner.retainCompletedOutput]
    split <;> exact hev.mono (List.suffix_cons _ _)
  · rw [hst] at heq
    injection heq with h₁ h₂
    injection h₁ with h₁
    obtain ⟨rfl, rfl⟩ := Prod.mk.inj h₁
    subst h₂
    have hev : HasEvidence (((t, Event.exitSignalled p (recoveredExit p raw)) ::
        (t, .recovered c p (recoveredExit p raw)) :: s.history)) p :=
      ⟨c, _, hv, .inr (by simp)⟩
    have hh : ∀ s₁ : Inner, s₁.history = (t, .recovered c p (recoveredExit p raw)) :: s.history →
        ((s₁.retainCompletedOutput p).signalExit t p (recoveredExit p raw)).history =
        (t, .exitSignalled p (recoveredExit p raw)) ::
          (t, .recovered c p (recoveredExit p raw)) :: s.history := by
      intro s₁ h₁
      rw [Inner.retainCompletedOutput]
      split <;> exact congrArg _ h₁
    rw [hh _ rfl]
    refine ⟨hv, hev, fun ev hev' => ?_⟩
    obtain ⟨hmem, hnc⟩ := List.mem_filter.mp hev'
    refine ⟨?_, fun c' q e' heq => ?_⟩
    · rintro c' rfl
      simp [DomainEvent.isScopeClosed] at hnc
    · subst heq
      obtain ⟨rfl, rfl⟩ := ProcessScope.of_mem_recordReaped hok hmem
      exact ⟨rfl, fun _ => hev⟩

/-- A recovered exit is recorded, dispatched and returned. -/
theorem wp_recordRecoveredExit {raw : RawExit} (hr : Reaped s.history p)
    (ha : Happened s.history (.attached c p os)) (hw : WaitOk s.history os)
    (hs : Calm t s₀ s) (hu : Await (fun ev => ev.calm = true) t u s₀) :
    WP t u (recordRecoveredExit c p raw)
      (fun v s' => Calm t s₀ s' ∧ TerminateResult t s'.history p v) s := by
  rw [recordRecoveredExit, act_bind]
  refine wp_calm rfl (fun _ => rfl) hs hu fun s₁ hr₁ hs₁ hi₁ => ?_
  have ha₁ := ha.mono hr₁.suffix
  refine ⟨⟨nofun, hr.mono hr₁.suffix, os, ha₁, hw.mono hr₁.suffix⟩,
    fun a r s₂ he hi₂ hs₂ => ?_⟩
  have heq : s₁.recordRecovered t c p raw = (r, s₂) := Option.some.inj he
  cases r with
  | error e => exact ⟨hs₂, .domain t _ p e⟩
  | ok x =>
      obtain ⟨e, events⟩ := x
      obtain ⟨hv, hev, hd⟩ := hi₁.recordRecovered_result t raw ha₁ heq
      refine wp_seq _ (wp_dispatch hd hs₂ hu) fun _ s' hs' => ?_
      exact ⟨hs'.1, .ok (.verified hv (hev.mono hs'.2))⟩

/-- The retry after a forced kill recovers an exit, or gives up. -/
theorem wp_retryForced {opts : TerminateOptions} (hr : Reaped s.history p)
    (ha : Happened s.history (.attached c p os)) (hs : Calm t s₀ s)
    (hu : Await (fun ev => ev.calm = true) t u s₀) :
    WP t u (retryForced c p os opts)
      (fun v s' => Calm t s₀ s' ∧ TerminateResult t s'.history p v) s := by
  rw [retryForced, act_bind]
  refine wp_calm rfl (fun _ => rfl) hs hu fun s₁ hr₁ hs₁ hi₁ => ⟨.of_guard rfl trivial, ?_⟩
  intro a r s₂ he hi₂ hs₂
  have hsuf := hr₁.suffix.trans (exec_suffix he)
  simp only [exec] at he
  split at he
  · next raw =>
      obtain ⟨rfl, rfl⟩ := Prod.mk.inj (Option.some.inj he)
      exact wp_recordRecoveredExit (hr.mono hsuf) (ha.mono hsuf) ⟨raw, by simp⟩ hs₂ hu
  · obtain ⟨rfl, rfl⟩ := Prod.mk.inj (Option.some.inj he)
    exact ⟨hs₂, .ok .unverified⟩
  · split at he
    · obtain ⟨rfl, rfl⟩ := Prod.mk.inj (Option.some.inj he)
      exact ⟨hs₂, .ok .unverified⟩
    · cases he
  · cases he

/-- The retry for a quarantined process signals, waits, and goes on to a forced kill. -/
theorem wp_retryQuarantined {graceful : Signal} {opts : TerminateOptions}
    (hr : Reaped s.history p) (ha : Happened s.history (.attached c p os)) (hs : Calm t s₀ s)
    (hu : Await (fun ev => ev.calm = true) t u s₀) :
    WP t u (retryQuarantined c p os graceful opts)
      (fun v s' => Calm t s₀ s' ∧ TerminateResult t s'.history p v) s := by
  rw [retryQuarantined, act_bind]
  refine wp_skip rfl (fun _ => rfl) (fun _ => .of_guard rfl trivial) hs hu fun _ s₁ hs₁ h₁ => ?_
  rw [act_bind]
  refine wp_skip rfl (fun _ => rfl) (fun _ => .of_guard rfl trivial) hs₁ hu fun _ s₂ hs₂ h₂ => ?_
  rw [act_bind]
  refine wp_calm rfl (fun _ => rfl) hs₂ hu fun s₃ hr₃ hs₃ hi₃ => ⟨.of_guard rfl trivial, ?_⟩
  intro a r s₄ he hi₄ hs₄
  have h₄ := h₁.trans (h₂.trans (hr₃.suffix.trans (exec_suffix he)))
  have hr₄ := hr.mono h₄
  have ha₄ := ha.mono h₄
  simp only [exec] at he
  split at he
  · next result =>
      obtain ⟨rfl, rfl⟩ := Prod.mk.inj (Option.some.inj he)
      cases result with
      | some raw => exact wp_recordRecoveredExit hr₄ ha₄ ⟨raw, by simp⟩ hs₄ hu
      | none =>
          dsimp only
          rw [act_bind]
          refine wp_skip rfl (fun _ => rfl) (fun _ => .of_guard rfl trivial) hs₄ hu
            fun _ s₅ hs₅ h₅ => ?_
          rw [act_bind]
          refine wp_skip rfl (fun _ => rfl) (fun _ => .of_guard rfl trivial) hs₅ hu
            fun _ s₆ hs₆ h₆ => ?_
          rw [act_bind]
          refine wp_skip rfl (fun _ => rfl) (fun _ => .of_guard rfl trivial) hs₆ hu
            fun _ s₇ hs₇ h₇ => ?_
          have hsuf := h₅.trans (h₆.trans h₇)
          exact wp_retryForced (hr₄.mono hsuf) (ha₄.mono hsuf) hs₇ hu
  · obtain ⟨rfl, rfl⟩ := Prod.mk.inj (Option.some.inj he)
    dsimp only
    rw [act_bind]
    refine wp_skip rfl (fun _ => rfl) (fun _ => .of_guard rfl trivial) hs₄ hu fun _ s₅ hs₅ h₅ => ?_
    exact wp_retryForced (hr₄.mono h₅) (ha₄.mono h₅) hs₅ hu
  · cases he

/-- Behind its first signal, a termination waits for an exit, and then forces one. -/
theorem wp_terminateSignalled {graceful : Signal} {f : WaitFuture} {opts : TerminateOptions}
    (hf : FutureFor s.history p f) (hs : Calm t s₀ s)
    (hu : Await (fun ev => ev.calm = true) t u s₀) :
    WP t u (terminateSignalled c p os graceful f opts)
      (fun v s' => Calm t s₀ s' ∧ TerminateResult t s'.history p v) s := by
  rw [terminateSignalled, act_bind]
  refine wp_skip rfl (fun _ => rfl) (fun _ => .of_guard rfl trivial) hs hu fun _ s₁ hs₁ h₁ => ?_
  have hf₁ : FutureFor s₁.history p f := FutureFor.mono h₁ hf
  rw [act_bind]
  refine wp_calm rfl (fun _ => rfl) hs₁ hu fun s₂ hr₂ hs₂ hi₂ => ⟨.of_guard rfl trivial, ?_⟩
  intro a r s₃ he hi₃ hs₃
  have hf₂ : FutureFor s₂.history p f := FutureFor.mono hr₂.suffix hf₁
  simp only [exec] at he
  split at he
  · obtain ⟨e, hpoll, heq⟩ := Option.map_eq_some_iff.mp he
    obtain ⟨rfl, rfl⟩ := Prod.mk.inj heq
    exact ⟨hs₃, .ok (.settleFor hi₂ hf₂ hpoll)⟩
  · obtain ⟨rfl, rfl⟩ := Prod.mk.inj (Option.some.inj he)
    dsimp only
    rw [act_bind]
    refine wp_skip rfl (fun _ => rfl) (fun _ => .of_guard rfl trivial) hs₃ hu fun _ s₄ hs₄ h₄ => ?_
    rw [act_bind]
    refine wp_skip rfl (fun _ => rfl) (fun _ => .of_guard rfl trivial) hs₄ hu fun _ s₅ hs₅ h₅ => ?_
    rw [act_bind]
    refine wp_calm rfl (fun _ => rfl) hs₅ hu fun s₆ hr₆ hs₆ hi₆ => ⟨.of_guard rfl trivial, ?_⟩
    intro a r s₇ he hi₇ hs₇
    have hf₆ : FutureFor s₆.history p f :=
      FutureFor.mono (h₄.trans (h₅.trans hr₆.suffix)) hf₂
    simp only [exec] at he
    split at he
    · obtain ⟨e, hpoll, heq⟩ := Option.map_eq_some_iff.mp he
      obtain ⟨rfl, rfl⟩ := Prod.mk.inj heq
      exact ⟨hs₇, .ok (.settleFor hi₆ hf₆ hpoll)⟩
    · split at he
      · obtain ⟨rfl, rfl⟩ := Prod.mk.inj (Option.some.inj he)
        exact ⟨hs₇, .ok .unverified⟩
      · cases he
    · cases he
  · cases he

/-- **The specification of `terminate`.** -/
theorem wp_terminate {opts : TerminateOptions} (hs : Calm t s₀ s)
    (hu : Await (fun ev => ev.calm = true) t u s₀) :
    WP t u (terminate p opts)
      (fun v s' => Calm t s₀ s' ∧ TerminateResult t s'.history p v) s := by
  rw [terminate, act_bind]
  refine wp_calm rfl (fun _ => rfl) hs hu fun s₁ hr₁ hs₁ hi₁ => ⟨.of_guard rfl trivial, ?_⟩
  intro a r s₂ he hi₂ hs₂
  obtain ⟨rfl, rfl⟩ := Prod.mk.inj (Option.some.inj he)
  cases hg : (s₁.waiters.tryGet p).filter fun e => e.outcome.isVerified with
  | some e =>
      obtain ⟨hg, hv⟩ := Option.filter_eq_some_iff.mp hg
      exact ⟨hs₂, .ok (.verified hv (hi₂.signals.evidence_of_tryGet hi₂.lawful hg hv))⟩
  | none =>
      dsimp only
      rw [act_bind]
      refine wp_calm rfl (fun _ => rfl) hs₂ hu fun s₃ hr₃ hs₃ hi₃ => ⟨.of_guard rfl trivial, ?_⟩
      intro a r s₄ he hi₄ hs₄
      have hres := hi₃.beginTermination_result p
      have heq : s₃.beginTermination p = (r, s₄) := Option.some.inj he
      have hh : s₄.history = s₃.history := by
        rw [← Inner.beginTermination_history s₃ p, heq]
      rw [heq, ← hh] at hres
      cases r with
      | verified e => exact ⟨hs₄, .ok (.verified hres.1 hres.2)⟩
      | refused e => exact ⟨hs₄, .domain t _ p e⟩
      | unowned x =>
          cases x with
          | none => exact ⟨hs₄, fun e heq => (by cases heq), fun q _ => hres⟩
          | some e =>
              have hret : ExitReturn t p e s₄.history :=
                ⟨hres.mp, fun hv => .inl fun hev => hv (hres.mpr hev)⟩
              exact ⟨hs₄, .ok hret⟩
      | requested c os graceful events quarantined f =>
          obtain ⟨ha, hd, hq, hf⟩ := hres
          dsimp only
          split
          · next hqt => exact wp_retryQuarantined (hq hqt) ha hs₄ hu
          · refine wp_seq _ (wp_dispatch hd hs₄ hu) fun _ s₅ ⟨hs₅, h₅⟩ => ?_
            rw [act_bind]
            refine wp_calm rfl (fun _ => rfl) hs₅ hu fun s₆ hr₆ hs₆ hi₆ =>
              ⟨.of_guard rfl trivial, ?_⟩
            intro a r s₇ he hi₇ hs₇
            obtain ⟨rfl, rfl⟩ := Prod.mk.inj (Option.some.inj he)
            have h₆ := h₅.trans hr₆.suffix
            cases hg' : s₆.waiters.tryGet p with
            | none => exact wp_terminateSignalled (FutureFor.mono h₆ hf) hs₇ hu
            | some e =>
                dsimp only
                split
                · next hv =>
                    have hev := hi₇.signals.evidence_of_tryGet hi₇.lawful hg' hv
                    exact ⟨hs₇, .ok (.verified hv hev)⟩
                · have hr := hi₇.lawful.reaped_of_signalled ⟨e, hi₇.signals.shown hg'⟩
                  exact wp_retryQuarantined hr (ha.mono h₆) hs₇ hu

/-! ### Termination workers -/

/-- **The specification of a termination worker.** A verified exit has evidence, whenever the worker
polls its observer. -/
theorem wp_worker {f : WaitFuture} {opts : TerminateOptions} (hf : FutureFor s₀.history p f)
    (hs : Calm t s₀ s) (hu : Await (fun ev => ev.calm = true) t u s₀) :
    WP t u (worker p f opts)
      (fun v s' => Calm t s₀ s' ∧ ∀ e, v = .ok e → ExitReturn t p e s'.history) s := by
  rw [worker, act_bind]
  refine wp_calm rfl (fun _ => rfl) hs hu fun s₁ hr₁ hs₁ hi₁ => ⟨.of_guard rfl trivial, ?_⟩
  intro a r s₂ he hi₂ hs₂
  obtain ⟨rfl, rfl⟩ := Prod.mk.inj (Option.some.inj he)
  have hpolled : ∀ {s' e}, Calm t s₀ s' → Inv s' → s'.waiters.poll f = some e → e.Verified →
      ∀ e', (Except.ok e : Except TerminateError ProcessExit) = .ok e' →
        ExitReturn t p e' s'.history := by
    intro s' e hs' hi' hpoll hv e' heq
    obtain rfl := Except.ok.inj heq
    exact .verified hv ((FutureFor.mono hs'.suffix hf).evidence hi'.lawful hi'.signals hpoll hv)
  have hterm : ∀ {u : Inner → Prop}, Await (fun ev => ev.calm = true) t u s₀ →
      WP t u (terminate p opts)
        (fun v s' => Calm t s₀ s' ∧ ∀ e, v = .ok e → ExitReturn t p e s'.history) s₁ :=
    fun hu' => Protocol.wp_mono (fun _ _ hx => ⟨hx.1, hx.2.1⟩) (wp_terminate hs₂ hu')
  cases hpoll : s₁.waiters.poll f with
  | some e =>
      dsimp only
      split
      · next hv => exact ⟨hs₂, hpolled hs₂ hi₂ hpoll hv⟩
      · exact hterm hu
  | none =>
      refine wp_race (hterm fun s' hs' hi' ht' => ⟨hu s' hs' hi' ht', fun e hp hv => ?_⟩)
      exact ⟨hs', hpolled hs' hi' hp hv⟩

/-! ### Monitors -/

/-- What the monitor records can be dispatched: the record of the exit, without that of a reap. -/
theorem Inner.recordMonitored_result {result : Option RawExit} {events : List DomainEvent}
    {s' : Inner}
    (heq : s.recordMonitored t c p result = (some events, s')) :
    Dispatchable s'.history events := by
  rw [Inner.recordMonitored] at heq
  split at heq
  · cases heq
  next sc hsc =>
  split at heq
  · cases heq
  next proc hp =>
  injection heq with h₁ h₂
  obtain rfl := Option.some.inj h₁
  subst h₂
  intro ev hev
  obtain ⟨hmem, hnc⟩ := List.mem_filter.mp hev
  refine ⟨?_, fun c' q e' heq => ?_⟩
  · rintro c' rfl
    simp [DomainEvent.isScopeClosed] at hnc
  · subst heq
    simp only [ProcessScope.recordMonitored, List.mem_append] at hmem
    rcases hmem with hmem | hmem
    · rw [ProcessScope.recordExit, hp] at hmem
      dsimp only [Except.toOption, Option.getD_some] at hmem
      split at hmem
      · simp at hmem
      · cases hmem
    · cases hok : ((sc.recordExit p).2.recordReaped p (monitoredExit proc p result)).1 with
      | error e =>
          rw [hok] at hmem
          cases hmem
      | ok events =>
          rw [hok] at hmem
          obtain ⟨rfl, rfl⟩ := ProcessScope.of_mem_recordReaped hok hmem
          exact ⟨Inv.monitoredExit_pid proc q result, fun hv' => ⟨c, _, hv', .inl (by simp)⟩⟩

/-- A monitor that has recorded nothing yet is the first to record an exit. -/
theorem Inv.not_reaped (hi : Inv s) (hm : Happened s.history (.monitorStarted c p t))
    (hn : ∀ c e, (t, .reaped c p e) ∉ s.history) : ¬ Reaped s.history p := by
  rintro ⟨c', e, t', hmem⟩
  obtain ⟨l₁, l₂, hsplit, hj⟩ := hi.lawful.of_mem hmem
  have hs : l₂ <:+ s.history := ⟨l₁ ++ [(t', .reaped c' p e)], by rw [hsplit]; simp⟩
  obtain rfl := hi.lawful.monitor_unique hm (hj.2.1.mono hs)
  exact hn c' e hmem

/-- **The specification of a monitor.** -/
theorem wp_monitor (hm : Happened s.history (.monitorStarted c p t))
    (ha : Happened s.history (.attached c p os))
    (hn : ∀ c e, (t, .reaped c p e) ∉ s.history) :
    WP t (fun _ => True) (monitor c p os) (fun _ _ => True) s := by
  have hu : ∀ s₀, Await (fun ev => ev.calm = true) t (fun _ => True) s₀ :=
    fun _ _ _ _ _ => trivial
  rw [monitor, act_bind]
  refine wp_skip rfl (fun _ => rfl) (fun _ => .of_guard rfl trivial) (Since.refl t s) (hu s)
    fun _ s₁ hs₁ h₁ => ?_
  rw [act_bind]
  refine wp_calm rfl (fun _ => rfl) hs₁ (hu s) fun s₂ hr₂ hs₂ hi₂ => ⟨.of_guard rfl trivial, ?_⟩
  intro a result s₃ he hi₃ hs₃
  have hw : result ≠ none → WaitOk s₃.history os := by
    simp only [exec] at he
    split at he
    · next result =>
        obtain ⟨rfl, rfl⟩ := Prod.mk.inj (Option.some.inj he)
        intro hne
        obtain ⟨raw, rfl⟩ := Option.ne_none_iff_exists'.mp hne
        exact ⟨raw, by simp⟩
    · cases he
  rw [act_bind]
  refine wp_act (fun _ => rfl) fun s₄ hr₄ hi₄ ht₄ => ?_
  have hs₄ := hs₃.trans (Calm.of_rely hr₄)
  have hnr : ¬ Reaped s₄.history p :=
    hi₄.not_reaped (hm.mono hs₄.suffix) fun c e hmem => hn c e (Calm.own hs₄ rfl hmem)
  refine ⟨fun _ => trivial, .of_guard rfl ⟨hm.mono hs₄.suffix, hnr, os, ha.mono hs₄.suffix,
    fun hne => (hw hne).mono hr₄.suffix⟩, fun a r s₅ he hi₅ => ?_⟩
  have heq : s₄.recordMonitored t c p result = (r, s₅) := Option.some.inj he
  cases r with
  | none => trivial
  | some events =>
      have hd := Inner.recordMonitored_result heq
      dsimp only
      rw [act_bind]
      refine wp_skip rfl (fun _ => rfl) (fun _ => .of_guard rfl trivial) (Since.refl t s₅) (hu s₅)
        fun _ s₆ hs₆ h₆ => ?_
      have hrest : ∀ s₇, Calm t s₅ s₇ → WP t (fun _ => True)
          (do dispatch events; act (.removeSpawnTime p)) (fun _ _ => True) s₇ := by
        intro s₇ hs₇
        refine wp_seq _ (wp_dispatch (hd.mono hs₇.suffix) hs₇ (hu s₅)) fun _ s₈ hs₈ => ?_
        exact wp_skip rfl (fun _ => rfl) (fun _ => .of_guard rfl trivial) hs₈.1 (hu s₅)
          fun _ _ _ _ => trivial
      split
      · rw [act_bind]
        exact wp_skip rfl (fun _ => rfl) (fun _ => .of_guard rfl trivial) hs₆ (hu s₅)
          fun _ s₇ hs₇ _ => hrest s₇ hs₇
      · exact hrest s₆ hs₆

end Shepherd
