import Shepherd.Conc.Chronicle
import Shepherd.Supervisor.Steps

/-!
# Histories of a Supervisor

What can be said about a history, and what justifies each event. `Justified t ev h` is the
rule for an event `ev` of task `t` after the history `h`: the law every step of the code
has to respect. The theorems about runs are read off histories in which every event is
justified; the rest of the development shows that the code produces no other.

The central notion is `HasEvidence`: a verified exit of the process was recorded in the
registry, by its monitor or by a retry. The rules for these two records are the only ones
that ask for a `backend.wait` that returned `Ok`; every other rule that speaks of a
verified outcome asks for recorded evidence.
-/

namespace Shepherd

open Conc

variable {t t' : Tid} {ev : Event} {h h' : History} {c : ProcessScopeId} {p : ProcessId}
  {os : OsIdentity} {e : ProcessExit}

/-! ### Facts about a history -/

/-- The scope was created. -/
def Created (h : History) (c : ProcessScopeId) : Prop :=
  ∃ observed, Happened h (.scopeCreated c observed)

/-- The scope was created with an observing owner. -/
def Observed (h : History) (c : ProcessScopeId) : Prop :=
  Happened h (.scopeCreated c true)

/-- The scope began to drain. -/
def Drained (h : History) (c : ProcessScopeId) : Prop :=
  ∃ tracked, Happened h (.drained c tracked)

/-- The commit of the scope began. -/
def Committed (h : History) (c : ProcessScopeId) : Prop :=
  ∃ report, Happened h (.committed c report)

/-- The scope left the registry. -/
def Removed (h : History) (c : ProcessScopeId) : Prop :=
  ∃ lost, Happened h (.scopeRemoved c lost)

/-- `ScopeClosed` was handed to the dispatcher: the last step of a commit. -/
def Handed (h : History) (c : ProcessScopeId) : Prop :=
  ∃ w, Happened h (.closedHanded c w)

/-- The monitor of the process recorded an exit. -/
def Reaped (h : History) (p : ProcessId) : Prop :=
  ∃ c e, Happened h (.reaped c p e)

/-- A verified exit of the process was recorded. -/
def HasEvidence (h : History) (p : ProcessId) : Prop :=
  ∃ c e, e.Verified ∧ (Happened h (.reaped c p e) ∨ Happened h (.recovered c p e))

/-- A `backend.wait` for the OS identity returned `Ok`. -/
def WaitOk (h : History) (os : OsIdentity) : Prop :=
  ∃ raw, Happened h (.waitReturned os (some raw))

/-- An exit of the process was signalled to the waiters. -/
def Signalled (h : History) (p : ProcessId) : Prop :=
  ∃ e, Happened h (.exitSignalled p e)

/-- The scope of the process left the registry while the process was tracked in it and no
exit of it had been signalled. -/
def Lost (h : History) (p : ProcessId) : Prop :=
  ∃ c lost, Happened h (.scopeRemoved c lost) ∧ p ∈ lost

/-- Every verified outcome of a report has evidence. -/
def Backed (h : History) (r : ScopeTerminationReport) : Prop :=
  ∀ po ∈ r.outcomes, po.2.isVerified = true → HasEvidence h po.1

/-- Task `t` looked the scope up, or took its operation lock, after the commit began. -/
def LateEntry (h : History) (t : Tid) (c : ProcessScopeId) : Prop :=
  ∃ newer older t' r, h = newer ++ (t', .committed c r) :: older ∧
    ((t, .lookedUp c) ∈ newer ∨ (t, .acquired c) ∈ newer)

/-- Task `t` took the operation lock after the commit began. -/
def LateLock (h : History) (t : Tid) (c : ProcessScopeId) : Prop :=
  ∃ newer older t' r, h = newer ++ (t', .committed c r) :: older ∧ (t, .acquired c) ∈ newer

/-- The scope was created before task `t` did anything. -/
def CreatedBefore (h : History) (t : Tid) (c : ProcessScopeId) : Prop :=
  ∃ newer older, h = newer ++ older ∧ Created older c ∧ ∀ ev, (t, ev) ∉ older

/-- The scopes whose commits were completed, newest first. -/
def completedLog (h : History) : List ProcessScopeId :=
  h.filterMap fun x => match x.2 with
    | .scopeCompleted c => some c
    | _ => none

/-- The observed scopes whose results were retained, newest first. -/
def resultLog (h : History) : List ProcessScopeId :=
  h.filterMap fun x => match x.2 with
    | .resultRetained c => some c
    | _ => none

/-! ### Rules -/

/-- After `backend.spawn` returned `Ok`, and before the operation lock is released, the
process was attached and a monitor started; or the owners were gone, and everything was
killed and the process reaped. -/
def Settled (t : Tid) (c : ProcessScopeId) (os : OsIdentity) (mid h : History) : Prop :=
  (∃ p m, (t, .attached c p os) ∈ mid ∧ (t, .monitorStarted c p m) ∈ mid) ∨
  (Happened h .ownersDropped ∧ (t, .hardKilledAll) ∈ mid ∧ (t, .signalSent os .kill) ∈ mid ∧
    (t, .waitCalled os) ∈ mid ∧ ∃ r, (t, .waitReturned os r) ∈ mid)

/-- What a verified exit, or an unverified one of a terminating call, is returned on. -/
def ExitReturn (t : Tid) (p : ProcessId) (e : ProcessExit) (h : History) : Prop :=
  (e.Verified → HasEvidence h p) ∧
  (¬ e.Verified → ¬ HasEvidence h p ∨ ∃ h', h = (t, .gaveUp p) :: h')

/-- A process is reported as unknown: it was never attached, or it was lost, or others
displaced it in the waiter history. -/
def UnknownReturn (p : ProcessId) (h : History) : Prop :=
  ∀ c os, Happened h (.attached c p os) →
    Lost h p ∨ Displaced WAITER_HISTORY_BOUND p (signalLog h)

/-- What the result of terminating a scope is returned on. -/
def ScopeReturn (t : Tid) (c : ProcessScopeId) (v : CleanupResult) (h : History) : Prop :=
  (∀ r, v = .ok r → Backed h r ∧ (r.allVerified = true → Happened h (.committed c r))) ∧
  (LateEntry h t c →
    (∃ r, v = .ok r ∧ Happened h (.committed c r)) ∨ v = .error (.unknownScope c))

/-- What a task may return. -/
def JustifiedReturn (t : Tid) (v : Ret) (h : History) : Prop :=
  match v with
  | .spawned c result =>
      (∀ p, result = .ok p → ∃ os, (t, .attached c p os) ∈ h) ∧
      (LateLock h t c → result = .error (.scopeClosed c) ∧ (t, .spawnCalled c) ∉ h)
  | .waited p result =>
      (∀ e, result = .ok e → e.Verified → HasEvidence h p) ∧
      (∀ q, result = .error (.unknownProcess q) → UnknownReturn p h)
  | .terminated p result =>
      (∀ e, result = .ok e → ExitReturn t p e h) ∧
      (∀ q, result = .error (.unknownProcess q) → UnknownReturn p h)
  | .worker c p result =>
      Happened h (.workerStarted c p t) ∧ ∀ e, result = .ok e → ExitReturn t p e h
  | .scopeTerminated c v =>
      ScopeReturn t c v h ∧
      (v = .error (.unknownScope c) → CreatedBefore h t c →
        Displaced SCOPE_REPORT_HISTORY_BOUND c (completedLog h) ∨
        (t, .swept c (.error (.unknownScope c))) ∈ h)
  | .finished c v => ScopeReturn t c v h
  | .cleanupWaited c v =>
      ∀ r, v = .ok r → Backed h r ∧ (r.allVerified = true → Happened h (.committed c r))
  | .shutdown (.ok reports) =>
      Happened h .shutdownStarted ∧ (∀ c, Created h c → Removed h c) ∧
      (∀ r ∈ reports, Happened h (.committed r.scope r)) ∧
      (∀ c, (t, .acquired c) ∈ h → ∃ r ∈ reports, r.scope = c)
  | _ => True

/-- What justifies an event of task `t` after the history `h`. -/
def Justified (t : Tid) (ev : Event) (h : History) : Prop :=
  match ev with
  | .scopeCreated c _ => ¬ Created h c ∧ ¬ Happened h .shutdownStarted
  | .acquired c => Created h c
  | .spawnCalled c => Created h c ∧ ¬ Removed h c ∧ ¬ Drained h c
  | .spawnReturned c _ =>
      (t, .acquired c) ∈ h ∧ (t, .released c) ∉ h ∧ ∀ c' r', (t, .spawnReturned c' r') ∉ h
  | .attached c p os =>
      Created h c ∧ ¬ Removed h c ∧ ¬ Drained h c ∧
      (∀ c' os', ¬ Happened h (.attached c' p os')) ∧ (t, .spawnReturned c (.ok os)) ∈ h
  | .attachFailed _ _ | .samplerBusy | .operationMissing => False
  | .monitorStarted c p _ =>
      (∃ os, (t, .attached c p os) ∈ h) ∧ ∀ c' m', ¬ Happened h (.monitorStarted c' p m')
  | .released c =>
      ∀ mid os past, h = mid ++ (t, .spawnReturned c (.ok os)) :: past → Settled t c os mid h
  | .guardsDropped => ∀ c r, (t, .spawnReturned c r) ∉ h
  | .reaped c p e =>
      e.pid = p ∧ Happened h (.monitorStarted c p t) ∧ ¬ Reaped h p ∧
      ∃ os, Happened h (.attached c p os) ∧ (e.Verified → WaitOk h os)
  | .recovered c p e =>
      e.pid = p ∧ e.Verified ∧ ¬ HasEvidence h p ∧ Reaped h p ∧
      ∃ os, Happened h (.attached c p os) ∧ WaitOk h os
  | .exitSignalled p e => e.pid = p ∧ (e.Verified ↔ HasEvidence h p) ∧ Reaped h p
  | .dispatched ev =>
      ∀ c, ev = .scopeClosed c →
        Happened h (.closedHanded c t) ∧ (t, .dispatched (.scopeClosed c)) ∉ h
  | .drained c tracked =>
      Created h c ∧ ¬ Removed h c ∧ ¬ Drained h c ∧
      (∀ p ∈ tracked, ∃ os, Happened h (.attached c p os)) ∧
      (∀ p os, Happened h (.attached c p os) → p ∈ tracked ∨ HasEvidence h p)
  | .workerStarted _ _ w => ∀ c' p', ¬ Happened h (.workerStarted c' p' w)
  | .pended c _ => Drained h c
  | .committed c r =>
      ¬ Committed h c ∧ r.scope = c ∧ r.allVerified = true ∧ Backed h r ∧
      (r.outcomes.map Prod.fst).Pairwise (· < ·) ∧
      ∃ tracked, Happened h (.drained c tracked) ∧
        ∀ p, p ∈ r.outcomes.map Prod.fst ↔ p ∈ tracked
  | .published c v =>
      Observed h c ∧
      ∀ r, v = .ok r → Backed h r ∧ (r.allVerified = true → Happened h (.committed c r))
  | .resultRetained c => Observed h c ∧ Committed h c ∧ ¬ Happened h (.resultRetained c)
  | .reportRetained c =>
      Committed h c ∧ (Observed h c → Happened h (.resultRetained c)) ∧
      ¬ Happened h (.reportRetained c)
  | .scopeRemoved c _ => Happened h (.reportRetained c) ∧ ¬ Removed h c
  | .operationRetired c => Removed h c
  | .pendingCleared c => Happened h (.operationRetired c)
  | .scopeCompleted c =>
      Happened h (.pendingCleared c) ∧ ¬ Happened h (.scopeCompleted c)
  | .closedHanded c w =>
      Happened h (.scopeCompleted c) ∧ ¬ Handed h c ∧ ∀ c', ¬ Happened h (.closedHanded c' w)
  | .returned v => JustifiedReturn t v h
  | _ => True

/-- A history in which every event is justified. -/
abbrev Lawful (h : History) : Prop :=
  Chronicle Justified h

/-! ### One more event -/

section Cons

variable {ev' : Event}

/-- A scope is created by the newest event, or it was before. -/
@[simp] theorem created_cons : Created ((t, ev) :: h) c ↔
    (∃ observed, ev = .scopeCreated c observed) ∨ Created h c := by
  simp only [Created, happened_cons, exists_or, eq_comm]

/-- An observed scope is created by the newest event, or it was before. -/
@[simp] theorem observed_cons : Observed ((t, ev) :: h) c ↔
    ev = .scopeCreated c true ∨ Observed h c := by
  simp only [Observed, happened_cons, eq_comm]

/-- A scope drains with the newest event, or it had before. -/
@[simp] theorem drained_cons : Drained ((t, ev) :: h) c ↔
    (∃ tracked, ev = .drained c tracked) ∨ Drained h c := by
  simp only [Drained, happened_cons, exists_or, eq_comm]

/-- It is committed by the newest event, or it was before. -/
@[simp] theorem committed_cons : Committed ((t, ev) :: h) c ↔
    (∃ r, ev = .committed c r) ∨ Committed h c := by
  simp only [Committed, happened_cons, exists_or, eq_comm]

/-- It leaves the registry with the newest event, or it had before. -/
@[simp] theorem removed_cons : Removed ((t, ev) :: h) c ↔
    (∃ lost, ev = .scopeRemoved c lost) ∨ Removed h c := by
  simp only [Removed, happened_cons, exists_or, eq_comm]

/-- Its `ScopeClosed` is handed out by the newest event, or it was before. -/
@[simp] theorem handed_cons : Handed ((t, ev) :: h) c ↔
    (∃ w, ev = .closedHanded c w) ∨ Handed h c := by
  simp only [Handed, happened_cons, exists_or, eq_comm]

/-- An exit is recorded by the newest event, or one was before. -/
@[simp] theorem reaped_cons : Reaped ((t, ev) :: h) p ↔
    (∃ c e, ev = .reaped c p e) ∨ Reaped h p := by
  simp only [Reaped, happened_cons, exists_or, eq_comm]

/-- The newest event records a verified exit, or there was evidence before. -/
@[simp] theorem hasEvidence_cons : HasEvidence ((t, ev) :: h) p ↔
    (∃ c e, e.Verified ∧ (ev = .reaped c p e ∨ ev = .recovered c p e)) ∨ HasEvidence h p := by
  simp only [HasEvidence, happened_cons, eq_comm]
  constructor
  · rintro ⟨c, e, hv, (h | h) | (h | h)⟩
    · exact .inl ⟨c, e, hv, .inl h⟩
    · exact .inr ⟨c, e, hv, .inl h⟩
    · exact .inl ⟨c, e, hv, .inr h⟩
    · exact .inr ⟨c, e, hv, .inr h⟩
  · rintro (⟨c, e, hv, h | h⟩ | ⟨c, e, hv, h | h⟩)
    · exact ⟨c, e, hv, .inl (.inl h)⟩
    · exact ⟨c, e, hv, .inr (.inl h)⟩
    · exact ⟨c, e, hv, .inl (.inr h)⟩
    · exact ⟨c, e, hv, .inr (.inr h)⟩

/-- An exit is signalled by the newest event, or one was before. -/
@[simp] theorem signalled_cons : Signalled ((t, ev) :: h) p ↔
    (∃ e, ev = .exitSignalled p e) ∨ Signalled h p := by
  simp only [Signalled, happened_cons, exists_or, eq_comm]

/-- The process is lost with the newest event, or it was before. -/
@[simp] theorem lost_cons : Lost ((t, ev) :: h) p ↔
    (∃ c lost, ev = .scopeRemoved c lost ∧ p ∈ lost) ∨ Lost h p := by
  simp only [Lost, happened_cons, or_and_right, exists_or, eq_comm]

/-- A new event makes a late entry when it is an entry after the commit. -/
theorem lateEntry_cons : LateEntry ((t', ev) :: h) t c ↔
    (t' = t ∧ (ev = .lookedUp c ∨ ev = .acquired c) ∧ Committed h c) ∨ LateEntry h t c := by
  constructor
  · rintro ⟨newer, older, t₀, r, heq, hm⟩
    cases newer with
    | nil => exact absurd hm (by simp)
    | cons x newer =>
        obtain ⟨rfl, rfl⟩ := List.cons.inj heq
        simp only [List.mem_cons, Prod.mk.injEq] at hm
        rcases hm with (⟨rfl, rfl⟩ | hm) | (⟨rfl, rfl⟩ | hm)
        · exact .inl ⟨rfl, .inl rfl, r, t₀, by simp⟩
        · exact .inr ⟨newer, older, t₀, r, rfl, .inl hm⟩
        · exact .inl ⟨rfl, .inr rfl, r, t₀, by simp⟩
        · exact .inr ⟨newer, older, t₀, r, rfl, .inr hm⟩
  · rintro (⟨rfl, hev, r, t₀, hm⟩ | ⟨newer, older, t₀, r, rfl, hm⟩)
    · obtain ⟨newer, older, rfl⟩ := List.append_of_mem hm
      refine ⟨(t', ev) :: newer, older, t₀, r, rfl, ?_⟩
      rcases hev with rfl | rfl
      · exact .inl List.mem_cons_self
      · exact .inr List.mem_cons_self
    · refine ⟨(t', ev) :: newer, older, t₀, r, rfl, ?_⟩
      exact hm.imp (List.mem_cons_of_mem _) (List.mem_cons_of_mem _)

/-- The newest event takes the lock of a committed scope, or an earlier one had. -/
theorem lateLock_cons : LateLock ((t', ev) :: h) t c ↔
    (t' = t ∧ ev = .acquired c ∧ Committed h c) ∨ LateLock h t c := by
  constructor
  · rintro ⟨newer, older, t₀, r, heq, hm⟩
    cases newer with
    | nil => exact absurd hm (by simp)
    | cons x newer =>
        obtain ⟨rfl, rfl⟩ := List.cons.inj heq
        rcases List.mem_cons.mp hm with hm | hm
        · obtain ⟨rfl, rfl⟩ := Prod.mk.inj hm
          exact .inl ⟨rfl, rfl, r, t₀, by simp⟩
        · exact .inr ⟨newer, older, t₀, r, rfl, hm⟩
  · rintro (⟨rfl, rfl, r, t₀, hm⟩ | ⟨newer, older, t₀, r, rfl, hm⟩)
    · obtain ⟨newer, older, rfl⟩ := List.append_of_mem hm
      exact ⟨(t', .acquired c) :: newer, older, t₀, r, rfl, List.mem_cons_self⟩
    · exact ⟨(t', ev) :: newer, older, t₀, r, rfl, List.mem_cons_of_mem _ hm⟩

/-- Only a committed scope is entered late. -/
theorem LateEntry.committed (hl : LateEntry h t c) : Committed h c := by
  obtain ⟨newer, older, t', r, rfl, -⟩ := hl
  exact ⟨r, t', by simp⟩

end Cons

/-! ### Facts persist -/

section Mono

variable (hs : h <:+ h')
include hs

/-- A scope that was created has been created ever after. -/
theorem Created.mono (hc : Created h c) : Created h' c := by
  obtain ⟨b, hb⟩ := hc
  exact ⟨b, hb.mono hs⟩

/-- A scope that was created as observed has been so ever after. -/
theorem Observed.mono (hc : Observed h c) : Observed h' c :=
  Happened.mono hs hc

/-- What has drained is drained ever after. -/
theorem Drained.mono (hc : Drained h c) : Drained h' c := by
  obtain ⟨d, hd⟩ := hc
  exact ⟨d, hd.mono hs⟩

/-- A commit is final. -/
theorem Committed.mono (hc : Committed h c) : Committed h' c := by
  obtain ⟨r, hr⟩ := hc
  exact ⟨r, hr.mono hs⟩

/-- A scope that has left the registry has left it for good. -/
theorem Removed.mono (hc : Removed h c) : Removed h' c := by
  obtain ⟨l, hl⟩ := hc
  exact ⟨l, hl.mono hs⟩

/-- The hand-over of `ScopeClosed` is final. -/
theorem Handed.mono (hc : Handed h c) : Handed h' c := by
  obtain ⟨w, hw⟩ := hc
  exact ⟨w, hw.mono hs⟩

/-- A recorded exit stays recorded. -/
theorem Reaped.mono (hp : Reaped h p) : Reaped h' p := by
  obtain ⟨c, e, he⟩ := hp
  exact ⟨c, e, he.mono hs⟩

/-- Evidence is kept. -/
theorem HasEvidence.mono (hp : HasEvidence h p) : HasEvidence h' p := by
  obtain ⟨c, e, hv, he⟩ := hp
  exact ⟨c, e, hv, he.imp (Happened.mono hs) (Happened.mono hs)⟩

/-- A wait that returned `Ok` has returned it ever after. -/
theorem WaitOk.mono (hw : WaitOk h os) : WaitOk h' os := by
  obtain ⟨raw, hraw⟩ := hw
  exact ⟨raw, hraw.mono hs⟩

/-- A signalled exit stays signalled. -/
theorem Signalled.mono (hp : Signalled h p) : Signalled h' p := by
  obtain ⟨e, he⟩ := hp
  exact ⟨e, he.mono hs⟩

/-- What was lost stays lost. -/
theorem Lost.mono (hp : Lost h p) : Lost h' p := by
  obtain ⟨c, l, hl, hm⟩ := hp
  exact ⟨c, l, hl.mono hs, hm⟩

/-- A report that is backed by evidence is backed ever after. -/
theorem Backed.mono {r : ScopeTerminationReport} (hb : Backed h r) : Backed h' r :=
  fun po hpo hv => (hb po hpo hv).mono hs

end Mono

/-- The log of signals lists the processes whose exit was signalled. -/
theorem mem_signalLog : p ∈ signalLog h ↔ Signalled h p := by
  simp only [signalLog, List.mem_filterMap, Signalled, Happened]
  constructor
  · rintro ⟨⟨t, ev⟩, hm, hs⟩
    cases ev <;> simp only [Event.signals, Option.some.injEq, reduceCtorEq] at hs
    subst hs
    exact ⟨_, t, hm⟩
  · rintro ⟨e, t, hm⟩
    exact ⟨_, hm, rfl⟩

/-- The log of commits lists the scopes whose commit was completed. -/
theorem mem_completedLog : c ∈ completedLog h ↔ Happened h (.scopeCompleted c) := by
  simp only [completedLog, List.mem_filterMap, Happened]
  constructor
  · rintro ⟨⟨t, ev⟩, hm, hs⟩
    cases ev <;> simp only [Option.some.injEq, reduceCtorEq] at hs
    subst hs
    exact ⟨t, hm⟩
  · rintro ⟨t, hm⟩
    exact ⟨_, hm, rfl⟩

/-- The log of results lists the observed scopes whose result was retained. -/
theorem mem_resultLog : c ∈ resultLog h ↔ Happened h (.resultRetained c) := by
  simp only [resultLog, List.mem_filterMap, Happened]
  constructor
  · rintro ⟨⟨t, ev⟩, hm, hs⟩
    cases ev <;> simp only [Option.some.injEq, reduceCtorEq] at hs
    subst hs
    exact ⟨t, hm⟩
  · rintro ⟨t, hm⟩
    exact ⟨_, hm, rfl⟩

/-! ### What a lawful history gives -/

namespace Lawful

variable (hl : Lawful h)
include hl

/-- A process is attached once. -/
theorem attached_unique {c' : ProcessScopeId} {os' : OsIdentity}
    (h₁ : Happened h (.attached c p os)) (h₂ : Happened h (.attached c' p os')) :
    c = c' ∧ os = os' := by
  by_cases hne : (Event.attached c p os) = .attached c' p os'
  · injection hne with h₁ _ h₂
    exact ⟨h₁, h₂⟩
  · rcases hl.of_happened₂ h₁ h₂ hne with ⟨_, l, -, ⟨-, -, -, hu, -⟩, hp⟩ |
      ⟨_, l, -, ⟨-, -, -, hu, -⟩, hp⟩
    · exact absurd hp (hu c' os')
    · exact absurd hp (hu c os)

/-- A process is attached by one task. -/
theorem attacher_unique {c' : ProcessScopeId} {os' : OsIdentity}
    (h₁ : (t, .attached c p os) ∈ h) (h₂ : (t', .attached c' p os') ∈ h) : t = t' := by
  induction h with
  | nil => cases h₁
  | cons x h ih =>
      rcases List.mem_cons.mp h₁ with rfl | hm₁
      · rcases List.mem_cons.mp h₂ with heq | hm₂
        · exact (Prod.mk.inj heq).1.symm
        · exact absurd (.of_mem hm₂) (hl.1.2.2.2.1 c' os')
      · rcases List.mem_cons.mp h₂ with rfl | hm₂
        · exact absurd (.of_mem hm₁) (hl.1.2.2.2.1 c os)
        · exact ih hl.2 hm₁ hm₂

/-- A process has one monitor. -/
theorem monitor_unique {c' : ProcessScopeId} {m m' : Tid}
    (h₁ : Happened h (.monitorStarted c p m)) (h₂ : Happened h (.monitorStarted c' p m')) :
    m = m' := by
  by_cases hne : (Event.monitorStarted c p m) = .monitorStarted c' p m'
  · injection hne
  · rcases hl.of_happened₂ h₁ h₂ hne with ⟨_, l, -, ⟨-, hu⟩, hp⟩ | ⟨_, l, -, ⟨-, hu⟩, hp⟩
    · exact absurd hp (hu c' m')
    · exact absurd hp (hu c m)

/-- A termination worker is started for one process. -/
theorem worker_unique {c' : ProcessScopeId} {p' : ProcessId} {w : Tid}
    (h₁ : Happened h (.workerStarted c p w)) (h₂ : Happened h (.workerStarted c' p' w)) :
    c = c' ∧ p = p' := by
  by_cases hne : (Event.workerStarted c p w) = .workerStarted c' p' w
  · injection hne with h₁ h₂
    exact ⟨h₁, h₂⟩
  · rcases hl.of_happened₂ h₁ h₂ hne with ⟨_, l, -, hu, hp⟩ | ⟨_, l, -, hu, hp⟩
    · exact absurd hp (hu c' p')
    · exact absurd hp (hu c p)

/-- A scope drains once. -/
theorem drained_unique {d d' : List ProcessId}
    (h₁ : Happened h (.drained c d)) (h₂ : Happened h (.drained c d')) : d = d' := by
  by_cases hne : (Event.drained c d) = .drained c d'
  · injection hne
  · rcases hl.of_happened₂ h₁ h₂ hne with ⟨_, l, -, ⟨-, -, hu, -⟩, hp⟩ |
      ⟨_, l, -, ⟨-, -, hu, -⟩, hp⟩
    · exact absurd ⟨d', hp⟩ hu
    · exact absurd ⟨d, hp⟩ hu

/-- A scope is committed once. -/
theorem committed_unique {r r' : ScopeTerminationReport}
    (h₁ : Happened h (.committed c r)) (h₂ : Happened h (.committed c r')) : r = r' := by
  by_cases hne : (Event.committed c r) = .committed c r'
  · injection hne
  · rcases hl.of_happened₂ h₁ h₂ hne with ⟨_, l, -, ⟨hu, -⟩, hp⟩ | ⟨_, l, -, ⟨hu, -⟩, hp⟩
    · exact absurd ⟨r', hp⟩ hu
    · exact absurd ⟨r, hp⟩ hu

/-- A process is attached to a scope that was created before. -/
theorem created_of_attached (ha : Happened h (.attached c p os)) : Created h c := by
  obtain ⟨_, l, hs, hc, -⟩ := hl.of_happened ha
  exact hc.mono hs

/-- A recorded exit is of the process it was recorded for. -/
theorem pid_of_recorded (he : Happened h (.reaped c p e) ∨ Happened h (.recovered c p e)) :
    e.pid = p := by
  rcases he with he | he
  · obtain ⟨_, l, -, hpid, -⟩ := hl.of_happened he
    exact hpid
  · obtain ⟨_, l, -, hpid, -⟩ := hl.of_happened he
    exact hpid

/-- A signalled exit is of the process it was signalled for. -/
theorem pid_of_signalled (he : Happened h (.exitSignalled p e)) : e.pid = p := by
  obtain ⟨_, l, -, hpid, -⟩ := hl.of_happened he
  exact hpid

/-- Only a recorded exit is signalled. -/
theorem reaped_of_signalled (hp : Signalled h p) : Reaped h p := by
  obtain ⟨e, he⟩ := hp
  obtain ⟨_, l, hs, -, -, hr⟩ := hl.of_happened he
  exact hr.mono hs

/-- A verified exit that was signalled has evidence. -/
theorem evidence_of_signalled (he : Happened h (.exitSignalled p e)) (hv : e.Verified) :
    HasEvidence h p := by
  obtain ⟨_, l, hs, -, hev, -⟩ := hl.of_happened he
  exact (hev.mp hv).mono hs

/-- Where there is evidence, an exit was recorded: a recovery comes after the first record. -/
theorem reaped_of_evidence (hp : HasEvidence h p) : Reaped h p := by
  obtain ⟨c, e, -, he | he⟩ := hp
  · exact ⟨c, e, he⟩
  · obtain ⟨_, l, hs, -, -, -, hr, -⟩ := hl.of_happened he
    exact hr.mono hs

/-- Evidence rests on a wait that returned `Ok`. -/
theorem waitOk_of_evidence (hp : HasEvidence h p) :
    ∃ c os, Happened h (.attached c p os) ∧ WaitOk h os := by
  obtain ⟨c, e, hv, he | he⟩ := hp
  · obtain ⟨_, l, hs, -, -, -, os, ha, hw⟩ := hl.of_happened he
    exact ⟨c, os, ha.mono hs, (hw hv).mono hs⟩
  · obtain ⟨_, l, hs, -, -, -, -, os, ha, hw⟩ := hl.of_happened he
    exact ⟨c, os, ha.mono hs, hw.mono hs⟩

/-- An exit is recorded of a process that was attached. -/
theorem attached_of_reaped (hp : Reaped h p) : ∃ c os, Happened h (.attached c p os) := by
  obtain ⟨c, e, he⟩ := hp
  obtain ⟨_, l, hs, -, -, -, os, ha, -⟩ := hl.of_happened he
  exact ⟨c, os, ha.mono hs⟩

/-! The steps of a commit come in order. -/

/-- The report is retained after the commit has begun. -/
theorem committed_of_retained (hp : Happened h (.reportRetained c)) : Committed h c := by
  obtain ⟨_, l, hs, hc, -⟩ := hl.of_happened hp
  exact hc.mono hs

/-- The scope leaves the registry after its report is retained. -/
theorem retained_of_removed (hp : Removed h c) : Happened h (.reportRetained c) := by
  obtain ⟨_, hr⟩ := hp
  obtain ⟨_, l, hs, hc, -⟩ := hl.of_happened hr
  exact hc.mono hs

/-- The operation lock is retired after the scope has left the registry. -/
theorem removed_of_retired (hp : Happened h (.operationRetired c)) : Removed h c := by
  obtain ⟨_, l, hs, hr⟩ := hl.of_happened hp
  exact Removed.mono hs hr

/-- The pending outcomes are dropped after the operation lock is retired. -/
theorem retired_of_cleared (hp : Happened h (.pendingCleared c)) :
    Happened h (.operationRetired c) := by
  obtain ⟨_, l, hs, hr⟩ := hl.of_happened hp
  exact Happened.mono hs hr

/-- The scope enters the report history after its pending outcomes are dropped. -/
theorem cleared_of_completed (hp : Happened h (.scopeCompleted c)) :
    Happened h (.pendingCleared c) := by
  obtain ⟨_, l, hs, hr, -⟩ := hl.of_happened hp
  exact hr.mono hs

/-- `ScopeClosed` is handed out when the scope is in the report history. -/
theorem completed_of_handed (hp : Handed h c) : Happened h (.scopeCompleted c) := by
  obtain ⟨_, hw⟩ := hp
  obtain ⟨_, l, hs, hr, -⟩ := hl.of_happened hw
  exact hr.mono hs

/-- A scope that has left the registry is committed. -/
theorem committed_of_removed (hp : Removed h c) : Committed h c :=
  hl.committed_of_retained (hl.retained_of_removed hp)

/-- A scope in the report history has left the registry. -/
theorem removed_of_completed (hp : Happened h (.scopeCompleted c)) : Removed h c :=
  hl.removed_of_retired (hl.retired_of_cleared (hl.cleared_of_completed hp))

/-- A result is retained of a committed scope. -/
theorem committed_of_result (hp : Happened h (.resultRetained c)) : Committed h c := by
  obtain ⟨_, l, hs, -, hc, -⟩ := hl.of_happened hp
  exact hc.mono hs

/-- A scope has drained before it is committed. -/
theorem drained_of_committed (hp : Committed h c) : Drained h c := by
  obtain ⟨r, hr⟩ := hp
  obtain ⟨_, l, hs, -, -, -, -, -, d, hd, -⟩ := hl.of_happened hr
  exact ⟨d, hd.mono hs⟩

/-- **Every process of a committed scope has evidence**: it was attached before the scope began to
drain, and is in the report or had evidence then. -/
theorem evidence_of_committed (hc : Committed h c) (ha : Happened h (.attached c p os)) :
    HasEvidence h p := by
  obtain ⟨r, hr⟩ := hc
  obtain ⟨_, l, hs, -, -, hv, hb, -, d, hd, hiff⟩ := hl.of_happened hr
  have hd' := hd.mono hs
  rcases hl.of_happened₂ ha hd' (by simp) with ⟨_, l', -, ⟨-, -, hn, -⟩, hp⟩ |
    ⟨_, l', hs', ⟨-, -, -, -, hall⟩, hp⟩
  · exact absurd ⟨d, hp⟩ hn
  · rcases hall p os hp with hm | hev
    · obtain ⟨po, hpo, rfl⟩ := List.mem_map.mp ((hiff p).mpr hm)
      have hvo : po.2.isVerified = true := List.all_eq_true.mp hv po hpo
      exact (hb po hpo hvo).mono hs
    · exact hev.mono hs'

/-- Nothing is attached to a scope that drained. -/
theorem attached_of_drained {h₀ : History} (hs : h₀ <:+ h) (hd : Drained h₀ c)
    (hm : (t, .attached c p os) ∈ h) : (t, .attached c p os) ∈ h₀ := by
  obtain ⟨l, rfl⟩ := hs
  induction l with
  | nil => exact hm
  | cons x l ih =>
      rcases List.mem_cons.mp hm with rfl | hm'
      · exact absurd (hd.mono (List.suffix_append l h₀)) hl.1.2.2.1
      · exact ih hl.2 hm'

end Lawful

end Shepherd
