import Shepherd.Supervisor.Admission

/-!
# Scope Commits

A commit writes four structures and two bounded histories, one lock at a time. Whoever comes
after it sees the committed report all the same: behind the operation lock, in the report
map, or on the cleanup channel. Only the displacement by `SCOPE_REPORT_HISTORY_BOUND` other
scopes makes a committed scope unknown.

`CommitInProgress` is a commit between its first step, which stores the report behind the
operation lock, and its last, which hands `ScopeClosed` to the dispatcher. While a commit is
in progress the committing task holds the lock; while none is, the stores agree.
-/

open Std

namespace Shepherd

open Conc

variable {t : Tid} {s : Inner} {c : ProcessScopeId} {h older newer : History} {v : Ret}

/-! ### The order of a commit -/

/-- The commit of the scope has begun, and its last step is still to come. -/
def CommitInProgress (h : History) (c : ProcessScopeId) : Prop :=
  Committed h c ∧ ¬ Handed h c

/-- A sweep of the backend fails with a signal error, as the sweeps of the Unix and of the
Windows backend do. -/
def SweepsBySignal (h : History) (t : Tid) : Prop :=
  ∀ c e, (t, .swept c (.error e)) ∈ h → ∃ m, e = .signal m

namespace Lawful

variable (hl : Lawful h)
include hl

/-- A scope that drained was created. -/
theorem created_of_drained (hd : Drained h c) : Created h c := by
  obtain ⟨d, hd⟩ := hd
  obtain ⟨_, l, hs, hc, -⟩ := hl.of_happened hd
  exact hc.mono hs

/-- A scope in the report history has its report retained. -/
theorem retained_of_completed (hc : Happened h (.scopeCompleted c)) :
    Happened h (.reportRetained c) :=
  hl.retained_of_removed (hl.removed_of_completed hc)

/-- When `ScopeClosed` is handed out, the report is retained. -/
theorem retained_of_handed (hw : Handed h c) : Happened h (.reportRetained c) :=
  hl.retained_of_completed (hl.completed_of_handed hw)

/-- A scope in the report history is committed. -/
theorem committed_of_completed (hc : Happened h (.scopeCompleted c)) : Committed h c :=
  hl.committed_of_retained (hl.retained_of_completed hc)

/-- A result is retained of an observed scope only. -/
theorem observed_of_result (hr : Happened h (.resultRetained c)) : Observed h c := by
  obtain ⟨_, l, hs, ho, -⟩ := hl.of_happened hr
  exact Observed.mono hs ho

/-- The result of an observed scope is retained before its report is. -/
theorem result_of_retained (hr : Happened h (.reportRetained c)) (ho : Observed h c) :
    Happened h (.resultRetained c) := by
  rcases hl.of_happened₂ hr ho (by simp) with ⟨_, l, hs, ⟨-, himp, -⟩, hp⟩ |
    ⟨_, l, hs, ⟨hnew, -⟩, hp⟩
  · exact (himp hp).mono hs
  · have hlo : Lawful l := hl.of_suffix hs
    have hd : Drained l c := hlo.drained_of_committed (hlo.committed_of_retained hp)
    exact absurd (hlo.created_of_drained hd) hnew

/-- The dispatcher gets `ScopeClosed` once. -/
theorem not_dispatched (hw : Happened h (.closedHanded c t))
    (hn : (t, .dispatched (.scopeClosed c)) ∉ h) : ¬ Happened h (.dispatched (.scopeClosed c)) := by
  rintro ⟨t', hm⟩
  obtain ⟨l₁, l₂, rfl⟩ := List.append_of_mem hm
  have hj : Justified t' (.dispatched (.scopeClosed c)) l₂ := Chronicle.justified hl
  have hw' : Happened (l₁ ++ (t', .dispatched (.scopeClosed c)) :: l₂) (.closedHanded c t') :=
    (hj c rfl).1.mono ⟨l₁ ++ [(t', .dispatched (.scopeClosed c))], by simp⟩
  have hne : t' ≠ t := by
    rintro rfl
    exact hn hm
  rcases hl.of_happened₂ hw hw' (by simp [hne.symm]) with ⟨_, l, -, ⟨-, hu, -⟩, hp⟩ |
    ⟨_, l, -, ⟨-, hu, -⟩, hp⟩
  · exact hu ⟨t', hp⟩
  · exact hu ⟨t, hp⟩

end Lawful

/-! ### The stores when no commit is in progress -/

/-- The report map holds what the report history lists. -/
theorem Inv.reported_iff (hi : Inv s) (hq : ∀ c, ¬ CommitInProgress s.history c) :
    (∃ rr, s.reports[c]? = some rr) ↔ c ∈ s.completedScopes := by
  constructor
  · intro hr
    obtain ⟨hret, himp⟩ := hi.commits.reported.mp hr
    have hw : Handed s.history c := by
      by_contra hn
      exact hq c ⟨hi.lawful.committed_of_retained hret, hn⟩
    exact himp (hi.lawful.completed_of_handed hw)
  · intro hm
    have hc := mem_completedLog.mp (hi.commits.retained.mem_log hm)
    exact hi.commits.reported.mpr ⟨hi.lawful.retained_of_completed hc, fun _ => hm⟩

/-- The committed entries of the result map are what the result history lists. -/
theorem Inv.result_iff (hi : Inv s) (hq : ∀ c, ¬ CommitInProgress s.history c) :
    Committed s.history c ∧ s.scopeResults.contains c = true ↔ c ∈ s.completedScopeResults := by
  constructor
  · rintro ⟨hc, hr⟩
    obtain ⟨ho, himp⟩ := hi.results.sender.mp hr
    have hw : Handed s.history c := by
      by_contra hn
      exact hq c ⟨hc, hn⟩
    exact himp (hi.lawful.result_of_retained (hi.lawful.retained_of_handed hw) ho)
  · intro hm
    have hr := mem_resultLog.mp (hi.results.retained.mem_log hm)
    exact ⟨hi.lawful.committed_of_result hr,
      hi.results.sender.mpr ⟨hi.lawful.observed_of_result hr, fun _ => hm⟩⟩

/-! ### Agreement -/

/-- What an entry into a scope after the commit returns: the committed report, unless it
says that the scope is unknown. -/
def AgreesWithCommit (t : Tid) (v : Ret) (h : History) : Prop :=
  match v with
  | .scopeTerminated c v | .finished c v =>
      (∀ r, v = .ok r → r.allVerified = true → Happened h (.committed c r)) ∧
      (LateEntry h t c → v ≠ .error (.unknownScope c) →
        ∃ r, v = .ok r ∧ Happened h (.committed c r))
  | .shutdown (.ok reports) =>
      ∀ c, (t, .acquired c) ∈ h → ∃ r ∈ reports, Happened h (.committed c r)
  | _ => True

/-- What a call for a scope returns agrees with the commit. -/
theorem ScopeReturn.agrees {v : CleanupResult} (hs : ScopeReturn t c v h) :
    (∀ r, v = .ok r → r.allVerified = true → Happened h (.committed c r)) ∧
    (LateEntry h t c → v ≠ .error (.unknownScope c) →
      ∃ r, v = .ok r ∧ Happened h (.committed c r)) := by
  refine ⟨fun r hr hv => (hs.1 r hr).2 hv, fun hlate hne => ?_⟩
  exact (hs.2 hlate).resolve_right hne

/-- **What any call returns agrees with the commit**; for a shutdown, scope by scope. -/
theorem JustifiedReturn.agrees (hj : JustifiedReturn t v h) : AgreesWithCommit t v h := by
  cases v with
  | scopeTerminated c v => exact hj.1.agrees
  | finished c v => exact ScopeReturn.agrees hj
  | shutdown result =>
      cases result with
      | error e => trivial
      | ok reports =>
          intro c hc
          obtain ⟨r, hr, rfl⟩ := hj.2.2.2 c hc
          exact ⟨r, hr, hj.2.2.1 r hr⟩
  | _ => trivial

/-- **Scope commits are unique, agreed and gap-free**, in every run.

A scope is committed at most once, and whoever enters it later gets the committed report or
hears that the scope is unknown; a termination hears that only after the bounded history was
filled by other scopes. `ScopeClosed` is handed out once for a committed scope, before the
operation lock is released. While no commit is in progress the report map and the result map
list what their histories list. A result of an observed scope is there until the scope is
committed, and after that until other observed scopes displace it. -/
theorem scope_commits_are_agreed {cfg : Config Res Ret Inner} (hr : Reachable cfg) :
    (∀ newer t c r older, cfg.shared.history = newer ++ (t, .committed c r) :: older →
      ¬ Committed older c) ∧
    (∀ newer t v older, cfg.shared.history = newer ++ (t, .returned v) :: older →
      AgreesWithCommit t v older) ∧
    (∀ c rr, cfg.shared.reports[c]? = some rr →
      Happened cfg.shared.history (.committed c rr.report) ∧ rr = .retain rr.report) ∧
    (∀ newer t c older, cfg.shared.history =
        newer ++ (t, .returned (.scopeTerminated c (.error (.unknownScope c)))) :: older →
      CreatedBefore older t c → SweepsBySignal older t →
      Displaced SCOPE_REPORT_HISTORY_BOUND c (completedLog older)) ∧
    (∀ newer t c w older, cfg.shared.history = newer ++ (t, .closedHanded c w) :: older →
      Committed older c ∧ ¬ Handed older c) ∧
    (∀ newer t c older, cfg.shared.history =
        newer ++ (t, .dispatched (.scopeClosed c)) :: older →
      Happened older (.closedHanded c t) ∧ ¬ Happened older (.dispatched (.scopeClosed c))) ∧
    (∀ c, Committed cfg.shared.history c → Handed cfg.shared.history c ∨
      ∃ t r, (cfg.shared.operations c).holder = some t ∧
        (t, .committed c r) ∈ cfg.shared.history) ∧
    ((∀ c, ¬ CommitInProgress cfg.shared.history c) →
      (∀ c, (∃ rr, cfg.shared.reports[c]? = some rr) ↔ c ∈ cfg.shared.completedScopes) ∧
      ∀ c, Committed cfg.shared.history c ∧ cfg.shared.scopeResults.contains c = true ↔
        c ∈ cfg.shared.completedScopeResults) ∧
    (cfg.shared.completedScopes.Nodup ∧
      cfg.shared.completedScopes.length ≤ SCOPE_REPORT_HISTORY_BOUND ∧
      cfg.shared.completedScopeResults.Nodup ∧
      cfg.shared.completedScopeResults.length ≤ SCOPE_REPORT_HISTORY_BOUND) ∧
    ∀ c, Observed cfg.shared.history c → cfg.shared.scopeResults.contains c = false →
      Committed cfg.shared.history c ∧
      Displaced SCOPE_REPORT_HISTORY_BOUND c (resultLog cfg.shared.history) ∧
      ∀ c' ∈ resultLog cfg.shared.history, Observed cfg.shared.history c' := by
  have hi := inv_of_reachable hr
  have hl := hi.lawful
  refine ⟨fun newer t c r older heq => (hi.justified heq).1,
    fun newer t v older heq => JustifiedReturn.agrees (hi.justified heq), fun c rr hrr => ?_,
    fun newer t c older heq hc hsw => ?_, fun newer t c w older heq => ?_,
    fun newer t c older heq => ?_, fun c hc => ?_,
    fun hq => ⟨fun c => hi.reported_iff hq, fun c => hi.result_iff hq⟩,
    ⟨hi.commits.retained.nodup, hi.commits.retained.length_le, hi.results.retained.nodup,
      hi.results.retained.length_le⟩, fun c ho hn => ?_⟩
  · obtain ⟨r, rfl, hcm⟩ := hi.commits.report hrr
    rw [RetainedScopeReport.report_retain]
    exact ⟨hcm, rfl⟩
  · have hj : JustifiedReturn t (.scopeTerminated c (.error (.unknownScope c))) older :=
      hi.justified heq
    refine (hj.2 rfl hc).resolve_right fun hm => ?_
    obtain ⟨m, hm⟩ := hsw c _ hm
    cases hm
  · obtain ⟨hc, hn, -⟩ := hi.justified heq
    have hlo : Lawful older := hl.of_suffix ⟨newer ++ [(t, .closedHanded c w)], by rw [heq]; simp⟩
    exact ⟨hlo.committed_of_completed hc, hn⟩
  · obtain ⟨hw, hn⟩ := hi.justified heq c rfl
    have hlo : Lawful older :=
      hl.of_suffix ⟨newer ++ [(t, .dispatched (.scopeClosed c))], by rw [heq]; simp⟩
    exact ⟨hw, hlo.not_dispatched hw hn⟩
  · by_cases hw : Handed cfg.shared.history c
    · exact .inl hw
    · exact .inr (hi.commits.inProgress hc hw)
  · have hret : Happened cfg.shared.history (.resultRetained c) ∧
        c ∉ cfg.shared.completedScopeResults := by
      by_contra hx
      have hs : cfg.shared.scopeResults.contains c = true :=
        hi.results.sender.mpr ⟨ho, fun hres => by_contra fun hm => hx ⟨hres, hm⟩⟩
      rw [hn] at hs
      cases hs
    refine ⟨hl.committed_of_result hret.1,
      hi.results.retained.displaced c (mem_resultLog.mpr hret.1) hret.2, fun c' hm => ?_⟩
    exact hl.observed_of_result (mem_resultLog.mp hm)

/-- A second termination of the scope. -/
def terminateAgain : List (Label Answer Call) :=
  [.start (.terminateScope 1 .default)] ++ steps 6 1

/-- The last events are the lookup and the return of the second termination, after the
commit. -/
def returnsLate (h : History) : Bool :=
  match h with
  | (6, .returned (.scopeTerminated 1 (.ok r))) :: (6, .lookedUp 1) :: older =>
      r = committedReport && older.contains (3, .committed 1 committedReport)
  | _ => false

set_option maxRecDepth 10000 in
/-- The second termination of the schedule returns after the commit. -/
theorem terminateAgain_returns_late :
    (supervisor.follow (Machine.initial Inner.new)
      (spawnAndExit ++ commitScope ++ terminateAgain)).any
        (fun cfg => returnsLate cfg.shared.history) = true := by
  decide +kernel

/-- What precedes the return of a termination whose sweep is refused. -/
def refusedSweep : History :=
  [(1, .released 1), (1, .swept 1 (.error (.signal "refused"))), (1, .drained 1 []),
    (1, .lookedUp 1), (1, .acquired 1), (1, .lookedUp 1), (1, .lookedUp 1),
    (0, .returned (.created (.ok 1))), (0, .scopeCreated 1 false)]

/-- The scope was created before that termination began. -/
theorem createdBefore_refusedSweep : CreatedBefore refusedSweep 1 1 :=
  ⟨refusedSweep.take 7, refusedSweep.drop 7, rfl, ⟨false, 0, by simp [refusedSweep]⟩,
    by simp [refusedSweep]⟩

/-- The sweep of that termination fails with a signal error. -/
theorem sweepsBySignal_refusedSweep : SweepsBySignal refusedSweep 1 := by
  intro c e hm
  obtain ⟨-, he⟩ : c = 1 ∧ e = .signal "refused" := by
    simpa [refusedSweep] using hm
  exact ⟨_, he⟩

/-- The last event is the return of that termination. -/
def returnsRefused (h : History) : Bool :=
  match h with
  | (1, .returned (.scopeTerminated 1 _)) :: older => older = refusedSweep
  | _ => false

set_option maxRecDepth 10000 in
/-- The schedule in which the sweep is refused comes to the return. -/
theorem terminateRefused_returns :
    (supervisor.follow (Machine.initial Inner.new)
      ([.start (.createScope false)] ++ steps 0 1 ++ [.start (.terminateScope 1 .default)] ++
        steps 1 5 ++ [.run 1 (.cleaned (.error (.signal "refused")))] ++ steps 1 1)).any
        (fun cfg => returnsRefused cfg.shared.history) = true := by
  decide +kernel

/-- A termination after the commit returns the committed report, and one whose sweep is refused
does not say that the scope is unknown. -/
theorem terminations_agree_with_commits :
    (∃ cfg older, Reachable cfg ∧ cfg.shared.history =
        (6, .returned (.scopeTerminated 1 (.ok committedReport))) :: older ∧
      LateEntry older 6 1 ∧ Happened older (.committed 1 committedReport)) ∧
    ∃ cfg v, Reachable cfg ∧ cfg.shared.history =
        (1, .returned (.scopeTerminated 1 v)) :: refusedSweep ∧
      SweepsBySignal refusedSweep 1 ∧ v ≠ .error (.unknownScope 1) := by
  constructor
  · obtain ⟨cfg, hr, hP⟩ := exists_reachable terminateAgain_returns_late
    cases hh : cfg.shared.history with
    | nil => simp [hh, returnsLate] at hP
    | cons x past =>
        rw [hh] at hP
        simp only [returnsLate] at hP
        split at hP
        case h_2 => cases hP
        next r older heq =>
        obtain ⟨rfl, rfl⟩ := List.cons.inj heq
        obtain ⟨hrep, hcm⟩ := Bool.and_eq_true_iff.mp hP
        obtain rfl := of_decide_eq_true hrep
        have hlate : LateEntry ((6, .lookedUp 1) :: older) 6 1 :=
          lateEntry_cons.mpr
            (.inl ⟨rfl, .inl rfl, committedReport, 3, List.contains_iff_mem.mp hcm⟩)
        have hret := ((scope_commits_are_agreed hr).2.1 [] 6 _ _ hh).2 hlate (by simp)
        obtain ⟨r, hok, hr'⟩ := hret
        obtain rfl := Except.ok.inj hok
        exact ⟨cfg, _, hr, hh, hlate, hr'⟩
  · obtain ⟨cfg, hr, hP⟩ := exists_reachable terminateRefused_returns
    unfold returnsRefused at hP
    split at hP
    case h_2 => cases hP
    next v older heq =>
    obtain rfl := of_decide_eq_true hP
    refine ⟨cfg, v, hr, heq, sweepsBySignal_refusedSweep, ?_⟩
    rintro rfl
    have hd := (scope_commits_are_agreed hr).2.2.2.1 [] 1 1 _ heq createdBefore_refusedSweep
      sweepsBySignal_refusedSweep
    obtain ⟨l₁, l₂, hlog, -⟩ := hd
    have hnil : completedLog refusedSweep = [] := rfl
    rw [hnil] at hlog
    simp at hlog

end Shepherd
