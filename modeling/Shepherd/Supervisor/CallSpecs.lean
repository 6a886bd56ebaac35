import Shepherd.Supervisor.ScopeSpecs

/-!
# Calls

Specifications of the calls that terminate scopes: `terminate_scope`, `finish` with its
backstop, `wait_scope_cleanup` and `shutdown`. Each ends in a return that the history
justifies.
-/

open Std

namespace Shepherd

open Conc

variable {t : Tid} {s s' s₀ : Inner} {u : Inner → Prop} {c : ProcessScopeId} {p : ProcessId}
  {h h' : History} {report : ScopeTerminationReport} {v : CleanupResult}

/-! ### Results -/

/-- The outcome of a termination under the lock is what its caller may return. -/
theorem ScopeOutcome.scopeReturn (ho : ScopeOutcome t c v h) : ScopeReturn t c v h :=
  ⟨fun r heq => ⟨ho.backed r heq, ho.verified r heq⟩,
    fun hl => .inl (ho.committed hl.committed).2⟩

/-- The committed report can always be returned. -/
theorem ScopeReturn.ok (hl : Lawful h) (hc : Happened h (.committed c report)) :
    ScopeReturn t c (.ok report) h := by
  refine ⟨fun r heq => ?_, fun _ => .inl ⟨report, rfl, hc⟩⟩
  obtain rfl := Except.ok.inj heq
  obtain ⟨_, l, hs, -, -, -, hb, -⟩ := hl.of_happened hc
  exact ⟨hb.mono hs, fun _ => hc⟩

/-- That the scope is unknown may be returned always; `UnknownScopeReturn` says when it is. -/
theorem ScopeReturn.unknownScope (t : Tid) (c : ProcessScopeId) (h : History) :
    ScopeReturn t c (.error (.unknownScope c)) h :=
  ⟨nofun, fun _ => .inr rfl⟩

/-- A result that can be returned can be returned after calm steps. -/
theorem ScopeReturn.calm (hs : Calm t s s') (hr : ScopeReturn t c v s.history) :
    ScopeReturn t c v s'.history := by
  refine ⟨fun r heq => ?_, fun hl => ?_⟩
  · obtain ⟨hb, hc⟩ := hr.1 r heq
    exact ⟨hb.mono hs.suffix, fun hv => (hc hv).mono hs.suffix⟩
  · rcases hr.2 (hs.caused.lateEntry (by simp [Event.calm]) (by simp [Event.calm]) hl) with
      ⟨r, heq, hc⟩ | heq
    · exact .inl ⟨r, heq, hc.mono hs.suffix⟩
    · exact .inr heq

/-- What the report map shows was committed. -/
theorem Inv.committed_of_reportOf (hi : Inv s) (hr : s.reportOf c = some report) :
    Happened s.history (.committed c report) := by
  obtain ⟨rr, hrr, rfl⟩ := Option.map_eq_some_iff.mp hr
  obtain ⟨r, rfl, hc⟩ := hi.commits.report hrr
  rwa [RetainedScopeReport.report_retain]

/-- A retired scope that the report map does not show was displaced. -/
theorem Inv.displaced_of_reportOf (hi : Inv s) (hr : s.reportOf c = none)
    (hret : Happened s.history (.operationRetired c)) :
    Displaced SCOPE_REPORT_HISTORY_BOUND c (completedLog s.history) := by
  have hrep := hi.lawful.retained_of_removed (hi.lawful.removed_of_retired hret)
  have hnone : ¬ ∃ rr, s.reports[c]? = some rr := fun ⟨rr, hrr⟩ => by
    rw [Inner.reportOf, hrr] at hr
    cases hr
  rw [hi.commits.reported] at hnone
  have hgone : Happened s.history (.scopeCompleted c) ∧ c ∉ s.completedScopes := by
    by_contra hx
    exact hnone ⟨hrep, fun hcp => by_contra fun hq => hx ⟨hcp, hq⟩⟩
  exact hi.commits.retained.displaced c (mem_completedLog.mpr hgone.1) hgone.2

/-- What was created before the first event of `t` was created then. -/
theorem CreatedBefore.created {ext : History} {ev : Event}
    (hb : CreatedBefore (ext ++ (t, ev) :: h) t c) : Created h c := by
  obtain ⟨newer, older, heq, hc, hn⟩ := hb
  rcases List.append_eq_append_iff.mp heq with ⟨x, rfl, hx⟩ | ⟨x, rfl, hx⟩
  · cases x with
    | nil =>
        rw [List.nil_append] at hx
        exact absurd (hx ▸ List.mem_cons_self) (hn ev)
    | cons y x =>
        obtain ⟨-, rfl⟩ := List.cons.inj hx
        exact hc.mono (List.suffix_append x older)
  · exact absurd (hx ▸ List.mem_append_right x List.mem_cons_self) (hn ev)

/-! ### Terminating a scope -/

/-- When `terminate_scope` can report a scope as unknown. -/
def UnknownScopeReturn (t : Tid) (c : ProcessScopeId) (v : CleanupResult) (h : History) :
    Prop :=
  v = .error (.unknownScope c) → CreatedBefore h t c →
    Displaced SCOPE_REPORT_HISTORY_BOUND c (completedLog h) ∨
    (t, .swept c (.error (.unknownScope c))) ∈ h

/-- **The specification of `terminate_scope`.** It looks twice: a scope that was there at the first
lookup and is retired at the second was committed in between, and its report may have been displaced
since. -/
theorem wp_terminateScope {opts : TerminateOptions} (hidle : Idle t s)
    (hu : Abandonable t u s) :
    WP t u (terminateScope c opts) (fun v s' => Idle t s' ∧ s.history <:+ s'.history ∧
      ScopeReturn t c v s'.history ∧ UnknownScopeReturn t c v s'.history) s := by
  have hlook : ∀ {o : Op} {s₁ s₂ : Inner} {a r}, Idle t s₁ → exec t o a s₁ = some (r, s₂) →
      (∀ ev, o.Emits ev → ev = .lookedUp c) → o.locks = false → Idle t s₂ := by
    intro o s₁ s₂ a r hi he hem hl
    have hs : Since (fun ev => ev = .lookedUp c) t s₁ s₂ := exec_since hem hl he
    exact hi.since (by simp) hs
  have hfound : ∀ {s₁ s₂ : Inner} {r}, Inv s₁ → s₁.reportOf c = some r →
      s₁.history <:+ s₂.history → Inv s₂ →
      ScopeReturn t c (.ok r) s₂.history ∧ UnknownScopeReturn t c (.ok r) s₂.history :=
    fun hi hr hsuf hi₂ => ⟨.ok hi₂.lawful ((hi.committed_of_reportOf hr).mono hsuf), nofun⟩
  rw [terminateScope, act_bind]
  refine wp_act (fun _ => rfl) fun s₁ hr₁ hi₁ ht₁ =>
    ⟨nofun, .of_guard rfl trivial, fun a r s₂ he hi₂ => ?_⟩
  have hidle₂ := hlook (hidle.since (fun _ _ hf => hf) hr₁) he (fun _ hev => hev) rfl
  have h₂ := hr₁.suffix.trans (exec_suffix he)
  obtain ⟨rfl, rfl⟩ := Prod.mk.inj (Option.some.inj he)
  cases hrep : s₁.reportOf c with
  | some report => exact ⟨hidle₂, h₂, hfound hi₁ hrep (List.suffix_cons _ _) hi₂⟩
  | none =>
      dsimp only
      rw [act_bind]
      refine wp_act (fun _ => rfl) fun s₃ hr₃ hi₃ ht₃ =>
        ⟨nofun, .of_guard rfl trivial, fun a r s₄ he hi₄ => ?_⟩
      have hidle₄ := hlook (hidle₂.since (fun _ _ hf => hf) hr₃) he (fun _ hev => hev) rfl
      have h₄ := h₂.trans (hr₃.suffix.trans (exec_suffix he))
      obtain ⟨rfl, rfl⟩ := Prod.mk.inj (Option.some.inj he)
      split
      · next hop =>
          have hcr := ((hi₃.catalogue.operation c).mp hop).1
          refine Protocol.wp_mono (fun v s' ⟨_, hid, hcd, hout⟩ => ?_)
            (wp_terminateScopeOperation hidle₄ (hcr.mono (List.suffix_cons _ _)) (hu.mono h₄))
          exact ⟨hid, h₄.trans hcd.suffix, hout.scopeReturn,
            fun heq _ => .inr (hout.unknown heq)⟩
      · next hop =>
          rw [act_bind]
          refine wp_act (fun _ => rfl) fun s₅ hr₅ hi₅ ht₅ =>
            ⟨nofun, .of_guard rfl trivial, fun a r s₆ he hi₆ => ?_⟩
          have hidle₆ := hlook (hidle₄.since (fun _ _ hf => hf) hr₅) he (fun _ hev => hev) rfl
          have h₆ := hr₃.suffix.trans ((List.suffix_cons _ _).trans
            (hr₅.suffix.trans (exec_suffix he)))
          obtain ⟨rfl, rfl⟩ := Prod.mk.inj (Option.some.inj he)
          cases hrep₅ : s₅.reportOf c with
          | some report =>
              exact ⟨hidle₆, h₂.trans h₆, hfound hi₅ hrep₅ (List.suffix_cons _ _) hi₆⟩
          | none =>
              refine ⟨hidle₆, h₂.trans h₆, .unknownScope t c _, fun _ hb => .inl ?_⟩
              have hcr : Created s₁.history c := by
                obtain ⟨ext, hext⟩ := h₆
                rw [← hext] at hb
                exact hb.created
              have hret : Happened s₃.history (.operationRetired c) := by
                by_contra hn
                exact hop ((hi₃.catalogue.operation c).mpr
                  ⟨hcr.mono ((List.suffix_cons _ _).trans hr₃.suffix), hn⟩)
              exact hi₅.displaced_of_reportOf hrep₅
                (hret.mono ((List.suffix_cons _ _).trans hr₅.suffix))

/-! ### Observed scopes -/

/-- An idle task is idle after calm steps. -/
theorem Calm.idle (hs : Calm t s s') (hi : Idle t s) : Idle t s' :=
  hi.since (by simp [Event.calm]) hs

/-- What a cleanup channel shows was published for good reason. -/
theorem Inv.cleanup_sound (hi : Inv s) (hv : s.cleanup c = some v) :
    ∀ r, v = .ok r →
      Backed s.history r ∧ (r.allVerified = true → Happened s.history (.committed c r)) := by
  obtain ⟨_, l, hs, -, hj⟩ := hi.lawful.of_happened (hi.results.published hv)
  exact fun r heq => ⟨(hj r heq).1.mono hs, fun hx => ((hj r heq).2 hx).mono hs⟩

/-- A verified report on a cleanup channel is the committed one. -/
theorem Inv.committed_of_verifiedReport (hi : Inv s) (hr : s.verifiedReport c = some report) :
    Happened s.history (.committed c report) := by
  rw [Inner.verifiedReport] at hr
  split at hr
  · next r hcl =>
      split at hr
      · next hv =>
          obtain rfl := Option.some.inj hr
          exact (hi.cleanup_sound hcl r rfl).2 hv
      · cases hr
  · cases hr

/-- Publishing a result that can be returned. -/
theorem wp_publish {α : Type} {f : Code α} {Q : α → Inner → Prop}
    (hob : Observed s.history c) (hv : ScopeReturn t c v s.history) (hs : Calm t s₀ s)
    (hu : Await (fun ev => ev.calm = true) t u s₀)
    (h : ∀ s', Calm t s₀ s' → Calm t s s' → WP t u f Q s') :
    WP t u (do act (.publish c v); f) Q s := by
  rw [act_bind]
  refine wp_calm rfl (fun _ => rfl) hs hu fun s₁ hr₁ hs₁ hi₁ =>
    ⟨⟨nofun, hob.mono hr₁.suffix, fun r heq => ?_⟩, fun a r s₂ he hi₂ hs₂ => ?_⟩
  · obtain ⟨hb, hc⟩ := hv.1 r heq
    exact ⟨hb.mono hr₁.suffix, fun hx => (hc hx).mono hr₁.suffix⟩
  · exact h s₂ hs₂ ((Calm.of_rely hr₁).trans (exec_since (fun _ hev => hev.calm rfl) rfl he))

/-- **The specification of the end of a cleanup**: it returns the result it got, or the committed
report. -/
theorem wp_completeCleanup (hob : Observed s.history c) (hv : ScopeReturn t c v s.history)
    (hs : Calm t s₀ s) (hu : Await (fun ev => ev.calm = true) t u s₀) :
    WP t u (completeCleanup c v) (fun v s' => ScopeReturn t c v s'.history) s := by
  rw [completeCleanup, act_bind]
  refine wp_calm rfl (fun _ => rfl) hs hu fun s₁ hr₁ hs₁ hi₁ =>
    ⟨.of_guard rfl trivial, fun a r s₂ he hi₂ hs₂ => ?_⟩
  obtain ⟨rfl, rfl⟩ := Prod.mk.inj (Option.some.inj he)
  have hob₁ := hob.mono hr₁.suffix
  have hv₁ : ScopeReturn t c v s₁.history := hv.calm (Calm.of_rely hr₁)
  cases hrep : s₁.verifiedReport c with
  | some report =>
      have hret : ScopeReturn t c (.ok report) s₁.history :=
        .ok hi₁.lawful (hi₁.committed_of_verifiedReport hrep)
      exact wp_publish hob₁ hret hs₂ hu fun s₃ _ h₃ => hret.calm h₃
  | none =>
      dsimp only
      split
      · exact wp_publish hob₁ hv₁ hs₂ hu fun s₃ _ h₃ => hv₁.calm h₃
      · rw [act_bind]
        refine wp_skip rfl (fun _ => rfl) (fun _ => .of_guard rfl trivial) (Since.refl t s₁)
          (hu.since hs₂) fun _ s₃ hs₃ h₃ => ?_
        exact wp_publish (hob₁.mono h₃) (hv₁.calm hs₃) hs₃ (hu.since hs₂)
          fun s₄ _ h₄ => (hv₁.calm hs₃).calm h₄

/-- **The specification of `finish_scope_cleanup`.** -/
theorem wp_finishScopeCleanup {opts : TerminateOptions} (hidle : Idle t s)
    (hob : Observed s.history c) (hu : Abandonable t u s) :
    WP t u (finishScopeCleanup c opts) (fun v s' => ScopeReturn t c v s'.history) s := by
  have hcalm : ∀ {s₁}, Idle t s₁ → s.history <:+ s₁.history →
      Await (fun ev => ev.calm = true) t u s₁ := fun hid hsuf s' hs' hi ht =>
    hu s' (hsuf.trans hs'.suffix) hi ht (Calm.idle hs' hid).droppable
  rw [finishScopeCleanup, act_bind]
  refine wp_calm rfl (fun _ => rfl) (Since.refl t s) (hcalm hidle (List.suffix_refl _))
    fun s₁ hr₁ hs₁ hi₁ => ⟨.of_guard rfl trivial, fun a r s₂ he hi₂ hs₂ => ?_⟩
  obtain ⟨rfl, rfl⟩ := Prod.mk.inj (Option.some.inj he)
  have hidle₁ : Idle t s₁ := Calm.idle hs₁ hidle
  have hob₁ := hob.mono hs₁.suffix
  cases hrep : s₁.verifiedReport c with
  | some report =>
      exact wp_completeCleanup hob₁ (.ok hi₁.lawful (hi₁.committed_of_verifiedReport hrep))
        (Since.refl t s₁) (hcalm hidle₁ hs₁.suffix)
  | none =>
      refine wp_seq _ (wp_terminateScope hidle₁ (hu.mono hs₁.suffix))
        fun v s₃ ⟨hidle₃, h₃, hret, _⟩ => ?_
      exact wp_completeCleanup (hob₁.mono h₃) hret (Since.refl t s₃)
        (hcalm hidle₃ (hs₁.suffix.trans h₃))

/-- An error can be published at any time. -/
theorem wp_publishError {message : String} (hob : Observed s.history c) :
    WP t (fun _ => True) (act (.publish c (.error (.signal message))))
      (fun _ s' => s.history <:+ s'.history) s := by
  refine wp_calm rfl (fun _ => rfl) (Since.refl t s) (fun _ _ _ _ => trivial)
    fun s₁ hr₁ hs₁ hi₁ => ⟨⟨nofun, hob.mono hr₁.suffix, nofun⟩, fun a r s₂ he hi₂ hs₂ => ?_⟩
  exact hs₂.suffix

/-- The error of a cleanup worker is published of an observed scope. -/
theorem wp_publishWorkerError {withScope : Bool} (hob : Observed s.history c) :
    WP t (fun _ => True) (publishWorkerError c withScope) (fun _ _ => True) s := by
  rw [publishWorkerError]
  split
  · exact Protocol.wp_mono (fun _ _ _ => trivial) (wp_publishError hob)
  · trivial

/-- The backstop of an observed scope publishes an error behind a hard kill, unless a report is
verified. -/
theorem wp_dropBackstop (hob : Observed s.history c) :
    WP t (fun _ => True) (dropBackstop c) (fun _ s' => s.history <:+ s'.history) s := by
  have hu : ∀ s₀, Await (fun ev => ev.calm = true) t (fun _ => True) s₀ :=
    fun _ _ _ _ _ => trivial
  rw [dropBackstop, act_bind]
  refine wp_skip rfl (fun _ => rfl) (fun _ => .of_guard rfl trivial) (Since.refl t s) (hu s)
    fun r s₁ hs₁ h₁ => ?_
  cases r with
  | some report => exact h₁
  | none =>
      dsimp only
      rw [act_bind]
      refine wp_skip rfl (fun _ => rfl) (fun _ => .of_guard rfl trivial) hs₁ (hu s)
        fun _ s₂ hs₂ h₂ => ?_
      exact Protocol.wp_mono (fun _ _ h₃ => h₁.trans (h₂.trans h₃))
        (wp_publishError (hob.mono (h₁.trans h₂)))

/-- The owner of an observed scope is taken once. -/
theorem wp_takeOwner {α : Type} {f : Code α} {Q : α → Inner → Prop}
    (h : ∀ s', Inv s' → Rely t s s' → Observed s'.history c → WP t u f Q s') :
    WP t u (do act (.takeOwner c); f) Q s := by
  rw [act_bind]
  refine wp_act (fun _ => rfl) fun s₁ hr₁ hi₁ ht₁ =>
    ⟨nofun, .of_guard rfl trivial, fun a r s₂ he hi₂ => ?_⟩
  have hr₂ : Rely t s s₂ :=
    hr₁.trans (exec_since (o := .takeOwner c) (fun _ hev => hev) rfl he)
  rw [exec] at he
  split at he
  · next hown =>
      obtain ⟨-, rfl⟩ := Prod.mk.inj (Option.some.inj he)
      exact h _ hi₂ hr₂ (hi₁.results.owner hown)
  · cases he

/-- The wait for a result on a cleanup channel. -/
theorem wp_awaitCleanup (hs : Calm t s₀ s) (hu : Await (fun ev => ev.calm = true) t u s₀) :
    WP t u (act (.awaitCleanup c))
      (fun v s' => JustifiedReturn t (.cleanupWaited c v) s'.history) s := by
  refine wp_calm rfl (fun _ => rfl) hs hu fun s₁ hr₁ hs₁ hi₁ =>
    ⟨.of_guard rfl trivial, fun a r s₂ he hi₂ hs₂ => ?_⟩
  simp only [exec] at he
  split at he
  · obtain ⟨v, hv, heq⟩ := Option.map_eq_some_iff.mp he
    obtain ⟨rfl, rfl⟩ := Prod.mk.inj heq
    exact hi₁.cleanup_sound hv
  · split at he
    · obtain ⟨rfl, rfl⟩ := Prod.mk.inj (Option.some.inj he)
      exact fun report heq => (by cases heq)
    · cases he
  · cases he

/-- An idle task can be dropped after any calm steps. -/
theorem await_of_idle (hidle : Idle t s) (hu : Abandonable t u s) :
    Await (fun ev => ev.calm = true) t u s := fun s' hs' hi ht =>
  hu s' hs'.suffix hi ht (Calm.idle hs' hidle).droppable

/-- **The specification of `wait_scope_cleanup`.** -/
theorem wp_waitScopeCleanup (hidle : Idle t s) (hu : Abandonable t u s) :
    WP t u (waitScopeCleanup c)
      (fun v s' => JustifiedReturn t (.cleanupWaited c v) s'.history) s := by
  have hcalm := await_of_idle hidle hu
  rw [waitScopeCleanup, act_bind]
  refine wp_skip rfl (fun _ => rfl) (fun _ => .of_guard rfl trivial) (Since.refl t s) hcalm
    fun r s₁ hs₁ h₁ => ?_
  split
  · exact wp_awaitCleanup hs₁ hcalm
  · exact nofun

/-! ### Shutdown -/

/-- No scope is created once the shutdown has started. -/
theorem Lawful.created_of_shutdown (hl : Lawful h') (hs : h <:+ h')
    (hst : Happened h .shutdownStarted) (hc : Created h' c) : Created h c := by
  obtain ⟨ext, rfl⟩ := hs
  obtain ⟨b, t', hm⟩ := hc
  rcases List.mem_append.mp hm with hm | hm
  · obtain ⟨l₁, l₂, rfl⟩ := List.append_of_mem hm
    rw [List.append_assoc, List.cons_append] at hl
    have hj : Justified t' (.scopeCreated c b) (l₂ ++ h) := Chronicle.justified hl
    exact absurd (hst.mono (List.suffix_append _ _)) hj.2
  · exact ⟨b, t', hm⟩

/-- Closing some scopes is closing among more. -/
theorem Event.closing_mono {cs cs' : List ProcessScopeId} (hsub : ∀ c ∈ cs, c ∈ cs')
    {ev : Event} (hev : Event.closing cs ev) : Event.closing cs' ev := by
  refine hev.imp_right ?_
  rintro ⟨c, hc, hx⟩
  exact ⟨c, hsub c hc, hx⟩

/-- What a shutdown has when every scope of its snapshot was verified. -/
def ShutdownReports (cs : List ProcessScopeId) (reports : List ScopeTerminationReport)
    (h : History) : Prop :=
  (∀ r ∈ reports, Happened h (.committed r.scope r)) ∧
  ∀ c ∈ cs, Removed h c ∧ ∃ r ∈ reports, r.scope = c

/-- The reports of a shutdown stay committed. -/
theorem ShutdownReports.mono {cs : List ProcessScopeId}
    {reports : List ScopeTerminationReport} (hs : h <:+ h') (hr : ShutdownReports cs reports h) :
    ShutdownReports cs reports h' :=
  ⟨fun r hm => (hr.1 r hm).mono hs, fun c hc => ⟨(hr.2 c hc).1.mono hs, (hr.2 c hc).2⟩⟩

/-- A verified report of a scope is about that scope, which is gone. -/
theorem Inv.scope_closed (hi : Inv s) (ho : ScopeOutcome t c (.ok report) s.history)
    (hv : report.allVerified = true) : report.scope = c ∧ Removed s.history c := by
  have hc := ho.verified report rfl hv
  obtain ⟨_, l, -, -, hsc, -⟩ := hi.lawful.of_happened hc
  have hhd := (ho.committed ⟨report, hc⟩).1
  exact ⟨hsc, hi.lawful.removed_of_completed (hi.lawful.completed_of_handed hhd)⟩

/-- **Terminating the scopes of a snapshot.** -/
theorem wp_shutdownScopes {cs : List ProcessScopeId} (hidle : Idle t s)
    (hcr : ∀ c ∈ cs, Created s.history c) (hu : Abandonable t u s) :
    WP t u (shutdownScopes cs) (fun v s' => Idle t s' ∧ Caused (Event.closing cs) t s s' ∧
      (v.2 = 0 → ShutdownReports cs v.1 s'.history)) s := by
  induction cs generalizing s with
  | nil => exact ⟨hidle, .refl t s, fun _ => ⟨by simp, by simp⟩⟩
  | cons c cs ih =>
      rw [shutdownScopes]
      refine wp_seq _ (wp_terminateScopeOperation hidle (hcr c List.mem_cons_self) hu)
        fun v s₁ ⟨hi₁, hidle₁, hcd₁, hout⟩ => ?_
      have hrest := ih hidle₁ (fun c' hc' =>
        (hcr c' (List.mem_cons_of_mem _ hc')).mono hcd₁.suffix) (hu.mono hcd₁.suffix)
      have hcaused : ∀ {s₂}, Caused (Event.closing cs) t s₁ s₂ →
          Caused (Event.closing (c :: cs)) t s s₂ := fun hcd₂ =>
        (hcd₁.mono fun _ => Event.closing_mono (by simp)).trans
          (hcd₂.mono fun _ => Event.closing_mono fun _ => List.mem_cons_of_mem _)
      cases v with
      | error e =>
          refine wp_seq _ hrest fun w s₂ ⟨hidle₂, hcd₂, _⟩ => ?_
          exact ⟨hidle₂, hcaused hcd₂, fun hz => absurd hz (Nat.succ_ne_zero _)⟩
      | ok report =>
          refine wp_seq _ hrest fun w s₂ ⟨hidle₂, hcd₂, hall⟩ => ?_
          refine ⟨hidle₂, hcaused hcd₂, fun hz => ?_⟩
          dsimp only at hz
          split at hz
          case isFalse => exact absurd hz (Nat.succ_ne_zero _)
          next hv =>
          obtain ⟨hreps, hcs⟩ := hall hz
          obtain ⟨hsc, hrm⟩ := hi₁.scope_closed hout hv
          have hcm := (hout.verified report rfl hv).mono hcd₂.suffix
          refine ⟨fun r hr => ?_, fun c' hc' => ?_⟩
          · rcases List.mem_cons.mp hr with rfl | hr
            · rw [hsc]
              exact hcm
            · exact hreps r hr
          · rcases List.mem_cons.mp hc' with rfl | hc'
            · exact ⟨hrm.mono hcd₂.suffix, report, List.mem_cons_self, hsc⟩
            · obtain ⟨hx, r, hr, heq⟩ := hcs c' hc'
              exact ⟨hx, r, List.mem_cons_of_mem _ hr, heq⟩

/-- **The specification of the join of the sampler**: with the registry empty, nobody restarts
it. -/
theorem wp_joinSampler (hst : Happened s.history .shutdownStarted)
    (hall : ∀ {s'}, Inv s' → s.history <:+ s'.history →
      ∀ c, Created s'.history c → Removed s'.history c)
    (hu : Await (fun ev => ev.calm = true) t u s) :
    WP t u joinSampler (fun _ s' => Calm t s s') s := by
  rw [joinSampler, act_bind]
  refine wp_calm rfl (fun _ => rfl) (Since.refl t s) hu fun s₁ hr₁ hs₁ hi₁ =>
    ⟨.of_guard rfl ⟨hst.mono hs₁.suffix, hall hi₁ hs₁.suffix⟩, fun a r s₂ he hi₂ hs₂ => ?_⟩
  split
  · rw [act_bind]
    refine wp_skip rfl (fun _ => rfl) (fun _ => .of_guard rfl trivial) hs₂ hu fun _ s₃ hs₃ _ => ?_
    rw [act_bind]
    refine wp_skip rfl (fun _ => rfl) (fun _ => .of_guard rfl trivial) hs₃ hu fun _ s₄ hs₄ _ => ?_
    exact wp_skip rfl (fun _ => rfl) (fun _ => .of_guard rfl trivial) hs₄ hu fun _ s₅ hs₅ _ => hs₅
  · exact wp_skip rfl (fun _ => rfl) (fun _ => .of_guard rfl trivial) hs₂ hu fun _ s₃ hs₃ _ => hs₃

/-- **The specification of `shutdown`.** When it returns reports, every scope that was registered is
gone, and none was created since. -/
theorem wp_shutdown (hfresh : ∀ ev, (t, ev) ∉ s.history) (hidle : Idle t s)
    (hu : Abandonable t u s) :
    WP t u shutdown (fun v s' => JustifiedReturn t v s'.history) s := by
  have hcalm : ∀ {s₁}, Idle t s₁ → s.history <:+ s₁.history →
      Await (fun ev => ev.calm = true) t u s₁ := fun hid hsuf s' hs' hi ht =>
    hu s' (hsuf.trans hs'.suffix) hi ht (Calm.idle hs' hid).droppable
  have hu₀ := hcalm hidle (List.suffix_refl _)
  rw [shutdown, act_bind]
  refine wp_calm rfl (fun _ => rfl) (Since.refl t s) hu₀ fun s₁ hr₁ hs₁ hi₁ =>
    ⟨.of_guard rfl trivial, fun a r s₂ he hi₂ hs₂ => ?_⟩
  obtain ⟨-, rfl⟩ := Prod.mk.inj (Option.some.inj he)
  have hst : Happened ((t, Event.shutdownStarted) :: s₁.history) .shutdownStarted := by simp
  rw [act_bind]
  refine wp_skip rfl (fun _ => rfl) (fun _ => .of_guard rfl trivial) hs₂ hu₀ fun _ s₃ hs₃ h₃ => ?_
  have hst₃ := hst.mono h₃
  rw [act_bind]
  refine wp_calm rfl (fun _ => rfl) hs₃ hu₀ fun s₄ hr₄ hs₄ hi₄ =>
    ⟨.of_guard rfl trivial, fun a r s₅ he hi₅ hs₅ => ?_⟩
  rw [exec] at he
  split at he
  · next cs hsnap =>
      obtain ⟨rfl, rfl⟩ := Prod.mk.inj (Option.some.inj he)
      have hst₄ := hst₃.mono hr₄.suffix
      have hidle₄ : Idle t s₄ := Calm.idle hs₄ hidle
      obtain rfl : s₄.registry.scopeIds = cs := by
        rw [Inner.snapshot] at hsnap
        split at hsnap
        · exact Option.some.inj hsnap
        · cases hsnap
      have hreg : ∀ c, c ∈ s₄.registry.scopeIds ↔ Created s₄.history c ∧ ¬ Removed s₄.history c :=
        fun c => by rw [← hi₄.catalogue.registered, ScopeRegistry.mem_scopeIds]
      refine wp_seq _ (wp_shutdownScopes hidle₄ (fun c hc => ((hreg c).mp hc).1)
        (hu.mono hs₄.suffix)) fun v s₆ hscopes => ?_
      obtain ⟨hidle₆, hcd₆, hv⟩ := hscopes
      have hu₆ := hcalm hidle₆ (hs₄.suffix.trans hcd₆.suffix)
      dsimp only
      split
      · rw [act_bind]
        exact wp_skip rfl (fun _ => rfl) (fun _ => .of_guard rfl trivial) (Since.refl t s₆) hu₆
          fun _ s₇ _ _ => trivial
      next hz =>
      have hrep := hv (Nat.eq_zero_of_not_pos hz)
      have hall : ∀ {s'}, Inv s' → s₆.history <:+ s'.history →
          ∀ c, Created s'.history c → Removed s'.history c := by
        intro s' hi' hsuf c hc
        have hc₄ := hi'.lawful.created_of_shutdown (hcd₆.suffix.trans hsuf) hst₄ hc
        by_cases hrm : Removed s₄.history c
        · exact hrm.mono (hcd₆.suffix.trans hsuf)
        · exact (hrep.2 c ((hreg c).mpr ⟨hc₄, hrm⟩)).1.mono hsuf
      refine wp_seq _ (wp_joinSampler (hst₄.mono hcd₆.suffix) hall hu₆) fun _ s₇ hs₇ => ?_
      rw [act_bind]
      refine wp_calm rfl (fun _ => rfl) hs₇ hu₆ fun s₈ hr₈ hs₈ hi₈ =>
        ⟨.of_guard rfl trivial, fun a r s₉ he hi₉ hs₉ => ?_⟩
      refine ⟨hst₄.mono (hcd₆.suffix.trans hs₉.suffix), hall hi₉ hs₉.suffix,
        (hrep.mono hs₉.suffix).1, fun c hacq => ?_⟩
      have hacq₆ := Calm.own hs₉ rfl hacq
      by_contra hn
      refine hfresh _ (Calm.own hs₄ rfl (hcd₆.own_mem ?_ hacq₆))
      rintro (hx | ⟨c', hc', heq | heq⟩)
      · cases hx
      · obtain rfl := Event.acquired.inj heq
        exact hn (hrep.2 c hc').2
      · cases heq
  · obtain ⟨rfl, rfl⟩ := Prod.mk.inj (Option.some.inj he)
    dsimp only
    rw [act_bind]
    exact wp_skip rfl (fun _ => rfl) (fun _ => .of_guard rfl trivial) hs₅ hu₀ fun _ _ _ _ => trivial

end Shepherd
