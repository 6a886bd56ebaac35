import Shepherd.Supervisor.DrainSpecs

/-!
# Terminating a Scope

Specifications of the commit and of the calls that terminate a scope. The commit is a chain
of steps without an await, under the operation lock; each step happens for the first time
because the steps after the ones that `t` has taken so far need the lock that `t` holds.

A caller that takes the operation lock of a committed scope finds the committed report
behind it. One that finds nothing there holds the lock of a scope that is not committed,
and returns the report that it commits itself, an unverified report, or an error.
-/

open Std

namespace Shepherd

open Conc

variable {t : Tid} {s s' s₀ : Inner} {u : Inner → Prop} {c : ProcessScopeId} {p : ProcessId}
  {h h' : History} {d : List ProcessId} {report : ScopeTerminationReport}

/-! ### The commit -/

/-- The events of the termination of a scope, with its commit. -/
def Event.terminating : Event → Bool
  | .committed _ _ | .resultRetained _ | .reportRetained _ | .scopeRemoved _ _
  | .operationRetired _ | .pendingCleared _ | .scopeCompleted _ | .closedHanded _ _ => true
  | ev => ev.draining

/-- An event of draining is one of a termination. -/
theorem Event.terminating_of_draining {ev : Event} (hc : ev.draining = true) :
    ev.terminating = true := by
  cases ev <;> first | rfl | cases hc

/-- The place of an event in a commit, after the report was stored behind the lock. -/
def Event.stage : Event → ℕ
  | .resultRetained _ => 1
  | .reportRetained _ => 2
  | .scopeRemoved _ _ => 3
  | .operationRetired _ => 4
  | .pendingCleared _ => 5
  | .scopeCompleted _ => 6
  | .closedHanded _ _ => 7
  | _ => 0

/-- A later state in which `t` took the steps of a commit up to a stage. -/
abbrev Stage (n : ℕ) (t : Tid) : Inner → Inner → Prop :=
  Since (fun ev => ev.terminating = true ∧ ev.stage ≤ n) t

/-- One stage of a retirement more. -/
theorem Stage.succ {n : ℕ} (hs : Stage n t s s') : Stage (n + 1) t s s' :=
  hs.mono fun _ hev => ⟨hev.1, Nat.le_succ_of_le hev.2⟩

/-- A step that comes later in the commit has not happened. -/
theorem Stage.not_happened {n : ℕ} {ev : Event} (hs : Stage n t s s')
    (hh : (s.operations c).holder = some t) (hg : ev.guard = some c) (hlt : n < ev.stage)
    (hn : ¬ Happened s.history ev) : ¬ Happened s'.history ev := fun hx =>
  hn (hs.frozen hh hg (fun hown => Nat.not_le_of_lt hlt hown.2) hx)

section Stages

variable {α : Type} {Q : α → Inner → Prop} {n : ℕ}

/-- **The rule for a step of a commit.** -/
theorem wp_stage {o : Op} {k : Res o → Code α}
    (hown : ∀ ev, o.Emits ev → ev.terminating = true ∧ ev.stage ≤ n) (hl : o.locks = false)
    (haw : o.awaits = false) (hn : ∀ r, spawns o r = none)
    (hg : o.guard = none ∨ o.guard = some c) (hh : (s₀.operations c).holder = some t)
    (hs : Stage n t s₀ s)
    (h : ∀ s₁, Stage n t s₀ s₁ → Rely t s s₁ → Inv s₁ → o.Pre t s₁ ∧
      ∀ a r s₂, exec t o a s₁ = some (r, s₂) → Inv s₂ → Stage n t s₀ s₂ →
        WP t u (k r) Q s₂) :
    WP t u (.op o k) Q s := by
  refine wp_act hn fun s₁ hr hi ht => ?_
  have hs₁ : Stage n t s₀ s₁ := hs.trans (hr.mono fun _ hf => hf.elim)
  obtain ⟨hpre, hk⟩ := h s₁ hs₁ hr hi
  refine ⟨fun hx => ?_, ⟨fun c' hc' => ?_, hpre⟩, fun a r s₂ he hi₂ => ?_⟩
  · rw [haw] at hx
    cases hx
  · rcases hg with hg | hg
    · rw [hg] at hc'
      cases hc'
    · rw [hg] at hc'
      obtain rfl := Option.some.inj hc'
      exact (hs₁.holder c).mpr hh
  · exact hk a r s₂ he hi₂ (hs₁.trans (exec_since hown hl he))

end Stages

/-- Whether a scope is observed is settled when it is created. -/
theorem Lawful.observed_of_created (hl : Lawful h') (hs : h <:+ h') (hc : Created h c)
    (ho : Observed h' c) : Observed h c := by
  obtain ⟨ext, rfl⟩ := hs
  obtain ⟨t', hm⟩ := ho
  rcases List.mem_append.mp hm with hm | hm
  · obtain ⟨l₁, l₂, rfl⟩ := List.append_of_mem hm
    rw [List.append_assoc, List.cons_append] at hl
    have hj : Justified t' (.scopeCreated c true) (l₂ ++ h) := Chronicle.justified hl
    exact absurd (hc.mono (List.suffix_append _ _)) hj.1
  · exact ⟨t', hm⟩

/-- The justification of a commit stays, as long as the lock is held. -/
theorem Rely.committed (hr : Rely t s s') (hh : (s.operations c).holder = some t)
    (hj : Justified t (.committed c report) s.history) :
    Justified t (.committed c report) s'.history := by
  obtain ⟨hn, hsc, hv, hb, hp, d, hd, hiff⟩ := hj
  refine ⟨fun ⟨r, hx⟩ => hn ⟨r, ?_⟩, hsc, hv, hb.mono hr.suffix, hp, d, hd.mono hr.suffix, hiff⟩
  exact hr.frozen hh rfl (fun hf => hf) hx

/-- A scope whose commit began, and whose report is not in the report map yet. -/
structure Retiring (t : Tid) (c : ProcessScopeId) (report : ScopeTerminationReport)
    (s : Inner) : Prop where
  holder : (s.operations c).holder = some t
  committed : Happened s.history (.committed c report)
  ahead : ¬ Happened s.history (.reportRetained c)

/-- Only a scope that was created is committed. -/
theorem Lawful.created_of_committed (hl : Lawful h) (hc : Committed h c) : Created h c := by
  obtain ⟨d, hd⟩ := hl.drained_of_committed hc
  obtain ⟨_, l, hs, hcr, -⟩ := hl.of_happened hd
  exact hcr.mono hs

/-- **The steps of a commit after the report was stored** all happen, each for the first time: the
report enters the report map, the scope leaves the registry, the operation lock leaves its map, the
pending outcomes are dropped, the scope enters the report history, and `ScopeClosed` is handed to a
task of its own. -/
theorem wp_retireScope (hi : Inv s₀) (hc : Retiring t c report s₀) (hs : Stage 1 t s₀ s)
    (hres : Observed s₀.history c → Happened s.history (.resultRetained c)) :
    WP t u (retireScope c report) (fun _ s' => Inv s' ∧ Stage 7 t s₀ s' ∧ Handed s'.history c)
      s := by
  obtain ⟨hh, hcm, hnrep⟩ := hc
  have hcr := hi.lawful.created_of_committed ⟨report, hcm⟩
  have hnrm : ¬ Removed s₀.history c := fun hx => hnrep (hi.lawful.retained_of_removed hx)
  have hncp : ¬ Happened s₀.history (.scopeCompleted c) := fun hx =>
    hnrm (hi.lawful.removed_of_completed hx)
  have hnhd : ¬ Handed s₀.history c := fun hx => hncp (hi.lawful.completed_of_handed hx)
  rw [retireScope, act_bind]
  refine wp_stage (fun ev hev => ?_) rfl rfl (fun _ => rfl) (.inr rfl) hh hs.succ
    fun s₁ hs₁ hr₁ hi₁ => ⟨⟨⟨⟨report, hcm.mono hs₁.suffix⟩, fun hx => ?_, ?_⟩,
      hcm.mono hs₁.suffix⟩, fun a r s₂ he hi₂ hs₂ => ?_⟩
  · obtain rfl := hev
    exact ⟨rfl, Nat.le_refl _⟩
  · exact (hres (hi₁.lawful.observed_of_created hs₁.suffix hcr hx)).mono hr₁.suffix
  · exact Stage.not_happened (hs.trans (hr₁.mono fun _ hf => hf.elim)) hh rfl
      (by simp [Event.stage]) hnrep
  obtain ⟨-, rfl⟩ := Prod.mk.inj (Option.some.inj he)
  rw [act_bind]
  refine wp_stage (fun ev hev => ?_) rfl rfl (fun _ => rfl) (.inr rfl) hh hs₂.succ
    fun s₃ hs₃ hr₃ hi₃ => ⟨fun _ => ⟨?_, fun hx => ?_⟩, fun a r s₄ he hi₄ hs₄ => ?_⟩
  · obtain ⟨l, rfl⟩ := hev
    exact ⟨rfl, Nat.le_refl _⟩
  · exact Happened.mono hr₃.suffix (happened_cons.mpr (.inl rfl))
  · obtain ⟨l, hl⟩ := hx
    refine Stage.not_happened (hs₂.trans (hr₃.mono fun _ hf => hf.elim)) hh rfl
      (by simp [Event.stage]) (fun hx => hnrm ⟨l, hx⟩) hl
  obtain ⟨-, rfl⟩ := Prod.mk.inj (Option.some.inj he)
  rw [act_bind]
  refine wp_stage (fun ev hev => ?_) rfl rfl (fun _ => rfl) (.inr rfl) hh hs₄.succ
    fun s₅ hs₅ hr₅ hi₅ => ⟨?_, fun a r s₆ he hi₆ hs₆ => ?_⟩
  · obtain rfl := hev
    exact ⟨rfl, Nat.le_refl _⟩
  · exact Removed.mono hr₅.suffix ⟨_, happened_cons.mpr (.inl rfl)⟩
  obtain ⟨-, rfl⟩ := Prod.mk.inj (Option.some.inj he)
  rw [act_bind]
  refine wp_stage (fun ev hev => ?_) rfl rfl (fun _ => rfl) (.inr rfl) hh hs₆.succ
    fun s₇ hs₇ hr₇ hi₇ => ⟨?_, fun a r s₈ he hi₈ hs₈ => ?_⟩
  · obtain rfl := hev
    exact ⟨rfl, Nat.le_refl _⟩
  · exact Happened.mono hr₇.suffix (happened_cons.mpr (.inl rfl))
  obtain ⟨-, rfl⟩ := Prod.mk.inj (Option.some.inj he)
  rw [act_bind]
  refine wp_stage (fun ev hev => ?_) rfl rfl (fun _ => rfl) (.inr rfl) hh hs₈.succ
    fun s₉ hs₉ hr₉ hi₉ => ⟨⟨?_, ?_⟩, fun a r s₁₀ he hi₁₀ hs₁₀ => ?_⟩
  · obtain rfl := hev
    exact ⟨rfl, Nat.le_refl _⟩
  · exact Happened.mono hr₉.suffix (happened_cons.mpr (.inl rfl))
  · exact Stage.not_happened (hs₈.trans (hr₉.mono fun _ hf => hf.elim)) hh rfl
      (by simp [Event.stage]) hncp
  obtain ⟨-, rfl⟩ := Prod.mk.inj (Option.some.inj he)
  refine wp_step fun s₁₁ hr₁₁ hi₁₁ ht₁₁ => ?_
  have hs₁₁ : Stage 6 t s₀ s₁₁ := hs₁₀.trans (hr₁₁.mono fun _ hf => hf.elim)
  refine ⟨nofun, ⟨fun c' hc' => ?_, ?_, fun hx => ?_⟩, fun a r s₁₂ he hi₁₂ => ?_⟩
  · obtain rfl := Option.some.inj hc'
    exact (hs₁₁.holder c).mpr hh
  · exact Happened.mono hr₁₁.suffix (happened_cons.mpr (.inl rfl))
  · obtain ⟨w, hw⟩ := hx
    exact Stage.not_happened hs₁₁ hh rfl (by simp [Event.stage]) (fun hx => hnhd ⟨w, hx⟩) hw
  have hs₁₂ : Stage 7 t s₀ s₁₂ := hs₁₁.succ.trans (exec_since (fun ev hev => by
    obtain ⟨w, rfl⟩ := hev
    exact ⟨rfl, Nat.le_refl _⟩) rfl he)
  obtain ⟨-, rfl⟩ := Prod.mk.inj (Option.some.inj he)
  have hhd : Happened ((t, Event.closedHanded c s₁₁.nextTask) :: s₁₁.history)
      (.closedHanded c s₁₁.nextTask) := by simp
  refine ⟨fun role hrole => ?_, hi₁₂, hs₁₂, s₁₁.nextTask, hhd⟩
  obtain rfl := Option.some.inj hrole
  refine ⟨fun ev hmem => ?_, hhd⟩
  rcases List.mem_cons.mp hmem with heq | hmem
  · exact absurd (Prod.mk.inj heq).1 (Nat.ne_of_gt ht₁₁)
  · exact Nat.lt_irrefl _ (hi₁₁.tasks.below hmem)

/-- **The commit** takes all its steps. Nothing of them has happened before; without a sender of
results, the scope is not observed. -/
theorem wp_commit (hh : (s.operations c).holder = some t)
    (hj : Justified t (.committed c report) s.history) :
    WP t u (commit c report) (fun _ s' => Inv s' ∧ Handed s'.history c ∧
      Happened s'.history (.committed c report) ∧
      (∀ c', (s'.operations c').holder = some t ↔ (s.operations c').holder = some t) ∧
      Caused (fun ev => ev.terminating = true) t s s') s := by
  rw [commit, act_bind]
  refine wp_act (fun _ => rfl) fun s₁ hr₁ hi₁ ht₁ => ?_
  have hh₁ := (hr₁.holder c).mpr hh
  have hj₁ := hr₁.committed hh hj
  refine ⟨fun hx => (by cases hx), ⟨fun c' hc' => ?_, hj₁⟩, fun a r s₂ he hi₂ => ?_⟩
  · obtain rfl := Option.some.inj hc'
    exact hh₁
  obtain ⟨-, heq⟩ := Prod.mk.inj (Option.some.inj he)
  have hhold : ∀ c', (s₂.operations c').holder = some t ↔ (s.operations c').holder = some t := by
    intro c'
    rw [← hr₁.holder c', ← heq]
    by_cases hcc : c' = c
    · subst hcc
      simp [Inner.setSerial]
    · simp [Inner.setSerial, Function.update_of_ne hcc]
  have hhist : s₂.history = (t, .committed c report) :: s₁.history := by
    rw [← heq]
    rfl
  have hcaused : Caused (fun ev => ev.terminating = true) t s s₂ :=
    (hr₁.caused.mono fun _ hf => hf.elim).trans (.one rfl hhist)
  have hcm : Happened s₂.history (.committed c report) := by
    rw [hhist]
    exact happened_cons.mpr (.inl rfl)
  have hahead : ∀ {ev : Event}, (Happened s₁.history ev → Committed s₁.history c) →
      ev ≠ .committed c report → ¬ Happened s₂.history ev := by
    intro ev hcom hne hx
    rw [hhist] at hx
    exact hj₁.1 (hcom ((happened_cons.mp hx).resolve_left hne))
  have hret : Retiring t c report s₂ := ⟨(hhold c).mpr hh, hcm,
    hahead hi₁.lawful.committed_of_retained (by simp)⟩
  have hnres : ¬ Happened s₂.history (.resultRetained c) :=
    hahead hi₁.lawful.committed_of_result (by simp)
  have hrest : ∀ {s₃}, Stage 1 t s₂ s₃ →
      (Observed s₂.history c → Happened s₃.history (.resultRetained c)) →
      WP t u (retireScope c report) (fun _ s' => Inv s' ∧ Handed s'.history c ∧
        Happened s'.history (.committed c report) ∧
        (∀ c', (s'.operations c').holder = some t ↔ (s.operations c').holder = some t) ∧
        Caused (fun ev => ev.terminating = true) t s s') s₃ := by
    intro s₃ hs₃ hres
    refine Protocol.wp_mono ?_ (wp_retireScope hi₂ hret hs₃ hres)
    rintro _ s' ⟨hi', hs', hhd⟩
    exact ⟨hi', hhd, hcm.mono hs'.suffix, fun c' => (hs'.holder c').trans (hhold c'),
      hcaused.trans (hs'.caused.mono fun _ hev => hev.1)⟩
  have hcr := hi₂.lawful.created_of_committed ⟨report, hcm⟩
  have hs₂ : Stage 0 t s₂ s₂ := Since.refl t s₂
  rw [act_bind]
  refine wp_stage (fun ev hev => by cases hev) rfl rfl (fun _ => rfl) (.inl rfl) hret.holder
    hs₂ fun s₃ hs₃ hr₃ hi₃ => ⟨trivial, fun a r s₄ he hi₄ hs₄ => ?_⟩
  obtain ⟨rfl, rfl⟩ := Prod.mk.inj (Option.some.inj he)
  split
  · next hsend =>
      have hob := (hi₃.results.sender.mp hsend).1
      rw [act_bind]
      refine wp_stage (fun ev hev => ?_) rfl rfl (fun _ => rfl) (.inl rfl) hret.holder
        hs₄ fun s₅ hs₅ hr₅ hi₅ => ⟨⟨hob.mono hr₅.suffix, fun r' heq => ?_⟩,
          fun a r s₆ he hi₆ hs₆ => ?_⟩
      · obtain rfl := hev
        exact ⟨rfl, Nat.le_refl _⟩
      · obtain rfl := Except.ok.inj heq
        have hcm₅ := hcm.mono hs₅.suffix
        obtain ⟨_, l, hsuf, -, -, -, hb, -⟩ := hi₅.lawful.of_happened hcm₅
        exact ⟨hb.mono hsuf, fun _ => hcm₅⟩
      have h₆ := hr₅.suffix.trans (exec_suffix he)
      rw [act_bind]
      refine wp_stage (fun ev hev => ?_) rfl rfl (fun _ => rfl) (.inr rfl) hret.holder
        hs₆.succ fun s₇ hs₇ hr₇ hi₇ => ⟨⟨?_, ⟨report, hcm.mono hs₇.suffix⟩, ?_⟩,
          fun a r s₈ he hi₈ hs₈ => ?_⟩
      · obtain rfl := hev
        exact ⟨rfl, Nat.le_refl _⟩
      · exact hob.mono (h₆.trans hr₇.suffix)
      · exact Stage.not_happened (hs₆.trans (hr₇.mono fun _ hf => hf.elim)) hret.holder rfl
          (by simp [Event.stage]) hnres
      obtain ⟨-, rfl⟩ := Prod.mk.inj (Option.some.inj he)
      exact hrest hs₈ fun _ => happened_cons.mpr (.inl rfl)
  · next hsend =>
      refine hrest hs₄.succ fun hob => absurd (hi₃.results.sender.mpr ⟨hob.mono hs₃.suffix, ?_⟩)
        hsend
      exact fun hx => absurd hx (Stage.not_happened hs₃ hret.holder rfl
        (by simp [Event.stage]) hnres)

/-! ### Under the operation lock -/

/-- What the result of a termination says, at the state where the lock is released. -/
structure ScopeOutcome (t : Tid) (c : ProcessScopeId) (v : CleanupResult) (h : History) :
    Prop where
  backed : ∀ r, v = .ok r → Backed h r
  verified : ∀ r, v = .ok r → r.allVerified = true → Happened h (.committed c r)
  committed : Committed h c → Handed h c ∧ ∃ r, v = .ok r ∧ Happened h (.committed c r)
  unknown : v = .error (.unknownScope c) → (t, .swept c (.error (.unknownScope c))) ∈ h

/-- A termination may return an error as long as it has not committed; it says that the scope is
unknown only if the sweep did. -/
theorem ScopeOutcome.error {e : TerminateError} (hn : ¬ Committed h c)
    (he : e = .unknownScope c → (t, .swept c (.error (.unknownScope c))) ∈ h) :
    ScopeOutcome t c (.error e) h :=
  ⟨nofun, nofun, fun hx => absurd hx hn, fun heq => he (Except.error.inj heq)⟩

/-- A termination may return an unverified report as long as it has not committed. -/
theorem ScopeOutcome.unverified (hn : ¬ Committed h c) (hb : Backed h report)
    (hv : report.allVerified = false) : ScopeOutcome t c (.ok report) h := by
  refine ⟨fun r heq => ?_, fun r heq hr => ?_, fun hx => absurd hx hn, nofun⟩
  · obtain rfl := Except.ok.inj heq
    exact hb
  · obtain rfl := Except.ok.inj heq
    rw [hv] at hr
    cases hr

/-- A committed report is a good result. -/
theorem ScopeOutcome.ok (hl : Lawful h) (hc : Happened h (.committed c report))
    (hh : Handed h c) : ScopeOutcome t c (.ok report) h := by
  obtain ⟨_, l, hs, -, -, -, hb, -⟩ := hl.of_happened hc
  refine ⟨fun r heq => ?_, fun r heq _ => ?_, fun _ => ⟨hh, report, rfl, hc⟩, nofun⟩
  · obtain rfl := Except.ok.inj heq
    exact hb.mono hs
  · obtain rfl := Except.ok.inj heq
    exact hc

/-- An outcome stays one, as long as no commit comes in between. -/
theorem ScopeOutcome.mono {v : CleanupResult} (hs : h <:+ h')
    (hc : Committed h' c → Committed h c) (ho : ScopeOutcome t c v h) :
    ScopeOutcome t c v h' := by
  refine ⟨fun r heq => (ho.backed r heq).mono hs, fun r heq hv => (ho.verified r heq hv).mono hs,
    fun hx => ?_, fun heq => hs.mem (ho.unknown heq)⟩
  obtain ⟨hh, r, hv, hr⟩ := ho.committed (hc hx)
  exact ⟨hh.mono hs, r, hv, hr.mono hs⟩

/-- What a termination leaves when it comes to release the lock. -/
def SerialDone (t : Tid) (c : ProcessScopeId) (s₀ : Inner) (v : CleanupResult) (s : Inner) :
    Prop :=
  (∀ c', (s.operations c').holder = some t ↔ (s₀.operations c').holder = some t) ∧
  Caused (fun ev => ev.terminating = true) t s₀ s ∧ ScopeOutcome t c v s.history

/-- A termination that ends without a commit has only drained. -/
theorem SerialDone.of_draining {v : CleanupResult} (hs : Draining t s₀ s)
    (ho : ScopeOutcome t c v s.history) : SerialDone t c s₀ v s :=
  ⟨hs.holder, hs.caused.mono fun _ => Event.terminating_of_draining, ho⟩

/-- Sorting the outcomes loses none and adds none. -/
theorem mem_sortByPid {outcomes : List (ProcessId × TerminationOutcome)}
    {po : ProcessId × TerminationOutcome} : po ∈ sortByPid outcomes ↔ po ∈ outcomes :=
  List.mem_insertionSort _

/-- Sorted outcomes of different processes are strictly ascending. -/
theorem sortByPid_ascending {outcomes : List (ProcessId × TerminationOutcome)}
    (hn : (outcomes.map Prod.fst).Nodup) :
    ((sortByPid outcomes).map Prod.fst).Pairwise (· < ·) := by
  have hperm : (sortByPid outcomes).map Prod.fst |>.Perm (outcomes.map Prod.fst) :=
    (List.perm_insertionSort _ outcomes).map Prod.fst
  have htot : Std.Total fun a b : ProcessId × TerminationOutcome => a.1 ≤ b.1 :=
    ⟨fun a b => Nat.le_total a.1 b.1⟩
  have htrans : IsTrans (ProcessId × TerminationOutcome) fun a b => a.1 ≤ b.1 :=
    ⟨fun _ _ _ => Nat.le_trans⟩
  have hsorted : (sortByPid outcomes).Pairwise fun a b => a.1 ≤ b.1 :=
    List.pairwise_insertionSort _ outcomes
  have hle : ((sortByPid outcomes).map Prod.fst).Pairwise (· ≤ ·) := List.pairwise_map.mpr hsorted
  exact hle.imp₂ (fun _ _ hle hne => Nat.lt_of_le_of_ne hle hne) (hperm.nodup_iff.mpr hn)

/-- **The report of a scope** whose processes all have pending outcomes. -/
theorem Inv.report_justified (hi : Inv s) (hd : Happened s.history (.drained c d))
    (hn : ¬ Committed s.history c) (hw : Workers c d [] s.history)
    {outcomes : List (ProcessId × TerminationOutcome)} (hperm : outcomes.Perm (s.pendingOf c)) :
    Backed s.history ⟨c, sortByPid outcomes⟩ ∧
    ((⟨c, sortByPid outcomes⟩ : ScopeTerminationReport).allVerified = true →
      Justified t (.committed c ⟨c, sortByPid outcomes⟩) s.history) := by
  have hsound := hi.pending_sound hd
  have hback : Backed s.history ⟨c, sortByPid outcomes⟩ := fun po hpo =>
    (hsound po (hperm.mem_iff.mp (mem_sortByPid.mp hpo))).2
  refine ⟨hback, fun hv => ⟨hn, rfl, hv, hback, ?_, d, hd, fun p => ⟨fun hp => ?_, fun hp => ?_⟩⟩⟩
  · exact sortByPid_ascending ((hperm.map Prod.fst).nodup_iff.mpr (s.pendingOf_nodup c))
  · obtain ⟨po, hpo, rfl⟩ := List.mem_map.mp hp
    exact (hsound po (hperm.mem_iff.mp (mem_sortByPid.mp hpo))).1
  · obtain ⟨po, hpo, rfl⟩ := List.mem_map.mp (hi.pending_complete hd hn hw hp)
    exact List.mem_map.mpr ⟨po, mem_sortByPid.mpr (hperm.mem_iff.mpr hpo), rfl⟩

/-- **The specification of a termination from its containment sweep on.** It ends with the error of
the sweep, with an unverified report, or with the commit of a verified one. -/
theorem wp_concludeScope {opts : TerminateOptions} (hh : (s₀.operations c).holder = some t)
    (hncm : ¬ Committed s₀.history c) (hd : Happened s.history (.drained c d))
    (hw : Workers c d [] s.history) (hs : Draining t s₀ s)
    (hu : Await (fun ev => ev.draining = true) t u s₀) :
    WP t u (concludeScope c opts) (SerialDone t c s₀) s := by
  have hnc : ∀ {s'}, Draining t s₀ s' → ¬ Committed s'.history c := fun hs' hx =>
    hncm (Draining.committed hs' hh hx)
  rw [concludeScope, act_bind]
  refine wp_since (fun ev hev => ?_) rfl (fun _ => rfl) hs hu fun s₁ hr₁ hs₁ hi₁ =>
    ⟨.of_guard rfl trivial, fun a r s₂ he hi₂ hs₂ => ?_⟩
  · obtain ⟨r, rfl⟩ := hev
    rfl
  have h₂ := hr₁.suffix.trans (exec_suffix he)
  simp only [exec] at he
  split at he
  case h_2 => cases he
  next result =>
  obtain ⟨rfl, rfl⟩ := Prod.mk.inj (Option.some.inj he)
  cases result with
  | error e =>
      refine .of_draining hs₂ (.error (hnc hs₂) fun heq => ?_)
      subst heq
      exact List.mem_cons_self
  | ok _ =>
      dsimp only
      rw [act_bind]
      refine wp_since (fun ev hev => by cases hev) rfl (fun _ => rfl) hs₂ hu
        fun s₃ hr₃ hs₃ hi₃ => ⟨.of_guard rfl trivial, fun a r s₄ he hi₄ hs₄ => ?_⟩
      have h₃ := h₂.trans hr₃.suffix
      simp only [exec] at he
      split at he
      case h_2 => cases he
      next outcomes =>
      split at he
      case isFalse => cases he
      next hperm =>
      obtain ⟨rfl, rfl⟩ := Prod.mk.inj (Option.some.inj he)
      have hsound : SoundOutcomes s₃.history d outcomes := fun po hpo =>
        hi₃.pending_sound (hd.mono h₃) po ((List.isPerm_iff.mp hperm).mem_iff.mp hpo)
      refine wp_seq _ (wp_reobserve hsound (Since.refl t s₃) (hu.since hs₃).calm)
        fun observed s₅ hreobserved => ?_
      obtain ⟨hs₅, -, hobs⟩ := hreobserved
      have hs₅' : Draining t s₀ s₅ := hs₃.trans (Draining.of_calm hs₅)
      rw [act_bind]
      refine wp_since (fun ev hev => by cases hev) rfl (fun _ => rfl) hs₅' hu
        fun s₆ hr₆ hs₆ hi₆ => ⟨⟨fun c' hc' => ?_, d, ?_, ?_, ?_⟩, fun a r s₇ he hi₇ hs₇ => ?_⟩
      · obtain rfl := Option.some.inj hc'
        exact (hs₆.holder c).mpr hh
      · exact hd.mono (h₃.trans (hs₅.suffix.trans hr₆.suffix))
      · exact hi₆.pending_of_not_committed (hnc hs₆)
      · exact SoundOutcomes.mono hr₆.suffix hobs
      have h₇ := h₃.trans (hs₅.suffix.trans (hr₆.suffix.trans (exec_suffix he)))
      simp only [exec] at he
      split at he
      case h_2 => cases he
      next merged =>
      split at he
      case isFalse => cases he
      next hperm =>
      obtain ⟨rfl, rfl⟩ := Prod.mk.inj (Option.some.inj he)
      obtain ⟨hback, hj⟩ := hi₇.report_justified (t := t) (hd.mono h₇) (hnc hs₇) (hw.mono h₇)
        (List.isPerm_iff.mp hperm)
      split
      · next hv =>
          refine wp_seq _ (wp_commit ((hs₇.holder c).mpr hh) (hj hv))
            fun _ s' hcommitted => ?_
          obtain ⟨hi', hhd, hcm, hhold, hcaused⟩ := hcommitted
          refine ⟨fun c' => (hhold c').trans (hs₇.holder c'), ?_, .ok hi'.lawful hcm hhd⟩
          exact (hs₇.caused.mono fun _ => Event.terminating_of_draining).trans hcaused
      · next hv => exact .of_draining hs₇ (.unverified (hnc hs₇) hback (Bool.eq_false_iff.mpr hv))

/-- **The specification of `terminate_scope_operation` under the lock** of a scope that is not
committed. So there is no report of it in the map, and the scope is in the registry if it was
created. -/
theorem wp_terminateScopeSerialized {opts : TerminateOptions}
    (hh : (s.operations c).holder = some t) (hncm : ¬ Committed s.history c)
    (hcr : Created s.history c) (hd : Droppable t s) (hu : Abandonable t u s) :
    WP t u (terminateScopeSerialized c opts) (SerialDone t c s) s := by
  have hu' := Draining.await hu hd
  have hnc : ∀ {s'}, Draining t s s' → ¬ Committed s'.history c := fun hs' hx =>
    hncm (Draining.committed hs' hh hx)
  rw [terminateScopeSerialized, act_bind]
  refine wp_since (fun ev hev => ?_) rfl (fun _ => rfl) (Since.refl t s) hu'
    fun s₁ hr₁ hs₁ hi₁ => ⟨.of_guard rfl trivial, fun a r s₂ he hi₂ hs₂ => ?_⟩
  · obtain rfl := hev
    rfl
  obtain ⟨rfl, rfl⟩ := Prod.mk.inj (Option.some.inj he)
  cases hrep : s₁.reportOf c with
  | some report =>
      obtain ⟨rr, hrr, -⟩ := Option.map_eq_some_iff.mp hrep
      obtain ⟨r, -, hr⟩ := hi₁.commits.report hrr
      exact absurd ⟨r, hr⟩ (hnc hs₁)
  | none =>
      dsimp only
      rw [act_bind]
      refine wp_since (fun ev hev => ?_) rfl (fun _ => rfl) hs₂ hu'
        fun s₃ hr₃ hs₃ hi₃ => ⟨⟨fun c' hc' => ?_, trivial⟩, fun a r s₄ he hi₄ hs₄ => ?_⟩
      · obtain ⟨d, rfl⟩ := hev
        rfl
      · obtain rfl := Option.some.inj hc'
        exact (hs₃.holder c).mpr hh
      have heq : s₃.drain t c = (r, s₄) := Option.some.inj he
      cases r with
      | none =>
          have hrm : ¬ Removed s₃.history c := fun hx =>
            hnc hs₃ (hi₃.lawful.committed_of_removed hx)
          obtain ⟨sc, hsc⟩ := (hi₃.catalogue.registered c).mpr ⟨hcr.mono hs₃.suffix, hrm⟩
          rw [Inner.drain_none heq] at hsc
          cases hsc
      | some x =>
          obtain ⟨events, live⟩ := x
          obtain ⟨hdis, hfut, d, hdr, hin, hcov⟩ := hi₃.drain_result heq
          have hu₄ := hu'.since hs₄
          have hh₄ := (hs₄.holder c).mpr hh
          refine wp_seq _ (wp_dispatch hdis (Since.refl t s₄) hu₄.calm) fun _ s₅ ⟨hs₅, _⟩ => ?_
          refine wp_seq _ (wp_startWorkers (fun po hpo =>
            FutureFor.mono hs₅.suffix (hfut po hpo)) hs₅ hu₄.calm)
            fun ws s₆ ⟨hs₆, _, hof, hstarted⟩ => ?_
          have hws : Workers c d ws s₆.history := by
            refine ⟨fun w hw => ?_, fun p hp => ?_⟩
            · obtain ⟨po, hpo, hx⟩ := hof w hw
              exact ⟨po.1, hin po hpo, hx⟩
            · rcases hcov p hp with hev | ⟨po, hpo, rfl⟩
              · exact .inl (hev.mono hs₆.suffix)
              · exact .inr (.inr (hstarted po hpo))
          refine wp_seq _ (wp_joinWorkers rfl hws hh₄ (hnc hs₄) hdr (Draining.of_calm hs₆) hu₄)
            fun ok s₇ ⟨hs₇, hall⟩ => ?_
          split
          · next hok =>
              exact wp_concludeScope hh hncm (hdr.mono hs₇.suffix) (hall hok) (hs₄.trans hs₇) hu'
          · exact .of_draining (hs₄.trans hs₇) (.error (hnc (hs₄.trans hs₇)) nofun)

/-! ### With the lock taken and released -/

/-- A task without a spawned process and without an operation lock. -/
structure Idle (t : Tid) (s : Inner) : Prop where
  spawned : ∀ c r, (t, .spawnReturned c r) ∉ s.history
  free : ∀ c, (s.operations c).holder ≠ some t

/-- An idle task can be dropped. -/
theorem Idle.droppable (hi : Idle t s) : Droppable t s :=
  ⟨hi.spawned, fun c hh => absurd hh (hi.free c)⟩

/-- A task that does not spawn stays idle. -/
theorem Idle.since {own : Event → Prop} (hn : ∀ c r, ¬ own (.spawnReturned c r))
    (hs : Since own t s s') (hi : Idle t s) : Idle t s' :=
  ⟨fun c r hm => hi.spawned c r (hs.own_mem (hn c r) hm),
    fun c hh => hi.free c ((hs.holder c).mp hh)⟩

/-- The events of a task that terminates one scope after the other. -/
def Event.closing (cs : List ProcessScopeId) (ev : Event) : Prop :=
  ev.terminating = true ∨ ∃ c ∈ cs, ev = .acquired c ∨ ev = .released c

/-- The return of a spawn closes no scope. -/
theorem Event.not_closing_spawnReturned (cs : List ProcessScopeId) (c : ProcessScopeId)
    (r : Except SpawnError OsIdentity) : ¬ Event.closing cs (.spawnReturned c r) := by
  rintro (hx | ⟨_, -, hx | hx⟩) <;> cases hx

/-- **The specification of `terminate_scope_operation`**, up to the release of the lock. -/
theorem wp_terminateScopeOperation {opts : TerminateOptions} (hidle : Idle t s)
    (hcr : Created s.history c) (hu : Abandonable t u s) :
    WP t u (terminateScopeOperation c opts) (fun v s' => Inv s' ∧ Idle t s' ∧
      Caused (Event.closing [c]) t s s' ∧ ScopeOutcome t c v s'.history) s := by
  rw [terminateScopeOperation, act_bind]
  refine wp_act (fun _ => rfl) fun s₁ hr₁ hi₁ ht₁ => ?_
  have hidle₁ := hidle.since (fun _ _ hf => hf) hr₁
  refine ⟨fun _ => hu s₁ hr₁.suffix hi₁ ht₁ hidle₁.droppable, .of_guard rfl (hcr.mono hr₁.suffix),
    fun a r s₂ he hi₂ => ?_⟩
  rw [exec] at he
  split at he
  case isFalse => cases he
  next hfree =>
  obtain ⟨rfl, heq⟩ := Prod.mk.inj (Option.some.inj he)
  have hhist : s₂.history = (t, .acquired c) :: s₁.history := by
    rw [← heq]
    rfl
  have hh₂ : (s₂.operations c).holder = some t := by
    rw [← heq]
    simp [Inner.lockOperation]
  have hother : ∀ c', c' ≠ c → (s₂.operations c').holder ≠ some t := fun c' hne => by
    rw [← heq]
    simpa [Inner.lockOperation, Function.update_of_ne hne] using hidle₁.free c'
  have hcaused : Caused (Event.closing [c]) t s s₂ :=
    (hr₁.caused.mono fun _ hf => hf.elim).trans
      (.one (.inr ⟨c, List.mem_singleton_self c, .inl rfl⟩) hhist)
  have hns₂ : ∀ c' r', (t, .spawnReturned c' r') ∉ s₂.history := fun c' r' hm =>
    hidle.spawned c' r' (hcaused.own_mem (Event.not_closing_spawnReturned _ c' r') hm)
  have hrelease : ∀ {s₃ v}, SerialDone t c s₂ v s₃ →
      WP t u (do act (.unlockOperation c); return v) (fun v s' => Inv s' ∧ Idle t s' ∧
        Caused (Event.closing [c]) t s s' ∧ ScopeOutcome t c v s'.history) s₃ := by
    rintro s₃ v ⟨hhold, hcd, hout⟩
    have hh₃ := (hhold c).mpr hh₂
    rw [act_bind]
    refine wp_act (fun _ => rfl) fun s₄ hr₄ hi₄ ht₄ => ?_
    have hcm : Committed s₄.history c → Committed s₃.history c := by
      rintro ⟨r, hr⟩
      exact ⟨r, hr₄.frozen hh₃ rfl (fun hf => hf) hr⟩
    have hout₄ := hout.mono hr₄.suffix hcm
    have hns₄ : ∀ c' r', (t, .spawnReturned c' r') ∉ s₄.history := fun c' r' hm =>
      hns₂ c' r' (hcd.own_mem (by simp [Event.terminating, Event.draining, Event.calm])
        (Since.own_rely hr₄ hm))
    refine ⟨fun hx => (by cases hx),
      ⟨fun c' hc' => ?_, released_of_none hns₄, fun hx => (hout₄.committed hx).1⟩,
      fun a r s₅ he hi₅ => ?_⟩
    · obtain rfl := Option.some.inj hc'
      exact (hr₄.holder c).mpr hh₃
    obtain ⟨-, rfl⟩ := Prod.mk.inj (Option.some.inj he)
    refine ⟨hi₅, ⟨fun c' r' hm => ?_, fun c' hx => ?_⟩, ?_, hout₄.mono (List.suffix_cons _ _) ?_⟩
    · rcases List.mem_cons.mp hm with heq | hm
      · cases heq
      · exact hns₄ c' r' hm
    · by_cases hcc : c' = c
      · subst hcc
        simp [Inner.unlockOperation] at hx
      · have hx₄ : (s₄.operations c').holder = some t := by
          simpa [Inner.unlockOperation, Function.update_of_ne hcc] using hx
        exact hother c' hcc ((hhold c').mp ((hr₄.holder c').mp hx₄))
    · have hrel : Caused (Event.closing [c]) t s₄ (s₄.unlockOperation t c) :=
        .one (.inr ⟨c, List.mem_singleton_self c, .inr rfl⟩) rfl
      exact ((hcaused.trans (hcd.mono fun _ => .inl)).trans
        (hr₄.caused.mono fun _ hf => hf.elim)).trans hrel
    · intro hx
      refine (committed_cons.mp hx).resolve_left ?_
      rintro ⟨r, heq⟩
      cases heq
  cases hser : (s₁.operations c).serial with
  | some report =>
      have hcm := hi₁.commits.serial.mp hser
      have hhd := hi₁.handed_of_free hfree ⟨report, hcm⟩
      have hsuf : s₁.history <:+ s₂.history := by
        rw [hhist]
        exact List.suffix_cons _ _
      exact hrelease ⟨fun _ => Iff.rfl, .refl t s₂, .ok hi₂.lawful (hcm.mono hsuf)
        (hhd.mono hsuf)⟩
  | none =>
      have hncm : ¬ Committed s₂.history c := by
        rintro ⟨r, hr⟩
        rw [hhist] at hr
        rcases happened_cons.mp hr with heq | hr
        · cases heq
        · rw [hi₁.commits.serial.mpr hr] at hser
          cases hser
      have hdrop : Droppable t s₂ := by
        refine ⟨hns₂, fun c' hh hx => ?_⟩
        by_cases hcc : c' = c
        · subst hcc
          exact absurd hx hncm
        · exact absurd hh (hother c' hcc)
      refine wp_seq _ (wp_terminateScopeSerialized hh₂ hncm (hcr.mono hcaused.suffix) hdrop
        (hu.mono hcaused.suffix)) fun v s₃ hdone => hrelease hdone

end Shepherd
