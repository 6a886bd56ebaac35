import Shepherd.Supervisor.Soundness

/-!
# Verified Outcomes

What the supervisor says about exits rests on evidence. Wherever a verified outcome of a
process is held, and whenever one is returned, a `backend.wait` for the OS identity of the
process has returned `Ok`. A committed report covers exactly the processes that were tracked
when the scope began to drain, and all other processes of the scope have verified exits of
their own. No store goes back from a verified outcome to an unverified one.
-/

open Std

namespace Shepherd

open Conc

variable {t : Tid} {s s' : Inner} {c : ProcessScopeId} {p : ProcessId} {os : OsIdentity}
  {h h' : History} {e : ProcessExit} {v : Ret}

/-! ### A run -/

/-- A run whose last configuration meets a predicate. -/
theorem exists_reachable {ls : List (Label Answer Call)} {P : Config Res Ret Inner → Bool}
    (hP : (supervisor.follow (Machine.initial Inner.new) ls).any P = true) :
    ∃ cfg, Reachable cfg ∧ P cfg = true := by
  cases hf : supervisor.follow (Machine.initial Inner.new) ls with
  | none =>
      rw [hf] at hP
      cases hP
  | some cfg =>
      rw [hf] at hP
      exact ⟨cfg, Machine.Reachable.follow .initial hf, hP⟩

/-- Steps of a task without a choice. -/
def steps (t : Tid) (n : ℕ) : List (Label Answer Call) :=
  List.replicate n (.run t .go)

/-- A process is spawned in a new scope and exits; its monitor records the exit. -/
def spawnAndExit : List (Label Answer Call) :=
  [.start (.createScope false)] ++ steps 0 1 ++
  [.start (.spawn 1 (.new []) false)] ++ steps 1 6 ++
  [.run 1 (.spawned (.ok ⟨100, .unavailable⟩))] ++ steps 1 2 ++
  [.run 1 (.instant 0)] ++ steps 1 1 ++ [.run 1 (.output none)] ++ steps 1 7 ++
  steps 2 1 ++ [.run 2 (.waited (some ⟨some 0, none, false⟩))] ++ steps 2 1

/-- The scope is terminated, and its report is committed. -/
def commitScope : List (Label Answer Call) :=
  [.start (.terminateScope 1 .default)] ++ steps 3 6 ++ steps 4 1 ++ [.run 3 (.joined 4)] ++
  steps 3 1 ++ [.run 3 (.cleaned (.ok ())), .run 3 (.order [(1, .exitedNaturally)]),
    .run 3 (.order [(1, .exitedNaturally)])] ++ steps 3 9

/-- The report of that scope. -/
def committedReport : ScopeTerminationReport :=
  ⟨1, [(1, .exitedNaturally)]⟩

/-- The registry holds a verified exit of the process, in the scope. -/
def recordedIn (c : ProcessScopeId) (p : ProcessId) (cfg : Config Res Ret Inner) : Bool :=
  (cfg.shared.registry.get c).any fun sc => (sc.exitOf p).any fun e => e.outcome.isVerified

set_option maxRecDepth 10000 in
/-- The schedule of a commit: the exit is recorded before it, and its last event is the return of
the committed report, which the lock keeps. -/
theorem commitScope_commits :
    (supervisor.follow (Machine.initial Inner.new) spawnAndExit).any (fun cfg =>
      recordedIn 1 1 cfg && (supervisor.follow cfg commitScope).any fun cfg' =>
        cfg'.shared.history.head? =
          some (3, .returned (.scopeTerminated 1 (.ok committedReport))) &&
        (cfg'.shared.operations 1).serial = some committedReport) = true := by
  decide +kernel

/-- The run, at the state where the exit is recorded and at the state after the commit. -/
theorem exists_committed : ∃ cfg cfg', Reachable cfg ∧ Reachable cfg' ∧
    supervisor.follow cfg commitScope = some cfg' ∧ recordedIn 1 1 cfg = true ∧
    cfg'.shared.history.head? =
      some (3, .returned (.scopeTerminated 1 (.ok committedReport))) ∧
    (cfg'.shared.operations 1).serial = some committedReport := by
  obtain ⟨cfg, hr, hP⟩ := exists_reachable commitScope_commits
  obtain ⟨hrec, hP⟩ := Bool.and_eq_true_iff.mp hP
  obtain ⟨cfg', hf, hP⟩ := (Option.any_eq_true _ _).mp hP
  obtain ⟨h₁, h₂⟩ := Bool.and_eq_true_iff.mp hP
  exact ⟨cfg, cfg', hr, hr.follow hf, hf, hrec, of_decide_eq_true h₁, of_decide_eq_true h₂⟩

/-! ### Soundness -/

/-- `backend.wait` returned `Ok` for the OS identity of the process. -/
def ObservedExit (h : History) (p : ProcessId) : Prop :=
  ∃ c os, Happened h (.attached c p os) ∧ WaitOk h os

/-- A report has a verified outcome of the process. -/
def ScopeTerminationReport.Verifies (r : ScopeTerminationReport) (p : ProcessId) : Prop :=
  ∃ po ∈ r.outcomes, po.1 = p ∧ po.2.isVerified = true

/-- A store of the shared state holds a verified outcome of the process. -/
inductive HoldsVerified (s : Inner) (p : ProcessId) : Prop
  | registry (c : ProcessScopeId) (sc : ProcessScope) (proc : Process) (e : ProcessExit) :
      s.registry.get c = some sc → sc.get p = some proc → proc.exit = some e → e.Verified →
      HoldsVerified s p
  | waiters (e : ProcessExit) : s.waiters.tryGet p = some e → e.Verified → HoldsVerified s p
  | channel (ch : Channel) (e : ProcessExit) : s.waiters.slots.cells ch = some e →
      ch.pid = p → e.Verified → HoldsVerified s p
  | pending (c : ProcessScopeId) (o : TerminationOutcome) : s.pending c p = some o →
      o.isVerified = true → HoldsVerified s p
  | operation (c : ProcessScopeId) (r : ScopeTerminationReport) :
      (s.operations c).serial = some r → r.Verifies p → HoldsVerified s p
  | report (c : ProcessScopeId) (r : ScopeTerminationReport) : s.reportOf c = some r →
      r.Verifies p → HoldsVerified s p
  | published (c : ProcessScopeId) (r : ScopeTerminationReport) :
      s.cleanup c = some (.ok r) → r.Verifies p → HoldsVerified s p

/-- The value of a return says that the process has a verified outcome. -/
def Ret.Verifies (p : ProcessId) : Ret → Prop
  | .waited q (.ok e) | .terminated q (.ok e) => q = p ∧ e.Verified
  | .worker _ q (.ok e) => q = p ∧ e.Verified
  | .scopeTerminated _ (.ok r) | .finished _ (.ok r) | .cleanupWaited _ (.ok r) => r.Verifies p
  | .shutdown (.ok reports) => ∃ r ∈ reports, r.Verifies p
  | _ => False

/-- A process that a backed report verifies has evidence. -/
theorem Backed.evidence {r : ScopeTerminationReport} (hb : Backed h r) (hr : r.Verifies p) :
    HasEvidence h p := by
  obtain ⟨po, hpo, rfl, hv⟩ := hr
  exact hb po hpo hv

/-- A committed report is backed. -/
theorem Lawful.backed_of_committed (hl : Lawful h) {r : ScopeTerminationReport}
    (hc : Happened h (.committed c r)) : Backed h r := by
  obtain ⟨_, l, hs, -, -, -, hb, -⟩ := hl.of_happened hc
  exact hb.mono hs

/-- Whatever is held has evidence. -/
theorem Inv.evidence_of_held (hi : Inv s) (hh : HoldsVerified s p) : HasEvidence s.history p := by
  cases hh with
  | registry _ _ _ _ hsc hp he hv => exact hi.processes.evidence_of_exit ⟨_, hsc, hp⟩ he hv
  | waiters _ hg hv => exact hi.signals.evidence_of_tryGet hi.lawful hg hv
  | channel _ _ hc hp hv =>
      subst hp
      exact hi.lawful.evidence_of_signalled (hi.signals.cell hc) hv
  | pending _ _ hp hv => exact (hi.pendings.verified hp).mp hv
  | operation _ _ hs hr =>
      exact (hi.lawful.backed_of_committed (hi.commits.serial.mp hs)).evidence hr
  | report _ _ hs hr =>
      exact (hi.lawful.backed_of_committed (hi.committed_of_reportOf hs)).evidence hr
  | published _ _ hs hr => exact (hi.cleanup_sound hs _ rfl).1.evidence hr

/-- Whatever is returned has evidence. -/
theorem JustifiedReturn.evidence (hl : Lawful h) (hj : JustifiedReturn t v h)
    (hv : v.Verifies p) : HasEvidence h p := by
  simp only [Ret.Verifies] at hv
  split at hv
  · obtain ⟨rfl, hver⟩ := hv
    exact hj.1 _ rfl hver
  · obtain ⟨rfl, hver⟩ := hv
    exact (hj.1 _ rfl).1 hver
  · obtain ⟨rfl, hver⟩ := hv
    exact (hj.2 _ rfl).1 hver
  · exact (hj.1.1 _ rfl).1.evidence hv
  · exact (hj.1 _ rfl).1.evidence hv
  · exact (hj _ rfl).1.evidence hv
  · obtain ⟨r, hr, hv⟩ := hv
    exact (hl.backed_of_committed (hj.2.2.1 r hr)).evidence hv
  · exact hv.elim

/-- **Verified outcomes are sound**: in every reachable state, whatever holds a verified
outcome of a process, and whatever has returned one, a `backend.wait` for the OS identity of
the process has returned `Ok` before. -/
theorem verified_outcomes_are_sound {cfg : Config Res Ret Inner} (hr : Reachable cfg) :
    (∀ p, HoldsVerified cfg.shared p → ObservedExit cfg.shared.history p) ∧
    ∀ newer t v older p, cfg.shared.history = newer ++ (t, .returned v) :: older →
      v.Verifies p → ObservedExit older p := by
  have hi := inv_of_reachable hr
  refine ⟨fun p hh => hi.lawful.waitOk_of_evidence (hi.evidence_of_held hh), ?_⟩
  intro newer t v older p heq hv
  have hl := hi.lawful
  rw [heq] at hl
  have hlo : Lawful older := hl.of_suffix ⟨newer ++ [(t, .returned v)], by simp⟩
  have hj : JustifiedReturn t v older := Chronicle.justified hl
  exact hlo.waitOk_of_evidence (hj.evidence hlo hv)

/-- The outcome that was returned rests on a wait of the backend. -/
theorem committed_outcome_is_sound : ∃ cfg newer older, Reachable cfg ∧
    cfg.shared.history =
      newer ++ (3, .returned (.scopeTerminated 1 (.ok committedReport))) :: older ∧
    committedReport.Verifies 1 ∧ ObservedExit older 1 := by
  obtain ⟨_, cfg, -, hr, -, -, hh, -⟩ := exists_committed
  obtain ⟨older, heq⟩ := List.head?_eq_some_iff.mp hh
  have hv : committedReport.Verifies 1 :=
    ⟨(1, .exitedNaturally), by simp [committedReport], rfl, rfl⟩
  exact ⟨cfg, [], older, hr, heq, hv, (verified_outcomes_are_sound hr).2 [] 3 _ older 1 heq hv⟩

/-! ### Complete reports -/

/-- What a committed report says: it lists, in strictly ascending order, exactly the
processes that the scope tracked when it began to drain, all verified; and every other
process of the scope had a verified exit by then. -/
def ExactReport (h : History) (c : ProcessScopeId) (r : ScopeTerminationReport) : Prop :=
  r.scope = c ∧ r.allVerified = true ∧ (r.outcomes.map Prod.fst).Pairwise (· < ·) ∧
  ∃ newer older t tracked, h = newer ++ (t, .drained c tracked) :: older ∧
    ¬ Drained older c ∧ (∀ p, p ∈ r.outcomes.map Prod.fst ↔ p ∈ tracked) ∧
    ∀ p os, Happened h (.attached c p os) → p ∉ r.outcomes.map Prod.fst → HasEvidence older p

/-- **A committed report is exact**: it lists the processes that were tracked when the scope began
to drain, in order, and every process ever attached has evidence. -/
theorem Lawful.exactReport (hl : Lawful h) {r : ScopeTerminationReport}
    (hc : Happened h (.committed c r)) : ExactReport h c r := by
  obtain ⟨_, l, hs, -, hsc, hv, -, hp, tracked, hd, hiff⟩ := hl.of_happened hc
  obtain ⟨t, hm⟩ := hd.mono hs
  obtain ⟨newer, older, heq, hj⟩ := hl.of_mem hm
  refine ⟨hsc, hv, hp, newer, older, t, tracked, heq, hj.2.2.1, hiff, fun p os ha hn => ?_⟩
  have hat : Happened older (.attached c p os) := by
    obtain ⟨t', hm'⟩ := ha
    rw [heq] at hm'
    rcases List.mem_append.mp hm' with hm' | hm'
    · obtain ⟨l₁, l₂, rfl⟩ := List.append_of_mem hm'
      rw [heq, List.append_assoc, List.cons_append] at hl
      have hja := Chronicle.justified hl
      exact absurd ⟨tracked, t, by simp⟩ hja.2.2.1
    · rcases List.mem_cons.mp hm' with hx | hm'
      · cases hx
      · exact ⟨t', hm'⟩
  rcases hj.2.2.2.2 p os hat with hx | hx
  · exact absurd ((hiff p).mpr hx) hn
  · exact hx

/-- **No cleanup evidence is lost or invented**: a report that is stored behind an operation
lock is exact, a scope leaves the registry only when there is one, and then every process
ever attached to the scope has a recorded verified exit. -/
theorem committed_reports_are_exact {cfg : Config Res Ret Inner} (hr : Reachable cfg) :
    (∀ c r, (cfg.shared.operations c).serial = some r → ExactReport cfg.shared.history c r ∧
      ∀ p os, Happened cfg.shared.history (.attached c p os) →
        HasEvidence cfg.shared.history p) ∧
    ∀ c, Created cfg.shared.history c → cfg.shared.registry.get c = none →
      ∃ r, (cfg.shared.operations c).serial = some r := by
  have hi := inv_of_reachable hr
  refine ⟨fun c r hs => ?_, fun c hc hg => ?_⟩
  · have hcm := hi.commits.serial.mp hs
    exact ⟨hi.lawful.exactReport hcm, fun p os ha => hi.lawful.evidence_of_committed ⟨r, hcm⟩ ha⟩
  · have hrm : Removed cfg.shared.history c := by
      by_contra hn
      obtain ⟨sc, hsc⟩ := (hi.catalogue.registered c).mpr ⟨hc, hn⟩
      rw [hg] at hsc
      cases hsc
    obtain ⟨r, hcm⟩ := hi.lawful.committed_of_removed hrm
    exact ⟨r, hi.commits.serial.mpr hcm⟩

/-- The report behind the lock is exact. -/
theorem committed_report_is_exact : ∃ cfg, Reachable cfg ∧
    (cfg.shared.operations 1).serial = some committedReport ∧
    ExactReport cfg.shared.history 1 committedReport := by
  obtain ⟨_, cfg, -, hr, -, -, -, hs⟩ := exists_committed
  exact ⟨cfg, hr, hs, ((committed_reports_are_exact hr).1 1 _ hs).1⟩

/-! ### No way back -/

/-- An exit of the process was recorded in a store as verified, or signalled as verified. -/
def RecordedVerified (s : Inner) (p : ProcessId) : Prop :=
  HoldsVerified s p ∨ ∃ e, Happened s.history (.exitSignalled p e) ∧ e.Verified

/-- A verified exit in any store has evidence. -/
theorem Inv.evidence_of_recorded (hi : Inv s) (hr : RecordedVerified s p) :
    HasEvidence s.history p := by
  rcases hr with hh | ⟨e, he, hv⟩
  · exact hi.evidence_of_held hh
  · exact hi.lawful.evidence_of_signalled he hv

/-- **Evidence is never downgraded**, between a reachable state and any later one. -/
theorem evidence_is_never_downgraded {cfg cfg' : Config Res Ret Inner} (hr : Reachable cfg)
    {ls : List (Label Answer Call)} (hf : supervisor.follow cfg ls = some cfg') :
    (∀ p, RecordedVerified cfg.shared p →
      (∀ c sc proc e, cfg'.shared.registry.get c = some sc → sc.get p = some proc →
        proc.exit = some e → e.Verified) ∧
      (∀ c o, cfg'.shared.pending c p = some o → o.isVerified = true) ∧
      (∀ e, cfg'.shared.waiters.tryGet p = some e → e.Verified) ∧
      ∀ newer t e older, cfg'.shared.history = newer ++ (t, .exitSignalled p e) :: older →
        cfg.shared.history <:+ older → e.Verified) ∧
    ∀ c r, cfg.shared.cleanup c = some (.ok r) → r.allVerified = true →
      cfg'.shared.cleanup c = some (.ok r) := by
  have hi := inv_of_reachable hr
  have hi' := inv_of_reachable (hr.follow hf)
  have hsuf := follow_suffix hf
  refine ⟨fun p hp => ?_, fun c r hc hv => hi'.results.final
    ((hi.results.published hc).mono hsuf) hv⟩
  have hev := hi.evidence_of_recorded hp
  have hev' := hev.mono hsuf
  refine ⟨fun c sc proc e hsc hget he => ?_, fun c o ho => (hi'.pendings.verified ho).mpr hev',
    fun e hg => by_contra fun hv => hi'.signals.unverified hg hv hev', ?_⟩
  · obtain ⟨e', he', hv⟩ := hi'.processes.evidence ⟨sc, hsc, hget⟩ hev'
    obtain rfl := Option.some.inj (he.symm.trans he')
    exact hv
  · intro newer t e older heq hso
    have hl := hi'.lawful
    rw [heq] at hl
    have hj : Justified t (.exitSignalled p e) older := Chronicle.justified hl
    exact hj.2.1.mpr (hev.mono hso)

/-- The exit that the registry held before the commit is still verified in the waiters after it. -/
theorem recorded_evidence_stays : ∃ cfg cfg', Reachable cfg ∧
    supervisor.follow cfg commitScope = some cfg' ∧ RecordedVerified cfg.shared 1 ∧
    ∀ e, cfg'.shared.waiters.tryGet 1 = some e → e.Verified := by
  obtain ⟨cfg, cfg', hr, -, hf, hrec, -, -⟩ := exists_committed
  obtain ⟨sc, hsc, hex⟩ := (Option.any_eq_true _ _).mp hrec
  obtain ⟨e, he, hv⟩ := (Option.any_eq_true _ _).mp hex
  obtain ⟨proc, hp, hpe⟩ := ProcessScope.exitOf_eq_some.mp he
  have hrv : RecordedVerified cfg.shared 1 := .inl (.registry 1 sc proc e hsc hp hpe hv)
  exact ⟨cfg, cfg', hr, hf, hrv, ((evidence_is_never_downgraded hr hf).1 1 hrv).2.2.1⟩

end Shepherd
