import Shepherd.Supervisor.History

/-!
# The Supervisor Invariant

`Inv s` says that the history is lawful and that every store of the shared state is what
the history makes of it. It is a conjunction of groups, each about one or two stores:

* `Catalogue` — the registry and the operation map hold the scopes they should;
* `Processes` — which processes are tracked, with which exits, and which scopes are open;
* `Signals` — the waiter table shows signalled exits, and never an unverified one of a
  process with evidence;
* `Pendings` — the pending outcomes of a draining scope;
* `Commits` — operation locks, committed reports and the report history;
* `Results` — cleanup channels and the history of observed scopes;
* `Flags` — the two flags and the sampler mutex;
* `Tasks` — identifiers of tasks, lock holders and results of workers.

A group only speaks of some kinds of events. The lemma `log` of a group says that any other
event leaves it alone.
-/

open Std

namespace Shepherd

open Conc

variable {t : Tid} {ev : Event} {h : History} {c : ProcessScopeId} {p : ProcessId}
  {os : OsIdentity} {e : ProcessExit}

/-! ### Scopes and operation locks -/

/-- The registry holds the scopes created and not removed, the operation map those not
retired, and the counters are ahead of all identifiers. -/
structure Catalogue (h : History) (r : ScopeRegistry)
    (operations : ExtTreeMap ProcessScopeId Unit) : Prop where
  registered : ∀ c, (∃ sc, r.get c = some sc) ↔ Created h c ∧ ¬ Removed h c
  operation : ∀ c, operations.contains c = true ↔
    Created h c ∧ ¬ Happened h (.operationRetired c)
  scopes_le : ∀ c, Created h c → c ≤ r.nextScope
  processes_le : ∀ c p os, Happened h (.attached c p os) → p ≤ r.nextProcess

/-- The events that matter to the catalogue. -/
def Event.forCatalogue : Event → Bool
  | .scopeCreated _ _ | .attached _ _ _ | .scopeRemoved _ _ | .operationRetired _ => true
  | _ => false

/-- An event that is not about the catalogue leaves it alone. -/
theorem Catalogue.log {r : ScopeRegistry} {ops : ExtTreeMap ProcessScopeId Unit}
    (hi : Catalogue h r ops) (hev : ev.forCatalogue = false) :
    Catalogue ((t, ev) :: h) r ops := by
  have hc : ∀ c, Created ((t, ev) :: h) c ↔ Created h c := fun c => by
    rw [created_cons, or_iff_right]
    rintro ⟨b, rfl⟩
    cases hev
  have hr : ∀ c, Removed ((t, ev) :: h) c ↔ Removed h c := fun c => by
    rw [removed_cons, or_iff_right]
    rintro ⟨l, rfl⟩
    cases hev
  refine ⟨fun c => ?_, fun c => ?_, fun c hcr => hi.scopes_le c ((hc c).mp hcr),
    fun c p os ha => ?_⟩
  · rw [hc, hr, hi.registered]
  · rw [hc, hi.operation, happened_cons, or_iff_right]
    rintro rfl
    cases hev
  · refine hi.processes_le c p os ((happened_cons.mp ha).resolve_left ?_)
    rintro rfl
    cases hev

/-! ### Processes -/

/-- The process is tracked in a scope of the registry. -/
def Tracked (r : ScopeRegistry) (c : ProcessScopeId) (p : ProcessId) (proc : Process) :
    Prop :=
  ∃ sc, r.get c = some sc ∧ sc.get p = some proc

/-- The registry tracks the attached processes that have no evidence yet, with the exits
that were recorded. A scope is open until it drains, and gets no process after that. -/
structure Processes (h : History) (r : ScopeRegistry) : Prop where
  attached : ∀ {c p proc}, Tracked r c p proc → Happened h (.attached c p proc.os)
  tracked : ∀ {c p os}, Happened h (.attached c p os) →
    HasEvidence h p ∨ ∃ proc, Tracked r c p proc
  signalled : ∀ {c p os}, Happened h (.attached c p os) →
    Signalled h p ∨ Lost h p ∨ ∃ proc, Tracked r c p proc
  exit : ∀ {c p proc e}, Tracked r c p proc → proc.exit = some e →
    Happened h (.reaped c p e) ∨ Happened h (.recovered c p e)
  evidence : ∀ {c p proc}, Tracked r c p proc → HasEvidence h p →
    ∃ e, proc.exit = some e ∧ e.Verified
  open_iff : ∀ {c sc}, r.get c = some sc → (sc.isOpen = true ↔ ¬ Drained h c)
  within : ∀ {c p proc d}, Tracked r c p proc → Happened h (.drained c d) → p ∈ d

/-- The events that matter to the processes. -/
def Event.forProcesses : Event → Bool
  | .attached _ _ _ | .reaped _ _ _ | .recovered _ _ _ | .drained _ _ => true
  | _ => false

/-- An event that is not about processes is no evidence. -/
theorem HasEvidence.of_cons (hev : ev.forProcesses = false)
    (hp : HasEvidence ((t, ev) :: h) p) : HasEvidence h p := by
  refine (hasEvidence_cons.mp hp).resolve_left ?_
  rintro ⟨c, e, -, rfl | rfl⟩
  · cases hev
  · cases hev

/-- An event that is not about processes leaves them alone. -/
theorem Processes.log {r : ScopeRegistry} (hi : Processes h r)
    (hev : ev.forProcesses = false) : Processes ((t, ev) :: h) r := by
  have hs : h <:+ (t, ev) :: h := List.suffix_cons _ _
  have ha : ∀ {c p os}, Happened ((t, ev) :: h) (.attached c p os) →
      Happened h (.attached c p os) := fun ha => by
    refine (happened_cons.mp ha).resolve_left ?_
    rintro rfl
    cases hev
  refine ⟨fun ht => (hi.attached ht).mono hs, fun hat => ?_, fun hat => ?_, fun ht hex => ?_,
    fun ht hp => hi.evidence ht (hp.of_cons hev), fun hc => ?_, fun ht hd => ?_⟩
  · exact (hi.tracked (ha hat)).imp_left (HasEvidence.mono hs)
  · rcases hi.signalled (ha hat) with h' | h' | h'
    · exact .inl (h'.mono hs)
    · exact .inr (.inl (h'.mono hs))
    · exact .inr (.inr h')
  · exact (hi.exit ht hex).imp (Happened.mono hs) (Happened.mono hs)
  · rw [hi.open_iff hc, drained_cons, not_or]
    refine ⟨fun hd => ⟨?_, hd⟩, And.right⟩
    rintro ⟨d, rfl⟩
    cases hev
  · refine hi.within ht ((happened_cons.mp hd).resolve_left ?_)
    rintro rfl
    cases hev

/-! ### Waiters -/

/-- The waiter table shows exits that were signalled. An unverified one shows only while
the process has no evidence, and the table's queue is the bounded history of signals. -/
structure Signals (h : History) (w : InMemoryWaiters) : Prop where
  shown : ∀ {p e}, w.tryGet p = some e → Happened h (.exitSignalled p e)
  unverified : ∀ {p e}, w.tryGet p = some e → ¬ e.Verified → ¬ HasEvidence h p
  cell : ∀ {ch e}, w.slots.cells ch = some e → Happened h (.exitSignalled ch.pid e)
  retained : Retained WAITER_HISTORY_BOUND w.slots.completed (signalLog h)

/-- The events that matter to the waiters. -/
def Event.forSignals : Event → Bool
  | .exitSignalled _ _ | .reaped _ _ _ | .recovered _ _ _ => true
  | _ => false

/-- An event that is not about signals is no evidence. -/
theorem HasEvidence.of_cons' (hev : ev.forSignals = false)
    (hp : HasEvidence ((t, ev) :: h) p) : HasEvidence h p := by
  refine (hasEvidence_cons.mp hp).resolve_left ?_
  rintro ⟨c, e, -, rfl | rfl⟩
  · cases hev
  · cases hev

/-- An event that is not about signals leaves the waiters alone. -/
theorem Signals.log {w : InMemoryWaiters} (hi : Signals h w) (hev : ev.forSignals = false) :
    Signals ((t, ev) :: h) w := by
  have hs : h <:+ (t, ev) :: h := List.suffix_cons _ _
  refine ⟨fun hg => (hi.shown hg).mono hs, fun hg hv hp => hi.unverified hg hv (hp.of_cons' hev),
    fun hc => (hi.cell hc).mono hs, ?_⟩
  have hsig : ev.signals = none := by cases ev <;> first | rfl | cases hev
  have hlog : signalLog ((t, ev) :: h) = signalLog h := by
    simp [signalLog, hsig]
  rw [hlog]
  exact hi.retained

/-! ### Pending outcomes -/

/-- The outcome pending for a process in a scope. -/
def pendingIn (m : ExtTreeMap ProcessScopeId Outcomes) (c : ProcessScopeId) (p : ProcessId) :
    Option TerminationOutcome :=
  (m[c]?).bind fun outcomes => outcomes[p]?

/-- Pending outcomes belong to processes tracked when the scope began to drain. They are
verified exactly for processes with evidence, which are all there until the commit clears
them, as are the processes whose workers were joined. -/
structure Pendings (h : History)
    (pending : ProcessScopeId → ProcessId → Option TerminationOutcome) : Prop where
  drained : ∀ {c p o}, pending c p = some o → ∃ d, Happened h (.drained c d) ∧ p ∈ d
  cleared : ∀ {c p o}, pending c p = some o → ¬ Happened h (.pendingCleared c)
  verified : ∀ {c p o}, pending c p = some o → (o.isVerified = true ↔ HasEvidence h p)
  evidence : ∀ {c d p}, Happened h (.drained c d) → p ∈ d → HasEvidence h p →
    ¬ Happened h (.pendingCleared c) → ∃ o, pending c p = some o
  pended : ∀ {c p}, Happened h (.pended c p) → ¬ Happened h (.pendingCleared c) →
    ∃ o, pending c p = some o

/-- The events that matter to the pending outcomes. -/
def Event.forPendings : Event → Bool
  | .drained _ _ | .pendingCleared _ | .pended _ _ | .reaped _ _ _ | .recovered _ _ _ => true
  | _ => false

/-- An event that is not about pending outcomes leaves them alone. -/
theorem Pendings.log {pending : ProcessScopeId → ProcessId → Option TerminationOutcome}
    (hi : Pendings h pending) (hev : ev.forPendings = false) :
    Pendings ((t, ev) :: h) pending := by
  have hs : h <:+ (t, ev) :: h := List.suffix_cons _ _
  have hne : ∀ {ev'}, Event.forPendings ev' = true → Happened ((t, ev) :: h) ev' →
      Happened h ev' := fun hf hp => by
    refine (happened_cons.mp hp).resolve_left ?_
    rintro rfl
    rw [hev] at hf
    cases hf
  have hevi : ∀ {p}, HasEvidence ((t, ev) :: h) p → HasEvidence h p := by
    rintro p ⟨c, e, hv, hr | hr⟩
    · exact ⟨c, e, hv, .inl (hne rfl hr)⟩
    · exact ⟨c, e, hv, .inr (hne rfl hr)⟩
  have hcl : ∀ {c}, ¬ Happened ((t, ev) :: h) (.pendingCleared c) →
      ¬ Happened h (.pendingCleared c) := fun hn hp => hn (hp.mono hs)
  refine ⟨fun hp => ?_, fun hp hc => hi.cleared hp (hne rfl hc), fun hp => ?_,
    fun hd hm hp hn => ?_, fun hp hn => ?_⟩
  · obtain ⟨d, hd, hm⟩ := hi.drained hp
    exact ⟨d, hd.mono hs, hm⟩
  · rw [hi.verified hp]
    exact ⟨HasEvidence.mono hs, hevi⟩
  · exact hi.evidence (hne rfl hd) hm (hevi hp) (hcl hn)
  · exact hi.pended (hne rfl hp) (hcl hn)

/-! ### Commits -/

/-- The report behind an operation lock is the committed one, a commit in progress holds
the lock, and the report map holds the retained reports that were not displaced. -/
structure Commits (h : History) (operations : ProcessScopeId → ScopeOperation)
    (reports : ExtTreeMap ProcessScopeId RetainedScopeReport)
    (completed : List ProcessScopeId) : Prop where
  serial : ∀ {c r}, (operations c).serial = some r ↔ Happened h (.committed c r)
  inProgress : ∀ {c}, Committed h c → ¬ Handed h c →
    ∃ t r, (operations c).holder = some t ∧ (t, .committed c r) ∈ h
  report : ∀ {c rr}, reports[c]? = some rr → ∃ r, rr = .retain r ∧ Happened h (.committed c r)
  reported : ∀ {c}, (∃ rr, reports[c]? = some rr) ↔
    Happened h (.reportRetained c) ∧ (Happened h (.scopeCompleted c) → c ∈ completed)
  retained : Retained SCOPE_REPORT_HISTORY_BOUND completed (completedLog h)

/-- The events that matter to commits. -/
def Event.forCommits : Event → Bool
  | .committed _ _ | .closedHanded _ _ | .reportRetained _ | .scopeCompleted _ => true
  | _ => false

/-- An event that is not about commits leaves the reports alone. -/
theorem Commits.log {operations : ProcessScopeId → ScopeOperation}
    {reports : ExtTreeMap ProcessScopeId RetainedScopeReport}
    {completed : List ProcessScopeId} (hi : Commits h operations reports completed)
    (hev : ev.forCommits = false) : Commits ((t, ev) :: h) operations reports completed := by
  have hiff : ∀ {ev'}, Event.forCommits ev' = true →
      (Happened ((t, ev) :: h) ev' ↔ Happened h ev') := fun hf => by
    rw [happened_cons, or_iff_right]
    rintro rfl
    rw [hev] at hf
    cases hf
  have hlog : completedLog ((t, ev) :: h) = completedLog h := by
    cases ev <;> first | rfl | cases hev
  refine ⟨?_, fun hc hn => ?_, fun hr => ?_, ?_, ?_⟩
  · intro c r
    rw [hi.serial, hiff rfl]
  · obtain ⟨r, hr⟩ := hc
    have hn' : ¬ Handed h _ := fun ⟨w, hw⟩ => hn ⟨w, (hiff rfl).mpr hw⟩
    obtain ⟨t', r', ht, hm⟩ := hi.inProgress ⟨r, (hiff rfl).mp hr⟩ hn'
    exact ⟨t', r', ht, List.mem_cons_of_mem _ hm⟩
  · obtain ⟨r, hrr, hc⟩ := hi.report hr
    exact ⟨r, hrr, (hiff rfl).mpr hc⟩
  · intro c
    rw [hi.reported, hiff rfl, hiff rfl]
  · rw [hlog]
    exact hi.retained

/-! ### Observed scopes -/

/-- An observed scope keeps its sender until others displace it. A channel holds what was
published last, and for good once a verified report was published. -/
structure Results (h : History) (results owners : ExtTreeMap ProcessScopeId Unit)
    (completed : List ProcessScopeId) (cleanup : ProcessScopeId → Option CleanupResult) :
    Prop where
  sender : ∀ {c}, results.contains c = true ↔
    Observed h c ∧ (Happened h (.resultRetained c) → c ∈ completed)
  retained : Retained SCOPE_REPORT_HISTORY_BOUND completed (resultLog h)
  published : ∀ {c v}, cleanup c = some v → Happened h (.published c v)
  final : ∀ {c r}, Happened h (.published c (.ok r)) → r.allVerified = true →
    cleanup c = some (.ok r)
  owner : ∀ {c}, owners.contains c = true → Observed h c

/-- The events that matter to observed scopes. -/
def Event.forResults : Event → Bool
  | .scopeCreated _ _ | .resultRetained _ | .published _ _ => true
  | _ => false

/-- An event that is not about results leaves them alone. -/
theorem Results.log {results owners : ExtTreeMap ProcessScopeId Unit}
    {completed : List ProcessScopeId} {cleanup : ProcessScopeId → Option CleanupResult}
    (hi : Results h results owners completed cleanup) (hev : ev.forResults = false) :
    Results ((t, ev) :: h) results owners completed cleanup := by
  have hs : h <:+ (t, ev) :: h := List.suffix_cons _ _
  have hiff : ∀ {ev'}, Event.forResults ev' = true →
      (Happened ((t, ev) :: h) ev' ↔ Happened h ev') := fun hf => by
    rw [happened_cons, or_iff_right]
    rintro rfl
    rw [hev] at hf
    cases hf
  have hlog : resultLog ((t, ev) :: h) = resultLog h := by
    cases ev <;> first | rfl | cases hev
  refine ⟨?_, ?_, fun hc => (hi.published hc).mono hs,
    fun hp hv => hi.final ((hiff rfl).mp hp) hv, fun ho => (hi.owner ho).mono hs⟩
  · intro c
    rw [hi.sender, Observed, Observed, hiff rfl, hiff rfl]
  · rw [hlog]
    exact hi.retained

/-! ### Flags -/

/-- The flags say what happened. While the sampler mutex is held, no scope can come back. -/
structure Flags (h : History) (shuttingDown ownersDropped : Bool)
    (samplerHolder : Option Tid) : Prop where
  started : shuttingDown = true ↔ Happened h .shutdownStarted
  dropped : ownersDropped = true → Happened h .ownersDropped
  sampler : ∀ {t}, samplerHolder = some t →
    Happened h .shutdownStarted ∧ ∀ c, Created h c → Removed h c

/-- The events that matter to the flags. -/
def Event.forFlags : Event → Bool
  | .shutdownStarted | .scopeCreated _ _ => true
  | _ => false

/-- An event that is not about the flags leaves them alone. -/
theorem Flags.log {shuttingDown ownersDropped : Bool} {samplerHolder : Option Tid}
    (hi : Flags h shuttingDown ownersDropped samplerHolder) (hev : ev.forFlags = false) :
    Flags ((t, ev) :: h) shuttingDown ownersDropped samplerHolder := by
  have hs : h <:+ (t, ev) :: h := List.suffix_cons _ _
  refine ⟨?_, fun hd => (hi.dropped hd).mono hs, fun hh => ?_⟩
  · rw [hi.started, happened_cons, or_iff_right]
    rintro rfl
    cases hev
  · obtain ⟨hst, hall⟩ := hi.sampler hh
    refine ⟨hst.mono hs, fun c hc => ?_⟩
    refine (hall c ((created_cons.mp hc).resolve_left ?_)).mono hs
    rintro ⟨b, rfl⟩
    cases hev

/-! ### Tasks -/

/-- The tasks an event says were started. -/
def Event.starts : Event → Option Tid
  | .monitorStarted _ _ w | .workerStarted _ _ w | .closedHanded _ w => some w
  | _ => none

/-- Identifiers of tasks are below the next one, a lock is held by a task that took it, and
the result of a worker is what it returned. -/
structure Tasks (h : History) (nextTask : Tid) (operations : ProcessScopeId → ScopeOperation)
    (joined : Tid → Option WorkerResult) : Prop where
  below : ∀ {t ev}, (t, ev) ∈ h → t < nextTask
  started : ∀ {ev w}, Happened h ev → ev.starts = some w → w < nextTask
  holder : ∀ {c t}, (operations c).holder = some t → (t, .acquired c) ∈ h
  ended : ∀ {w p r}, joined w = some (.ended p r) → ∃ c, (w, .returned (.worker c p r)) ∈ h

/-- An event of a task that was started leaves the tasks alone, unless it starts one. -/
theorem Tasks.log {n : Tid} {operations : ProcessScopeId → ScopeOperation}
    {joined : Tid → Option WorkerResult} (hi : Tasks h n operations joined) (ht : t < n)
    (hev : ∀ w, ev.starts = some w → w < n) : Tasks ((t, ev) :: h) n operations joined := by
  refine ⟨fun hm => ?_, fun hp hw => ?_, fun hh => List.mem_cons_of_mem _ (hi.holder hh),
    fun hj => ?_⟩
  · rcases List.mem_cons.mp hm with heq | hm
    · obtain ⟨rfl, rfl⟩ := Prod.mk.inj heq
      exact ht
    · exact hi.below hm
  · rcases happened_cons.mp hp with rfl | hp
    · exact hev _ hw
    · exact hi.started hp hw
  · obtain ⟨c, hc⟩ := hi.ended hj
    exact ⟨c, List.mem_cons_of_mem _ hc⟩

/-! ### The invariant -/

/-- The history is lawful, and every store is what the history makes of it. -/
structure Inv (s : Inner) : Prop where
  lawful : Lawful s.history
  catalogue : Catalogue s.history s.registry s.scopeOperations
  processes : Processes s.history s.registry
  signals : Signals s.history s.waiters
  pendings : Pendings s.history (pendingIn s.pendingOutcomes)
  commits : Commits s.history s.operations s.reports s.completedScopes
  results : Results s.history s.scopeResults s.owners s.completedScopeResults s.cleanup
  flags : Flags s.history s.shuttingDown s.ownersDropped s.samplerHolder
  tasks : Tasks s.history s.nextTask s.operations s.joined

/-- An event that matters to no group. -/
def Event.quiet (ev : Event) : Bool :=
  !(ev.forCatalogue || ev.forProcesses || ev.forSignals || ev.forPendings || ev.forCommits ||
    ev.forResults || ev.forFlags || ev.starts.isSome)

/-- A justified event that matters to no group keeps the invariant. -/
theorem Inv.quiet {s : Inner} (hi : Inv s) (ht : t < s.nextTask) (hq : ev.quiet = true)
    (hj : Justified t ev s.history) : Inv (s.log t ev) := by
  simp only [Event.quiet, Bool.not_eq_true', Bool.or_eq_false_iff, Option.isSome_eq_false_iff,
    Option.isNone_iff_eq_none] at hq
  obtain ⟨⟨⟨⟨⟨⟨⟨h1, h2⟩, h3⟩, h4⟩, h5⟩, h6⟩, h7⟩, h8⟩ := hq
  exact ⟨⟨hj, hi.lawful⟩, hi.catalogue.log h1, hi.processes.log h2, hi.signals.log h3,
    hi.pendings.log h4, hi.commits.log h5, hi.results.log h6, hi.flags.log h7,
    hi.tasks.log ht fun w hw => absurd hw (by simp [h8])⟩

/-- The stores outside the invariant can hold anything. -/
theorem Inv.frame {s : Inner} (hi : Inv s) (spawnTimes : ExtTreeMap ProcessId Instant)
    (samples : ExtTreeMap ProcessId Sample) (samplerStarted samplerTask : Bool)
    (outputs : ExtTreeMap ProcessId ProcessOutput) (completed : List ProcessId)
    (shutdownHolder : Option Tid) (osPids : OsPidHistory) :
    Inv { s with spawnTimes, samples, samplerStarted, samplerTask, outputs, completed,
                 shutdownHolder, osPids } :=
  ⟨hi.lawful, hi.catalogue, hi.processes, hi.signals, hi.pendings, hi.commits, hi.results,
    hi.flags, hi.tasks⟩

/-- The invariant of a supervisor that was just constructed. -/
theorem inv_new : Inv Inner.new where
  lawful := trivial
  catalogue := by
    refine ⟨fun c => ?_, fun c => ?_, fun c hc => ?_, fun c p os ha => ?_⟩
    · simp [Inner.new, Created]
    · simp [Inner.new, Created]
    · exact absurd hc (by simp [Inner.new, Created])
    · exact absurd ha (not_happened_nil _)
  processes := by
    have hn : ∀ {c p proc}, ¬ Tracked Inner.new.registry c p proc := by
      rintro c p proc ⟨sc, hsc, -⟩
      exact absurd hsc (by simp [Inner.new])
    exact ⟨fun ht => absurd ht hn, fun ha => absurd ha (not_happened_nil _),
      fun ha => absurd ha (not_happened_nil _), fun ht => absurd ht hn, fun ht => absurd ht hn,
      fun hc => absurd hc (by simp [Inner.new]), fun ht => absurd ht hn⟩
  signals := by
    refine ⟨fun hg => absurd hg ?_, fun hg => absurd hg ?_, fun hc => absurd hc ?_, .nil _⟩
    · simp [Inner.new, InMemoryWaiters.new, InMemoryWaiters.tryGet, Slots.tryGet]
    · simp [Inner.new, InMemoryWaiters.new, InMemoryWaiters.tryGet, Slots.tryGet]
    · simp [Inner.new, InMemoryWaiters.new]
  pendings := by
    have hn : ∀ {c p o}, pendingIn Inner.new.pendingOutcomes c p ≠ some o := by
      simp [Inner.new, pendingIn]
    exact ⟨fun hp => absurd hp hn, fun hp => absurd hp hn, fun hp => absurd hp hn,
      fun hd => absurd hd (not_happened_nil _), fun hp => absurd hp (not_happened_nil _)⟩
  commits := by
    refine ⟨?_, ?_, fun hr => absurd hr ?_, ?_, .nil _⟩
    · intro c r
      simp [Inner.new]
    · rintro c ⟨r, hr⟩
      exact absurd hr (not_happened_nil _)
    · simp [Inner.new]
    · intro c
      simp [Inner.new]
  results := by
    refine ⟨?_, .nil _, fun hc => absurd hc (by simp [Inner.new]),
      fun hp => absurd hp (not_happened_nil _), fun ho => absurd ho (by simp [Inner.new])⟩
    intro c
    simp [Inner.new, Observed]
  flags := by
    refine ⟨?_, fun hd => absurd hd (by simp [Inner.new]),
      fun hh => absurd hh (by simp [Inner.new])⟩
    simp [Inner.new]
  tasks := by
    exact ⟨fun hm => absurd hm (by simp [Inner.new]), fun hp => absurd hp (not_happened_nil _),
      fun hh => absurd hh (by simp [Inner.new]), fun hj => absurd hj (by simp [Inner.new])⟩

end Shepherd
