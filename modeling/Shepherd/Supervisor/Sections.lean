import Shepherd.Supervisor.Ops
import Shepherd.Supervisor.StoreSteps

/-!
# Operations Keep the Invariant

`Op.Pre` is the precondition of an operation: what its caller has to know for the step to
be lawful. Some operations also need the operation lock of a scope (`Op.guard`). The
theorem `exec_inv` says that an operation run under its precondition keeps the invariant;
before it comes one lemma for each critical section, assembled from the steps of the groups.
-/

open Std

namespace Shepherd

open Conc

variable {t : Tid} {s s' : Inner} {c : ProcessScopeId} {p : ProcessId} {os : OsIdentity}
  {e : ProcessExit}

/-! ### Preconditions -/

/-- A task whose future may be dropped: it has no spawned process on its hands, and no
commit in progress. -/
structure Droppable (t : Tid) (s : Inner) : Prop where
  spawned : ∀ c r, (t, .spawnReturned c r) ∉ s.history
  commits : ∀ c, (s.operations c).holder = some t → Committed s.history c → Handed s.history c

/-- The scope whose operation lock an operation needs. -/
def Op.guard : Op → Option ProcessScopeId
  | .unlockOperation c | .spawnCall c _ | .attach c _ _ | .startMonitor c _ _ | .drain c
  | .pend c _ _ | .mergePending c _ | .setSerial c _ | .retainResult c | .retainReport c _
  | .removeScope c | .retireOperation c | .clearPending c | .completeScope c
  | .handScopeClosed c => some c
  | .orObserve _ o | .orElapsed o => o.guard
  | _ => none

/-- The precondition of an operation run by `t`. -/
def Op.Pre (t : Tid) (s : Inner) : Op → Prop
  | .lockOperation c => Justified t (.acquired c) s.history
  | .unlockOperation c =>
      Justified t (.released c) s.history ∧ (Committed s.history c → Handed s.history c)
  | .dropGuards => Droppable t s
  | .spawnCall c _ => Justified t (.spawnCalled c) s.history
  | .spawnReturn c => ∀ r, Justified t (.spawnReturned c r) s.history
  | .attach c os _ =>
      Created s.history c ∧ ¬ Removed s.history c ∧ ¬ Drained s.history c ∧
      (t, .spawnReturned c (.ok os)) ∈ s.history
  | .startMonitor c p _ => ∀ m, Justified t (.monitorStarted c p m) s.history
  | .registerSampler => ∃ c, Created s.history c ∧ ¬ Removed s.history c
  | .recordMonitored c p result =>
      Happened s.history (.monitorStarted c p t) ∧ ¬ Reaped s.history p ∧
      ∃ os, Happened s.history (.attached c p os) ∧ (result ≠ none → WaitOk s.history os)
  | .notify ev =>
      Justified t (.dispatched ev) s.history ∧
      ∀ c p e, ev = .processReaped c p e →
        e.pid = p ∧ (e.Verified → HasEvidence s.history p)
  | .prune ev => ∀ c p e, ev = .processReaped c p e → e.Verified → Signalled s.history p
  | .recordRecovered c p _ =>
      Reaped s.history p ∧ ∃ os, Happened s.history (.attached c p os) ∧ WaitOk s.history os
  | .pend c p outcome =>
      (∃ d, Happened s.history (.drained c d) ∧ p ∈ d) ∧
      ¬ Happened s.history (.pendingCleared c) ∧
      (outcome.isVerified = true → HasEvidence s.history p)
  | .mergePending c outcomes =>
      ∃ d, Happened s.history (.drained c d) ∧ ¬ Happened s.history (.pendingCleared c) ∧
      ∀ po ∈ outcomes, po.1 ∈ d ∧ (po.2.isVerified = true → HasEvidence s.history po.1)
  | .setSerial c report => Justified t (.committed c report) s.history
  | .publish c v => Justified t (.published c v) s.history
  | .retainResult c => Justified t (.resultRetained c) s.history
  | .retainReport c report =>
      Justified t (.reportRetained c) s.history ∧ Happened s.history (.committed c report)
  | .removeScope c => ∀ lost, Justified t (.scopeRemoved c lost) s.history
  | .retireOperation c => Justified t (.operationRetired c) s.history
  | .clearPending c => Justified t (.pendingCleared c) s.history
  | .completeScope c => Justified t (.scopeCompleted c) s.history
  | .handScopeClosed c => Happened s.history (.scopeCompleted c) ∧ ¬ Handed s.history c
  | .lockSampler =>
      Happened s.history .shutdownStarted ∧ ∀ c, Created s.history c → Removed s.history c
  | .orObserve _ o | .orElapsed o => o.Pre t s
  | _ => True

/-- The task holds the lock the operation needs, and its precondition holds. -/
structure Op.Allowed (o : Op) (t : Tid) (s : Inner) : Prop where
  held : ∀ c, o.guard = some c → (s.operations c).holder = some t
  pre : o.Pre t s

/-- An operation that needs no lock is allowed when its precondition holds. -/
theorem Op.Allowed.of_guard {o : Op} (hg : o.guard = none) (hp : o.Pre t s) : o.Allowed t s where
  held c hc := by
    rw [hg] at hc
    cases hc
  pre := hp

namespace Inv

/-! ### Scopes and locks -/

/-- A new scope has a number ahead of all others, and nothing has happened to it yet. -/
theorem createScope (hi : Inv s) (ht : t < s.nextTask) (observed : Bool)
    (hb : s.registry.nextScope + 1 < 2 ^ 64) : Inv (s.createScope t observed).2 := by
  rw [Inner.createScope]
  split
  · exact hi
  next hsd =>
  have hc := ScopeRegistry.createScope_fst hb
  have hns : ¬ Happened s.history .shutdownStarted := fun hx => hsd (hi.flags.started.mpr hx)
  have hfresh : ¬ Created s.history s.registry.createScope.1 := fun hx => by
    have hle := hi.catalogue.scopes_le _ hx
    rw [hc] at hle
    exact Nat.not_succ_le_self _ hle
  obtain ⟨-, hcm, -, -, hrr, hpub, -⟩ := hi.lawful.fresh hfresh
  have hser : (s.operations s.registry.createScope.1).serial = none := by
    cases hr : (s.operations s.registry.createScope.1).serial with
    | none => rfl
    | some r => exact absurd ⟨r, hi.commits.serial.mp hr⟩ hcm
  have hcommits : Commits s.history
      (Function.update s.operations s.registry.createScope.1 ⟨none, none⟩) s.reports
      s.completedScopes := by
    refine hi.commits.holders (fun c => ?_) fun c hcc _ => ?_
    · by_cases hcc : c = s.registry.createScope.1
      · subst hcc
        rw [Function.update_self, hser]
      · rw [Function.update_of_ne hcc]
    · rw [Function.update_of_ne]
      rintro rfl
      exact hcm hcc
  have htasks : Tasks s.history s.nextTask
      (Function.update s.operations s.registry.createScope.1 ⟨none, none⟩) s.joined := by
    refine hi.tasks.holders fun c t' hh => ?_
    by_cases hcc : c = s.registry.createScope.1
    · subst hcc
      rw [Function.update_self] at hh
      cases hh
    · rw [Function.update_of_ne hcc] at hh
      exact .inl hh
  refine ⟨⟨⟨hfresh, hns⟩, hi.lawful⟩, hi.catalogue.create hi.lawful observed hc,
    hi.processes.create hi.lawful observed hfresh, hi.signals.log rfl, hi.pendings.log rfl,
    hcommits.log rfl, ?_, hi.flags.create hns, htasks.log ht (by simp [Event.starts])⟩
  cases observed with
  | false => exact hi.results.create
  | true => exact hi.results.observe hrr hpub

/-- The holders of operation locks change, with an event that says so. -/
theorem holders (hi : Inv s) (ht : t < s.nextTask) {ev : Event} (hq : ev.quiet = true)
    (hj : Justified t ev s.history) {ops : ProcessScopeId → ScopeOperation}
    (hser : ∀ c, (ops c).serial = (s.operations c).serial)
    (hin : ∀ c, Committed s.history c → ¬ Handed s.history c →
      (ops c).holder = (s.operations c).holder)
    (hhold : ∀ c t', (ops c).holder = some t' → (s.operations c).holder = some t' ∨
      (t', .acquired c) ∈ (t, ev) :: s.history) :
    Inv ({ s with operations := ops }.log t ev) := by
  have hlog := hi.quiet ht hq hj
  have hquiet : ev.forCommits = false := by
    cases ev <;> first | rfl | cases hq
  exact ⟨hlog.lawful, hlog.catalogue, hlog.processes, hlog.signals, hlog.pendings,
    (hi.commits.holders hser hin).log hquiet, hlog.results, hlog.flags,
    hlog.tasks.holders hhold⟩

/-- Taking a free operation lock. -/
theorem lockOperation (hi : Inv s) (ht : t < s.nextTask) (hc : Created s.history c)
    (hfree : (s.operations c).holder = none) : Inv (s.lockOperation t c) := by
  have hj : Justified t (.acquired c) s.history := hc
  refine hi.holders ht rfl hj (fun c' => ?_) (fun c' hcm hn => ?_) fun c' t' hh => ?_
  · by_cases heq : c' = c
    · subst heq
      rw [Function.update_self]
    · rw [Function.update_of_ne heq]
  · rw [Function.update_of_ne]
    rintro rfl
    obtain ⟨t', _, hh, -⟩ := hi.commits.inProgress hcm hn
    rw [hfree] at hh
    cases hh
  · by_cases heq : c' = c
    · subst heq
      rw [Function.update_self] at hh
      obtain rfl := Option.some.inj hh
      exact .inr List.mem_cons_self
    · rw [Function.update_of_ne heq] at hh
      exact .inl hh

/-- Releasing the lock, which is lawful when no commit is in progress. -/
theorem unlockOperation (hi : Inv s) (ht : t < s.nextTask)
    (hj : Justified t (.released c) s.history)
    (hdone : Committed s.history c → Handed s.history c) : Inv (s.unlockOperation t c) := by
  refine hi.holders ht rfl hj (fun c' => ?_) (fun c' hcm hn => ?_) fun c' t' hh => ?_
  · by_cases heq : c' = c
    · subst heq
      rw [Function.update_self]
    · rw [Function.update_of_ne heq]
  · rw [Function.update_of_ne]
    rintro rfl
    exact hn (hdone hcm)
  · by_cases heq : c' = c
    · subst heq
      rw [Function.update_self] at hh
      cases hh
    · rw [Function.update_of_ne heq] at hh
      exact .inl hh

/-- A dropped task releases every lock it has. -/
theorem dropGuards (hi : Inv s) (ht : t < s.nextTask) (hd : Droppable t s) :
    Inv (s.dropGuards t) := by
  have hj : Justified t .guardsDropped s.history := hd.spawned
  have hops : Inv ({ s with
      operations := fun c =>
        if (s.operations c).holder = some t then { s.operations c with holder := none }
        else s.operations c }.log t .guardsDropped) := by
    refine hi.holders ht rfl hj (fun c => ?_) (fun c hcm hn => ?_) fun c t' hh => ?_
    · split <;> rfl
    · rw [if_neg]
      exact fun hh => hn (hd.commits c hh hcm)
    · split at hh
      · cases hh
      · exact .inl hh
  have hflags : Flags ((t, .guardsDropped) :: s.history) s.shuttingDown s.ownersDropped
      (if s.samplerHolder = some t then none else s.samplerHolder) := by
    refine hops.flags.sampler_holder fun t' hh => ?_
    split at hh
    · cases hh
    · exact .inl hh
  exact ⟨hops.lawful, hops.catalogue, hops.processes, hops.signals, hops.pendings,
    hops.commits, hops.results, hflags, hops.tasks⟩

/-! ### Flags and owners -/

/-- The flag of a shutdown is set with its event. -/
theorem storeShuttingDown (hi : Inv s) (ht : t < s.nextTask) :
    Inv ({ s with shuttingDown := true }.log t .shutdownStarted) :=
  ⟨⟨trivial, hi.lawful⟩, hi.catalogue.log rfl, hi.processes.log rfl, hi.signals.log rfl,
    hi.pendings.log rfl, hi.commits.log rfl, hi.results.log rfl, hi.flags.shutdown,
    hi.tasks.log ht (by simp [Event.starts])⟩

/-- The flag of the dropped owners is set with its event. -/
theorem storeOwnersDropped (hi : Inv s) (ht : t < s.nextTask) :
    Inv ({ s with ownersDropped := true }.log t .ownersDropped) :=
  ⟨⟨trivial, hi.lawful⟩, hi.catalogue.log rfl, hi.processes.log rfl, hi.signals.log rfl,
    hi.pendings.log rfl, hi.commits.log rfl, hi.results.log rfl, hi.flags.drop,
    hi.tasks.log ht (by simp [Event.starts])⟩

/-- The mutex of the sampler changes hands: nobody takes it anew before a shutdown has emptied the
registry. -/
theorem samplerHolder (hi : Inv s) {holder : Option Tid}
    (hh : ∀ t, holder = some t → s.samplerHolder = some t ∨
      Happened s.history .shutdownStarted ∧ ∀ c, Created s.history c → Removed s.history c) :
    Inv { s with samplerHolder := holder } :=
  ⟨hi.lawful, hi.catalogue, hi.processes, hi.signals, hi.pendings, hi.commits, hi.results,
    hi.flags.sampler_holder hh, hi.tasks⟩

/-- The owner of a scope may be taken: the result of the scope does not depend on it. -/
theorem takeOwner (hi : Inv s) (c : ProcessScopeId) :
    Inv { s with owners := s.owners.erase c } :=
  ⟨hi.lawful, hi.catalogue, hi.processes, hi.signals, hi.pendings, hi.commits,
    hi.results.takeOwner c, hi.flags, hi.tasks⟩

/-- The waiters may change as long as they show what was signalled. -/
theorem waiters (hi : Inv s) {w : InMemoryWaiters} (hw : Signals s.history w) :
    Inv { s with waiters := w } :=
  ⟨hi.lawful, hi.catalogue, hi.processes, hw, hi.pendings, hi.commits, hi.results, hi.flags,
    hi.tasks⟩

/-! ### Spawning -/

/-- An attach to an open scope succeeds. -/
theorem attach_eq (hi : Inv s) (hb : s.registry.nextProcess + 1 < 2 ^ 64)
    (hc : Created s.history c) (hr : ¬ Removed s.history c) (hd : ¬ Drained s.history c)
    (t : Tid) (os : OsIdentity) (spec : ProcessSpec) :
    ∃ sc, s.registry.get c = some sc ∧
      (sc.attachSpawned (s.registry.nextProcess + 1) os spec).2 =
        sc.insert (Process.running (s.registry.nextProcess + 1) os spec) ∧
      s.attach t c os spec = (.ok (s.registry.nextProcess + 1)
        [.processSpawned c (s.registry.nextProcess + 1)], { s with
          registry := s.registry.nextProcessId.2.modify c
            (fun sc => (sc.attachSpawned (s.registry.nextProcess + 1) os spec).2)
            fun sc => sc.attachSpawned_id _ os spec }.log t
              (.attached c (s.registry.nextProcess + 1) os)) := by
  obtain ⟨sc, hsc⟩ := (hi.catalogue.registered c).mpr ⟨hc, hr⟩
  have hopen : sc.state = .open := (sc.isOpen_iff).mp ((hi.processes.open_iff hsc).mpr hd)
  have hid := ScopeRegistry.id_of_get hsc
  have hfresh : sc.get (s.registry.nextProcess + 1) = none := by
    cases hg : sc.get (s.registry.nextProcess + 1) with
    | none => rfl
    | some proc =>
        have hle := hi.catalogue.processes_le _ _ _ (hi.processes.attached ⟨sc, hsc, hg⟩)
        exact absurd hle (Nat.not_succ_le_self _)
  have hpid := ScopeRegistry.nextProcessId_fst hb
  rcases sc.attachSpawned_cases (s.registry.nextProcess + 1) os spec with
    ⟨-, -, hatt⟩ | ⟨hbad, -⟩
  · refine ⟨sc, hsc, by rw [hatt], ?_⟩
    rw [Inner.attach]
    simp only [hpid, ScopeRegistry.get_nextProcessId, hsc, hatt, hid]
  · rcases hbad with hbad | hbad
    · exact absurd hopen hbad
    · exact absurd hfresh hbad

/-- **An attachment keeps the invariant**: the scope is open, the lock is held, and the identifier
is new. -/
theorem attach (hi : Inv s) (ht : t < s.nextTask) (hb : s.registry.nextProcess + 1 < 2 ^ 64)
    (hc : Created s.history c) (hr : ¬ Removed s.history c) (hd : ¬ Drained s.history c)
    (hsp : (t, .spawnReturned c (.ok os)) ∈ s.history) (spec : ProcessSpec) :
    Inv (s.attach t c os spec).2 := by
  obtain ⟨sc, hsc, hatt, heq⟩ := hi.attach_eq hb hc hr hd t os spec
  have hfresh : ∀ c' os',
      ¬ Happened s.history (.attached c' (s.registry.nextProcess + 1) os') := fun c' os' ha =>
    absurd (hi.catalogue.processes_le c' _ os' ha) (Nat.not_succ_le_self _)
  have hproc : Processes s.history s.registry.nextProcessId.2 :=
    hi.processes.agree ⟨fun hc => ⟨_, hc, fun hp => ⟨_, hp, rfl, rfl⟩, fun hp => ⟨_, hp⟩⟩,
      fun hc => ⟨_, hc⟩⟩ fun _ sc sc' h₁ h₂ => by
        obtain rfl := Option.some.inj (h₁.symm.trans h₂)
        rfl
  rw [heq]
  exact ⟨⟨⟨hc, hr, hd, hfresh, hsp⟩, hi.lawful⟩,
    hi.catalogue.attached (ScopeRegistry.nextProcessId_fst hb) (Nat.le_succ _) _
      fun sc => sc.attachSpawned_id _ os spec,
    hproc.attached_new hi.lawful spec hd hfresh hsc hatt, hi.signals.log rfl,
    hi.pendings.log rfl, hi.commits.log rfl, hi.results.log rfl, hi.flags.log rfl,
    hi.tasks.log ht (by simp [Event.starts])⟩

/-- Keeping a capture changes no store that the invariant speaks of. -/
theorem keepOutput (hi : Inv s) (output : Option ProcessOutput) (admission : Bool) :
    Inv (s.keepOutput p output admission) := by
  simp only [Inner.keepOutput]
  split
  · exact hi.waiters (hi.signals.wait p)
  · split
    · exact hi.frame _ _ _ _ _ _ _ _
    · exact hi

/-- The start of a task, with the event that says so. -/
theorem start (hi : Inv s) (ht : t < s.nextTask) {ev : Event}
    (hev : ev.starts = some s.nextTask) (hj : Justified t ev s.history)
    (hcommits : Commits ((t, ev) :: s.history) s.operations s.reports s.completedScopes) :
    Inv ({ s with nextTask := s.nextTask + 1 }.log t ev) := by
  have hq : ev.forCatalogue = false ∧ ev.forProcesses = false ∧ ev.forSignals = false ∧
      ev.forPendings = false ∧ ev.forResults = false ∧ ev.forFlags = false := by
    cases ev <;> first | exact ⟨rfl, rfl, rfl, rfl, rfl, rfl⟩ | cases hev
  obtain ⟨h1, h2, h3, h4, h5, h6⟩ := hq
  refine ⟨⟨hj, hi.lawful⟩, hi.catalogue.log h1, hi.processes.log h2, hi.signals.log h3,
    hi.pendings.log h4, hcommits, hi.results.log h5, hi.flags.log h6, ?_⟩
  refine (hi.tasks.next (Nat.le_succ _)).log (Nat.lt_succ_of_lt ht) fun w hw => ?_
  rw [hev] at hw
  obtain rfl := Option.some.inj hw
  exact Nat.lt_succ_self _

/-! ### Evidence -/

/-- A scope in the registry still has its pending outcomes. -/
theorem not_cleared (hi : Inv s) {sc : ProcessScope} (hsc : s.registry.get c = some sc) :
    ¬ Happened s.history (.pendingCleared c) := fun hx =>
  ((hi.catalogue.registered c).mp ⟨sc, hsc⟩).2
    (hi.lawful.removed_of_retired (hi.lawful.retired_of_cleared hx))

/-- A record of an exit, up to what the waiters see. -/
theorem recorded (hi : Inv s) {ev : Event} (hev : ev = .reaped c p e ∨ ev = .recovered c p e)
    {sc : ProcessScope} {proc : Process} (hsc : s.registry.get c = some sc)
    (hp : sc.get p = some proc) (f : ProcessScope → ProcessScope) (hf : ∀ s, (f s).id = s.id)
    (hrec : sc.Records (f sc) p e) (hn : ¬ HasEvidence s.history p) :
    Processes ((t, ev) :: s.history) (s.registry.modify c f hf) ∧
    Pendings ((t, ev) :: s.history) (pendingIn
      (if (f sc).isOpen then s.pendingOutcomes
        else pendingEntry s.pendingOutcomes c fun m => m.insert p e.outcome)) := by
  have htr : Tracked s.registry c p proc := ⟨sc, hsc, hp⟩
  have hrec' : ∀ sc', s.registry.get c = some sc' → sc'.Records (f sc') p e := by
    intro sc' hsc'
    obtain rfl := Option.some.inj (hsc.symm.trans hsc')
    exact hrec
  refine ⟨hi.processes.recorded hi.lawful hf hrec' htr hev hn, ?_⟩
  refine hi.pendings.recorded hi.lawful hev (hi.processes.attached htr) hn ?_
  rw [hrec.isOpen]
  have hopen := hi.processes.open_iff hsc
  cases ho : sc.isOpen with
  | true => exact .inl ⟨hopen.mp ho, rfl⟩
  | false =>
      have hdr : Drained s.history c := by
        by_contra hnd
        rw [hopen.mpr hnd] at ho
        cases ho
      obtain ⟨d, hd⟩ := hdr
      exact .inr ⟨⟨d, hd, hi.processes.within htr hd⟩, hi.not_cleared hsc,
        fun c' q => pendingIn_insert s.pendingOutcomes c c' p q e.outcome⟩

/-- What the monitor derives is verified only from a wait that returned `Ok`. -/
theorem waited_of_monitored {proc : Process} {result : Option RawExit}
    (hv : (monitoredExit proc p result).Verified) : result ≠ none := by
  rintro rfl
  exact absurd hv (by simp [monitoredExit, ProcessExit.Verified, TerminationOutcome.isVerified])

/-- The exit that a monitor records is that of its process. -/
theorem monitoredExit_pid (proc : Process) (p : ProcessId) (result : Option RawExit) :
    (monitoredExit proc p result).pid = p := by
  cases result with
  | none => rfl
  | some raw => rfl

/-- **The record of a monitor keeps the invariant**: it is the first of its process, and verified
only if its wait returned `Ok`. -/
theorem recordMonitored (hi : Inv s) (ht : t < s.nextTask) {result : Option RawExit}
    (hm : Happened s.history (.monitorStarted c p t)) (hn : ¬ Reaped s.history p)
    (ha : Happened s.history (.attached c p os)) (hw : result ≠ none → WaitOk s.history os) :
    Inv (s.recordMonitored t c p result).2 := by
  rw [Inner.recordMonitored]
  split
  · exact hi
  next sc hsc =>
  split
  · exact hi
  next proc hp =>
  have hnev : ¬ HasEvidence s.history p := fun hx => hn (hi.lawful.reaped_of_evidence hx)
  have hnone : proc.exit = none := by
    cases hex : proc.exit with
    | none => rfl
    | some e =>
        rcases hi.processes.exit ⟨sc, hsc, hp⟩ hex with hx | hx
        · exact absurd ⟨c, e, hx⟩ hn
        · obtain ⟨_, l, hs, -, -, -, hr, -⟩ := hi.lawful.of_happened hx
          exact absurd (hr.mono hs) hn
  obtain ⟨hproc, hpend⟩ := hi.recorded (t := t) (.inl rfl) hsc hp
    (fun sc => (sc.recordMonitored p (monitoredExit proc p result)).2)
    (fun sc => by simp [ProcessScope.recordMonitored])
    (ProcessScope.recordMonitored_records hp hnone (monitoredExit proc p result)) hnev
  exact ⟨⟨⟨monitoredExit_pid proc p result, hm, hn, os, ha, fun hv => hw (waited_of_monitored hv)⟩,
      hi.lawful⟩,
    (hi.catalogue.modify fun sc => by simp [ProcessScope.recordMonitored]).log rfl, hproc,
    hi.signals.reaped hi.lawful hn, hpend,
    hi.commits.log rfl, hi.results.log rfl, hi.flags.log rfl,
    hi.tasks.log ht (by simp [Event.starts])⟩

/-- An exit is signalled after it was recorded, and verified exactly with evidence. -/
theorem signalExit (hi : Inv s) (ht : t < s.nextTask) (hpid : e.pid = p)
    (hv : e.Verified ↔ HasEvidence s.history p) (hr : Reaped s.history p) :
    Inv (s.signalExit t p e) :=
  ⟨⟨⟨hpid, hv, hr⟩, hi.lawful⟩, hi.catalogue.log rfl, hi.processes.log rfl,
    hi.signals.signalExit (List.suffix_refl _) rfl (fun _ _ hq => hq) hv, hi.pendings.log rfl,
    hi.commits.log rfl, hi.results.log rfl, hi.flags.log rfl,
    hi.tasks.log ht (by simp [Event.starts])⟩

/-- Retaining a capture changes no store that the invariant speaks of. -/
theorem retainCompletedOutput (hi : Inv s) (p : ProcessId) : Inv (s.retainCompletedOutput p) := by
  rw [Inner.retainCompletedOutput]
  split
  · exact hi.frame _ _ _ _ _ _ _ _
  · exact hi

/-- A capture may be retained before or after the exit is signalled. -/
theorem retainCompletedOutput_signalExit (s : Inner) (t : Tid) (p : ProcessId)
    (e : ProcessExit) :
    (s.retainCompletedOutput p).signalExit t p e =
      (s.signalExit t p e).retainCompletedOutput p := by
  simp only [Inner.retainCompletedOutput]
  have hsame : ((s.signalExit t p e).outputs.contains p &&
      !(s.signalExit t p e).completed.contains p) =
      (s.outputs.contains p && !s.completed.contains p) := rfl
  rw [hsame]
  split <;> rfl

/-- What `record_recovered_exit` finds or leaves in the registry. -/
theorem storeRecovered_cases (hi : Inv s) (t : Tid) (ha : Happened s.history (.attached c p os))
    (hpid : e.pid = p) (hv : e.Verified) :
    (∃ e', e'.pid = p ∧ e'.Verified ∧ HasEvidence s.history p ∧
      s.storeRecovered t c p e = (.ok (e', []), s)) ∨
    (∃ sc proc events, s.registry.get c = some sc ∧ sc.get p = some proc ∧
      (∀ e', proc.exit = some e' → ¬ e'.Verified) ∧ ¬ HasEvidence s.history p ∧
      (sc.recordReaped p e).1 = .ok events ∧
      s.storeRecovered t c p e = (.ok (e, events), { s with
        registry := s.registry.modify c (fun sc => (sc.recordReaped p e).2)
          fun sc => sc.recordReaped_id p e
        pendingOutcomes :=
          if (sc.recordReaped p e).2.isOpen then s.pendingOutcomes
          else pendingEntry s.pendingOutcomes c fun m => m.insert p e.outcome }.log t
            (.recovered c p e))) := by
  rw [Inner.storeRecovered]
  cases hsc : s.registry.get c with
  | none =>
      refine .inl ⟨e, hpid, hv, (hi.processes.tracked ha).resolve_right ?_, rfl⟩
      rintro ⟨proc, sc, hsc', -⟩
      rw [hsc] at hsc'
      cases hsc'
  | some sc =>
      dsimp only
      cases hex : (sc.exitOf p).filter fun e => e.outcome.isVerified with
      | some e' =>
          obtain ⟨hex', hv'⟩ := Option.filter_eq_some_iff.mp hex
          obtain ⟨proc, hp, hpe⟩ := ProcessScope.exitOf_eq_some.mp hex'
          have htr : Tracked s.registry c p proc := ⟨sc, hsc, hp⟩
          exact .inl ⟨e', hi.lawful.pid_of_recorded (hi.processes.exit htr hpe), hv',
            hi.processes.evidence_of_exit htr hpe hv', rfl⟩
      | none =>
          cases hp : sc.get p with
          | none =>
              have hcont : sc.contains p = false := by
                rw [Bool.eq_false_iff]
                intro hx
                obtain ⟨proc, hp'⟩ := (sc.contains_iff p).mp hx
                rw [hp] at hp'
                cases hp'
              refine .inl ⟨e, hpid, hv, (hi.processes.tracked ha).resolve_right ?_,
                by simp [hcont]⟩
              rintro ⟨proc, sc', hsc', hp'⟩
              obtain rfl := Option.some.inj (hsc.symm.trans hsc')
              rw [hp] at hp'
              cases hp'
          | some proc =>
              have hcont : sc.contains p = true := (sc.contains_iff p).mpr ⟨proc, hp⟩
              have hun : ∀ e', proc.exit = some e' → ¬ e'.Verified := fun e' hpe hv' => by
                have hx : sc.exitOf p = some e' := ProcessScope.exitOf_eq_some.mpr ⟨proc, hp, hpe⟩
                simp [hx, Option.filter_some, show e'.outcome.isVerified = true from hv'] at hex
              have hnev : ¬ HasEvidence s.history p := fun hx => by
                obtain ⟨e', hpe, hv'⟩ := hi.processes.evidence ⟨sc, hsc, hp⟩ hx
                exact hun e' hpe hv'
              have hok : ∃ events, (sc.recordReaped p e).1 = .ok events := by
                rcases sc.recordReaped_cases p e hp with ⟨-, h⟩ | ⟨-, -, h⟩ | ⟨-, -, -, h⟩
                · exact ⟨_, by rw [h]⟩
                · exact ⟨_, by rw [h]⟩
                · exact ⟨_, by rw [h]⟩
              obtain ⟨events, hev⟩ := hok
              exact .inr ⟨sc, proc, events, rfl, hp, hun, hnev, hev, by simp [hcont, hev]⟩

/-- What a retry derives is verified. -/
theorem recoveredExit_verified (p : ProcessId) (raw : RawExit) :
    (recoveredExit p raw).Verified := by
  rw [recoveredExit, ProcessExit.Verified]
  dsimp only
  split <;> rfl

/-- **The record of a retry keeps the invariant**: an unverified exit gives way to a verified one,
which is signalled as well when the waiters still show the former. -/
theorem recordRecovered (hi : Inv s) (ht : t < s.nextTask) (raw : RawExit)
    (hr : Reaped s.history p) (ha : Happened s.history (.attached c p os))
    (hw : WaitOk s.history os) : Inv (s.recordRecovered t c p raw).2 := by
  have hv := recoveredExit_verified p raw
  rw [Inner.recordRecovered]
  rcases hi.storeRecovered_cases t ha rfl hv with ⟨e', hpid', hv', hev, heq⟩ |
    ⟨sc, proc, events, hsc, hp, hun, hnev, -, heq⟩
  · rw [heq]
    dsimp only
    rw [retainCompletedOutput_signalExit]
    exact (hi.signalExit ht hpid' ⟨fun _ => hev, fun _ => hv'⟩ hr).retainCompletedOutput p
  · rw [heq]
    dsimp only
    rw [retainCompletedOutput_signalExit]
    refine retainCompletedOutput ?_ p
    obtain ⟨hproc, hpend⟩ := hi.recorded (t := t) (.inr rfl) hsc hp
      (fun sc => (sc.recordReaped p (recoveredExit p raw)).2) (fun sc => sc.recordReaped_id p _)
      (ProcessScope.recordReaped_records hp hun hv) hnev
    have hsig := hi.signals.signalExit (t := t) (p := p) (e := recoveredExit p raw)
      (h := (t, .recovered c p (recoveredExit p raw)) :: s.history) (List.suffix_cons _ _) rfl
      (fun q hq hx => by
        refine (hasEvidence_cons.mp hx).resolve_left ?_
        rintro ⟨c', e', -, h | h⟩
        · cases h
        · injection h with _ hpq _
          exact hq hpq.symm)
      ⟨fun _ => hasEvidence_cons.mpr (.inl ⟨c, _, hv, .inr rfl⟩), fun _ => hv⟩
    have hrec : Justified t (.recovered c p (recoveredExit p raw)) s.history :=
      ⟨rfl, hv, hnev, hr, os, ha, hw⟩
    have hexit : Justified t (.exitSignalled p (recoveredExit p raw))
        ((t, .recovered c p (recoveredExit p raw)) :: s.history) :=
      ⟨rfl, ⟨fun _ => hasEvidence_cons.mpr (.inl ⟨c, _, hv, .inr rfl⟩), fun _ => hv⟩,
        hr.mono (List.suffix_cons _ _)⟩
    exact ⟨⟨hexit, hrec, hi.lawful⟩,
      ((hi.catalogue.modify fun sc => sc.recordReaped_id p _).log rfl).log rfl, hproc.log rfl, hsig,
      hpend.log rfl, (hi.commits.log rfl).log rfl, (hi.results.log rfl).log rfl,
      (hi.flags.log rfl).log rfl,
      (hi.tasks.log ht (by simp [Event.starts])).log ht (by simp [Event.starts])⟩

/-- The handler of an exit signals it where the log says that it was recorded. -/
theorem notify (hi : Inv s) (ht : t < s.nextTask) {ev : DomainEvent}
    (hj : Justified t (.dispatched ev) s.history)
    (hev : ∀ c p e, ev = .processReaped c p e →
      e.pid = p ∧ (e.Verified → HasEvidence s.history p)) :
    Inv (s.notify t ev) := by
  have hlog := hi.quiet ht rfl hj
  simp only [Inner.notify]
  split
  · next c p e =>
      obtain ⟨hpid, hev⟩ := hev c p e rfl
      split
      · next hv =>
          have hp := hev hv
          exact hlog.signalExit ht hpid ⟨fun _ => hp.mono (List.suffix_cons _ _), fun _ => hv⟩
            ((hi.lawful.reaped_of_evidence hp).mono (List.suffix_cons _ _))
      next hv =>
      split
      · next hcur =>
          obtain ⟨sc, hsc, hcur⟩ := (Option.any_eq_true _ _).mp hcur
          obtain ⟨e', hex, hv'⟩ := (Option.any_eq_true _ _).mp hcur
          obtain ⟨proc, hp, hpe⟩ := ProcessScope.exitOf_eq_some.mp hex
          have hun : ¬ e'.Verified := by simpa [ProcessExit.Verified] using hv'
          have hnev : ¬ HasEvidence s.history p := fun hx => by
            obtain ⟨e'', hpe', hver⟩ := hi.processes.evidence ⟨sc, hsc, hp⟩ hx
            rw [hpe] at hpe'
            obtain rfl := Option.some.inj hpe'
            exact hun hver
          have hreap : Reaped s.history p := by
            rcases hi.processes.exit ⟨sc, hsc, hp⟩ hpe with hx | hx
            · exact ⟨c, e', hx⟩
            · obtain ⟨_, l, hs, -, -, -, hr, -⟩ := hi.lawful.of_happened hx
              exact hr.mono hs
          exact hlog.signalExit ht hpid
            ⟨fun hx => absurd hx hv, fun hx => absurd (by simpa using hx) hnev⟩
            (hreap.mono (List.suffix_cons _ _))
      · exact hlog
  · exact hlog

/-- Changes of one scope in the registry that only move processes through their lifecycle. -/
theorem modify_agree (hi : Inv s) {f : ProcessScope → ProcessScope} (hf : ∀ s, (f s).id = s.id)
    (ha : ∀ sc : ProcessScope, sc.Agrees (f sc)) (ho : ∀ sc, (f sc).isOpen = sc.isOpen) :
    Inv { s with registry := s.registry.modify c f hf } :=
  ⟨hi.lawful, hi.catalogue.modify hf, hi.processes.modify_agree hf ha ho, hi.signals, hi.pendings,
    hi.commits, hi.results, hi.flags, hi.tasks⟩

/-- An entry is pruned when its verified exit was signalled. -/
theorem prune (hi : Inv s) {ev : DomainEvent}
    (hsig : ∀ c p e, ev = .processReaped c p e → e.Verified → Signalled s.history p) :
    Inv (s.prune ev) := by
  simp only [Inner.prune]
  split
  · next c p e =>
      split
      · next hv =>
          exact ⟨hi.lawful, hi.catalogue.modify fun sc => sc.prune_id p,
            hi.processes.prune (hsig c p e rfl hv), hi.signals, hi.pendings, hi.commits,
            hi.results, hi.flags, hi.tasks⟩
      · exact hi
  · exact hi

/-! ### Waiting and terminating -/

/-- The start of a termination notes that an exit is expected, and may register with the waiters. -/
theorem beginTermination (hi : Inv s) (p : ProcessId) : Inv (s.beginTermination p).2 := by
  rw [Inner.beginTermination]
  split
  · exact hi
  split
  · exact hi
  split
  · exact hi
  split
  · exact hi
  split
  · exact hi
  · exact (hi.waiters (hi.signals.wait p)).modify_agree _
      (fun sc => sc.agrees_requestTermination p)
      fun sc => ProcessScope.isOpen_of_state (sc.requestTermination_state p)

/-- An escalation changes the target of a termination only. -/
theorem escalate (hi : Inv s) (c : ProcessScopeId) (p : ProcessId) : Inv (s.escalate c p) :=
  hi.modify_agree _ (fun sc => sc.agrees_escalateTermination p)
    fun sc => ProcessScope.isOpen_of_state (sc.escalateTermination_state p)

/-- A registration with the waiters shows nothing new. -/
theorem registerWait (hi : Inv s) (p : ProcessId) : Inv (s.registerWait p).2 := by
  rw [Inner.registerWait]
  split
  · exact hi
  split
  · exact hi
  · exact hi.waiters (hi.signals.wait p)

/-- A call that gives up reads the registry and changes nothing. -/
theorem settleFor (hi : Inv s) (ht : t < s.nextTask) (p : ProcessId)
    (exit : Option ProcessExit) : Inv (s.settleFor t p exit) := by
  rw [Inner.settleFor]
  split
  · exact hi
  · exact hi.quiet ht rfl trivial

/-! ### Terminating a scope -/

/-- The exits captured when a scope drains say what the evidence says. -/
theorem mem_recordedExits (hi : Inv s) {sc : ProcessScope} (hsc : s.registry.get c = some sc)
    {o : TerminationOutcome} :
    (p, o) ∈ Inner.recordedExits sc.beginScopeTermination.2 →
      p ∈ sc.beginScopeTermination.2.processIds ∧
      (o.isVerified = true ↔ HasEvidence s.history p) := by
  intro hm
  obtain ⟨q, hq, hmap⟩ := List.mem_filterMap.mp hm
  obtain ⟨e, hex, heq⟩ := Option.map_eq_some_iff.mp hmap
  obtain ⟨rfl, rfl⟩ := Prod.mk.inj heq
  obtain ⟨proc', hp', hpe'⟩ := ProcessScope.exitOf_eq_some.mp hex
  obtain ⟨proc, hp, -, hsame⟩ := sc.agrees_beginScopeTermination.back hp'
  rw [hsame] at hpe'
  refine ⟨hq, hi.processes.evidence_of_exit ⟨sc, hsc, hp⟩ hpe', fun hx => ?_⟩
  obtain ⟨e', hpe'', hv⟩ := hi.processes.evidence ⟨sc, hsc, hp⟩ hx
  rw [hpe'] at hpe''
  obtain rfl := Option.some.inj hpe''
  exact hv

/-- What a drained scope's observers are. -/
theorem observers (hi : Inv s) {sc : ProcessScope} (hsc : s.registry.get c = some sc) :
    Signals s.history (Inner.observers sc.beginScopeTermination.2
      sc.beginScopeTermination.2.processIds s.waiters).2 ∧
    (∀ po ∈ (Inner.observers sc.beginScopeTermination.2
      sc.beginScopeTermination.2.processIds s.waiters).1, FutureFor s.history po.1 po.2) ∧
    (Inner.observers sc.beginScopeTermination.2
      sc.beginScopeTermination.2.processIds s.waiters).1.map Prod.fst =
        sc.beginScopeTermination.2.processIds := by
  refine Signals.observers hi.lawful _ (fun q e hex hv => ?_) hi.signals
  obtain ⟨proc', hp', hpe'⟩ := ProcessScope.exitOf_eq_some.mp hex
  obtain ⟨proc, hp, -, hsame⟩ := sc.agrees_beginScopeTermination.back hp'
  rw [hsame] at hpe'
  exact hi.processes.evidence_of_exit ⟨sc, hsc, hp⟩ hpe' hv

/-- **Draining keeps the invariant**: the first draining fixes the tracked processes, and a later
one finds them. -/
theorem drain (hi : Inv s) (ht : t < s.nextTask) (c : ProcessScopeId) :
    Inv (s.drain t c).2 := by
  rw [Inner.drain]
  split
  · exact hi
  next sc hsc =>
  obtain ⟨hcr, hrm⟩ := (hi.catalogue.registered c).mp ⟨sc, hsc⟩
  have hagree := sc.agrees_beginScopeTermination
  have htrack : ∀ {q proc}, Tracked s.registry c q proc →
      q ∈ sc.beginScopeTermination.2.processIds := by
    rintro q proc ⟨sc', hsc', hq⟩
    obtain rfl := Option.some.inj (hsc.symm.trans hsc')
    exact (ProcessScope.mem_processIds _ q).mpr (hagree.forth hq)
  have hattached : ∀ {q}, q ∈ sc.beginScopeTermination.2.processIds →
      ∃ proc, Tracked s.registry c q proc := by
    intro q hq
    obtain ⟨proc', hp'⟩ := (ProcessScope.mem_processIds _ q).mp hq
    obtain ⟨proc, hp, -⟩ := hagree.back hp'
    exact ⟨proc, sc, hsc, hp⟩
  obtain ⟨hsig, -⟩ := hi.observers hsc
  obtain ⟨hother, hold, hnew, hcap⟩ := pendingIn_capture s.pendingOutcomes c
    (Inner.recordedExits sc.beginScopeTermination.2) rfl
  have hnc := hi.not_cleared hsc
  have hopen := hi.processes.open_iff hsc
  dsimp only
  split
  · next ho =>
      have hnd := hopen.mp ho
      have hj : Justified t (.drained c sc.beginScopeTermination.2.processIds) s.history := by
        refine ⟨hcr, hrm, hnd, fun q hq => ?_, fun q os ha => ?_⟩
        · obtain ⟨proc, htr⟩ := hattached hq
          exact ⟨proc.os, hi.processes.attached htr⟩
        · rcases hi.processes.tracked ha with hev | ⟨proc, htr⟩
          · exact .inr hev
          · exact .inl (htrack htr)
      have hpend := hi.pendings.drained_first (t := t) hnd hnc
        (fun q hq hev => by
          obtain ⟨proc, sc', hsc', hp⟩ := hattached hq
          obtain rfl := Option.some.inj (hsc.symm.trans hsc')
          obtain ⟨e, hpe, -⟩ := hi.processes.evidence ⟨sc, hsc, hp⟩ hev
          obtain ⟨proc', hp'⟩ := hagree.forth hp
          obtain ⟨proc₀, hp₀, -, hsame⟩ := hagree.back hp'
          obtain rfl := Option.some.inj (hp.symm.trans hp₀)
          refine hcap (o := e.outcome) (List.mem_filterMap.mpr ⟨q, hq, ?_⟩)
          rw [ProcessScope.exitOf_eq_some.mpr ⟨proc', hp', hsame.trans hpe⟩]
          rfl)
        hother fun hp => (hnew hp).imp_right (hi.mem_recordedExits hsc)
      exact ⟨⟨hj, hi.lawful⟩,
        (hi.catalogue.modify fun sc => sc.beginScopeTermination_id).log rfl,
        hi.processes.drained hnd fun q proc htr => htrack htr, hsig.log rfl, hpend,
        hi.commits.log rfl, hi.results.log rfl, hi.flags.log rfl,
        hi.tasks.log ht (by simp [Event.starts])⟩
  · next ho =>
      have hdr : Drained s.history c := by
        by_contra hnd
        exact ho (hopen.mpr hnd)
      obtain ⟨d, hd⟩ := hdr
      have hproc := hi.processes.drained_again (c := c) fun sc' hsc' => by
        obtain rfl := Option.some.inj (hsc.symm.trans hsc')
        exact Bool.eq_false_iff.mpr ho
      have hpend := hi.pendings.extend hold fun {c' q o} hp => by
        by_cases heq : c = c'
        · subst heq
          refine (hnew hp).imp_right fun hm => ?_
          obtain ⟨hq, hiff⟩ := hi.mem_recordedExits hsc hm
          obtain ⟨proc, htr⟩ := hattached hq
          exact ⟨⟨d, hd, hi.processes.within htr hd⟩, hnc, hiff⟩
        · rw [hother heq] at hp
          exact .inl hp
      exact ⟨hi.lawful, hi.catalogue.modify fun sc => sc.beginScopeTermination_id, hproc, hsig,
        hpend, hi.commits, hi.results, hi.flags, hi.tasks⟩

/-- The outcomes of the second look replace those of the workers. -/
theorem mergePending (hi : Inv s) {outcomes : List (ProcessId × TerminationOutcome)}
    {d : List ProcessId} (hd : Happened s.history (.drained c d))
    (hnc : ¬ Happened s.history (.pendingCleared c))
    (hout : ∀ po ∈ outcomes, po.1 ∈ d ∧ (po.2.isVerified = true → HasEvidence s.history po.1)) :
    Inv (s.mergePending c outcomes).2 :=
  ⟨hi.lawful, hi.catalogue, hi.processes, hi.signals, hi.pendings.merge hd hnc hout, hi.commits,
    hi.results, hi.flags, hi.tasks⟩

/-- The outcome of a worker is pending until the commit clears it. -/
theorem pend (hi : Inv s) (ht : t < s.nextTask) {o : TerminationOutcome} {d : List ProcessId}
    (hd : Happened s.history (.drained c d)) (hp : p ∈ d)
    (hnc : ¬ Happened s.history (.pendingCleared c))
    (hv : o.isVerified = true → HasEvidence s.history p) : Inv (s.pend t c p o) := by
  have hmerge := hi.mergePending hd hnc fun po (hpo : po ∈ [(p, o)]) => by
    obtain rfl := List.mem_singleton.mp hpo
    exact ⟨hp, hv⟩
  have hmem : ∃ o', pendingIn (pendingEntry s.pendingOutcomes c fun x => x.keepAll [(p, o)]) c p =
      some o' := by
    rw [pendingIn_entry, if_pos rfl]
    exact Outcomes.keepAll_mem List.mem_cons_self
  obtain ⟨o', ho'⟩ := hmem
  exact ⟨⟨⟨d, hd⟩, hi.lawful⟩, hi.catalogue.log rfl, hi.processes.log rfl, hi.signals.log rfl,
    hmerge.pendings.joined ho', hi.commits.log rfl, hi.results.log rfl, hi.flags.log rfl,
    hi.tasks.log ht (by simp [Event.starts])⟩

/-! ### The commit -/

/-- The commit begins: the report is stored behind the lock, which the task holds. -/
theorem setSerial (hi : Inv s) (ht : t < s.nextTask) {r : ScopeTerminationReport}
    (hold : (s.operations c).holder = some t) (hj : Justified t (.committed c r) s.history) :
    Inv (s.setSerial t c r) := by
  have htasks : Tasks s.history s.nextTask
      (Function.update s.operations c { s.operations c with serial := some r }) s.joined := by
    refine hi.tasks.holders fun c' t' hh => .inl ?_
    by_cases heq : c' = c
    · subst heq
      rwa [Function.update_self] at hh
    · rwa [Function.update_of_ne heq] at hh
  exact ⟨⟨hj, hi.lawful⟩, hi.catalogue.log rfl, hi.processes.log rfl, hi.signals.log rfl,
    hi.pendings.log rfl, hi.commits.begin hold hj.1, hi.results.log rfl, hi.flags.log rfl,
    htasks.log ht (by simp [Event.starts])⟩

/-- A publication that is justified. -/
theorem publish (hi : Inv s) (ht : t < s.nextTask) {v : CleanupResult}
    (hj : Justified t (.published c v) s.history) : Inv (s.publish t c v) := by
  rw [Inner.publish]
  split
  · exact hi
  · next hn =>
      exact ⟨⟨hj, hi.lawful⟩, hi.catalogue.log rfl, hi.processes.log rfl, hi.signals.log rfl,
        hi.pendings.log rfl, hi.commits.log rfl, hi.results.publish (Bool.eq_false_iff.mpr hn),
        hi.flags.log rfl, hi.tasks.log ht (by simp [Event.starts])⟩

/-- The result of an observed scope enters its history. -/
theorem retainResult (hi : Inv s) (ht : t < s.nextTask)
    (hj : Justified t (.resultRetained c) s.history) : Inv (s.retainResult t c) :=
  ⟨⟨hj, hi.lawful⟩, hi.catalogue.log rfl, hi.processes.log rfl, hi.signals.log rfl,
    hi.pendings.log rfl, hi.commits.log rfl, hi.results.retain hj.2.2, hi.flags.log rfl,
    hi.tasks.log ht (by simp [Event.starts])⟩

/-- The report enters the report map. -/
theorem retainReport (hi : Inv s) (ht : t < s.nextTask) {r : ScopeTerminationReport}
    (hj : Justified t (.reportRetained c) s.history)
    (hc : Happened s.history (.committed c r)) : Inv (s.retainReport t c r) :=
  ⟨⟨hj, hi.lawful⟩, hi.catalogue.log rfl, hi.processes.log rfl, hi.signals.log rfl,
    hi.pendings.log rfl, hi.commits.report_retained hi.lawful hc hj.2.2, hi.results.log rfl,
    hi.flags.log rfl, hi.tasks.log ht (by simp [Event.starts])⟩

/-- The scope leaves the registry. -/
theorem removeScope (hi : Inv s) (ht : t < s.nextTask)
    (hj : ∀ lost, Justified t (.scopeRemoved c lost) s.history) : Inv (s.removeScope t c) := by
  have hc := hi.lawful.committed_of_retained (hj []).1
  have hlost : ∀ q proc, Tracked s.registry c q proc →
      Signalled s.history q ∨ q ∈ s.unsignalled c := by
    rintro q proc ⟨sc, hsc, hq⟩
    by_cases hsig : Signalled s.history q
    · exact .inl hsig
    · refine .inr ?_
      rw [Inner.unsignalled]
      rw [hsc]
      refine List.mem_filter.mpr ⟨(sc.mem_processIds q).mpr ⟨proc, hq⟩, ?_⟩
      have hm : q ∉ signalLog s.history := fun hm => hsig (mem_signalLog.mp hm)
      simpa using hm
  exact ⟨⟨hj _, hi.lawful⟩, hi.catalogue.remove _, hi.processes.remove hi.lawful hc hlost,
    hi.signals.log rfl, hi.pendings.log rfl, hi.commits.log rfl, hi.results.log rfl,
    hi.flags.log rfl, hi.tasks.log ht (by simp [Event.starts])⟩

/-- Its operation lock leaves the map. -/
theorem retireOperation (hi : Inv s) (ht : t < s.nextTask)
    (hj : Justified t (.operationRetired c) s.history) : Inv (s.retireOperation t c) :=
  ⟨⟨hj, hi.lawful⟩, hi.catalogue.retire, hi.processes.log rfl, hi.signals.log rfl,
    hi.pendings.log rfl, hi.commits.log rfl, hi.results.log rfl, hi.flags.log rfl,
    hi.tasks.log ht (by simp [Event.starts])⟩

/-- The pending outcomes are dropped. -/
theorem clearPending (hi : Inv s) (ht : t < s.nextTask)
    (hj : Justified t (.pendingCleared c) s.history) : Inv (s.clearPending t c) := by
  have hpend : ∀ c' q, pendingIn (s.pendingOutcomes.erase c) c' q =
      if c = c' then none else pendingIn s.pendingOutcomes c' q := by
    intro c' q
    rw [pendingIn]
    simp only [ExtTreeMap.getElem?_erase, Std.compare_eq_iff_eq]
    split <;> rfl
  exact ⟨⟨hj, hi.lawful⟩, hi.catalogue.log rfl, hi.processes.log rfl, hi.signals.log rfl,
    hi.pendings.clear hpend, hi.commits.log rfl, hi.results.log rfl, hi.flags.log rfl,
    hi.tasks.log ht (by simp [Event.starts])⟩

/-- The scope enters the report history, which displaces the oldest beyond its bound. -/
theorem completeScope (hi : Inv s) (ht : t < s.nextTask)
    (hj : Justified t (.scopeCompleted c) s.history) : Inv (s.completeScope t c) :=
  ⟨⟨hj, hi.lawful⟩, hi.catalogue.log rfl, hi.processes.log rfl, hi.signals.log rfl,
    hi.pendings.log rfl, hi.commits.complete hj.2, hi.results.log rfl, hi.flags.log rfl,
    hi.tasks.log ht (by simp [Event.starts])⟩

/-! ### The return of a task -/

/-- The return of a call is logged. -/
theorem finish (hi : Inv s) (ht : t < s.nextTask) {v : Ret}
    (hj : JustifiedReturn t v s.history) : Inv (s.finish t v) :=
  ⟨⟨hj, hi.lawful⟩, hi.catalogue.log rfl, hi.processes.log rfl, hi.signals.log rfl,
    hi.pendings.log rfl, hi.commits.log rfl, hi.results.log rfl, hi.flags.log rfl,
    hi.tasks.finish ht⟩

end Inv

/-- **An operation run under its precondition keeps the invariant.** The operations that are not in
the sections above record events nothing depends on, or change stores outside the invariant. -/
theorem exec_inv {o : Op} {a : Answer} {r : Res o} (hi : Inv s) (ht : t < s.nextTask)
    (ha : o.Allowed t s) (he : exec t o a s = some (r, s')) : Inv s' := by
  obtain ⟨hheld, hpre⟩ := ha
  induction o generalizing a s s' with
  | orObserve f o ih =>
      obtain ⟨_, -, rfl⟩ | ⟨_, -, hrs⟩ := exec_orObserve he
      · exact hi
      · exact ih hi ht hrs hheld hpre
  | orElapsed o ih =>
      obtain ⟨-, rfl⟩ | ⟨_, -, hrs⟩ := exec_orElapsed he
      · exact hi
      · exact ih hi ht hrs hheld hpre
  | createScope observed =>
      simp only [exec] at he
      split at he
      · next hb => exact of_some he (hi.createScope ht observed hb)
      · cases he
  | lockOperation c =>
      simp only [exec] at he
      split at he
      · next hfree => exact of_some he (hi.lockOperation ht hpre hfree)
      · cases he
  | unlockOperation c => exact of_some he (hi.unlockOperation ht hpre.1 hpre.2)
  | dropGuards => exact of_some he (hi.dropGuards ht hpre)
  | storeShuttingDown => exact of_some he (hi.storeShuttingDown ht)
  | storeOwnersDropped => exact of_some he (hi.storeOwnersDropped ht)
  | spawnCall c spec => exact of_some he (hi.quiet ht rfl hpre)
  | spawnReturn c =>
      simp only [exec] at he
      split at he
      · next result => exact of_some he (hi.quiet ht rfl (hpre result))
      · cases he
  | attach c os spec =>
      simp only [exec] at he
      split at he
      · next hb =>
          obtain ⟨hc, hr, hd, hsp⟩ := hpre
          exact of_some he (hi.attach ht hb hc hr hd hsp spec)
      · cases he
  | keepOutput p admission =>
      simp only [exec] at he
      split at he
      · exact of_some he (hi.keepOutput _ _)
      · cases he
  | startMonitor c p os =>
      exact of_some he (hi.start ht rfl (hpre _) (hi.commits.log rfl))
  | retryWait p os timeout =>
      have hgave : ∀ {s : Inner}, Inv s → t < s.nextTask → Inv (s.log t (.gaveUp p)) :=
        fun hi ht => hi.quiet ht rfl trivial
      have hwait : ∀ result, Inv (s.log t (.waitReturned os result)) :=
        fun _ => hi.quiet ht rfl trivial
      simp only [exec] at he
      split at he
      · exact of_some he (hwait _)
      · exact of_some he (hgave (hwait _) ht)
      · split at he
        · exact of_some he (hgave hi ht)
        · cases he
      · cases he
  | storeSample p sample =>
      refine of_some he ?_
      dsimp only
      simp only [Inner.storeSample]
      split
      · exact hi.frame _ _ _ _ _ _ _ _
      · exact hi
  | registerSampler =>
      simp only [exec] at he
      split at he
      · exact of_some he (hi.frame _ _ _ _ _ _ _ _)
      · next hbusy =>
          obtain ⟨t', hh⟩ := Option.ne_none_iff_exists'.mp hbusy
          obtain ⟨c, hc, hr⟩ := hpre
          exact absurd ((hi.flags.sampler hh).2 c hc) hr
  | recordMonitored c p result =>
      obtain ⟨hm, hn, os, hat, hw⟩ := hpre
      exact of_some he (hi.recordMonitored ht hm hn hat hw)
  | notify ev => exact of_some he (hi.notify ht hpre.1 hpre.2)
  | prune ev => exact of_some he (hi.prune hpre)
  | recordRecovered c p raw =>
      obtain ⟨hr, os, hat, hw⟩ := hpre
      exact of_some he (hi.recordRecovered ht raw hr hat hw)
  | drain c => exact of_some he (hi.drain ht c)
  | startWorker c p f opts =>
      refine of_some he (hi.start ht rfl (fun c' p' hw => ?_) (hi.commits.log rfl))
      exact absurd (hi.tasks.started hw rfl) (Nat.lt_irrefl _)
  | pend c p o =>
      obtain ⟨⟨d, hd, hp⟩, hnc, hv⟩ := hpre
      exact of_some he (hi.pend ht hd hp hnc hv)
  | mergePending c outcomes =>
      obtain ⟨d, hd, hnc, hout⟩ := hpre
      simp only [exec] at he
      split at he
      · split at he
        · exact of_some he (hi.mergePending hd hnc hout)
        · cases he
      · cases he
  | setSerial c report => exact of_some he (hi.setSerial ht (hheld c rfl) hpre)
  | publish c v => exact of_some he (hi.publish ht hpre)
  | retainResult c => exact of_some he (hi.retainResult ht hpre)
  | retainReport c report => exact of_some he (hi.retainReport ht hpre.1 hpre.2)
  | removeScope c => exact of_some he (hi.removeScope ht hpre)
  | retireOperation c => exact of_some he (hi.retireOperation ht hpre)
  | clearPending c => exact of_some he (hi.clearPending ht hpre)
  | completeScope c => exact of_some he (hi.completeScope ht hpre)
  | handScopeClosed c =>
      refine of_some he (hi.start ht rfl ⟨hpre.1, hpre.2, fun c' hw => ?_⟩ hi.commits.handed)
      exact absurd (hi.tasks.started hw rfl) (Nat.lt_irrefl _)
  | snapshot =>
      simp only [exec] at he
      split at he
      · exact of_some he hi
      · next hmiss =>
          refine absurd hmiss ?_
          simp only [Inner.snapshot]
          rw [if_pos]
          · simp
          · refine List.all_eq_true.mpr fun c hc => (hi.catalogue.operation c).mpr ?_
            obtain ⟨hcr, hrm⟩ := (hi.catalogue.registered c).mp ((s.registry.mem_scopeIds c).mp hc)
            exact ⟨hcr, fun hx => hrm (hi.lawful.removed_of_retired hx)⟩
  | lockSampler =>
      simp only [exec] at he
      split at he
      · exact of_some he (hi.samplerHolder fun t' _ => .inr hpre)
      · cases he
  | unlockSampler => exact of_some he (hi.samplerHolder fun t' hh => by cases hh)
  | takeOwner c =>
      simp only [exec] at he
      split at he
      · exact of_some he (hi.takeOwner c)
      · cases he
  | _ =>
      simp only [exec] at he
      repeat' split at he
      all_goals first
        | exact of_some he hi
        | exact of_some he (hi.quiet ht rfl trivial)
        | exact of_some he (hi.frame _ _ _ _ _ _ _ _)
        | exact of_some he (hi.retainCompletedOutput _)
        | exact of_some he (hi.beginTermination _)
        | exact of_some he (hi.escalate _ _)
        | exact of_some he (hi.registerWait _)
        | exact of_some he (hi.settleFor ht _ _)
        | exact of_map he fun _ => hi
        | exact of_map he fun _ => hi.settleFor ht _ _
        | exact absurd he (by simp)

end Shepherd
