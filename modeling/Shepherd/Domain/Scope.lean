import Mathlib.Data.List.Basic
import Shepherd.Domain.Process

/-!
# The Scope Aggregate

`ProcessScope` is the aggregate root of a set of processes with one lifetime. The seven
operations below are those of `shepherd-domain`'s `scope.rs`: each returns its result —
the domain events of the transitions it performed, or a domain error — together with the
scope after it. An operation that fails leaves the scope as it was.

The process map is a `BTreeMap` in the source and an extensional ordered map here, so
two scopes with the same identity, state and processes are equal. The map is private in
the source and every entry is stored under its own identifier; the field `keyed` says so.

For each operation a lookup lemma says what becomes of every process, and
`recordReaped_state` says when the scope closes. Nothing after this module unfolds an
operation.
-/

open Std

namespace Shepherd

/-- The aggregate root: identity, state, and the processes tracked, by identifier. -/
structure ProcessScope where
  id : ProcessScopeId
  state : ScopeState
  processes : ExtTreeMap ProcessId Process
  keyed : ∀ (pid : ProcessId) (p : Process), processes[pid]? = some p → p.id = pid

namespace ProcessScope

/-- A new, open scope. -/
def new (id : ProcessScopeId) : ProcessScope where
  id := id
  state := .open
  processes := ∅
  keyed := by simp

/-- Whether the scope will accept new processes. -/
def isOpen (s : ProcessScope) : Bool :=
  s.state.acceptsProcesses

/-- The contained process, if present. -/
def get (s : ProcessScope) (pid : ProcessId) : Option Process :=
  s.processes[pid]?

/-- Whether the scope owns `pid`. -/
def contains (s : ProcessScope) (pid : ProcessId) : Bool :=
  s.processes.contains pid

/-- The recorded exit of a process, if it is present and has one. -/
def exitOf (s : ProcessScope) (pid : ProcessId) : Option ProcessExit :=
  (s.get pid).bind Process.exit

/-- All process ids currently tracked, in ascending order. -/
def processIds (s : ProcessScope) : List ProcessId :=
  s.processes.keys

/-- Whether any tracked process is still alive. -/
def hasLiveProcesses (s : ProcessScope) : Bool :=
  s.processes.toList.any fun kp => kp.2.state.isLive

/-- Ids of the processes that are still alive, in ascending order. -/
def liveProcessIds (s : ProcessScope) : List ProcessId :=
  (s.processes.toList.filter fun kp => kp.2.state.isLive).map fun kp => kp.2.id

/-- Every tracked process has a verified exit. -/
def allVerified (s : ProcessScope) : Bool :=
  s.processes.toList.all fun kp => kp.2.exit.any fun e => e.outcome.isVerified

/-- Inserts a process under its own identifier. -/
def insert (s : ProcessScope) (p : Process) : ProcessScope where
  id := s.id
  state := s.state
  processes := s.processes.insert p.id p
  keyed := by
    intro pid q
    rw [ExtTreeMap.getElem?_insert]
    split
    · next h => rintro ⟨⟩; exact Std.compare_eq_iff_eq.mp h
    · exact s.keyed pid q

/-- Changes the process at `pid` in place, as through `get_mut`. -/
def update (s : ProcessScope) (pid : ProcessId) (f : Process → Process)
    (hf : ∀ p, (f p).id = p.id) : ProcessScope where
  id := s.id
  state := s.state
  processes := s.processes.modify pid f
  keyed := by
    intro q p
    rw [ExtTreeMap.getElem?_modify]
    split
    · next h =>
        obtain rfl := Std.compare_eq_iff_eq.mp h
        simp only [Option.map_eq_some_iff]
        rintro ⟨p₀, h₀, rfl⟩
        exact (hf p₀).trans (s.keyed pid p₀ h₀)
    · exact s.keyed q p

/-- Attaches a freshly spawned process. -/
def attachSpawned (s : ProcessScope) (pid : ProcessId) (os : OsIdentity)
    (spec : ProcessSpec) : Except DomainError DomainEvent × ProcessScope :=
  if !s.state.acceptsProcesses then
    (.error (.scopeClosed s.id), s)
  else if s.processes.contains pid then
    (.error (.invalidTransition "owned" "attach duplicate process"), s)
  else
    (.ok (.processSpawned s.id pid), s.insert (Process.running pid os spec))

/-- Requests graceful termination of one process. -/
def requestTermination (s : ProcessScope) (pid : ProcessId) :
    Except DomainError (List DomainEvent) × ProcessScope :=
  match s.get pid with
  | none => (.error (.unknownProcess pid), s)
  | some p =>
      (.ok (if p.requestGraceful.1 then [.terminationRequested s.id pid] else []),
        s.update pid (fun p => p.requestGraceful.2) Process.requestGraceful_id)

/-- Escalates one process to forceful termination. -/
def escalateTermination (s : ProcessScope) (pid : ProcessId) :
    Except DomainError Unit × ProcessScope :=
  match s.get pid with
  | none => (.error (.unknownProcess pid), s)
  | some _ =>
      (.ok (), s.update pid (fun p => p.escalateToForce.2) Process.escalateToForce_id)

/-- The events of a graceful request made to every process of a list. -/
def terminationRequests (scope : ProcessScopeId) (entries : List (ProcessId × Process)) :
    List DomainEvent :=
  (entries.filter fun kp => kp.2.requestGraceful.1).map
    fun kp => .terminationRequested scope kp.2.id

/-- Begins terminating the whole scope: to draining, with a graceful request for every
process, in ascending order. -/
def beginScopeTermination (s : ProcessScope) : List DomainEvent × ProcessScope :=
  (terminationRequests s.id s.processes.toList,
    { id := s.id
      state := if s.state = .open then .draining else s.state
      processes := s.processes.map fun _ p => p.requestGraceful.2
      keyed := by
        intro pid p
        rw [ExtTreeMap.getElem?_map, Option.map_eq_some_iff]
        rintro ⟨p₀, h₀, rfl⟩
        exact p₀.requestGraceful_id.trans (s.keyed pid p₀ h₀) })

/-- Records that a process was observed to have exited. -/
def recordExit (s : ProcessScope) (pid : ProcessId) :
    Except DomainError (List DomainEvent) × ProcessScope :=
  match s.get pid with
  | none => (.error (.unknownProcess pid), s)
  | some p =>
      (.ok (if p.markExited.1 then [.processExited s.id pid] else []),
        s.update pid (fun p => p.markExited.2) Process.markExited_id)

/-- The scope with the reap of one process stored. -/
def markReaped (s : ProcessScope) (pid : ProcessId) (exit : ProcessExit) : ProcessScope :=
  s.update pid (fun p => (p.markReaped exit).2) fun p => p.markReaped_id exit

/-- Records that a process was reaped; closes a draining scope once every process left
in it has a verified exit. -/
def recordReaped (s : ProcessScope) (pid : ProcessId) (exit : ProcessExit) :
    Except DomainError (List DomainEvent) × ProcessScope :=
  match s.get pid with
  | none => (.error (.unknownProcess pid), s)
  | some p =>
      let s' := s.markReaped pid exit
      if (p.markReaped exit).1 then
        if s'.state = .draining ∧ !s'.hasLiveProcesses ∧ s'.allVerified then
          (.ok [.processReaped s.id pid exit, .scopeClosed s.id],
            { s' with state := .closed })
        else (.ok [.processReaped s.id pid exit], s')
      else (.ok [], s')

/-- Removes a reaped process with a verified exit; any other stays. -/
def prune (s : ProcessScope) (pid : ProcessId) : ProcessScope :=
  if (s.get pid).any fun p =>
      p.state.isTerminal && p.exit.any fun e => e.outcome.isVerified then
    { id := s.id
      state := s.state
      processes := s.processes.erase pid
      keyed := by
        intro q p
        rw [ExtTreeMap.getElem?_erase]
        split
        · exact fun h => absurd h (by simp)
        · exact s.keyed q p }
  else s

/-! ### Lookups after an operation -/

/-- A new scope tracks no process. -/
@[simp] theorem get_new (id : ProcessScopeId) (pid : ProcessId) :
    (new id).get pid = none := by
  simp [new, get]

/-- A process is tracked under its own identifier. -/
theorem id_of_get {s : ProcessScope} {pid : ProcessId} {p : Process}
    (h : s.get pid = some p) : p.id = pid :=
  s.keyed pid p h

/-- What a scope tracks after an insertion. -/
@[simp] theorem get_insert (s : ProcessScope) (p : Process) (q : ProcessId) :
    (s.insert p).get q = if p.id = q then some p else s.get q := by
  simp [insert, get, ExtTreeMap.getElem?_insert]

/-- What a scope tracks after a change of one process. -/
@[simp] theorem get_update (s : ProcessScope) (pid q : ProcessId) (f : Process → Process)
    (hf : ∀ p, (f p).id = p.id) :
    (s.update pid f hf).get q = if pid = q then (s.get q).map f else s.get q := by
  simp only [update, get, ExtTreeMap.getElem?_modify, Std.compare_eq_iff_eq]
  split
  · next h => rw [h]
  · rfl

/-- Two scopes are equal when identity, state and all lookups agree. -/
theorem ext_get {s t : ProcessScope} (hi : s.id = t.id) (hs : s.state = t.state)
    (hg : ∀ pid, s.get pid = t.get pid) : s = t := by
  obtain ⟨si, ss, sp, sk⟩ := s
  obtain ⟨ti, ts, tp, tk⟩ := t
  simp only at hi hs
  subst hi hs
  congr 1
  exact ExtTreeMap.ext_getElem? hg

/-- An update that leaves the process as it is changes nothing. -/
theorem update_eq_self {s : ProcessScope} {pid : ProcessId} {f : Process → Process}
    (hf : ∀ p, (f p).id = p.id) (h : ∀ p, s.get pid = some p → f p = p) :
    s.update pid f hf = s := by
  refine ext_get rfl rfl fun q => ?_
  rw [get_update]
  split
  · next hq =>
      subst hq
      cases hp : s.get pid with
      | none => rfl
      | some p => rw [Option.map_some, h p hp]
  · rfl

/-- What a scope contains is tracked. -/
theorem contains_iff (s : ProcessScope) (pid : ProcessId) :
    s.contains pid = true ↔ ∃ p, s.get pid = some p := by
  simp [contains, get, ExtTreeMap.contains_iff_mem, ← Option.isSome_iff_exists]

/-- The identifiers of a scope are those of its processes. -/
theorem mem_processIds (s : ProcessScope) (pid : ProcessId) :
    pid ∈ s.processIds ↔ ∃ p, s.get pid = some p := by
  rw [processIds, ExtTreeMap.mem_keys, ← ExtTreeMap.contains_iff_mem, ← contains,
    contains_iff]

/-- The exit of a process is the one it stores. -/
theorem exitOf_eq_some {s : ProcessScope} {pid : ProcessId} {e : ProcessExit} :
    s.exitOf pid = some e ↔ ∃ p, s.get pid = some p ∧ p.exit = some e := by
  rw [exitOf, Option.bind_eq_some_iff]

/-- The entries of the map are the processes that lookups find. -/
theorem mem_toList (s : ProcessScope) (pid : ProcessId) (p : Process) :
    (pid, p) ∈ s.processes.toList ↔ s.get pid = some p :=
  ExtTreeMap.mem_toList_iff_getElem?_eq_some

/-- The closing test reads every process the scope tracks. -/
theorem allVerified_iff (s : ProcessScope) :
    s.allVerified = true ↔
      ∀ pid p, s.get pid = some p → ∃ e, p.exit = some e ∧ e.Verified := by
  simp only [allVerified, List.all_eq_true, Prod.forall, mem_toList, Option.any_eq_true]
  rfl

/-- A scope whose processes all have a verified exit has no live process. -/
theorem not_hasLiveProcesses {s : ProcessScope} (h : s.allVerified = true) :
    s.hasLiveProcesses = false := by
  rw [hasLiveProcesses, List.any_eq_false]
  rintro ⟨pid, p⟩ hp
  obtain ⟨e, he, -⟩ := (allVerified_iff s).mp h pid p ((mem_toList s pid p).mp hp)
  rw [Process.state_of_exit he]
  decide

/-! ### The operations, by what they do to each process -/

/-- An attach adds one running process to an open scope, or fails and changes nothing. -/
theorem attachSpawned_cases (s : ProcessScope) (pid : ProcessId) (os : OsIdentity)
    (spec : ProcessSpec) :
    (s.state = .open ∧ s.get pid = none ∧
      s.attachSpawned pid os spec =
        (.ok (.processSpawned s.id pid), s.insert (Process.running pid os spec))) ∨
    ((s.state ≠ .open ∨ s.get pid ≠ none) ∧
      ∃ err, s.attachSpawned pid os spec = (.error err, s)) := by
  have ho : s.state.acceptsProcesses = true ↔ s.state = .open := by
    cases s.state <;> decide
  by_cases hs : s.state = .open
  · cases hg : s.get pid with
    | none =>
        have hc : s.processes.contains pid = false := by
          rw [Bool.eq_false_iff]
          exact fun h => by obtain ⟨p, hp⟩ := (contains_iff s pid).mp h; simp [hg] at hp
        exact .inl ⟨hs, rfl, by simp [attachSpawned, ho.mpr hs, hc]⟩
    | some p =>
        have hc : s.processes.contains pid = true := (contains_iff s pid).mpr ⟨p, hg⟩
        exact .inr ⟨.inr (by simp), _, by simp [attachSpawned, ho.mpr hs, hc]; rfl⟩
  · have hn : s.state.acceptsProcesses = false := by
      rw [Bool.eq_false_iff]; exact fun h => hs (ho.mp h)
    exact .inr ⟨.inl hs, _, by simp [attachSpawned, hn]; rfl⟩

/-- The termination of a scope requests that of each process. -/
theorem beginScopeTermination_get (s : ProcessScope) (pid : ProcessId) :
    s.beginScopeTermination.2.get pid =
      (s.get pid).map fun p => p.requestGraceful.2 := by
  simp [beginScopeTermination, get, ExtTreeMap.getElem?_map]

/-- The termination of a scope makes an open scope drain. -/
theorem beginScopeTermination_state (s : ProcessScope) :
    s.beginScopeTermination.2.state = if s.state = .open then .draining else s.state :=
  rfl

/-- The events of the call: one for each process that was running. -/
theorem mem_beginScopeTermination_fst {s : ProcessScope} {ev : DomainEvent} :
    ev ∈ s.beginScopeTermination.1 ↔
      ∃ pid p, s.get pid = some p ∧ p.state = .running ∧
        ev = .terminationRequested s.id p.id := by
  simp only [beginScopeTermination, terminationRequests, List.mem_map, List.mem_filter,
    Prod.exists, mem_toList]
  constructor
  · rintro ⟨pid, p, ⟨hp, hm⟩, rfl⟩
    rcases p.requestGraceful_cases with ⟨hr, -⟩ | ⟨-, hn⟩
    · exact ⟨pid, p, hp, hr, rfl⟩
    · simp [hn] at hm
  · rintro ⟨pid, p, hp, hr, rfl⟩
    rcases p.requestGraceful_cases with ⟨-, hm, -⟩ | ⟨hn, -⟩
    · exact ⟨pid, p, ⟨hp, hm⟩, rfl⟩
    · exact absurd hr hn

/-- The three ways a reap of a tracked process can end: it is refused, it is recorded,
or it is recorded and closes the scope. -/
theorem recordReaped_cases (s : ProcessScope) (pid : ProcessId) (exit : ProcessExit)
    {p : Process} (hp : s.get pid = some p) :
    ((p.markReaped exit).1 = false ∧ s.recordReaped pid exit = (.ok [], s)) ∨
    ((p.markReaped exit).1 = true ∧
      ¬ (s.state = .draining ∧ (s.markReaped pid exit).allVerified = true) ∧
      s.recordReaped pid exit =
        (.ok [.processReaped s.id pid exit], s.markReaped pid exit)) ∨
    ((p.markReaped exit).1 = true ∧ s.state = .draining ∧
      (s.markReaped pid exit).allVerified = true ∧
      s.recordReaped pid exit =
        (.ok [.processReaped s.id pid exit, .scopeClosed s.id],
          { s.markReaped pid exit with state := .closed })) := by
  rcases hm : (p.markReaped exit).1 with - | -
  · refine .inl ⟨rfl, ?_⟩
    have hs : s.markReaped pid exit = s := by
      refine update_eq_self (fun p => p.markReaped_id exit) fun q hq => ?_
      obtain rfl : p = q := by rw [hp] at hq; exact Option.some.inj hq
      rcases p.markReaped_cases exit with ⟨-, h, -⟩ | ⟨-, h⟩
      · rw [hm] at h; exact absurd h (by decide)
      · rw [h]
    simp [recordReaped, hp, hm, hs]
  · have hst : (s.markReaped pid exit).state = s.state := rfl
    by_cases hc : s.state = .draining ∧ (s.markReaped pid exit).allVerified = true
    · refine .inr (.inr ⟨rfl, hc.1, hc.2, ?_⟩)
      simp [recordReaped, hp, hm, hst, hc.1, hc.2, not_hasLiveProcesses hc.2]
    · refine .inr (.inl ⟨rfl, hc, ?_⟩)
      rw [recordReaped, hp]
      simp only [hm, if_true]
      rw [if_neg]
      rintro ⟨h1, -, h2⟩
      exact hc ⟨h1, h2⟩

/-- No exit is recorded of a process that is not tracked. -/
theorem recordReaped_unknown {s : ProcessScope} {pid : ProcessId} (exit : ProcessExit)
    (hp : s.get pid = none) :
    s.recordReaped pid exit = (.error (.unknownProcess pid), s) := by
  simp [recordReaped, hp]

/-- Whatever a reap does, lookups elsewhere are unchanged. -/
theorem recordReaped_get (s : ProcessScope) (pid q : ProcessId) (exit : ProcessExit) :
    (s.recordReaped pid exit).2.get q =
      if pid = q then (s.get q).map fun p => (p.markReaped exit).2 else s.get q := by
  cases hp : s.get pid with
  | none =>
      rw [recordReaped_unknown exit hp]
      split
      · next h => rw [← h, hp]; rfl
      · rfl
  | some p =>
      have hget : (s.markReaped pid exit).get q =
          if pid = q then (s.get q).map fun p => (p.markReaped exit).2 else s.get q :=
        get_update ..
      rcases recordReaped_cases s pid exit hp with ⟨hm, h⟩ | ⟨-, -, h⟩ | ⟨-, -, -, h⟩
      · rw [h]
        split
        · next hq =>
            subst hq
            rcases p.markReaped_cases exit with ⟨-, h', -⟩ | ⟨-, h'⟩
            · rw [hm] at h'; exact absurd h' (by decide)
            · rw [hp, Option.map_some, h']
        · rfl
      · rw [h]; exact hget
      · rw [h]; exact hget

/-- A prune removes exactly a process with a verified exit. -/
theorem prune_cases (s : ProcessScope) (pid : ProcessId) :
    (∃ p e, s.get pid = some p ∧ p.exit = some e ∧ e.Verified ∧
      (s.prune pid).processes = s.processes.erase pid) ∨
    ((∀ p e, s.get pid = some p → p.exit = some e → ¬ e.Verified) ∧ s.prune pid = s) := by
  by_cases h : ∃ p e, s.get pid = some p ∧ p.exit = some e ∧ e.Verified
  · obtain ⟨p, e, hp, he, hv⟩ := h
    refine .inl ⟨p, e, hp, he, hv, ?_⟩
    have ht : p.state.isTerminal = true := by rw [Process.state_of_exit he]; rfl
    simp [prune, hp, he, ht, show e.outcome.isVerified = true from hv]
  · push Not at h
    refine .inr ⟨h, ?_⟩
    rw [prune, if_neg]
    simp only [Option.any_eq_true, Bool.and_eq_true]
    rintro ⟨p, hp, -, e, he, hv⟩
    exact h p e hp he hv

/-- A process is pruned when its exit is verified. -/
theorem prune_get (s : ProcessScope) (pid q : ProcessId) :
    (s.prune pid).get q =
      if pid = q ∧ ∃ e, s.exitOf q = some e ∧ e.Verified then none else s.get q := by
  rcases s.prune_cases pid with ⟨p, e, hp, he, hv, h⟩ | ⟨hn, h⟩
  · simp only [get, h, ExtTreeMap.getElem?_erase, Std.compare_eq_iff_eq]
    by_cases hq : pid = q
    · subst hq
      rw [if_pos rfl, if_pos ⟨rfl, e, exitOf_eq_some.mpr ⟨p, hp, he⟩, hv⟩]
    · rw [if_neg hq, if_neg fun hc => hq hc.1]
  · rw [h, if_neg]
    rintro ⟨rfl, e, he, hv⟩
    obtain ⟨p, hp, he⟩ := exitOf_eq_some.mp he
    exact hn p e hp he hv

/-- Pruning does not change the state of the scope. -/
@[simp] theorem prune_state (s : ProcessScope) (pid : ProcessId) :
    (s.prune pid).state = s.state := by
  rw [prune]; split <;> rfl

/-- Pruning keeps the identifier of the scope. -/
@[simp] theorem prune_id (s : ProcessScope) (pid : ProcessId) :
    (s.prune pid).id = s.id := by
  rw [prune]; split <;> rfl

/-- A graceful request changes the process it names. -/
theorem requestTermination_get (s : ProcessScope) (pid q : ProcessId) :
    (s.requestTermination pid).2.get q =
      if pid = q then (s.get q).map fun p => p.requestGraceful.2 else s.get q := by
  rw [requestTermination]
  split
  · next hp =>
      split
      · next hq => rw [← hq, hp]; rfl
      · rfl
  · exact get_update s pid q _ Process.requestGraceful_id

/-- An escalation is one of a single process. -/
theorem escalateTermination_get (s : ProcessScope) (pid q : ProcessId) :
    (s.escalateTermination pid).2.get q =
      if pid = q then (s.get q).map fun p => p.escalateToForce.2 else s.get q := by
  rw [escalateTermination]
  split
  · next hp =>
      split
      · next hq => rw [← hq, hp]; rfl
      · rfl
  · exact get_update s pid q _ Process.escalateToForce_id

/-- The record of an exit is one of a single process. -/
theorem recordExit_get (s : ProcessScope) (pid q : ProcessId) :
    (s.recordExit pid).2.get q =
      if pid = q then (s.get q).map fun p => p.markExited.2 else s.get q := by
  rw [recordExit]
  split
  · next hp =>
      split
      · next hq => rw [← hq, hp]; rfl
      · rfl
  · exact get_update s pid q _ Process.markExited_id

/-- A request does not change the state of the scope. -/
@[simp] theorem requestTermination_state (s : ProcessScope) (pid : ProcessId) :
    (s.requestTermination pid).2.state = s.state := by
  rw [requestTermination]; split <;> rfl

/-- An escalation does not change the state of the scope. -/
@[simp] theorem escalateTermination_state (s : ProcessScope) (pid : ProcessId) :
    (s.escalateTermination pid).2.state = s.state := by
  rw [escalateTermination]; split <;> rfl

/-- The record of an exit does not change the state of the scope. -/
@[simp] theorem recordExit_state (s : ProcessScope) (pid : ProcessId) :
    (s.recordExit pid).2.state = s.state := by
  rw [recordExit]; split <;> rfl

/-! ### Admission -/

/-- A scope is open exactly in the state `open`. -/
theorem isOpen_iff (s : ProcessScope) : s.isOpen = true ↔ s.state = .open := by
  simp only [isOpen, ScopeState.acceptsProcesses]
  cases s.state <;> simp

/-- Whether a scope is open depends on its state alone. -/
theorem isOpen_of_state {s s' : ProcessScope} (h : s'.state = s.state) :
    s'.isOpen = s.isOpen := by
  simp only [isOpen]; rw [h]

/-- A reap never opens or drains a scope. -/
@[simp] theorem recordReaped_isOpen (s : ProcessScope) (pid : ProcessId)
    (exit : ProcessExit) : (s.recordReaped pid exit).2.isOpen = s.isOpen := by
  cases hp : s.get pid with
  | none => rw [recordReaped_unknown exit hp]
  | some p =>
      rcases s.recordReaped_cases pid exit hp with ⟨-, h⟩ | ⟨-, -, h⟩ | ⟨-, hd, -, h⟩
      · rw [h]
      · rw [h]; rfl
      · rw [h]; simp [isOpen, hd, ScopeState.acceptsProcesses]

/-- A scope that began to terminate is not open. -/
@[simp] theorem beginScopeTermination_isOpen (s : ProcessScope) :
    s.beginScopeTermination.2.isOpen = false := by
  rw [Bool.eq_false_iff, ne_eq, isOpen_iff, beginScopeTermination_state]
  split
  · decide
  · next h => exact h

/-! ### Identity -/

/-- An attachment keeps the identifier of the scope. -/
@[simp] theorem attachSpawned_id (s : ProcessScope) (pid : ProcessId) (os : OsIdentity)
    (spec : ProcessSpec) : (s.attachSpawned pid os spec).2.id = s.id := by
  rcases s.attachSpawned_cases pid os spec with ⟨-, -, h⟩ | ⟨-, err, h⟩
  · rw [h]; rfl
  · rw [h]

/-- A request keeps the identifier of the scope. -/
@[simp] theorem requestTermination_id (s : ProcessScope) (pid : ProcessId) :
    (s.requestTermination pid).2.id = s.id := by
  rw [requestTermination]; split <;> rfl

/-- An escalation keeps the identifier of the scope. -/
@[simp] theorem escalateTermination_id (s : ProcessScope) (pid : ProcessId) :
    (s.escalateTermination pid).2.id = s.id := by
  rw [escalateTermination]; split <;> rfl

/-- The termination of a scope keeps its identifier. -/
@[simp] theorem beginScopeTermination_id (s : ProcessScope) :
    s.beginScopeTermination.2.id = s.id :=
  rfl

/-- The record of an exit keeps the identifier of the scope. -/
@[simp] theorem recordExit_id (s : ProcessScope) (pid : ProcessId) :
    (s.recordExit pid).2.id = s.id := by
  rw [recordExit]; split <;> rfl

/-- The record of a reap keeps the identifier of the scope. -/
@[simp] theorem recordReaped_id (s : ProcessScope) (pid : ProcessId) (exit : ProcessExit) :
    (s.recordReaped pid exit).2.id = s.id := by
  cases hp : s.get pid with
  | none => rw [recordReaped_unknown exit hp]
  | some p =>
      rcases s.recordReaped_cases pid exit hp with ⟨-, h⟩ | ⟨-, -, h⟩ | ⟨-, -, -, h⟩
      · rw [h]
      · rw [h]; rfl
      · rw [h]; rfl

end ProcessScope

end Shepherd
