import Mathlib.Data.List.Induction
import Shepherd.Domain.Scope

/-!
# Runs of a Scope

A run is a finite sequence of the seven operations applied to a new scope, with
arbitrary arguments. This module says once what an operation does to a single process
(`Fate`, `apply_fate`) and to the scope state (`apply_state`); what holds of whole runs
is proved by induction over these.

The headline is `scope_closes_on_complete_evidence`: a closed scope has seen a verified
exit of every process ever attached, a process leaves only after its verified exit was
recorded, a recorded verified exit is final, unverified evidence keeps both the process
and the scope, and the state only moves forward. What the operations return along a run
is the subject of `Shepherd.Domain.Grammar`.
-/

namespace Shepherd

/-- The seven operations, with their arguments. -/
inductive ScopeOp where
  | attachSpawned (pid : ProcessId) (os : OsIdentity) (spec : ProcessSpec)
  | requestTermination (pid : ProcessId)
  | escalateTermination (pid : ProcessId)
  | beginScopeTermination
  | recordExit (pid : ProcessId)
  | recordReaped (pid : ProcessId) (exit : ProcessExit)
  | prune (pid : ProcessId)

namespace ScopeOp

/-- The process an operation names; the scope-wide one names none. -/
def pid? : ScopeOp → Option ProcessId
  | .attachSpawned pid _ _ | .requestTermination pid | .escalateTermination pid
  | .recordExit pid | .recordReaped pid _ | .prune pid => some pid
  | .beginScopeTermination => none

/-- The events a fallible operation returned: none when it failed. -/
def returned (r : Except DomainError (List DomainEvent) × ProcessScope) :
    List DomainEvent × ProcessScope :=
  (r.1.toOption.getD [], r.2)

/-- One operation: the events it returns and the scope after it. -/
def apply : ScopeOp → ProcessScope → List DomainEvent × ProcessScope
  | .attachSpawned pid os spec, s =>
      let r := s.attachSpawned pid os spec
      (r.1.toOption.toList, r.2)
  | .requestTermination pid, s => returned (s.requestTermination pid)
  | .escalateTermination pid, s => ([], (s.escalateTermination pid).2)
  | .beginScopeTermination, s => s.beginScopeTermination
  | .recordExit pid, s => returned (s.recordExit pid)
  | .recordReaped pid exit, s => returned (s.recordReaped pid exit)
  | .prune pid, s => ([], s.prune pid)

end ScopeOp

/-- The events about one process. -/
def project (pid : ProcessId) (events : List DomainEvent) : List DomainEvent :=
  events.filter fun ev => ev.pid? = some pid

namespace ProcessScope

/-- The scope after a sequence of operations. -/
def run (s : ProcessScope) (ops : List ScopeOp) : ProcessScope :=
  ops.foldl (fun s op => (op.apply s).2) s

/-- The events a sequence of operations returns, in order. -/
def runEvents : ProcessScope → List ScopeOp → List DomainEvent
  | _, [] => []
  | s, op :: ops => (op.apply s).1 ++ runEvents (op.apply s).2 ops

/-- No operation changes nothing. -/
@[simp] theorem run_nil (s : ProcessScope) : s.run [] = s := rfl

/-- A run, from its first operation on. -/
@[simp] theorem run_cons (s : ProcessScope) (op : ScopeOp) (ops : List ScopeOp) :
    s.run (op :: ops) = (op.apply s).2.run ops := rfl

/-- Two runs, one after the other. -/
theorem run_append (s : ProcessScope) (xs ys : List ScopeOp) :
    s.run (xs ++ ys) = (s.run xs).run ys := by
  simp [run, List.foldl_append]

/-- A run, up to its last operation. -/
theorem run_snoc (s : ProcessScope) (xs : List ScopeOp) (op : ScopeOp) :
    s.run (xs ++ [op]) = (op.apply (s.run xs)).2 := by
  rw [run_append]; rfl

/-- The events of two runs, one after the other. -/
theorem runEvents_append (s : ProcessScope) (xs ys : List ScopeOp) :
    s.runEvents (xs ++ ys) = s.runEvents xs ++ (s.run xs).runEvents ys := by
  induction xs generalizing s with
  | nil => rfl
  | cons op xs ih => simp [runEvents, ih, List.append_assoc]

/-- The events of a run, up to its last operation. -/
theorem runEvents_snoc (s : ProcessScope) (xs : List ScopeOp) (op : ScopeOp) :
    s.runEvents (xs ++ [op]) = s.runEvents xs ++ (op.apply (s.run xs)).1 := by
  rw [runEvents_append]
  simp [runEvents]

/-- Every attach of a run names a process that was not attached before. -/
def FreshAttaches (s : ProcessScope) (ops : List ScopeOp) : Prop :=
  ∀ pre pid os spec, pre ++ [.attachSpawned pid os spec] <+: ops →
    ∀ pre', pre' <+: pre → (s.run pre').get pid = none

/-- A run that attaches fresh processes did so from the beginning. -/
theorem FreshAttaches.earlier {s : ProcessScope} {xs ops : List ScopeOp}
    (h : s.FreshAttaches ops) (hp : xs <+: ops) : s.FreshAttaches xs :=
  fun pre pid os spec ha => h pre pid os spec (ha.trans hp)

/-- A run whose only attach is its first call attaches a process not attached before. -/
theorem freshAttaches_of_first (s : ProcessScope) {pid : ProcessId}
    (hn : s.get pid = none) (os : OsIdentity) (spec : ProcessSpec) (rest : List ScopeOp)
    (hrest : ∀ pid' os' spec', .attachSpawned pid' os' spec' ∉ rest) :
    s.FreshAttaches (.attachSpawned pid os spec :: rest) := by
  intro pre pid' os' spec' hpre pre' hpre'
  rcases pre with - | ⟨op, pre⟩
  · obtain rfl := List.prefix_nil.mp hpre'
    obtain ⟨h, -⟩ := List.cons_prefix_cons.mp hpre
    injection h with h
    rw [run_nil, h, hn]
  · obtain ⟨-, h⟩ := List.cons_prefix_cons.mp hpre
    exact absurd (h.subset (List.mem_append_right pre (List.mem_singleton.mpr rfl)))
      (hrest pid' os' spec')

/-- A verified exit of `pid` is recorded in the scope. -/
def VerifiedExit (s : ProcessScope) (pid : ProcessId) : Prop :=
  ∃ e, s.exitOf pid = some e ∧ e.Verified

end ProcessScope

/-! ### What one operation does to one process -/

/-- Everything an operation can do to the process `pid` of a scope in state `st`, with
the events about it that the operation returns. -/
inductive Fate (scope : ProcessScopeId) (st : ScopeState) (pid : ProcessId) :
    Option Process → List DomainEvent → Option Process → Prop
  | kept (x : Option Process) : Fate scope st pid x [] x
  | attached (os : OsIdentity) (spec : ProcessSpec) : st = .open →
      Fate scope st pid none [.processSpawned scope pid] (some (.running pid os spec))
  | asked {p p' : Process} : p.state = .running → p'.state = .gracefulRequested →
      Fate scope st pid (some p) [.terminationRequested scope pid] (some p')
  | forced {p p' : Process} : p.state = .running ∨ p.state = .gracefulRequested →
      p'.state = .forcing → Fate scope st pid (some p) [] (some p')
  | exited {p p' : Process} : p.state.isLive = true → p'.state = .exitedUnreaped →
      Fate scope st pid (some p) [.processExited scope pid] (some p')
  | reaped {p p' : Process} {e : ProcessExit} :
      (p.exit = none ∨ ∃ e₀, p.exit = some e₀ ∧ ¬ e₀.Verified ∧ e.Verified) →
      p'.exit = some e →
      Fate scope st pid (some p) [.processReaped scope pid e] (some p')
  | pruned {p : Process} {e : ProcessExit} : p.exit = some e → e.Verified →
      Fate scope st pid (some p) [] none

namespace ScopeOp

open ProcessScope

/-- The requests about one process among the entries of a map: the keys are distinct, so
at most one entry is about it. -/
theorem project_terminationRequests (scope : ProcessScopeId) (pid : ProcessId) :
    ∀ (l : List (ProcessId × Process)) (x : Option Process),
      (∀ kp ∈ l, kp.2.id = kp.1) → (l.map Prod.fst).Nodup →
      (∀ p, (pid, p) ∈ l ↔ x = some p) →
      project pid (terminationRequests scope l) =
        match x with
        | some p => if p.requestGraceful.1 then [.terminationRequested scope pid] else []
        | none => []
  | [], none, _, _, _ => rfl
  | [], some p, _, _, hmem => absurd ((hmem p).mpr rfl) (by simp)
  | (k, p) :: l, x, hkey, hnd, hmem => by
      simp only [List.map_cons, List.nodup_cons] at hnd
      have hk : p.id = k := hkey (k, p) (by simp)
      have hl : ∀ kp ∈ l, kp.2.id = kp.1 := fun kp h => hkey kp (by simp [h])
      have hcons : project pid (terminationRequests scope ((k, p) :: l)) =
          (if p.requestGraceful.1 ∧ k = pid then [.terminationRequested scope pid]
            else []) ++ project pid (terminationRequests scope l) := by
        simp only [project, terminationRequests, List.filter_cons]
        by_cases hg : p.requestGraceful.1 = true <;> by_cases hp : k = pid <;>
          simp [hg, hp, hk, DomainEvent.pid?]
      by_cases hpid : k = pid
      · subst hpid
        have hx : x = some p := (hmem p).mp (by simp)
        have hrest := project_terminationRequests scope k l none hl hnd.2 fun q => by
          simp only [reduceCtorEq, iff_false]
          exact fun hq => hnd.1 (List.mem_map.mpr ⟨(k, q), hq, rfl⟩)
        rw [hcons, hrest, hx]
        simp
      · have hrest := project_terminationRequests scope pid l x hl hnd.2 fun q => by
          rw [← hmem q, List.mem_cons]
          refine ⟨Or.inr, ?_⟩
          rintro (h | h)
          · exact absurd (congrArg Prod.fst h).symm hpid
          · exact h
        rw [hcons, hrest]
        simp [hpid]

/-- The events of `beginScopeTermination` about one process: at most its own request. -/
theorem project_begin (s : ProcessScope) (pid : ProcessId) :
    project pid s.beginScopeTermination.1 =
      match s.get pid with
      | some p => if p.requestGraceful.1 then [.terminationRequested s.id pid] else []
      | none => [] := by
  refine project_terminationRequests s.id pid _ _ ?_ ?_ (s.mem_toList pid)
  · intro kp hkp
    exact s.keyed kp.1 kp.2 ((s.mem_toList kp.1 kp.2).mp hkp)
  · refine List.pairwise_map.mpr (Std.ExtTreeMap.distinct_keys_toList.imp ?_)
    intro a b h he
    exact h (Std.compare_eq_iff_eq.mpr he)

/-- **One operation, one process.** -/
theorem apply_fate (op : ScopeOp) (s : ProcessScope) (q : ProcessId) :
    Fate s.id s.state q (s.get q) (project q (op.apply s).1) ((op.apply s).2.get q) := by
  have keep : ∀ {evs : List DomainEvent} {x : Option Process}, x = s.get q →
      project q evs = [] → Fate s.id s.state q (s.get q) (project q evs) x := by
    rintro evs x rfl h
    rw [h]
    exact .kept _
  cases op with
  | attachSpawned pid os spec =>
      rcases s.attachSpawned_cases pid os spec with ⟨ho, hn, h⟩ | ⟨-, err, h⟩
      · simp only [apply, h, Except.toOption, Option.toList]
        by_cases hq : pid = q
        · subst hq
          rw [hn, get_insert]
          simpa [project, DomainEvent.pid?, Process.running] using Fate.attached os spec ho
        · refine keep (by rw [get_insert]; exact if_neg hq) ?_
          simp [project, DomainEvent.pid?, hq]
      · exact keep (by simp [apply, h]) (by simp [apply, h, Except.toOption, project])
  | requestTermination pid =>
      cases hp : s.get pid with
      | none =>
          exact keep (by simp [apply, returned, ProcessScope.requestTermination, hp])
            (by
              simp [apply, returned, ProcessScope.requestTermination, hp, Except.toOption, project])
      | some p =>
          simp only [apply, returned, ProcessScope.requestTermination, hp, Except.toOption,
            Option.getD_some, get_update]
          by_cases hq : pid = q
          · subst hq
            rcases p.requestGraceful_cases with ⟨hr, hm, hs, -⟩ | ⟨-, hn⟩
            · rw [hp]
              simpa [hm, project, DomainEvent.pid?] using Fate.asked hr hs
            · exact keep (by simp [hp, hn]) (by simp [hn, project])
          · refine keep (if_neg hq) ?_
            split <;> simp [project, DomainEvent.pid?, hq]
  | escalateTermination pid =>
      cases hp : s.get pid with
      | none => exact keep (by simp [apply, ProcessScope.escalateTermination, hp]) rfl
      | some p =>
          simp only [apply, ProcessScope.escalateTermination, hp, get_update]
          by_cases hq : pid = q
          · subst hq
            rcases p.escalateToForce_cases with ⟨hr, -, hs, -⟩ | ⟨-, -, hn⟩
            · rw [hp]
              simpa [project] using Fate.forced hr hs
            · exact keep (by simp [hp, hn]) rfl
          · exact keep (if_neg hq) rfl
  | beginScopeTermination =>
      simp only [apply, project_begin, beginScopeTermination_get]
      cases hp : s.get q with
      | none => exact .kept _
      | some p =>
          simp only [Option.map_some]
          rcases p.requestGraceful_cases with ⟨hr, hm, hs, -⟩ | ⟨-, hn⟩
          · rw [if_pos hm]
            exact .asked hr hs
          · rw [hn]
            exact .kept _
  | recordExit pid =>
      cases hp : s.get pid with
      | none =>
          exact keep (by simp [apply, returned, ProcessScope.recordExit, hp])
            (by simp [apply, returned, ProcessScope.recordExit, hp, Except.toOption, project])
      | some p =>
          simp only [apply, returned, ProcessScope.recordExit, hp, Except.toOption,
            Option.getD_some, get_update]
          by_cases hq : pid = q
          · subst hq
            rcases p.markExited_cases with ⟨hr, hm, hs, -⟩ | ⟨-, hn⟩
            · rw [hp]
              simpa [hm, project, DomainEvent.pid?] using Fate.exited hr hs
            · exact keep (by simp [hp, hn]) (by simp [hn, project])
          · refine keep (if_neg hq) ?_
            split <;> simp [project, DomainEvent.pid?, hq]
  | recordReaped pid exit =>
      simp only [apply, returned, recordReaped_get]
      cases hp : s.get pid with
      | none =>
          refine keep ?_ (by simp [recordReaped_unknown exit hp, Except.toOption, project])
          split
          · next hq => rw [← hq, hp]; rfl
          · rfl
      | some p =>
          by_cases hq : pid = q
          · subst hq
            rw [if_pos rfl, hp, Option.map_some]
            rcases p.markReaped_cases exit with ⟨hx, hm, -, he⟩ | ⟨-, hn⟩
            · have hev : project pid ((s.recordReaped pid exit).1.toOption.getD []) =
                  [.processReaped s.id pid exit] := by
                rcases s.recordReaped_cases pid exit hp with
                  ⟨hf, -⟩ | ⟨-, -, h⟩ | ⟨-, -, -, h⟩
                · rw [hm] at hf; exact absurd hf (by decide)
                · simp [h, Except.toOption, project, DomainEvent.pid?]
                · simp [h, Except.toOption, project, DomainEvent.pid?]
              rw [hev]
              exact .reaped hx he
            · have hev : (s.recordReaped pid exit).1.toOption.getD [] = [] := by
                rcases s.recordReaped_cases pid exit hp with
                  ⟨-, h⟩ | ⟨hm, -⟩ | ⟨hm, -⟩
                · simp [h, Except.toOption]
                · rw [hn] at hm; exact absurd hm (by simp)
                · rw [hn] at hm; exact absurd hm (by simp)
              rw [hn, hev]
              exact .kept _
          · refine keep (if_neg hq) ?_
            rcases s.recordReaped_cases pid exit hp with ⟨-, h⟩ | ⟨-, -, h⟩ | ⟨-, -, -, h⟩ <;>
              simp [h, Except.toOption, project, DomainEvent.pid?, hq]
  | prune pid =>
      simp only [apply, prune_get]
      split
      · next h =>
          obtain ⟨rfl, e, he, hv⟩ := h
          obtain ⟨p, hp, he⟩ := exitOf_eq_some.mp he
          rw [hp]
          exact .pruned he hv
      · exact .kept _

/-- The closing events among `events`. -/
def closings (events : List DomainEvent) : List DomainEvent :=
  events.filter DomainEvent.isScopeClosed

/-- **One operation, the scope state.** It stays, or it drains by the scope-wide request,
or it closes by a reap that leaves verified exits only; the closing event is returned,
once, exactly in the last case. -/
theorem apply_state (op : ScopeOp) (s : ProcessScope) :
    (closings (op.apply s).1 = [] ∧ (op.apply s).2.state = s.state) ∨
    (closings (op.apply s).1 = [] ∧
      s.state = .open ∧ (op.apply s).2.state = .draining ∧
      op = .beginScopeTermination) ∨
    (closings (op.apply s).1 = [.scopeClosed s.id] ∧
      s.state = .draining ∧ (op.apply s).2.state = .closed ∧
      (op.apply s).2.allVerified = true ∧ ∃ pid exit, op = .recordReaped pid exit) := by
  cases op with
  | attachSpawned pid os spec =>
      refine .inl ?_
      rcases s.attachSpawned_cases pid os spec with ⟨-, -, h⟩ | ⟨-, err, h⟩ <;>
        simp [apply, h, Except.toOption, ProcessScope.insert, closings,
          DomainEvent.isScopeClosed]
  | requestTermination pid =>
      refine .inl ?_
      cases hp : s.get pid with
      | none =>
          simp [apply, returned, ProcessScope.requestTermination, hp, Except.toOption,
            closings]
      | some p =>
          cases hm : p.requestGraceful.1 <;>
            simp [apply, returned, ProcessScope.requestTermination, hp, hm,
              Except.toOption, update, closings, DomainEvent.isScopeClosed]
  | escalateTermination pid =>
      refine .inl ?_
      cases hp : s.get pid <;>
        simp [apply, ProcessScope.escalateTermination, hp, update, closings]
  | beginScopeTermination =>
      have hev : closings s.beginScopeTermination.1 = [] := by
        refine List.filter_eq_nil_iff.mpr fun ev hev => ?_
        obtain ⟨_, _, -, -, rfl⟩ := mem_beginScopeTermination_fst.mp hev
        simp [DomainEvent.isScopeClosed]
      simp only [apply, beginScopeTermination_state]
      by_cases ho : s.state = .open
      · exact .inr (.inl ⟨hev, ho, by rw [if_pos ho], trivial⟩)
      · exact .inl ⟨hev, by rw [if_neg ho]⟩
  | recordExit pid =>
      refine .inl ?_
      cases hp : s.get pid with
      | none =>
          simp [apply, returned, ProcessScope.recordExit, hp, Except.toOption, closings]
      | some p =>
          cases hm : p.markExited.1 <;>
            simp [apply, returned, ProcessScope.recordExit, hp, hm, Except.toOption, update,
              closings, DomainEvent.isScopeClosed]
  | recordReaped pid exit =>
      cases hp : s.get pid with
      | none =>
          refine .inl ?_
          simp [apply, returned, recordReaped_unknown exit hp, Except.toOption, closings]
      | some p =>
          rcases s.recordReaped_cases pid exit hp with
            ⟨-, h⟩ | ⟨-, -, h⟩ | ⟨-, hd, hv, h⟩
          · exact .inl (by simp [apply, returned, h, Except.toOption, closings])
          · exact .inl (by simp [apply, returned, h, Except.toOption, closings,
              ProcessScope.markReaped, update, DomainEvent.isScopeClosed])
          · refine .inr (.inr ⟨?_, hd, ?_, ?_, pid, exit, rfl⟩)
            · simp [apply, returned, h, Except.toOption, closings,
                DomainEvent.isScopeClosed]
            · simp [apply, returned, h]
            · simp only [apply, returned, h]
              exact hv
  | prune pid => exact .inl (by simp [apply, closings])

/-- No operation changes the identity of the scope. -/
theorem apply_id (op : ScopeOp) (s : ProcessScope) : (op.apply s).2.id = s.id := by
  cases op <;> simp [apply, returned]

/-- An operation that names a process leaves every other process as it is. -/
theorem apply_get_of_ne {op : ScopeOp} {pid q : ProcessId} (hop : op.pid? = some pid)
    (hq : q ≠ pid) (s : ProcessScope) : (op.apply s).2.get q = s.get q := by
  have hne : pid ≠ q := hq.symm
  cases op with
  | beginScopeTermination => exact absurd hop (by simp [pid?])
  | attachSpawned pid' os spec =>
      obtain rfl : pid' = pid := Option.some.inj hop
      rcases s.attachSpawned_cases pid' os spec with ⟨-, -, h⟩ | ⟨-, err, h⟩ <;>
        simp [apply, h, Process.running, hne]
  | requestTermination pid' =>
      obtain rfl : pid' = pid := Option.some.inj hop
      cases hp : s.get pid' <;>
        simp [apply, returned, ProcessScope.requestTermination, hp, hne]
  | escalateTermination pid' =>
      obtain rfl : pid' = pid := Option.some.inj hop
      cases hp : s.get pid' <;> simp [apply, ProcessScope.escalateTermination, hp, hne]
  | recordExit pid' =>
      obtain rfl : pid' = pid := Option.some.inj hop
      cases hp : s.get pid' <;> simp [apply, returned, ProcessScope.recordExit, hp, hne]
  | recordReaped pid' exit =>
      obtain rfl : pid' = pid := Option.some.inj hop
      simp [apply, returned, recordReaped_get, hne]
  | prune pid' =>
      obtain rfl : pid' = pid := Option.some.inj hop
      simp [apply, prune_get, hne]

/-- Only an attach that names a process can add it. -/
theorem eq_attach_of_added {op : ScopeOp} {s : ProcessScope} {pid : ProcessId}
    (hn : s.get pid = none) (ha : (op.apply s).2.get pid ≠ none) :
    ∃ os spec, op = .attachSpawned pid os spec := by
  cases hop : op.pid? with
  | none =>
      cases op with
      | beginScopeTermination =>
          simp [apply, beginScopeTermination_get, hn] at ha
      | _ => exact absurd hop (by simp [pid?])
  | some q =>
      by_cases hq : pid = q
      · subst hq
        cases op with
        | attachSpawned pid' os spec =>
            obtain rfl : pid' = pid := Option.some.inj hop
            exact ⟨os, spec, rfl⟩
        | beginScopeTermination => exact absurd hop (by simp [pid?])
        | requestTermination pid' =>
            obtain rfl : pid' = pid := Option.some.inj hop
            simp [apply, returned, ProcessScope.requestTermination, hn] at ha
        | escalateTermination pid' =>
            obtain rfl : pid' = pid := Option.some.inj hop
            simp [apply, ProcessScope.escalateTermination, hn] at ha
        | recordExit pid' =>
            obtain rfl : pid' = pid := Option.some.inj hop
            simp [apply, returned, ProcessScope.recordExit, hn] at ha
        | recordReaped pid' exit =>
            obtain rfl : pid' = pid := Option.some.inj hop
            simp [apply, returned, recordReaped_get, hn] at ha
        | prune pid' =>
            obtain rfl : pid' = pid := Option.some.inj hop
            simp [apply, prune_get, hn] at ha
      · exact absurd ((apply_get_of_ne hop hq s).trans hn) ha

end ScopeOp

/-! ### Evidence -/

/-- A verified exit is final: the process keeps it, or is pruned. -/
theorem Fate.of_verified {scope : ProcessScopeId} {st : ScopeState} {pid : ProcessId}
    {p : Process} {e : ProcessExit} {evs : List DomainEvent} {y : Option Process}
    (h : Fate scope st pid (some p) evs y) (he : p.exit = some e) (hv : e.Verified) :
    y = some p ∨ y = none := by
  have hs : p.state = .reaped := Process.state_of_exit he
  cases h with
  | kept => exact .inl rfl
  | asked hr _ => exact absurd (hs.symm.trans hr) (by decide)
  | forced hr _ =>
      rcases hr with hr | hr <;> exact absurd (hs.symm.trans hr) (by decide)
  | exited hl _ => rw [hs] at hl; exact absurd hl (by decide)
  | reaped hx _ =>
      rcases hx with hx | ⟨e₀, hx, hu, -⟩
      · rw [he] at hx; exact absurd hx (by simp)
      · rw [he] at hx
        obtain rfl := Option.some.inj hx
        exact absurd hv hu
  | pruned => exact .inr rfl

namespace ProcessScope

/-- Every process of a closed scope has a verified exit. -/
theorem allVerified_of_closed (id : ProcessScopeId) (ops : List ScopeOp)
    (hc : ((new id).run ops).state = .closed) : ((new id).run ops).allVerified = true := by
  induction ops using List.reverseRecOn with
  | nil => exact absurd hc (by simp [new])
  | append_singleton xs op ih =>
      rw [run_snoc] at hc ⊢
      rcases op.apply_state ((new id).run xs) with
        ⟨-, hs⟩ | ⟨-, -, hs, -⟩ | ⟨-, -, -, hv, -⟩
      · rw [hs] at hc
        refine (allVerified_iff _).mpr fun pid p hp => ?_
        have hall := (allVerified_iff _).mp (ih hc)
        have hf := op.apply_fate ((new id).run xs) pid
        rw [hp] at hf
        cases hq : ((new id).run xs).get pid with
        | none =>
            rw [hq] at hf
            generalize project pid (op.apply ((new id).run xs)).1 = evs at hf
            cases hf with
            | attached _ _ ho => exact absurd (hc.symm.trans ho) (by decide)
        | some q =>
            obtain ⟨e, he, hv⟩ := hall pid q hq
            rw [hq] at hf
            rcases hf.of_verified he hv with h | h
            · obtain rfl := Option.some.inj h
              exact ⟨e, he, hv⟩
            · exact absurd h (by simp)
      · rw [hs] at hc; exact absurd hc (by decide)
      · exact hv

/-- A process that is gone after a call had a verified exit recorded before it. -/
theorem verifiedExit_of_removed {op : ScopeOp} {s : ProcessScope} {pid : ProcessId}
    (hp : s.get pid ≠ none) (hn : (op.apply s).2.get pid = none) : s.VerifiedExit pid := by
  obtain ⟨p, hp⟩ := Option.ne_none_iff_exists'.mp hp
  have hf := op.apply_fate s pid
  rw [hp, hn] at hf
  generalize project pid (op.apply s).1 = evs at hf
  cases hf with
  | pruned he hv => exact ⟨_, exitOf_eq_some.mpr ⟨p, hp, he⟩, hv⟩

/-- Every process ever tracked is still tracked, or had a verified exit recorded. -/
theorem tracked_or_verified (s : ProcessScope) (ops : List ScopeOp) {pre : List ScopeOp}
    (hpre : pre <+: ops) {pid : ProcessId} (hp : (s.run pre).get pid ≠ none) :
    (s.run ops).get pid ≠ none ∨ ∃ pre', pre' <+: ops ∧ (s.run pre').VerifiedExit pid := by
  induction ops using List.reverseRecOn with
  | nil =>
      obtain rfl := List.prefix_nil.mp hpre
      exact .inl hp
  | append_singleton xs op ih =>
      rcases List.prefix_concat_iff.mp hpre with rfl | hpre
      · exact .inl hp
      rcases ih hpre with h | ⟨pre', h, hv⟩
      · rw [run_snoc]
        by_cases hn : (op.apply (s.run xs)).2.get pid = none
        · exact .inr ⟨xs, List.prefix_append xs [op], verifiedExit_of_removed h hn⟩
        · exact .inl hn
      · exact .inr ⟨pre', h.trans (List.prefix_append xs [op]), hv⟩

/-- Under fresh attaches a process that left never comes back. -/
theorem FreshAttaches.get_of_later {s : ProcessScope} {ops pre post : List ScopeOp}
    (hf : s.FreshAttaches ops) {pid : ProcessId} (hp : (s.run pre).get pid ≠ none) {op : ScopeOp}
    (hop : pre ++ post ++ [op] <+: ops) (hn : (s.run (pre ++ post)).get pid = none) :
    (s.run (pre ++ post ++ [op])).get pid = none := by
  by_contra ha
  rw [run_snoc] at ha
  obtain ⟨os, spec, rfl⟩ := ScopeOp.eq_attach_of_added hn ha
  exact hp (hf (pre ++ post) pid os spec hop pre (List.prefix_append _ _))

/-- Under fresh attaches, a verified exit stays what it is while the process stays. -/
theorem FreshAttaches.exitOf_stable {s : ProcessScope} {ops pre : List ScopeOp}
    (hf : s.FreshAttaches ops) {pid : ProcessId} {e : ProcessExit}
    (he : (s.run pre).exitOf pid = some e) (hv : e.Verified) (post : List ScopeOp)
    (hpost : pre ++ post <+: ops) (hp : (s.run (pre ++ post)).get pid ≠ none) :
    (s.run (pre ++ post)).exitOf pid = some e := by
  induction post using List.reverseRecOn with
  | nil => simpa using he
  | append_singleton xs op ih =>
      rw [← List.append_assoc] at hpost hp ⊢
      have hxs : pre ++ xs <+: ops := (List.prefix_append _ [op]).trans hpost
      have hpre : (s.run pre).get pid ≠ none := by
        obtain ⟨p, hp, -⟩ := exitOf_eq_some.mp he
        simp [hp]
      have hx : (s.run (pre ++ xs)).get pid ≠ none := fun hn =>
        hp (hf.get_of_later hpre hpost hn)
      obtain ⟨p, hg, hpe⟩ := exitOf_eq_some.mp (ih hxs hx)
      have hfate := op.apply_fate (s.run (pre ++ xs)) pid
      rw [run_snoc] at hp ⊢
      rw [hg] at hfate
      rcases hfate.of_verified hpe hv with h | h
      · exact exitOf_eq_some.mpr ⟨p, h, hpe⟩
      · exact absurd h hp

/-- **A scope closes only on complete evidence.** Over every run of a new scope with
fresh attaches, and with `pre` ranging over the prefixes of the run:

* in a closed scope every process ever tracked has had a verified exit recorded;
* a call removes a process only if a verified exit of it was recorded before the call;
* a recorded verified exit is the same at every later point where the process is present;
* a process with an unverified exit is not removed, and the scope is not closed;
* a call leaves the state, or moves it from open to draining or from draining to closed;
* a call adds a process only to an open scope. -/
theorem scope_closes_on_complete_evidence (id : ProcessScopeId) (ops : List ScopeOp)
    (hf : (new id).FreshAttaches ops) :
    (((new id).run ops).state = .closed → ∀ pre, pre <+: ops → ∀ pid,
      ((new id).run pre).get pid ≠ none →
      ∃ pre', pre' <+: ops ∧ ((new id).run pre').VerifiedExit pid) ∧
    (∀ pre op, pre ++ [op] <+: ops → ∀ pid, ((new id).run pre).get pid ≠ none →
      ((new id).run (pre ++ [op])).get pid = none → ((new id).run pre).VerifiedExit pid) ∧
    (∀ pre post, pre ++ post <+: ops → ∀ pid e, ((new id).run pre).exitOf pid = some e →
      e.Verified → ((new id).run (pre ++ post)).get pid ≠ none →
      ((new id).run (pre ++ post)).exitOf pid = some e) ∧
    (∀ pre, pre <+: ops → ∀ pid e, ((new id).run pre).exitOf pid = some e →
      ¬ e.Verified → ((new id).run pre).state ≠ .closed ∧
        ∀ op, pre ++ [op] <+: ops → ((new id).run (pre ++ [op])).get pid ≠ none) ∧
    (∀ pre op, pre ++ [op] <+: ops →
      ((new id).run (pre ++ [op])).state = ((new id).run pre).state ∨
      (((new id).run pre).state = .open ∧
        ((new id).run (pre ++ [op])).state = .draining) ∨
      (((new id).run pre).state = .draining ∧
        ((new id).run (pre ++ [op])).state = .closed)) ∧
    (∀ pre op, pre ++ [op] <+: ops → ∀ pid, ((new id).run pre).get pid = none →
      ((new id).run (pre ++ [op])).get pid ≠ none → ((new id).run pre).state = .open) := by
  refine ⟨?_, ?_, ?_, ?_, ?_, ?_⟩
  · intro hc pre hpre pid hp
    rcases tracked_or_verified (new id) ops hpre hp with h | h
    · obtain ⟨p, hg⟩ := Option.ne_none_iff_exists'.mp h
      obtain ⟨e, he, hv⟩ := (allVerified_iff _).mp (allVerified_of_closed id ops hc) pid p hg
      exact ⟨ops, List.prefix_rfl, e, exitOf_eq_some.mpr ⟨p, hg, he⟩, hv⟩
    · exact h
  · intro pre op _ pid hp hn
    rw [run_snoc] at hn
    exact verifiedExit_of_removed hp hn
  · intro pre post hpost pid e he hv hp
    exact hf.exitOf_stable he hv post hpost hp
  · intro pre _ pid e he hu
    obtain ⟨p, hg, hpe⟩ := exitOf_eq_some.mp he
    refine ⟨fun hc => ?_, fun op _ hn => ?_⟩
    · obtain ⟨e', he', hv⟩ := (allVerified_iff _).mp (allVerified_of_closed id pre hc) pid p hg
      obtain rfl : e = e' := Option.some.inj (hpe.symm.trans he')
      exact hu hv
    · rw [run_snoc] at hn
      obtain ⟨e', he', hv⟩ := verifiedExit_of_removed (by simp [hg]) hn
      obtain rfl : e = e' := Option.some.inj (he.symm.trans he')
      exact hu hv
  · intro pre op _
    rw [run_snoc]
    rcases op.apply_state ((new id).run pre) with
      ⟨-, h⟩ | ⟨-, h, h', -⟩ | ⟨-, h, h', -⟩
    · exact .inl h
    · exact .inr (.inl ⟨h, h'⟩)
    · exact .inr (.inr ⟨h, h'⟩)
  · intro pre op _ pid hn hp
    rw [run_snoc] at hp
    have hfate := op.apply_fate ((new id).run pre) pid
    obtain ⟨p, hg⟩ := Option.ne_none_iff_exists'.mp hp
    rw [hn, hg] at hfate
    generalize project pid (op.apply ((new id).run pre)).1 = evs at hfate
    cases hfate with
    | attached _ _ ho => exact ho

/-- A run that spawns, drains, reaps and prunes one process closes the scope, and the
process has had its verified exit recorded. -/
theorem one_process_scope_closes :
    (new 1).FreshAttaches
      [.attachSpawned 7 ⟨70, .unavailable⟩ (.new []), .beginScopeTermination,
        .recordReaped 7 ⟨7, some 0, none, .gracefulSuccess, false⟩, .prune 7] ∧
    ∃ pre', pre' <+: [.attachSpawned 7 ⟨70, .unavailable⟩ (.new []),
        .beginScopeTermination,
        .recordReaped 7 ⟨7, some 0, none, .gracefulSuccess, false⟩, .prune 7] ∧
      ((new 1).run pre').VerifiedExit 7 := by
  have hf := freshAttaches_of_first (new 1) (get_new 1 7) ⟨70, .unavailable⟩ (.new [])
    [.beginScopeTermination,
      .recordReaped 7 ⟨7, some 0, none, .gracefulSuccess, false⟩, .prune 7] (by simp)
  refine ⟨hf, (scope_closes_on_complete_evidence 1 _ hf).1 rfl
    [.attachSpawned 7 ⟨70, .unavailable⟩ (.new [])] (by simp [List.cons_prefix_cons]) 7 ?_⟩
  decide

end ProcessScope

end Shepherd
