import Shepherd.Domain.ScopeRun

/-!
# The Event Grammar

The events a scope returns about one process follow the order of its lifecycle: a spawn,
then at most one termination request, at most one observed exit, at most one unverified
reap and at most one verified reap. `lifecycleWord` is the word these five choices spell
and `IsLifecycle` says that a list is one.

The induction over a run needs more than the word itself: how far the word has come is
bounded by the state of the process (`Upto`). A running process has no request yet, a
live one no observed exit, one without an exit no reap, and one whose exit is unverified
no verified reap. Each constructor of `Fate` extends the word by the next letter.

The headline is `events_follow_the_grammar`.
-/

namespace Shepherd

open ProcessScope ScopeOp

/-- The word spelled by one spawned process: asked to terminate or not, observed to exit
or not, reaped unverified by `u` and verified by `v` or not. -/
def lifecycleWord (scope : ProcessScopeId) (pid : ProcessId) (asked exited : Bool)
    (u v : Option ProcessExit) : List DomainEvent :=
  [.processSpawned scope pid] ++
    (if asked then [.terminationRequested scope pid] else []) ++
    (if exited then [.processExited scope pid] else []) ++
    u.toList.map (.processReaped scope pid) ++
    v.toList.map (.processReaped scope pid)

/-- A word of the lifecycle grammar. -/
def IsLifecycle (scope : ProcessScopeId) (pid : ProcessId) (w : List DomainEvent) : Prop :=
  ∃ asked exited u v, (∀ e ∈ u, ¬ e.Verified) ∧ (∀ e ∈ v, e.Verified) ∧
    w = lifecycleWord scope pid asked exited u v

/-- How far the word of a process can have come, given the process. -/
def Upto (scope : ProcessScopeId) (pid : ProcessId) (p : Process) (w : List DomainEvent) :
    Prop :=
  ∃ asked exited u v, (∀ e ∈ u, ¬ e.Verified) ∧ (∀ e ∈ v, e.Verified) ∧
    w = lifecycleWord scope pid asked exited u v ∧
    (p.state = .running → asked = false) ∧
    (p.state.isLive = true → exited = false) ∧
    (p.exit = none → u = none ∧ v = none) ∧
    (∀ e, p.exit = some e → ¬ e.Verified → v = none)

/-- What has happened to a process so far is the beginning of a lifecycle. -/
theorem Upto.isLifecycle {scope : ProcessScopeId} {pid : ProcessId} {p : Process}
    {w : List DomainEvent} (h : Upto scope pid p w) : IsLifecycle scope pid w := by
  obtain ⟨a, x, u, v, hu, hv, hw, -⟩ := h
  exact ⟨a, x, u, v, hu, hv, hw⟩

/-- **One operation extends the word.** The process it is about was tracked before, and its letter
goes into the unverified or into the verified place. -/
theorem Upto.extend {scope : ProcessScopeId} {st : ScopeState} {pid : ProcessId}
    {p : Process} {w evs : List DomainEvent} {y : Option Process}
    (h : Upto scope pid p w) (hf : Fate scope st pid (some p) evs y) :
    match y with
    | some p' => Upto scope pid p' (w ++ evs)
    | none => IsLifecycle scope pid (w ++ evs) := by
  obtain ⟨a, x, u, v, hu, hv, hw, ha, hx, hn, hc⟩ := h
  have noExit : ∀ {q : Process}, q.state ≠ .reaped → q.exit = none := Process.exit_eq_none
  cases hf with
  | kept => exact ⟨a, x, u, v, hu, hv, by simpa using hw, ha, hx, hn, hc⟩
  | @asked _ p' hr hs =>
      obtain rfl := ha hr
      obtain rfl := hx (by rw [hr]; rfl)
      obtain ⟨rfl, rfl⟩ := hn (noExit (by rw [hr]; decide))
      have hp' : p'.exit = none := noExit (by rw [hs]; decide)
      refine ⟨true, false, none, none, hu, hv, ?_, ?_, fun _ => rfl, fun _ => ⟨rfl, rfl⟩,
        fun _ _ _ => rfl⟩
      · simp [hw, lifecycleWord]
      · exact fun h => absurd (hs.symm.trans h) (by decide)
  | @forced _ p' hr hs =>
      obtain rfl := hx (by rcases hr with hr | hr <;> rw [hr] <;> rfl)
      obtain ⟨rfl, rfl⟩ := hn (noExit (by rcases hr with hr | hr <;> rw [hr] <;> decide))
      refine ⟨a, false, none, none, hu, hv, by simpa using hw, ?_, fun _ => rfl,
        fun _ => ⟨rfl, rfl⟩, fun _ _ _ => rfl⟩
      exact fun h => absurd (hs.symm.trans h) (by decide)
  | @exited _ p' hl hs =>
      obtain rfl := hx hl
      obtain ⟨rfl, rfl⟩ := hn (noExit fun h => by rw [h] at hl; exact absurd hl (by decide))
      refine ⟨a, true, none, none, hu, hv, ?_, ?_, ?_, fun _ => ⟨rfl, rfl⟩,
        fun _ _ _ => rfl⟩
      · simp [hw, lifecycleWord]
      · exact fun h => absurd (hs.symm.trans h) (by decide)
      · intro h
        rw [hs] at h
        exact absurd h (by decide)
  | @reaped _ p' e hex he =>
      have hs' : p'.state = .reaped := Process.state_of_exit he
      have running : p'.state = .running → a = false := fun h =>
        absurd (hs'.symm.trans h) (by decide)
      have live : p'.state.isLive = true → x = false := fun h => by
        rw [hs'] at h
        exact absurd h (by decide)
      by_cases hve : e.Verified
      · have hvn : v = none := by
          rcases hex with hex | ⟨e₀, he₀, hu₀, -⟩
          · exact (hn hex).2
          · exact hc e₀ he₀ hu₀
        subst hvn
        refine ⟨a, x, u, some e, hu, ?_, ?_, running, live, ?_, ?_⟩
        · rintro e' ⟨⟩; exact hve
        · simp [hw, lifecycleWord]
        · rw [he]; exact fun h => absurd h (by simp)
        · rw [he]; rintro e' ⟨⟩ h; exact absurd hve h
      · have hun : u = none ∧ v = none := by
          rcases hex with hex | ⟨e₀, he₀, -, h⟩
          · exact hn hex
          · exact absurd h hve
        obtain ⟨rfl, rfl⟩ := hun
        refine ⟨a, x, some e, none, ?_, hv, ?_, running, live, ?_, fun _ _ _ => rfl⟩
        · rintro e' ⟨⟩; exact hve
        · simp [hw, lifecycleWord]
        · rw [he]; exact fun h => absurd h (by simp)
  | pruned _ _ => exact ⟨a, x, u, v, hu, hv, by simpa using hw⟩

/-- The events of a process, in two lists one after the other. -/
@[simp] theorem project_append (pid : ProcessId) (xs ys : List DomainEvent) :
    project pid (xs ++ ys) = project pid xs ++ project pid ys :=
  List.filter_append ..

/-- The identity of a scope along a run. -/
theorem run_id (s : ProcessScope) (ops : List ScopeOp) : (s.run ops).id = s.id := by
  induction ops using List.reverseRecOn with
  | nil => rfl
  | append_singleton xs op ih => rw [run_snoc, apply_id, ih]

/-- **The words of a run.** A process that was never tracked has no events; one that is
tracked has a word bounded by its state; one that left has a complete word. -/
theorem run_word (id : ProcessScopeId) (ops : List ScopeOp)
    (hf : (new id).FreshAttaches ops) (pid : ProcessId) :
    match ((new id).run ops).get pid with
    | some p => Upto id pid p (project pid ((new id).runEvents ops))
    | none =>
        ((∀ pre, pre <+: ops → ((new id).run pre).get pid = none) ∧
          project pid ((new id).runEvents ops) = []) ∨
        ((∃ pre, pre <+: ops ∧ ((new id).run pre).get pid ≠ none) ∧
          IsLifecycle id pid (project pid ((new id).runEvents ops))) := by
  induction ops using List.reverseRecOn with
  | nil =>
      simp only [run_nil, get_new]
      refine .inl ⟨?_, rfl⟩
      intro pre hpre
      obtain rfl := List.prefix_nil.mp hpre
      exact get_new id pid
  | append_singleton xs op ih =>
      have hxs := List.prefix_append xs [op]
      replace ih := ih (hf.earlier hxs)
      have hfate := op.apply_fate ((new id).run xs) pid
      rw [run_id, show (new id).id = id from rfl] at hfate
      rw [run_snoc, runEvents_snoc, project_append]
      generalize project pid (op.apply ((new id).run xs)).1 = evs at hfate ⊢
      cases hg : ((new id).run xs).get pid with
      | some p =>
          rw [hg] at ih hfate
          cases hy : (op.apply ((new id).run xs)).2.get pid with
          | some p' =>
              rw [hy] at hfate
              exact Upto.extend ih hfate
          | none =>
              rw [hy] at hfate
              exact .inr ⟨⟨xs, hxs, by simp [hg]⟩, Upto.extend ih hfate⟩
      | none =>
          rw [hg] at ih hfate
          cases hy : (op.apply ((new id).run xs)).2.get pid with
          | none =>
              rw [hy] at hfate
              cases hfate with
              | kept =>
                  rw [List.append_nil]
                  rcases ih with ⟨hnever, hw⟩ | ⟨⟨pre, hpre, hp⟩, hw⟩
                  · refine .inl ⟨fun pre hpre => ?_, hw⟩
                    rcases List.prefix_concat_iff.mp hpre with rfl | hpre
                    · rw [run_snoc, hy]
                    · exact hnever pre hpre
                  · exact .inr ⟨⟨pre, hpre.trans hxs, hp⟩, hw⟩
          | some p' =>
              have ha : (op.apply ((new id).run xs)).2.get pid ≠ none := by simp [hy]
              obtain ⟨os, spec, rfl⟩ := eq_attach_of_added hg ha
              have hnever := hf xs pid os spec List.prefix_rfl
              rw [hy] at hfate
              have hw : project pid ((new id).runEvents xs) = [] := by
                rcases ih with ⟨-, hw⟩ | ⟨⟨pre, hpre, hp⟩, -⟩
                · exact hw
                · exact absurd (hnever pre hpre) hp
              cases hfate with
              | attached os' spec' _ =>
                  rw [hw]
                  exact ⟨false, false, none, none, by simp, by simp, rfl, fun _ => rfl,
                    fun _ => rfl, fun _ => ⟨rfl, rfl⟩, fun _ _ _ => rfl⟩

/-- Along a run the closing event has been returned once if the scope is closed, and not
at all otherwise. -/
theorem run_closings (id : ProcessScopeId) (ops : List ScopeOp) :
    closings ((new id).runEvents ops) =
      if ((new id).run ops).state = .closed then [.scopeClosed id] else [] := by
  induction ops using List.reverseRecOn with
  | nil => rfl
  | append_singleton xs op ih =>
      rw [runEvents_snoc, run_snoc, closings, List.filter_append, ← closings, ih, ← closings]
      rcases op.apply_state ((new id).run xs) with
        ⟨hc, hs⟩ | ⟨hc, hs, hs', -⟩ | ⟨hc, hs, hs', -⟩
      · rw [hc, hs, List.append_nil]
      · rw [hc, hs, hs']; rfl
      · rw [hc, hs, hs', run_id]; rfl

/-- The transition an event reports, between the scopes before and after the call. -/
def Performed (s s' : ProcessScope) : DomainEvent → Prop
  | .processSpawned scope pid => scope = s.id ∧ s.state = .open ∧ s.get pid = none ∧
      ∃ p', s'.get pid = some p' ∧ p'.state = .running
  | .terminationRequested scope pid => scope = s.id ∧ ∃ p p', s.get pid = some p ∧
      s'.get pid = some p' ∧ p.state = .running ∧ p'.state = .gracefulRequested
  | .processExited scope pid => scope = s.id ∧ ∃ p p', s.get pid = some p ∧
      s'.get pid = some p' ∧ p.state.isLive = true ∧ p'.state = .exitedUnreaped
  | .processReaped scope pid exit => scope = s.id ∧ ∃ p p', s.get pid = some p ∧
      s'.get pid = some p' ∧ p'.exit = some exit ∧ p.exit ≠ p'.exit
  | .scopeClosed scope => scope = s.id ∧ s.state = .draining ∧ s'.state = .closed

/-- A call returns events only for transitions it performed. -/
theorem apply_performed (op : ScopeOp) (s : ProcessScope) {ev : DomainEvent}
    (h : ev ∈ (op.apply s).1) : Performed s (op.apply s).2 ev := by
  cases hpid : ev.pid? with
  | none =>
      cases ev with
      | scopeClosed scope =>
          have hmem : DomainEvent.scopeClosed scope ∈ closings (op.apply s).1 :=
            List.mem_filter.mpr ⟨h, rfl⟩
          rcases op.apply_state s with ⟨hc, -⟩ | ⟨hc, -⟩ | ⟨hc, hs, hs', -⟩
          · rw [hc] at hmem; exact absurd hmem (by simp)
          · rw [hc] at hmem; exact absurd hmem (by simp)
          · rw [hc, List.mem_singleton] at hmem
            exact ⟨by injection hmem, hs, hs'⟩
      | _ => exact absurd hpid (by simp [DomainEvent.pid?])
  | some pid =>
      have hmem : ev ∈ project pid (op.apply s).1 :=
        List.mem_filter.mpr ⟨h, by simp [hpid]⟩
      have hfate := op.apply_fate s pid
      generalize project pid (op.apply s).1 = evs at hfate hmem
      generalize hx : s.get pid = x at hfate
      generalize hy : (op.apply s).2.get pid = y at hfate
      cases hfate with
      | kept | forced | pruned => exact absurd hmem (by simp)
      | attached os spec ho =>
          obtain rfl := List.mem_singleton.mp hmem
          exact ⟨rfl, ho, hx, _, hy, rfl⟩
      | asked hr hs =>
          obtain rfl := List.mem_singleton.mp hmem
          exact ⟨rfl, _, _, hx, hy, hr, hs⟩
      | exited hl hs =>
          obtain rfl := List.mem_singleton.mp hmem
          exact ⟨rfl, _, _, hx, hy, hl, hs⟩
      | reaped hex he =>
          obtain rfl := List.mem_singleton.mp hmem
          refine ⟨rfl, _, _, hx, hy, he, ?_⟩
          rw [he]
          rcases hex with hex | ⟨e₀, he₀, hu, hv⟩
          · simp [hex]
          · rw [he₀]
            rintro ⟨⟩
            exact hu hv

/-- **Repeating a call** returns no event and changes nothing. -/
theorem apply_apply (op : ScopeOp) (s : ProcessScope) :
    op.apply (op.apply s).2 = ([], (op.apply s).2) := by
  cases op with
  | attachSpawned pid os spec =>
      obtain ⟨err, h⟩ : ∃ err,
          (s.attachSpawned pid os spec).2.attachSpawned pid os spec =
            (.error err, (s.attachSpawned pid os spec).2) := by
        rcases s.attachSpawned_cases pid os spec with ⟨-, -, h⟩ | ⟨-, err, h⟩
        · rw [h]
          rcases (s.insert (Process.running pid os spec)).attachSpawned_cases pid os spec with
            ⟨-, hn, -⟩ | ⟨-, h'⟩
          · exact absurd hn (by simp [Process.running])
          · exact h'
        · exact ⟨err, by rw [h]; exact h⟩
      simp [apply, h, Except.toOption]
  | requestTermination pid =>
      cases hp : s.get pid with
      | none => simp [apply, returned, ProcessScope.requestTermination, hp, Except.toOption]
      | some p =>
          have hq := p.requestGraceful_again
          simp only [apply, returned, ProcessScope.requestTermination, hp, get_update,
            if_true, Option.map_some, Except.toOption, Option.getD_some, hq]
          refine Prod.ext rfl (update_eq_self Process.requestGraceful_id fun q hq' => ?_)
          obtain rfl : p.requestGraceful.2 = q := by simpa [hp] using hq'
          rw [hq]
  | escalateTermination pid =>
      cases hp : s.get pid with
      | none => simp [apply, ProcessScope.escalateTermination, hp]
      | some p =>
          have hq := p.escalateToForce_again
          simp only [apply, ProcessScope.escalateTermination, hp, get_update,
            if_true, Option.map_some]
          refine Prod.ext rfl (update_eq_self Process.escalateToForce_id fun q hq' => ?_)
          obtain rfl : p.escalateToForce.2 = q := by simpa [hp] using hq'
          rw [hq]
  | beginScopeTermination =>
      refine Prod.ext ?_ (ext_get rfl ?_ fun q => ?_)
      · refine List.eq_nil_iff_forall_not_mem.mpr fun ev hev => ?_
        obtain ⟨pid, p, hp, hr, -⟩ := mem_beginScopeTermination_fst.mp hev
        simp only [apply, beginScopeTermination_get, Option.map_eq_some_iff] at hp
        obtain ⟨p₀, -, rfl⟩ := hp
        rcases p₀.requestGraceful.2.requestGraceful_cases with ⟨-, hm, -⟩ | ⟨hn, -⟩
        · rw [Process.requestGraceful_again] at hm; exact absurd hm (by simp)
        · exact absurd hr hn
      · simp only [apply, beginScopeTermination_state]
        by_cases ho : s.state = .open <;> simp [ho]
      · simp only [apply, beginScopeTermination_get, Option.map_map]
        congr 1
        funext p
        simp [Process.requestGraceful_again]
  | recordExit pid =>
      cases hp : s.get pid with
      | none => simp [apply, returned, ProcessScope.recordExit, hp, Except.toOption]
      | some p =>
          have hq := p.markExited_again
          simp only [apply, returned, ProcessScope.recordExit, hp, get_update,
            if_true, Option.map_some, Except.toOption, Option.getD_some, hq]
          refine Prod.ext rfl (update_eq_self Process.markExited_id fun q hq' => ?_)
          obtain rfl : p.markExited.2 = q := by simpa [hp] using hq'
          rw [hq]
  | recordReaped pid exit =>
      cases hp : s.get pid with
      | none => simp [apply, returned, recordReaped_unknown exit hp, Except.toOption]
      | some p =>
          have hget : (s.recordReaped pid exit).2.get pid = some (p.markReaped exit).2 := by
            simp [recordReaped_get, hp]
          have hq := congrArg Prod.fst (p.markReaped_again exit)
          rcases (s.recordReaped pid exit).2.recordReaped_cases pid exit hget with
            ⟨-, h⟩ | ⟨hm, -⟩ | ⟨hm, -⟩
          · simp [apply, returned, h, Except.toOption]
          · rw [hq] at hm; exact absurd hm (by simp)
          · rw [hq] at hm; exact absurd hm (by simp)
  | prune pid =>
      refine Prod.ext rfl ?_
      rcases (s.prune pid).prune_cases pid with ⟨p, e, hp, he, hv, -⟩ | ⟨-, h⟩
      · rw [prune_get] at hp
        split at hp
        · exact absurd hp (by simp)
        · next hn => exact absurd ⟨rfl, e, exitOf_eq_some.mpr ⟨p, hp, he⟩, hv⟩ hn
      · exact h

/-- **The domain event grammar.** Over every run of a new scope with fresh attaches:

* the events about a process that was ever tracked form a word of the lifecycle grammar,
  and there are no others;
* the closing event is returned at most once over the run, and a call returns it exactly
  when it is the reap that moves the scope from draining to closed;
* a call returns an event only for a transition it performed, and repeating the call
  returns no event and changes nothing;
* a call that names a process leaves every other process of the scope unchanged. -/
theorem events_follow_the_grammar (id : ProcessScopeId) (ops : List ScopeOp)
    (hf : (new id).FreshAttaches ops) :
    (∀ pid, (∃ pre, pre <+: ops ∧ ((new id).run pre).get pid ≠ none) →
      IsLifecycle id pid (project pid ((new id).runEvents ops))) ∧
    (∀ pid, (∀ pre, pre <+: ops → ((new id).run pre).get pid = none) →
      project pid ((new id).runEvents ops) = []) ∧
    (closings ((new id).runEvents ops)).length ≤ 1 ∧
    (∀ pre op, pre ++ [op] <+: ops →
      ((∃ scope, .scopeClosed scope ∈ (op.apply ((new id).run pre)).1) ↔
        (∃ pid exit, op = .recordReaped pid exit) ∧
          ((new id).run pre).state = .draining ∧
          ((new id).run (pre ++ [op])).state = .closed)) ∧
    (∀ pre op, pre ++ [op] <+: ops → ∀ ev ∈ (op.apply ((new id).run pre)).1,
      Performed ((new id).run pre) ((new id).run (pre ++ [op])) ev) ∧
    (∀ pre op, pre ++ [op] <+: ops →
      op.apply ((new id).run (pre ++ [op])) = ([], (new id).run (pre ++ [op]))) ∧
    (∀ pre op pid, pre ++ [op] <+: ops → op.pid? = some pid → ∀ q, q ≠ pid →
      ((new id).run (pre ++ [op])).get q = ((new id).run pre).get q) := by
  refine ⟨?_, ?_, ?_, ?_, ?_, ?_, ?_⟩
  · rintro pid ⟨pre, hpre, hp⟩
    have hw := run_word id ops hf pid
    cases hg : ((new id).run ops).get pid with
    | some p => rw [hg] at hw; exact hw.isLifecycle
    | none =>
        rw [hg] at hw
        rcases hw with ⟨hnever, -⟩ | ⟨-, hw⟩
        · exact absurd (hnever pre hpre) hp
        · exact hw
  · intro pid hnever
    have hw := run_word id ops hf pid
    rw [hnever ops List.prefix_rfl] at hw
    rcases hw with ⟨-, hw⟩ | ⟨⟨pre, hpre, hp⟩, -⟩
    · exact hw
    · exact absurd (hnever pre hpre) hp
  · rw [run_closings]
    split <;> simp
  · intro pre op _
    rw [run_snoc]
    constructor
    · rintro ⟨scope, h⟩
      have hmem : DomainEvent.scopeClosed scope ∈ closings (op.apply ((new id).run pre)).1 :=
        List.mem_filter.mpr ⟨h, rfl⟩
      rcases op.apply_state ((new id).run pre) with
        ⟨hc, -⟩ | ⟨hc, -⟩ | ⟨-, hs, hs', -, hop⟩
      · rw [hc] at hmem; exact absurd hmem (by simp)
      · rw [hc] at hmem; exact absurd hmem (by simp)
      · exact ⟨hop, hs, hs'⟩
    · rintro ⟨-, hs, hs'⟩
      rcases op.apply_state ((new id).run pre) with
        ⟨-, h⟩ | ⟨-, h, -⟩ | ⟨hc, -⟩
      · rw [hs, hs'] at h; exact absurd h (by decide)
      · rw [hs] at h; exact absurd h (by decide)
      · refine ⟨_, (List.mem_filter.mp (show DomainEvent.scopeClosed
          ((new id).run pre).id ∈ closings (op.apply ((new id).run pre)).1 from ?_)).1⟩
        rw [hc]
        exact List.mem_singleton.mpr rfl
  · intro pre op _ ev hev
    rw [run_snoc]
    exact apply_performed op _ hev
  · intro pre op _
    rw [run_snoc]
    exact apply_apply op _
  · intro pre op pid _ hop q hq
    rw [run_snoc]
    exact apply_get_of_ne hop hq _

/-- A corrected reap spells the longest word: asked, exited, reaped without evidence, and
reaped again with it. -/
theorem corrected_reap_word :
    (new 1).FreshAttaches
      [.attachSpawned 7 ⟨70, .unavailable⟩ (.new []), .requestTermination 7, .recordExit 7,
        .recordReaped 7 ⟨7, none, none, .cleanupUnverified .reapFailed, false⟩,
        .recordReaped 7 ⟨7, some 0, none, .gracefulSuccess, false⟩] ∧
    IsLifecycle 1 7 (project 7 ((new 1).runEvents
      [.attachSpawned 7 ⟨70, .unavailable⟩ (.new []), .requestTermination 7, .recordExit 7,
        .recordReaped 7 ⟨7, none, none, .cleanupUnverified .reapFailed, false⟩,
        .recordReaped 7 ⟨7, some 0, none, .gracefulSuccess, false⟩])) := by
  have hf := freshAttaches_of_first (new 1) (get_new 1 7) ⟨70, .unavailable⟩ (.new [])
    [.requestTermination 7, .recordExit 7,
      .recordReaped 7 ⟨7, none, none, .cleanupUnverified .reapFailed, false⟩,
      .recordReaped 7 ⟨7, some 0, none, .gracefulSuccess, false⟩] (by simp)
  refine ⟨hf, (events_follow_the_grammar 1 _ hf).1 7
    ⟨[.attachSpawned 7 ⟨70, .unavailable⟩ (.new [])], by simp [List.cons_prefix_cons], ?_⟩⟩
  decide

end Shepherd
