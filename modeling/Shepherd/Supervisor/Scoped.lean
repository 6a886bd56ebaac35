import Shepherd.Background.TaskTrack

/-!
# Scoped Handles

`ScopedProcesses` is the handle of a `with_scope` block. It authorizes the processes of its
initial list and those it has spawned, and every call on it prunes this set: a process stays
while the scope tracks it, while its capture is kept, or while the waiters show its exit.

An exit passes through these stores one after the other. A commit removes the scope on the
strength of the exits that were recorded, and the monitor may not have come to signal them: a
process without a kept capture is in no store then (`Inner.gap`). A call in this moment revokes
it for good, though its exit is published later (`pruned_process_is_refused`). In the runs
without such a call, a handle keeps its authority (`scoped_handle_keeps_authority`).

A handle can be given any list of processes. One that was never attached to the scope is in
the gap as long as no exit of it was signalled, if no capture of it is kept.
-/

open Std

namespace Shepherd

open Conc

/-! ### The handle -/

/-- The handle of a scope. -/
structure ScopedProcesses where
  scope : ProcessScopeId
  processes : List ProcessId
  owned : List ProcessId

namespace ScopedProcesses

/-- A handle that owns its initial list. -/
def new (scope : ProcessScopeId) (processes : List ProcessId) : ScopedProcesses :=
  ⟨scope, processes, processes⟩

/-- One of the three stores knows the process. -/
def observable (h : ScopedProcesses) (s : Inner) (pid : ProcessId) : Bool :=
  ((s.registry.get h.scope).any fun sc => sc.contains pid) || s.outputs.contains pid ||
    (s.waiters.tryGet pid).isSome

/-- `observable_owned`: authorization is pruned by what the stores know. -/
def observableOwned (h : ScopedProcesses) (s : Inner) : ScopedProcesses :=
  { h with owned := h.owned.filter (h.observable s) }

/-- Inserts a process into the owned set. -/
def insert (h : ScopedProcesses) (pid : ProcessId) : ScopedProcesses :=
  { h with owned := if pid ∈ h.owned then h.owned else pid :: h.owned }

/-- What a pruning leaves was owned, and is known to a store. -/
theorem mem_observableOwned {h : ScopedProcesses} {s : Inner} {p : ProcessId} :
    p ∈ (h.observableOwned s).owned ↔ p ∈ h.owned ∧ h.observable s p = true :=
  List.mem_filter

/-- What is owned after an insertion. -/
theorem mem_insert {h : ScopedProcesses} {p q : ProcessId} :
    q ∈ (h.insert p).owned ↔ q = p ∨ q ∈ h.owned := by
  rw [insert]
  split
  · next hp =>
      constructor
      · exact .inr
      · rintro (rfl | hq)
        · exact hp
        · exact hq
  · exact List.mem_cons

end ScopedProcesses

/-! ### Runs with a handle -/

/-- The calls on a handle. -/
inductive HandleCall where
  | authorizedLen
  | spawn (spec : ProcessSpec)
  | wait (pid : ProcessId)
  | takeOutput (pid : ProcessId)

/-- What happens next: a step of the supervisor, the beginning of a call on the handle, or its
continuation when the supervisor's own call has returned. -/
inductive HandleLabel where
  | supervisor (l : Label Answer Call)
  | call (c : HandleCall)
  | resume (t : Tid)

/-- Processes whose exit was signalled, and that the waiters do not show any more. -/
def Inner.expired (s : Inner) : List ProcessId :=
  (signalLog s.history).filter fun p => (s.waiters.tryGet p).isNone

/-- A supervisor and a handle. The calls of the handle that are in the supervisor are named by
their tasks; `started`, `granted` and `expired` only remember. -/
structure HandleState where
  cfg : Config Res Ret Inner
  handle : ScopedProcesses
  calls : List (Tid × HandleCall)
  /-- The calls that entered the supervisor. -/
  started : List (Tid × HandleCall)
  /-- The processes that the handle has ever owned. -/
  granted : List ProcessId
  /-- The processes whose exits the waiters have evicted. -/
  expired : List ProcessId

namespace HandleState

/-- A new handle over a supervisor. -/
def new (cfg : Config Res Ret Inner) (scope : ProcessScopeId) (processes : List ProcessId) :
    HandleState where
  cfg := cfg
  handle := .new scope processes
  calls := []
  started := []
  granted := processes
  expired := cfg.shared.expired

/-- The supervisor moves on. -/
def advance (σ : HandleState) (cfg : Config Res Ret Inner) : HandleState :=
  { σ with cfg := cfg, expired := cfg.shared.expired ++ σ.expired }

/-- A call on the handle prunes first. -/
def prune (σ : HandleState) : HandleState :=
  { σ with handle := σ.handle.observableOwned σ.cfg.shared }

/-- A call of the handle is in the supervisor, under the next task. -/
def entered (σ : HandleState) (cfg : Config Res Ret Inner) (c : HandleCall) : HandleState :=
  { σ.advance cfg with
    calls := (σ.cfg.shared.nextTask, c) :: σ.calls
    started := (σ.cfg.shared.nextTask, c) :: σ.started }

/-- A call of the handle enters the supervisor. -/
def enter (σ : HandleState) (c : HandleCall) (call : Call) : Option HandleState :=
  (supervisor.step σ.cfg (.start call)).map fun cfg => σ.entered cfg c

/-- A spawn has returned: the process is owned from now on. -/
def grant (σ : HandleState) (pid : ProcessId) : HandleState :=
  { σ with handle := σ.handle.insert pid, granted := pid :: σ.granted }

/-- The beginning of a call. `wait` and `take_output` enter the supervisor for an authorized
process only. -/
def call (σ : HandleState) : HandleCall → Option HandleState
  | .authorizedLen => some σ.prune
  | .spawn spec => σ.enter (.spawn spec) (.spawn σ.handle.scope spec false)
  | .wait pid =>
      if pid ∈ σ.prune.handle.owned then σ.prune.enter (.wait pid) (.wait pid) else some σ.prune
  | .takeOutput pid =>
      if pid ∈ σ.prune.handle.owned then σ.prune.enter (.takeOutput pid) (.takeOutput pid)
      else some σ.prune

/-- The continuation of a call, with what the supervisor returned. -/
def resume (σ : HandleState) (t : Tid) : Option HandleState :=
  let σ' := { σ with calls := σ.calls.filter fun x => x.1 ≠ t }
  match σ.calls.lookup t, returnOf σ.cfg.shared.history t with
  | some (.spawn _), some (.spawned _ (.ok pid)) => some (σ'.prune.grant pid)
  | some (.wait _), some (.waited _ _) => some σ'.prune
  | some (.takeOutput _), some (.tookOutput _ _) => some σ'.prune
  | _, _ => none

/-- One step. -/
def step (σ : HandleState) : HandleLabel → Option HandleState
  | .supervisor l => (supervisor.step σ.cfg l).map σ.advance
  | .call c => σ.call c
  | .resume t => σ.resume t

/-- Follows a schedule, as long as every step meets a condition. -/
def follow (cond : HandleState → HandleLabel → Bool) (σ : HandleState) :
    List HandleLabel → Option HandleState
  | [] => some σ
  | l :: ls => if cond σ l then (σ.step l).bind fun σ' => follow cond σ' ls else none

end HandleState

/-- The states that a handle reaches in runs whose steps meet a condition. -/
inductive HandleRun (cond : HandleState → HandleLabel → Bool) : HandleState → Prop
  | new {cfg : Config Res Ret Inner} (scope : ProcessScopeId) (processes : List ProcessId) :
      Reachable cfg → HandleRun cond (.new cfg scope processes)
  | step {σ σ' : HandleState} (l : HandleLabel) :
      HandleRun cond σ → cond σ l = true → σ.step l = some σ' → HandleRun cond σ'

/-- A schedule is a run, if every step of it meets the condition. -/
theorem HandleRun.follow {cond : HandleState → HandleLabel → Bool} {σ σ' : HandleState}
    {ls : List HandleLabel} (h : HandleRun cond σ) (hf : σ.follow cond ls = some σ') :
    HandleRun cond σ' := by
  induction ls generalizing σ with
  | nil =>
      obtain rfl := Option.some.inj hf
      exact h
  | cons l ls ih =>
      rw [HandleState.follow] at hf
      split at hf
      · next hc =>
          obtain ⟨σ₁, hs, hf⟩ := Option.bind_eq_some_iff.mp hf
          exact ih (h.step l hc hs) hf
      · cases hf

/-! ### The gap -/

/-- The processes that commits have lost: still tracked when their scope was removed, with no
exit signalled. -/
def lostLog (h : History) : List ProcessId :=
  h.flatMap fun x => match x.2 with
    | .scopeRemoved _ lost => lost
    | _ => []

/-- The processes that were attached to a scope. -/
def attachLog (c : ProcessScopeId) (h : History) : List ProcessId :=
  h.filterMap fun x => match x.2 with
    | .attached c' p _ => if c' = c then some p else none
    | _ => none

/-- A process between the stores: lost by a commit, or never attached to the scope, and not
signalled yet, without a kept capture. -/
def Inner.gap (s : Inner) (c : ProcessScopeId) (pid : ProcessId) : Bool :=
  ((lostLog s.history).contains pid || !(attachLog c s.history).contains pid) &&
    !(signalLog s.history).contains pid && !s.outputs.contains pid

/-- The label prunes the owned set. -/
def HandleLabel.prunes : HandleLabel → Bool
  | .supervisor _ | .call (.spawn _) => false
  | _ => true

/-- No call prunes while the handle owns a process between the stores. -/
def minds (σ : HandleState) (l : HandleLabel) : Bool :=
  !l.prunes || σ.handle.owned.all fun p => !σ.cfg.shared.gap σ.handle.scope p

/-- The log of losses lists the processes that were lost. -/
theorem mem_lostLog {h : History} {p : ProcessId} : p ∈ lostLog h ↔ Lost h p := by
  simp only [lostLog, List.mem_flatMap, Lost, Happened]
  constructor
  · rintro ⟨⟨t, ev⟩, hm, hp⟩
    cases ev with
    | scopeRemoved c lost => exact ⟨c, lost, ⟨t, hm⟩, hp⟩
    | _ => cases hp
  · rintro ⟨c, lost, ⟨t, hm⟩, hp⟩
    exact ⟨(t, .scopeRemoved c lost), hm, hp⟩

/-- The log of attachments lists the processes that were attached to the scope. -/
theorem mem_attachLog {h : History} {c : ProcessScopeId} {p : ProcessId} :
    p ∈ attachLog c h ↔ ∃ os, Happened h (.attached c p os) := by
  simp only [attachLog, List.mem_filterMap, Happened]
  constructor
  · rintro ⟨⟨t, ev⟩, hm, hx⟩
    cases ev with
    | attached c' p' os =>
        obtain ⟨rfl, rfl⟩ : c' = c ∧ p' = p := by simpa using hx
        exact ⟨os, t, hm⟩
    | _ => cases hx
  · rintro ⟨os, t, hm⟩
    exact ⟨(t, .attached c p os), hm, by simp⟩

/-- **The stores cover the scope**: a process outside the gap that no store knows was
signalled, and the waiters have evicted its exit. -/
theorem Inv.expired_of_unobservable {s : Inner} {h : ScopedProcesses} {p : ProcessId}
    (hi : Inv s) (ho : h.observable s p = false) (hg : s.gap h.scope p = false) :
    p ∈ s.expired := by
  simp only [ScopedProcesses.observable, Bool.or_eq_false_iff] at ho
  obtain ⟨⟨hreg, hout⟩, hshow⟩ := ho
  have hnone : s.waiters.tryGet p = none := by simpa using hshow
  have hsig : Signalled s.history p := by
    by_contra hn
    have hgap : ¬ (Lost s.history p ∨ ¬ ∃ os, Happened s.history (.attached h.scope p os)) := by
      rw [← mem_lostLog, ← mem_attachLog]
      intro hx
      have hm : p ∉ signalLog s.history := fun hm => hn (mem_signalLog.mp hm)
      simp only [Inner.gap, List.contains_eq_mem, hm, hout, decide_false, Bool.not_false,
        Bool.and_true, Bool.or_eq_false_iff, decide_eq_false_iff_not, Bool.not_eq_false',
        decide_eq_true_eq] at hg
      exact hx.elim hg.1 fun hna => hna hg.2
    rw [not_or, not_not] at hgap
    obtain ⟨hl, os, ha⟩ := hgap
    rcases hi.processes.signalled ha with hs | hl' | ⟨proc, sc, hsc, hp⟩
    · exact hn hs
    · exact hl hl'
    · rw [hsc, Option.any_some, ProcessScope.contains] at hreg
      rw [ProcessScope.get] at hp
      rw [ExtTreeMap.contains_eq_isSome_getElem?, hp] at hreg
      cases hreg
  exact List.mem_filter.mpr ⟨mem_signalLog.mpr hsig, by rw [hnone]; rfl⟩

/-! ### What a step does -/

namespace HandleState

/-- What the handle and the supervisor do in a step. -/
inductive Moves (σ : HandleState) : HandleLabel → HandleState → Prop
  | works {l : Label Answer Call} {cfg : Config Res Ret Inner}
      (step : supervisor.step σ.cfg l = some cfg) : Moves σ (.supervisor l) (σ.advance cfg)
  | spawns {spec : ProcessSpec} {cfg : Config Res Ret Inner}
      (step : supervisor.step σ.cfg (.start (.spawn σ.handle.scope spec false)) = some cfg) :
      Moves σ (.call (.spawn spec)) (σ.entered cfg (.spawn spec))
  | enters {c : HandleCall} {call : Call} {cfg : Config Res Ret Inner}
      (other : ∀ spec, c ≠ .spawn spec)
      (step : supervisor.step σ.cfg (.start call) = some cfg) :
      Moves σ (.call c) (σ.prune.entered cfg c)
  | prunes {l : HandleLabel} {rest : List (Tid × HandleCall)} (prunes : l.prunes = true)
      (calls : ∀ x ∈ rest, x ∈ σ.calls) : Moves σ l { σ.prune with calls := rest }
  | grants {t : Tid} {spec : ProcessSpec} {c : ProcessScopeId} {p : ProcessId}
      {rest : List (Tid × HandleCall)} (call : (t, .spawn spec) ∈ σ.calls)
      (returned : returnOf σ.cfg.shared.history t = some (.spawned c (.ok p)))
      (calls : ∀ x ∈ rest, x ∈ σ.calls) :
      Moves σ (.resume t) ({ σ.prune with calls := rest }.grant p)

variable {σ σ' : HandleState} {l : HandleLabel}

/-- A call that is found is among the calls. -/
theorem mem_of_lookup {t : Tid} {c : HandleCall} (hc : σ.calls.lookup t = some c) :
    (t, c) ∈ σ.calls := by
  obtain ⟨l₁, l₂, heq, -⟩ := List.lookup_eq_some_iff.mp hc
  simp [heq]

/-- The continuation of a call is a move of the handle: it prunes, and grants a process that was
spawned. -/
theorem moves_resume {t : Tid} (hs : σ.resume t = some σ') : σ.Moves (.resume t) σ' := by
  have hcalls : ∀ x ∈ σ.calls.filter fun x => x.1 ≠ t, x ∈ σ.calls :=
    fun x hx => (List.mem_filter.mp hx).1
  rw [resume] at hs
  split at hs
  · next hc hv =>
      obtain rfl := Option.some.inj hs
      exact .grants (mem_of_lookup hc) hv hcalls
  · obtain rfl := Option.some.inj hs
    exact .prunes rfl hcalls
  · obtain rfl := Option.some.inj hs
    exact .prunes rfl hcalls
  · cases hs

/-- The beginning of a call is a move of the handle: it prunes, and enters the supervisor if it goes
on. -/
theorem moves_call {c : HandleCall} (hs : σ.call c = some σ') : σ.Moves (.call c) σ' := by
  cases c with
  | authorizedLen =>
      obtain rfl := Option.some.inj hs
      exact .prunes rfl fun _ hx => hx
  | spawn spec =>
      rw [call, enter] at hs
      obtain ⟨cfg, hstep, rfl⟩ := Option.map_eq_some_iff.mp hs
      exact .spawns hstep
  | wait p =>
      rw [call] at hs
      split at hs
      · obtain ⟨cfg, hstep, rfl⟩ := Option.map_eq_some_iff.mp hs
        exact .enters (fun _ => HandleCall.noConfusion) hstep
      · obtain rfl := Option.some.inj hs
        exact .prunes rfl fun _ hx => hx
  | takeOutput p =>
      rw [call] at hs
      split at hs
      · obtain ⟨cfg, hstep, rfl⟩ := Option.map_eq_some_iff.mp hs
        exact .enters (fun _ => HandleCall.noConfusion) hstep
      · obtain rfl := Option.some.inj hs
        exact .prunes rfl fun _ hx => hx

/-- **Every step is such a move.** -/
theorem moves (hs : σ.step l = some σ') : σ.Moves l σ' := by
  cases l with
  | supervisor l =>
      obtain ⟨cfg, hstep, rfl⟩ := Option.map_eq_some_iff.mp hs
      exact .works hstep
  | call c => exact moves_call hs
  | resume t => exact moves_resume hs

/-- The supervisor takes a step, or none. -/
theorem Moves.cfg (hm : σ.Moves l σ') :
    σ'.cfg = σ.cfg ∨ ∃ l', supervisor.step σ.cfg l' = some σ'.cfg := by
  cases hm with
  | works hs => exact .inr ⟨_, hs⟩
  | spawns hs => exact .inr ⟨_, hs⟩
  | enters _ hs => exact .inr ⟨_, hs⟩
  | prunes => exact .inl rfl
  | grants => exact .inl rfl

/-- What has expired is remembered. -/
theorem Moves.expired {p : ProcessId} (hm : σ.Moves l σ') (hp : p ∈ σ.expired) :
    p ∈ σ'.expired := by
  cases hm with
  | works hs => exact List.mem_append.mpr (.inr hp)
  | spawns hs => exact List.mem_append.mpr (.inr hp)
  | enters _ hs => exact List.mem_append.mpr (.inr hp)
  | prunes => exact hp
  | grants => exact hp

end HandleState

/-! ### A spawn of the handle -/

/-- The task is a spawn into the scope, and returns what a spawn into it returns. -/
def SpawnsInto (t : Tid) (c : ProcessScopeId) (cfg : Config Res Ret Inner) : Prop :=
  protocol.Watched Watch.idle t none (fun v _ _ => ∃ r, v = .spawned c r)
    (fun _ s => ∃ r, returnOf s.history t = some (.spawned c r)) cfg ()

/-- A spawn that starts is one into its scope. -/
theorem SpawnsInto.start {cfg cfg' : Config Res Ret Inner} {c : ProcessScopeId}
    {spec : ProcessSpec} (hs : supervisor.step cfg (.start (.spawn c spec false)) = some cfg') :
    SpawnsInto cfg.shared.nextTask c cfg' := by
  cases supervisor.step_shared hs with
  | start hsh hentry =>
      have hspawn : protocol.tracked Watch.idle cfg.shared.nextTask
          ((spawnOwned c spec false).bind fun r => .pure (Ret.spawned c r))
          (fun v _ _ => ∃ r, v = .spawned c r) () cfg'.shared :=
        Protocol.tracked_bind (Protocol.tracked_mono
          (fun r _ _ _ => show ∃ r', Ret.spawned c r = .spawned c r' from ⟨r, rfl⟩)
          (Protocol.tracked_idle _ _))
      exact Protocol.Watched.start hentry hspawn

/-- A spawn into the scope stays one, whatever happens beside it. -/
theorem SpawnsInto.step {cfg cfg' : Config Res Ret Inner} {l : Label Answer Call} {t : Tid}
    {c : ProcessScopeId} (hr : Reachable cfg) (hw : SpawnsInto t c cfg)
    (hs : supervisor.step cfg l = some cfg') (hlt : t < cfg.shared.nextTask) :
    SpawnsInto t c cfg' := by
  refine Protocol.Watched.step (good_of_reachable hr) guar_enter ?_ ?_ hw hs (fun heq => ?_)
    (Nat.ne_of_lt hlt)
  · rintro _ s s' ⟨r, hret⟩ hrely
    exact ⟨r, (returnOf_rely hrely).trans hret⟩
  · rintro _ _ s ⟨r, rfl⟩
    exact ⟨r, returnOf_returned _⟩
  · subst heq
    obtain ⟨_, _, _, -, hu, -⟩ := hw.dropped (good_of_reachable hr) hs
    cases hu

/-- A spawn returns for the scope it was called for. -/
theorem SpawnsInto.returned {cfg : Config Res Ret Inner} {t : Tid} {c c' : ProcessScopeId}
    {r : Except SpawnError ProcessId} (hr : Reachable cfg) (hw : SpawnsInto t c cfg)
    (hv : returnOf cfg.shared.history t = some (.spawned c' r)) : c' = c := by
  cases ht : cfg.tasks t with
  | none =>
      obtain ⟨r', hret⟩ := hw.over ht
      cases hv.symm.trans hret
      rfl
  | some task => exact absurd (mem_of_returnOf hv) (not_returned_of_running hr ht _)

/-- A call takes the next number of a task. -/
theorem start_next {cfg cfg' : Config Res Ret Inner} {call : Call}
    (hs : supervisor.step cfg (.start call) = some cfg') :
    cfg.shared.nextTask < cfg'.shared.nextTask := by
  cases supervisor.step_shared hs with
  | start hsh _ =>
      rw [hsh]
      exact Nat.lt_succ_self _

/-! ### Who is authorized -/

/-- A spawn through the handle has returned the process. -/
def HandleState.Spawned (σ : HandleState) (p : ProcessId) : Prop :=
  ∃ t spec, (t, .spawn spec) ∈ σ.started ∧
    (t, .returned (.spawned σ.handle.scope (.ok p))) ∈ σ.cfg.shared.history

/-- The calls of a handle are tasks of the supervisor; what it owns it was given, and what was
signalled is shown or remembered as expired. -/
structure HandleInv (σ : HandleState) : Prop where
  reachable : Reachable σ.cfg
  calls : ∀ x ∈ σ.calls, x ∈ σ.started
  spawns : ∀ t spec, (t, .spawn spec) ∈ σ.started →
    t < σ.cfg.shared.nextTask ∧ SpawnsInto t σ.handle.scope σ.cfg
  owned : ∀ p ∈ σ.handle.owned, p ∈ σ.granted
  granted : ∀ p ∈ σ.granted, p ∈ σ.handle.processes ∨ σ.Spawned p
  expired : ∀ p ∈ σ.cfg.shared.expired, p ∈ σ.expired

/-- A process that was granted is owned still, unless its exit was evicted. -/
def HandleState.Keeps (σ : HandleState) : Prop :=
  ∀ p ∈ σ.granted, p ∈ σ.handle.owned ∨ p ∈ σ.expired

namespace HandleInv

variable {σ σ' : HandleState} {cfg' : Config Res Ret Inner}

/-- A new handle has made no calls. -/
theorem new {cfg : Config Res Ret Inner} (hr : Reachable cfg) (scope : ProcessScopeId)
    (processes : List ProcessId) : HandleInv (.new cfg scope processes) where
  reachable := hr
  calls _ hm := nomatch hm
  spawns _ _ hm := nomatch hm
  owned _ hp := hp
  granted _ hp := .inl hp
  expired _ hp := hp

/-- The supervisor moves on. -/
theorem advance {l : Label Answer Call} (hi : HandleInv σ)
    (hs : supervisor.step σ.cfg l = some cfg') : HandleInv (σ.advance cfg') where
  reachable := hi.reachable.step hs
  calls := hi.calls
  spawns t spec hm := by
    obtain ⟨hlt, hw⟩ := hi.spawns t spec hm
    exact ⟨hlt.trans_le (supervisor.step_next hs), hw.step hi.reachable hs hlt⟩
  owned := hi.owned
  granted p hp := by
    rcases hi.granted p hp with hin | ⟨t, spec, hm, hret⟩
    · exact .inl hin
    · exact .inr ⟨t, spec, hm, (step_suffix hs).mem hret⟩
  expired p hp := List.mem_append.mpr (.inl hp)

/-- Pruning takes authority away only. -/
theorem prune (hi : HandleInv σ) : HandleInv σ.prune :=
  { hi with owned := fun p hp => hi.owned p (ScopedProcesses.mem_observableOwned.mp hp).1 }

/-- A call enters the supervisor. -/
theorem entered {c : HandleCall} {call : Call} (hi : HandleInv σ)
    (hc : ∀ spec, c = .spawn spec → call = .spawn σ.handle.scope spec false)
    (hs : supervisor.step σ.cfg (.start call) = some cfg') : HandleInv (σ.entered cfg' c) := by
  have ha := hi.advance hs
  refine ⟨ha.reachable, fun x hm => ?_, fun t spec hm => ?_, ha.owned, fun p hp => ?_, ha.expired⟩
  · rcases List.mem_cons.mp hm with rfl | hm
    · exact List.mem_cons_self
    · exact List.mem_cons_of_mem _ (hi.calls x hm)
  · rcases List.mem_cons.mp hm with heq | hm
    · obtain ⟨rfl, rfl⟩ := Prod.mk.inj heq
      obtain rfl := hc spec rfl
      exact ⟨start_next hs, SpawnsInto.start hs⟩
    · exact ha.spawns t spec hm
  · rcases ha.granted p hp with hin | ⟨t, spec, hm, hret⟩
    · exact .inl hin
    · exact .inr ⟨t, spec, List.mem_cons_of_mem _ hm, hret⟩

/-- A call has ended. -/
theorem calls_subset {calls : List (Tid × HandleCall)} (hi : HandleInv σ)
    (hc : ∀ x ∈ calls, x ∈ σ.calls) : HandleInv { σ with calls := calls } :=
  { hi with calls := fun x hm => hi.calls x (hc x hm) }

/-- A spawn through the handle has returned. -/
theorem grant {p : ProcessId} (hi : HandleInv σ) (hp : σ.Spawned p) : HandleInv (σ.grant p) :=
  { hi with
    owned := fun q hq => by
      rcases ScopedProcesses.mem_insert.mp hq with rfl | hq
      · exact List.mem_cons_self
      · exact List.mem_cons_of_mem _ (hi.owned q hq)
    granted := fun q hq => by
      rcases List.mem_cons.mp hq with rfl | hq
      · exact .inr hp
      · exact hi.granted q hq }

/-- A process whose spawn has returned to the handle. -/
theorem spawned {t : Tid} {spec : ProcessSpec} {c : ProcessScopeId} {p : ProcessId}
    (hi : HandleInv σ) (hc : (t, .spawn spec) ∈ σ.calls)
    (hv : returnOf σ.cfg.shared.history t = some (.spawned c (.ok p))) : σ.Spawned p := by
  have hm := hi.calls _ hc
  obtain ⟨-, hw⟩ := hi.spawns t spec hm
  obtain rfl := hw.returned hi.reachable hv
  exact ⟨t, spec, hm, mem_of_returnOf hv⟩

/-- **Every step of a handle keeps the invariant.** -/
theorem step {l : HandleLabel} (hi : HandleInv σ) (hm : σ.Moves l σ') : HandleInv σ' := by
  cases hm with
  | works hs => exact hi.advance hs
  | spawns hs => exact hi.entered (fun _ heq => by cases heq; rfl) hs
  | enters hc hs => exact hi.prune.entered (fun spec heq => absurd heq (hc spec)) hs
  | prunes _ hc => exact hi.prune.calls_subset hc
  | grants hcall hv hc =>
      have hsp := hi.spawned hcall hv
      exact (hi.prune.calls_subset hc).grant hsp

end HandleInv

/-- **The invariant of a handle holds in every run.** -/
theorem HandleRun.inv {cond : HandleState → HandleLabel → Bool} {σ : HandleState}
    (h : HandleRun cond σ) : HandleInv σ := by
  induction h with
  | new scope processes hr => exact .new hr scope processes
  | step l _ _ hs ih => exact ih.step (HandleState.moves hs)

/-! ### Keeping the authority -/

namespace HandleState.Keeps

variable {σ σ' : HandleState}

/-- A step of the supervisor keeps what was granted. -/
theorem advance (hk : σ.Keeps) (cfg : Config Res Ret Inner) : (σ.advance cfg).Keeps :=
  fun p hp => (hk p hp).imp_right fun hx => List.mem_append.mpr (.inr hx)

/-- A call prunes what has expired, outside the gap. -/
theorem prune (hk : σ.Keeps) (hi : HandleInv σ)
    (hg : ∀ p ∈ σ.handle.owned, σ.cfg.shared.gap σ.handle.scope p = false) : σ.prune.Keeps := by
  intro p hp
  rcases hk p hp with hown | hexp
  · cases ho : σ.handle.observable σ.cfg.shared p with
    | true => exact .inl (ScopedProcesses.mem_observableOwned.mpr ⟨hown, ho⟩)
    | false =>
        exact .inr (hi.expired p
          ((inv_of_reachable hi.reachable).expired_of_unobservable ho (hg p hown)))
  · exact .inr hexp

/-- A grant keeps what was granted before. -/
theorem grant (hk : σ.Keeps) (p : ProcessId) : (σ.grant p).Keeps := by
  intro q hq
  rcases List.mem_cons.mp hq with rfl | hq
  · exact .inl (ScopedProcesses.mem_insert.mpr (.inl rfl))
  · exact (hk q hq).imp_left fun hx => ScopedProcesses.mem_insert.mpr (.inr hx)

/-- **A step that minds the gap** keeps what the handle was granted. -/
theorem step {l : HandleLabel} (hk : σ.Keeps) (hi : HandleInv σ) (hc : minds σ l = true)
    (hm : σ.Moves l σ') : σ'.Keeps := by
  have hpruned : l.prunes = true → σ.prune.Keeps := by
    intro hp
    refine hk.prune hi fun p hown => ?_
    rw [minds, hp, Bool.not_true, Bool.false_or, List.all_eq_true] at hc
    simpa using hc p hown
  cases hm with
  | works hs => exact hk.advance _
  | spawns hs => exact hk.advance _
  | @enters c _ cfg hother hs =>
      have hp : (HandleLabel.call c).prunes = true := by
        cases c with
        | spawn spec => exact absurd rfl (hother spec)
        | _ => rfl
      exact (hpruned hp).advance cfg
  | prunes hp => exact hpruned hp
  | grants =>
      have hp : σ.prune.Keeps := hpruned rfl
      exact Keeps.grant hp _

end HandleState.Keeps

/-- **A run that minds the gap** keeps what the handle was granted. -/
theorem HandleRun.keeps {σ : HandleState} (h : HandleRun minds σ) : σ.Keeps := by
  induction h with
  | new scope processes hr => exact fun p hp => .inl hp
  | step l h hc hs ih => exact ih.step h.inv hc (HandleState.moves hs)

/-! ### A wait of the handle -/

/-- The wait for a process is at its lookup, or it is over and did not fail. -/
inductive Answers (t : Tid) (p : ProcessId) (cfg : Config Res Ret Inner) : Prop
  | looking (task : cfg.tasks t = some (Role.call (.wait p)).task)
  | unwinding (task : cfg.tasks t = some ⟨unwound, none⟩)
  | ended (task : cfg.tasks t = none)
      (sound : ∀ e, (t, .returned (.waited p (.error e))) ∉ cfg.shared.history)

/-- A wait that is at its lookup, or over without an error, has not returned one. -/
theorem Answers.sound {t : Tid} {p : ProcessId} {cfg : Config Res Ret Inner}
    (ha : Answers t p cfg) (hr : Reachable cfg) (e : WaitError) :
    (t, .returned (.waited p (.error e))) ∉ cfg.shared.history := by
  cases ha with
  | looking ht => exact not_returned_of_running hr ht _
  | unwinding ht => exact not_returned_of_running hr ht _
  | ended _ hs => exact hs e

/-- The last operation of a task, and a return that is no failed wait for the process. -/
theorem Answers.finish {t : Tid} {p : ProcessId} {cfg cfg' : Config Res Ret Inner} {v : Ret}
    {o : Op} {a : Answer} {r : Res o} {s' : Inner} {task : Task Res Ret} (hr : Reachable cfg)
    (ht : cfg.tasks t = some task) (he : exec t o a cfg.shared = some (r, s'))
    (hsh : cfg'.shared = supervisor.finish t v s') (ht' : cfg'.tasks t = none)
    (hv : ∀ e, v ≠ .waited p (.error e)) : Answers t p cfg' := by
  refine .ended ht' fun e hm => ?_
  rw [hsh] at hm
  rcases List.mem_cons.mp hm with heq | hm
  · cases heq
    exact hv e rfl
  · obtain ⟨-, evs, hh, hk⟩ := exec_ext he
    rw [hh] at hm
    rcases List.mem_append.mp hm with hm | hm
    · obtain ⟨ev, hev, heq⟩ := List.mem_map.mp hm
      obtain ⟨-, rfl⟩ := Prod.mk.inj heq
      exact not_emits_returned o _ (hk _ hev)
    · exact not_returned_of_running hr ht _ hm

/-- **A wait whose exit is shown** does not fail, whatever the supervisor does. -/
theorem Answers.step {t : Tid} {p : ProcessId} {cfg cfg' : Config Res Ret Inner}
    {l : Label Answer Call} (ha : Answers t p cfg) (hr : Reachable cfg)
    (hlt : t < cfg.shared.nextTask) (hw : cfg.shared.waiters.tryGet p ≠ none)
    (hs : supervisor.step cfg l = some cfg') : Answers t p cfg' := by
  by_cases hl : Machine.moves t l
  · cases supervisor.step_shared hs with
    | @run t' a o k u r s' ht hexec hsh =>
        obtain rfl : t' = t := hl
        cases ha with
        | looking ht₁ =>
            cases ht.symm.trans ht₁
            obtain ⟨e, hg⟩ := Option.ne_none_iff_exists'.mp hw
            obtain ⟨hres, -⟩ := Prod.mk.inj (Option.some.inj hexec)
            rw [hg] at hres
            obtain rfl := hres
            rcases hsh with ⟨_, _, hk, -⟩ | ⟨v, hk, hsh, ht'⟩
            · cases hk
            · obtain rfl := Prog.pure.inj hk
              exact .finish hr ht hexec hsh ht' fun _ => by simp
        | unwinding ht₁ =>
            cases ht.symm.trans ht₁
            rcases hsh with ⟨_, _, hk, -⟩ | ⟨v, hk, hsh, ht'⟩
            · cases hk
            · obtain rfl := Prog.pure.inj hk
              exact .finish hr ht hexec hsh ht' fun _ => by simp
        | ended ht₁ => cases ht.symm.trans ht₁
    | @drop t' o k q ht haw hsh hun =>
        obtain rfl : t' = t := hl
        cases ha with
        | looking ht₁ =>
            cases ht.symm.trans ht₁
            exact .unwinding hun
        | unwinding ht₁ => cases ht.symm.trans ht₁
        | ended ht₁ => cases ht.symm.trans ht₁
    | start => exact hl.elim
  · have htasks := supervisor.step_tasks hs hl (Nat.ne_of_lt hlt)
    cases ha with
    | looking ht => exact .looking (htasks.trans ht)
    | unwinding ht => exact .unwinding (htasks.trans ht)
    | ended ht hsound =>
        have hrely := (good_of_reachable hr).rely guar_enter hs hl (Nat.ne_of_lt hlt)
        exact .ended (htasks.trans ht) fun e hm => hsound e (Since.own_rely hrely hm)

/-! ### Authority -/

/-- The handle waits for a process now, and does not fail: whatever happens then, as long as
the waiters do not evict the exit of the process. -/
def HandleState.WaitsFor (σ : HandleState) (p : ProcessId) : Prop :=
  ∃ σ₁, σ.step (.call (.wait p)) = some σ₁ ∧ (σ.cfg.shared.nextTask, .wait p) ∈ σ₁.calls ∧
    ∀ ls σ', σ₁.follow (fun _ _ => true) ls = some σ' → p ∉ σ'.expired → ∀ e,
      (σ.cfg.shared.nextTask, .returned (.waited p (.error e))) ∉ σ'.cfg.shared.history

section

variable {σ σ' : HandleState} {t : Tid} {p : ProcessId}

/-- The waiters show a signalled exit that has not expired. -/
theorem HandleInv.shown (hi : HandleInv σ) (hs : Signalled σ.cfg.shared.history p)
    (he : p ∉ σ.expired) : σ.cfg.shared.waiters.tryGet p ≠ none := by
  intro hn
  exact he (hi.expired p (List.mem_filter.mpr ⟨mem_signalLog.mpr hs, by rw [hn]; rfl⟩))

/-- What has expired is remembered over a schedule. -/
theorem HandleState.expired_follow {cond : HandleState → HandleLabel → Bool}
    {ls : List HandleLabel} (hf : σ.follow cond ls = some σ') (hp : p ∈ σ.expired) :
    p ∈ σ'.expired := by
  induction ls generalizing σ with
  | nil =>
      obtain rfl := Option.some.inj hf
      exact hp
  | cons l ls ih =>
      rw [HandleState.follow] at hf
      split at hf
      · obtain ⟨σ₁, hs, hf⟩ := Option.bind_eq_some_iff.mp hf
        exact ih hf ((HandleState.moves hs).expired hp)
      · cases hf

/-- A wait that is begun after the signal goes on not to fail, until the eviction. -/
theorem Answers.follow {ls : List HandleLabel} (ha : Answers t p σ.cfg) (hi : HandleInv σ)
    (hlt : t < σ.cfg.shared.nextTask) (hs : Signalled σ.cfg.shared.history p)
    (hf : σ.follow (fun _ _ => true) ls = some σ') (he : p ∉ σ'.expired) :
    Answers t p σ'.cfg ∧ Reachable σ'.cfg := by
  have hx : p ∉ σ.expired := fun hx => he (HandleState.expired_follow hf hx)
  induction ls generalizing σ with
  | nil =>
      obtain rfl := Option.some.inj hf
      exact ⟨ha, hi.reachable⟩
  | cons l ls ih =>
      rw [HandleState.follow, if_pos rfl] at hf
      obtain ⟨σ₁, hstep, hf⟩ := Option.bind_eq_some_iff.mp hf
      have hm := HandleState.moves hstep
      have hx₁ : p ∉ σ₁.expired := fun hx => he (HandleState.expired_follow hf hx)
      rcases hm.cfg with hcfg | ⟨l', hcfg⟩
      · exact ih (hcfg ▸ ha) (hi.step hm) (hcfg ▸ hlt) (hcfg ▸ hs) hf hx₁
      · exact ih (ha.step hi.reachable hlt (hi.shown hs hx) hcfg) (hi.step hm)
          (hlt.trans_le (supervisor.step_next hcfg)) (hs.mono (step_suffix hcfg)) hf hx₁

/-- **An owned process whose exit is shown** is waited for. -/
theorem HandleInv.waitsFor (hi : HandleInv σ) (hown : p ∈ σ.handle.owned)
    (hs : Signalled σ.cfg.shared.history p) (he : p ∉ σ.expired) : σ.WaitsFor p := by
  have hshown : (σ.cfg.shared.waiters.tryGet p).isSome = true :=
    Option.isSome_iff_ne_none.mpr (hi.shown hs he)
  have hobs : σ.handle.observable σ.cfg.shared p = true := by
    simp [ScopedProcesses.observable, hshown]
  have hkept : p ∈ σ.prune.handle.owned := ScopedProcesses.mem_observableOwned.mpr ⟨hown, hobs⟩
  obtain ⟨cfg', hstep⟩ : ∃ cfg', supervisor.step σ.cfg (.start (.wait p)) = some cfg' := ⟨_, rfl⟩
  have hcall : σ.step (.call (.wait p)) = some (σ.prune.entered cfg' (.wait p)) := by
    rw [HandleState.step, HandleState.call, if_pos hkept, HandleState.enter]
    exact congrArg (Option.map _) hstep
  refine ⟨_, hcall, List.mem_cons_self, fun ls σ' hf he' e => ?_⟩
  have hlook : Answers σ.cfg.shared.nextTask p cfg' := by
    cases supervisor.step_shared hstep with
    | start _ hentry => exact .looking hentry
  obtain ⟨ha, hr⟩ := hlook.follow (hi.step (HandleState.moves hcall)) (start_next hstep)
    (hs.mono (step_suffix hstep)) hf he'
  exact ha.sound hr e

end

/-- **A scoped handle keeps its authority**. It owns only what it was given or has spawned, in
every run. In the runs that mind the gap, it waits for every process it was ever granted, from
the signal of the exit to the eviction. -/
theorem scoped_handle_keeps_authority (σ : HandleState) :
    (HandleRun (fun _ _ => true) σ →
      ∀ p ∈ σ.handle.owned, p ∈ σ.handle.processes ∨ σ.Spawned p) ∧
    (HandleRun minds σ → ∀ p ∈ σ.granted, Signalled σ.cfg.shared.history p →
      p ∉ σ.expired → σ.WaitsFor p) := by
  refine ⟨fun h p hp => h.inv.granted p (h.inv.owned p hp), fun h p hp hs he => ?_⟩
  rcases h.keeps p hp with hown | hexp
  · exact h.inv.waitsFor hown hs he
  · exact absurd hexp he

/-- Steps of the supervisor. -/
def ofSupervisor (ls : List (Label Answer Call)) : List HandleLabel :=
  ls.map .supervisor

/-- A process is spawned through the handle of a new scope and exits; its monitor records the
exit. -/
def spawnThroughHandle : List HandleLabel :=
  .call (.spawn (.new [])) :: ofSupervisor (steps 1 6 ++
    [.run 1 (.spawned (.ok ⟨100, .unavailable⟩))] ++ steps 1 2 ++ [.run 1 (.instant 0)] ++
    steps 1 1 ++ [.run 1 (.output none)] ++ steps 1 7) ++ [.resume 1] ++
  ofSupervisor (steps 2 1 ++ [.run 2 (.waited (some ⟨some 0, none, false⟩))] ++ steps 2 1)

/-- A run of a handle over the new scope, and a check of where it ends. -/
def handleRun (cond : HandleState → HandleLabel → Bool) (ls : List HandleLabel)
    (P : HandleState → Bool) : Bool :=
  (supervisor.follow (Machine.initial Inner.new) (.start (.createScope false) :: steps 0 1)).any
    fun cfg => ((HandleState.new cfg 1 []).follow cond ls).any P

/-- A schedule that ends in a state with the property gives a run that does. -/
theorem exists_handleRun {cond : HandleState → HandleLabel → Bool} {ls : List HandleLabel}
    {P : HandleState → Bool} (h : handleRun cond ls P = true) :
    ∃ σ, HandleRun cond σ ∧ P σ = true := by
  obtain ⟨cfg, hcfg, h⟩ := (Option.any_eq_true _ _).mp h
  obtain ⟨σ, hσ, hP⟩ := (Option.any_eq_true _ _).mp h
  exact ⟨σ, (HandleRun.new 1 [] (Machine.Reachable.follow .initial hcfg)).follow hσ, hP⟩

/-- The process was granted, its exit was signalled and is shown. -/
def HandleState.shows (σ : HandleState) : Bool :=
  σ.granted = [1] && signalLog σ.cfg.shared.history = [1] && σ.expired = []

/-- What the check of a run says of its last state. -/
theorem HandleState.of_shows {σ : HandleState} (h : σ.shows = true) :
    1 ∈ σ.granted ∧ Signalled σ.cfg.shared.history 1 ∧ 1 ∉ σ.expired := by
  simp only [shows, Bool.and_eq_true, decide_eq_true_eq] at h
  obtain ⟨⟨hg, hs⟩, he⟩ := h
  exact ⟨by simp [hg], mem_signalLog.mp (by simp [hs]), by simp [he]⟩

set_option maxRecDepth 20000 in
/-- The run without a call in the gap ends in such a state. -/
theorem minding_run : handleRun minds
    (spawnThroughHandle ++ ofSupervisor (commitScope ++ steps 2 9) ++ [.call .authorizedLen])
    HandleState.shows = true := by
  decide +kernel

/-- A process whose scope was committed before its exit was dispatched is waited for through the
handle. -/
theorem committed_process_is_waited_for : ∃ σ, HandleRun minds σ ∧
    1 ∈ σ.granted ∧ Signalled σ.cfg.shared.history 1 ∧ 1 ∉ σ.expired ∧ σ.WaitsFor 1 := by
  obtain ⟨σ, h, hP⟩ := exists_handleRun minding_run
  obtain ⟨hg, hs, he⟩ := HandleState.of_shows hP
  exact ⟨σ, h, hg, hs, he, (scoped_handle_keeps_authority σ).2 h 1 hg hs he⟩

set_option maxRecDepth 20000 in
/-- In the run with a call in the gap, the handle has lost its process. -/
theorem pruning_run : handleRun (fun _ _ => true)
    (spawnThroughHandle ++ ofSupervisor commitScope ++ [.call .authorizedLen] ++
      ofSupervisor (steps 2 9))
    (fun σ => σ.shows && σ.handle.owned = [] && σ.calls.isEmpty) = true := by
  decide +kernel

/-- The exit of an owned process is recorded and its scope is committed before the monitor
signals the exit. The handle is asked how many processes it authorizes, and the exit is
signalled: the handle does not wait for the process any more, though the waiters show it. -/
theorem pruned_process_is_refused : ∃ σ, HandleRun (fun _ _ => true) σ ∧
    1 ∈ σ.granted ∧ Signalled σ.cfg.shared.history 1 ∧ 1 ∉ σ.expired ∧
    σ.step (.call (.wait 1)) = some σ.prune ∧ ¬ σ.WaitsFor 1 := by
  obtain ⟨σ, h, hP⟩ := exists_handleRun pruning_run
  simp only [Bool.and_eq_true, decide_eq_true_eq, List.isEmpty_iff] at hP
  obtain ⟨⟨hshows, hown⟩, hcalls⟩ := hP
  obtain ⟨hg, hs, he⟩ := HandleState.of_shows hshows
  have hnot : 1 ∉ σ.prune.handle.owned := by
    intro hm
    have hm := (ScopedProcesses.mem_observableOwned.mp hm).1
    rw [hown] at hm
    cases hm
  have hcall : σ.step (.call (.wait 1)) = some σ.prune := by
    rw [HandleState.step, HandleState.call, if_neg hnot]
  refine ⟨σ, h, hg, hs, he, hcall, ?_⟩
  rintro ⟨σ₁, hstep, hm, -⟩
  obtain rfl := Option.some.inj (hcall.symm.trans hstep)
  rw [show σ.prune.calls = σ.calls from rfl, hcalls] at hm
  cases hm

end Shepherd
