import Shepherd.Background.TaskTrack
import Shepherd.Supervisor.Block

/-!
# Blocks Account for Their Scope

What holds in every state of a block, whatever the supervisor, its other callers, the runtime and
the caller that drops the block do.

* `SpawnReturns` — a spawn of the block keeps to the scope of the block.
* `OwnerAt` — the worker of the block is about to take the owner, or took it.
* `Placed` — what is known at a place of the future: its spawns were those of the first
  specifications, and the body was given what they returned.

A step of the supervisor only adds to the history (`BlockInv.supervise`); the others are checked
place by place.
-/

open Std

namespace Shepherd

open Conc

variable {t : Tid} {c : ProcessScopeId} {p : ProcessId} {h h' : History}
  {cfg cfg' : Config Res Ret Inner}

/-! ### The tasks of a block -/

/-- A spawn returns a result for its scope. -/
abbrev SpawnReturns (t : Tid) (c : ProcessScopeId) (cfg : Config Res Ret Inner) : Prop :=
  protocol.Watched Watch.idle t none (fun v _ _ => ∃ r, v = .spawned c r)
    (fun _ s => ∃ r, returnOf s.history t = some (.spawned c r)) cfg ()

/-- A spawn that starts will return for its scope. -/
theorem SpawnReturns.start {spec : ProcessSpec} {admission : Bool}
    (hs : supervisor.step cfg (.start (.spawn c spec admission)) = some cfg') :
    SpawnReturns cfg.shared.nextTask c cfg' := by
  cases supervisor.step_shared hs with
  | start hsh hentry =>
      refine Protocol.Watched.start hentry (Protocol.tracked_bind (p := spawnOwned c spec admission)
        (Protocol.tracked_mono (fun r _ _ _ => ⟨r, rfl⟩) (Protocol.tracked_idle _ _)))

/-- A spawn keeps to its return, whatever happens beside it, although it goes on in a worker of its
own. -/
theorem SpawnReturns.step {l : Label Answer Call} (hr : Reachable cfg)
    (hw : SpawnReturns t c cfg) (hs : supervisor.step cfg l = some cfg')
    (hlt : t < cfg.shared.nextTask) : SpawnReturns t c cfg' := by
  refine Protocol.Watched.step (good_of_reachable hr) guar_enter ?_ ?_ hw hs ?_
    (Nat.ne_of_lt hlt)
  · rintro _ s s' ⟨r, hret⟩ hrely
    exact ⟨r, (returnOf_rely hrely).trans hret⟩
  · rintro _ _ s ⟨r, rfl⟩
    exact ⟨r, returnOf_returned _⟩
  · rintro rfl
    obtain ⟨_, _, _, -, hu, -⟩ := hw.dropped (good_of_reachable hr) hs
    cases hu

/-- A spawn that has returned did so for its scope. -/
theorem SpawnReturns.returned {c' : ProcessScopeId} {r : Except SpawnError ProcessId}
    (hr : Reachable cfg) (hw : SpawnReturns t c cfg)
    (hv : returnOf cfg.shared.history t = some (.spawned c' r)) :
    (t, .returned (.spawned c r)) ∈ cfg.shared.history := by
  have hnone : cfg.tasks t = none := by
    cases ht : cfg.tasks t with
    | none => rfl
    | some task => exact absurd (mem_of_returnOf hv) (not_returned_of_running hr ht _)
  obtain ⟨r', hret⟩ := hw.over hnone
  obtain ⟨rfl, rfl⟩ := Ret.spawned.inj (Option.some.inj (hv.symm.trans hret))
  exact mem_of_returnOf hv

/-- A task is about to take the owner of a scope, or took it. -/
def OwnerAt (cfg : Config Res Ret Inner) (x : Tid → List ProcessScopeId) (t : Tid)
    (c : ProcessScopeId) : Prop :=
  c ∈ x t ∨ ∃ k u, cfg.tasks t = some ⟨.op (.takeOwner c) k, u⟩

/-- A call that takes an owner starts with the owner in its place. -/
theorem OwnerAt.start {x : Tid → List ProcessScopeId} {call : Call} {k : Unit → Code Ret}
    (hcode : call.code = .op (.takeOwner c) k)
    (hs : supervisor.step cfg (.start call) = some cfg') :
    OwnerAt cfg' x cfg.shared.nextTask c := by
  cases supervisor.step_shared hs with
  | start hsh hentry =>
      refine .inr ⟨k, call.unwind, hentry.trans ?_⟩
      rw [← hcode]
      rfl

/-- An owner is taken without an await. -/
theorem OwnerAt.step {x : Tid → List ProcessScopeId} {l : Label Answer Call}
    (ho : OwnerAt cfg x t c) (hs : supervisor.step cfg l = some cfg')
    (hlt : t < cfg.shared.nextTask) :
    OwnerAt cfg' (cfg.remember (Protocol.ownMemory fun _ => ownerWatch) l x) t c := by
  rcases ho with hm | ⟨k, u, ht⟩
  · exact .inl (mem_remember hm)
  by_cases hl : Machine.moves t l
  · cases l with
    | start call => exact hl.elim
    | run t' a =>
        obtain rfl : t' = t := hl
        refine .inl ?_
        simp only [Config.remember, ht, Protocol.ownMemory, Function.update_self]
        exact List.mem_cons_self
    | drop t' =>
        obtain rfl : t' = t := hl
        cases supervisor.step_shared hs with
        | drop htask hawaits =>
            obtain ⟨hp, -⟩ := Task.mk.inj (Option.some.inj (ht.symm.trans htask))
            cases hp
            cases hawaits
  · exact .inr ⟨k, u, (supervisor.step_tasks hs hl (Nat.ne_of_lt hlt)).trans ht⟩

/-- The task that took the owner is over. -/
theorem OwnerAt.gone {x : Tid → List ProcessScopeId} (ho : OwnerAt cfg x t c)
    (ht : cfg.tasks t = none) : OwnerGone cfg x c := by
  rcases ho with hm | ⟨k, u, ht'⟩
  · exact ⟨t, hm, .inl ht⟩
  · cases ht.symm.trans ht'

/-! ### What the spawns returned -/

/-- The spawns returned the processes, one each. -/
def Admitted (h : History) (c : ProcessScopeId) (calls : List (ProcessSpec × Tid))
    (processes : List ProcessId) : Prop :=
  List.Forall₂ (fun call p => (call.2, .returned (.spawned c (.ok p))) ∈ h) calls processes

namespace Admitted

variable {calls : List (ProcessSpec × Tid)} {processes : List ProcessId}

/-- What was admitted to a scope stays admitted. -/
theorem mono (hs : h <:+ h') (ha : Admitted h c calls processes) :
    Admitted h' c calls processes :=
  ha.imp fun _ _ hm => hs.mem hm

/-- One more. -/
theorem concat {spec : ProcessSpec} (ha : Admitted h c calls processes)
    (hm : (t, .returned (.spawned c (.ok p))) ∈ h) :
    Admitted h c (calls ++ [(spec, t)]) (processes ++ [p]) :=
  List.rel_append ha (.cons hm .nil)

/-- Every process is that of a spawn. -/
theorem exists_call {R : ProcessSpec × Tid → ProcessId → Prop} (ha : List.Forall₂ R calls processes)
    (hm : p ∈ processes) : ∃ call ∈ calls, R call p := by
  induction ha with
  | nil => cases hm
  | cons hp _ ih =>
      rcases List.mem_cons.mp hm with rfl | hm
      · exact ⟨_, List.mem_cons_self, hp⟩
      · obtain ⟨call, hmem, hp⟩ := ih hm
        exact ⟨call, List.mem_cons_of_mem _ hmem, hp⟩

/-- A spawn that succeeded has attached its process. -/
theorem attached (hl : Lawful h) (ha : Admitted h c calls processes) :
    List.Forall₂ (fun call p => ∃ os, (call.2, .attached c p os) ∈ h) calls processes := by
  refine ha.imp fun call p hm => ?_
  obtain ⟨newer, older, rfl, hj, -⟩ := hl.of_mem hm
  obtain ⟨os, hat⟩ := hj p rfl
  exact ⟨os, List.mem_append_right _ (List.mem_cons_of_mem _ hat)⟩

/-- **The processes of a block are its own**: no two spawns returned the same. -/
theorem nodup (hl : Lawful h) (ha : Admitted h c calls processes)
    (hn : (calls.map Prod.snd).Nodup) : processes.Nodup := by
  have hat := ha.attached hl
  clear ha
  induction hat with
  | nil => exact List.nodup_nil
  | @cons call p calls processes hp hrest ih =>
      rw [List.map_cons, List.nodup_cons] at hn
      refine List.nodup_cons.mpr ⟨fun hm => hn.1 ?_, ih hn.2⟩
      obtain ⟨os, hp⟩ := hp
      obtain ⟨call', hcall', os', hp'⟩ := exists_call hrest hm
      rw [hl.attacher_unique hp hp']
      exact List.mem_map_of_mem hcall'

end Admitted

namespace BlockState

variable {β : Type} {s s' : BlockState β} {specs : List ProcessSpec}

/-! ### The invariant -/

/-- The body was given the processes of the specifications. -/
def Given (s : BlockState β) (specs : List ProcessSpec) : Prop :=
  ∃ processes, s.given = some processes ∧
    Admitted s.cfg.shared.history s.scope s.spawns processes ∧ s.spawns.map Prod.fst = specs

/-- A spawn failed, after the ones of the specifications before it. -/
def Refused (s : BlockState β) (specs : List ProcessSpec) (e : SpawnError) : Prop :=
  s.given = none ∧ s.spawns.map Prod.fst <+: specs ∧ ∃ earlier spec t processes,
    s.spawns = earlier ++ [(spec, t)] ∧ Admitted s.cfg.shared.history s.scope earlier processes ∧
    (t, .returned (.spawned s.scope (.error e))) ∈ s.cfg.shared.history

/-- What a result rests on. -/
def Ended (s : BlockState β) (specs : List ProcessSpec) : Except SpawnError β → Prop
  | .ok _ => s.Given specs
  | .error e => s.Refused specs e

/-- What is known at a place of the future. -/
def Placed (s : BlockState β) (specs : List ProcessSpec) : BlockAt β → Prop
  | .spawning processes rest => (s.given = none ∧ s.told = false) ∧
      Admitted s.cfg.shared.history s.scope s.spawns processes ∧
      s.spawns.map Prod.fst ++ rest = specs
  | .admitting processes rest t => (s.given = none ∧ s.told = false) ∧
      (∃ earlier spec, s.spawns = earlier ++ [(spec, t)] ∧
        Admitted s.cfg.shared.history s.scope earlier processes) ∧
      s.spawns.map Prod.fst ++ rest = specs
  | .running => s.told = false ∧ s.Given specs
  | .awaiting result => s.told = true ∧ s.Ended specs result
  | .returned result termination => (s.told = true ∧ s.Ended specs result) ∧
      Happened s.cfg.shared.history (.published s.scope termination)
  | .gone => s.told = true ∧ (s.Given specs ∨ s.given = none ∧ s.spawns.map Prod.fst <+: specs)

/-- **The invariant of a block.** -/
structure BlockInv (s : BlockState β) (specs : List ProcessSpec) : Prop where
  /-- The worker of the block takes the owner of its scope. -/
  owner : ∃ x, OwnerRun s.cfg x ∧ ∀ t, s.worker = some t →
    t < s.cfg.shared.nextTask ∧ OwnerAt s.cfg x t s.scope
  spawned : ∀ call ∈ s.spawns,
    call.2 < s.cfg.shared.nextTask ∧ SpawnReturns call.2 s.scope s.cfg
  /-- No two spawns of the block are the same task. -/
  distinct : (s.spawns.map Prod.snd).Nodup
  placed : s.Placed specs s.caller

/-- The supervisor of a block is in a reachable state. -/
theorem BlockInv.reachable (hi : s.BlockInv specs) : Reachable s.cfg := by
  obtain ⟨x, hx, -⟩ := hi.owner
  exact hx.reachable

/-- What is known at a place outlives what only adds to the history. -/
theorem Placed.mono {at' : BlockAt β} (hs : s.cfg.shared.history <:+ cfg.shared.history)
    (hp : s.Placed specs at') : Placed { s with cfg } specs at' := by
  have hgiven : s.Given specs → Given { s with cfg } specs := by
    rintro ⟨processes, hg, ha, hm⟩
    exact ⟨processes, hg, ha.mono hs, hm⟩
  have hended : ∀ {result}, s.Ended specs result → Ended { s with cfg } specs result := by
    intro result he
    cases result with
    | ok value => exact hgiven he
    | error e =>
        obtain ⟨hg, hpre, earlier, spec, t, processes, heq, ha, hm⟩ := he
        exact ⟨hg, hpre, earlier, spec, t, processes, heq, ha.mono hs, hs.mem hm⟩
  cases at' with
  | spawning processes rest =>
      obtain ⟨hn, ha, hm⟩ := hp
      exact ⟨hn, ha.mono hs, hm⟩
  | admitting processes rest t =>
      obtain ⟨hn, ⟨earlier, spec, heq, ha⟩, hm⟩ := hp
      exact ⟨hn, ⟨earlier, spec, heq, ha.mono hs⟩, hm⟩
  | running => exact ⟨hp.1, hgiven hp.2⟩
  | awaiting result => exact ⟨hp.1, hended hp.2⟩
  | returned result termination => exact ⟨⟨hp.1.1, hended hp.1.2⟩, hp.2.mono hs⟩
  | gone => exact ⟨hp.1, hp.2.imp hgiven id⟩

/-- What the tasks of a block keep to, after a step of the supervisor. -/
theorem BlockInv.supervise {l : Label Answer Call} (hi : s.BlockInv specs)
    (hs : supervisor.step s.cfg l = some cfg) : BlockInv { s with cfg } specs := by
  obtain ⟨x, hx, hw⟩ := hi.owner
  have hnext := supervisor.step_next hs
  refine ⟨⟨_, hx.step l hs, fun t ht => ?_⟩, fun call hcall => ?_, hi.distinct,
    hi.placed.mono (step_suffix hs)⟩
  · obtain ⟨hlt, ho⟩ := hw t ht
    exact ⟨hlt.trans_le hnext, ho.step hs hlt⟩
  · obtain ⟨hlt, hr⟩ := hi.spawned call hcall
    exact ⟨hlt.trans_le hnext, hr.step hx.reachable hs hlt⟩

/-- A step of the future that calls nobody. -/
theorem BlockInv.move {at' : BlockAt β} {told : Bool} {given : Option (List ProcessId)}
    (hi : s.BlockInv specs) (hp : Placed { s with caller := at', told, given } specs at') :
    BlockInv { s with caller := at', told, given } specs :=
  ⟨hi.owner, hi.spawned, hi.distinct, hp⟩

/-- The task of a call is new. -/
theorem call_next {call : Call} (hs : s.call call = some cfg) :
    s.cfg.shared.nextTask < cfg.shared.nextTask := by
  cases supervisor.step_shared hs with
  | start hsh =>
      rw [hsh]
      exact Nat.lt_succ_self _

/-! ### Steps -/

/-- A spawn has returned to the block. -/
theorem BlockInv.returned {t : Tid} {c' : ProcessScopeId} {r : Except SpawnError ProcessId}
    {earlier : List (ProcessSpec × Tid)} {spec : ProcessSpec} (hi : s.BlockInv specs)
    (heq : s.spawns = earlier ++ [(spec, t)])
    (hv : returnOf s.cfg.shared.history t = some (.spawned c' r)) :
    (t, .returned (.spawned s.scope r)) ∈ s.cfg.shared.history := by
  obtain ⟨-, hw⟩ := hi.spawned (spec, t) (by simp [heq])
  exact hw.returned hi.reachable hv

/-- **The steps of the future.** -/
theorem BlockInv.go (hi : s.BlockInv specs) (hs : s.go = some s') : s'.BlockInv specs := by
  have hp := hi.placed
  rw [BlockState.go] at hs
  split at hs
  · next processes spec rest hat =>
      rw [hat] at hp
      obtain ⟨hn, ha, hm⟩ := hp
      obtain ⟨cfg, hcall, rfl⟩ := Option.map_eq_some_iff.mp hs
      have hnext := call_next hcall
      obtain ⟨howner, hspawned, hdistinct, -⟩ := hi.supervise hcall
      refine ⟨howner, fun call hmem => ?_, ?_, hn, ⟨s.spawns, spec, rfl, ?_⟩, ?_⟩
      · rcases List.mem_append.mp hmem with hmem | hmem
        · exact hspawned call hmem
        · obtain rfl := List.mem_singleton.mp hmem
          exact ⟨hnext, .start hcall⟩
      · rw [List.map_append]
        refine List.nodup_append.mpr ⟨hdistinct, List.nodup_singleton _, ?_⟩
        intro a hmem b hb heq
        obtain ⟨call, hcall', rfl⟩ := List.mem_map.mp hmem
        obtain rfl := List.mem_singleton.mp hb
        exact Nat.ne_of_lt (hi.spawned call hcall').1 heq
      · exact ha.mono (step_suffix hcall)
      · simpa using hm
  · next processes hat =>
      rw [hat] at hp
      obtain ⟨hn, ha, hm⟩ := hp
      obtain rfl := Option.some.inj hs
      exact hi.move ⟨hn.2, processes, rfl, ha, by simpa using hm⟩
  · next processes rest t hat =>
      rw [hat] at hp
      obtain ⟨hn, ⟨earlier, spec, heq, ha⟩, hm⟩ := hp
      split at hs
      · next c' pid hv =>
          obtain rfl := Option.some.inj hs
          refine hi.move ⟨hn, ?_, hm⟩
          dsimp only
          rw [heq]
          exact ha.concat (hi.returned heq hv)
      · next c' e hv =>
          obtain rfl := Option.some.inj hs
          exact hi.move ⟨rfl, hn.1, ⟨rest, hm⟩, earlier, spec, t, processes, heq, ha,
            hi.returned heq hv⟩
      · cases hs
  · next result hat =>
      rw [hat] at hp
      obtain ⟨termination, hv, rfl⟩ := Option.map_eq_some_iff.mp hs
      exact hi.move ⟨hp, (inv_of_reachable hi.reachable).results.published hv⟩
  · cases hs

/-- **The worker leaves a result**: once it is over, the scope has a verified report or was
killed, and the channel shows a result. -/
theorem BlockInv.over (hi : s.BlockInv specs) (ht : s.worker = some t)
    (hover : s.cfg.tasks t = none) :
    Shown s.scope s.cfg.shared.history ∧ (s.cfg.shared.cleanup s.scope).isSome = true := by
  obtain ⟨x, hx, hw⟩ := hi.owner
  have hsh := ((hw t ht).2.gone hover).shown hx
  obtain ⟨v, hv⟩ := hsh.result
  exact ⟨hsh, answered_of_reachable hx.reachable s.scope v hv⟩

/-- A block never finds its channel closed. -/
theorem BlockInv.closed (hi : s.BlockInv specs) : s.closed = none := by
  rw [BlockState.closed]
  split
  · next result hat =>
      rw [if_neg]
      intro hc
      obtain ⟨hover, hnone⟩ := Bool.and_eq_true_iff.mp hc
      obtain ⟨t, ht, hover⟩ := (Option.any_eq_true ..).mp hover
      have := (hi.over ht (Option.isNone_iff_eq_none.mp hover)).2
      rw [Option.isNone_iff_eq_none.mp hnone] at this
      cases this
  · rfl

/-- The future of a block is dropped wherever it is. -/
theorem BlockInv.drop (hi : s.BlockInv specs) (hs : s.drop = some s') : s'.BlockInv specs := by
  have hp := hi.placed
  have hgone : (s.Given specs ∨ s.given = none ∧ s.spawns.map Prod.fst <+: specs) →
      BlockInv { s with caller := .gone, told := true } specs :=
    fun hg => hi.move ⟨rfl, hg⟩
  rw [BlockState.drop] at hs
  split at hs
  · cases hs
  · cases hs
  · obtain rfl := Option.some.inj hs
    cases hat : s.caller <;> rw [hat] at hp
    case spawning => exact hgone (.inr ⟨hp.1.1, ⟨_, hp.2.2⟩⟩)
    case admitting => exact hgone (.inr ⟨hp.1.1, ⟨_, hp.2.2⟩⟩)
    case running => exact hgone (.inl hp.2)
    case awaiting result =>
      cases result with
      | ok value => exact hgone (.inl hp.2)
      | error e => exact hgone (.inr ⟨hp.2.1, hp.2.2.1⟩)
    case returned result termination =>
      cases result with
      | ok value => exact hgone (.inl hp.1.2)
      | error e => exact hgone (.inr ⟨hp.1.2.1, hp.1.2.2.1⟩)
    case gone => exact hgone hp.2

/-- The worker takes the owner. -/
theorem BlockInv.takeOwner {call : Call} {k : Unit → Code Ret} (hi : s.BlockInv specs)
    (hcode : call.code = .op (.takeOwner s.scope) k) (hs : s.takeOwner call = some s') :
    s'.BlockInv specs := by
  rw [BlockState.takeOwner, Option.ite_none_right_eq_some] at hs
  obtain ⟨-, hs⟩ := hs
  obtain ⟨cfg, hcall, rfl⟩ := Option.map_eq_some_iff.mp hs
  obtain ⟨⟨x, hx, -⟩, hspawned, hdistinct, hplaced⟩ := hi.supervise hcall
  refine ⟨⟨x, hx, fun t ht => ?_⟩, hspawned, hdistinct, ?_⟩
  · obtain rfl := Option.some.inj ht
    exact ⟨call_next hcall, .start hcode hcall⟩
  · dsimp only at hplaced ⊢
    cases hat : s.caller <;> rw [hat] at hplaced <;> exact hplaced

/-- The beginning of a block. -/
theorem blockInv_start {options : TerminateOptions} (hr : Reachable cfg)
    (h₀ : start cfg specs options = some s) : s.BlockInv specs := by
  rw [start] at h₀
  split at h₀
  case h_1 => cases h₀
  next cfg' hf =>
  split at h₀
  case h_2 => cases h₀
  next scope hret =>
  obtain rfl := Option.some.inj h₀
  obtain ⟨x, hx⟩ := Machine.Recorded.of_reachable (Protocol.ownMemory fun _ => ownerWatch)
    (fun _ => []) (hr.follow hf)
  refine ⟨⟨x, hx, ?_⟩, ?_, List.nodup_nil, ⟨rfl, rfl⟩, .nil, rfl⟩
  · rintro t ⟨⟩
  · rintro call hcall
    cases hcall

/-- **The invariant holds in every state of a block.** -/
theorem blockInv_of_reaches {options : TerminateOptions} {s₀ : BlockState β} (hr : Reachable cfg)
    (h₀ : start cfg specs options = some s₀) (h : Reaches step s₀ s) : s.BlockInv specs := by
  refine h.invariant (I := fun s => s.BlockInv specs) (blockInv_start hr h₀) fun s a s' hi hs => ?_
  cases a with
  | supervisor l =>
      rw [step, Option.ite_none_right_eq_some] at hs
      obtain ⟨-, hs⟩ := hs
      obtain ⟨cfg, hstep, rfl⟩ := Option.map_eq_some_iff.mp hs
      exact hi.supervise hstep
  | go => exact hi.go hs
  | body value =>
      have hp := hi.placed
      rw [step, BlockState.body] at hs
      split at hs
      · next hat =>
          rw [hat] at hp
          obtain rfl := Option.some.inj hs
          exact hi.move ⟨rfl, hp.2⟩
      · cases hs
  | closed => cases hi.closed.symm.trans hs
  | drop => exact hi.drop hs
  | finish =>
      rw [step, Option.ite_none_right_eq_some] at hs
      exact hi.takeOwner rfl hs.2
  | loseWorker => exact hi.takeOwner rfl hs

/-! ### Results -/

/-- The block has ended: its body and its spawns are over. -/
def isOver (s : BlockState β) : Bool :=
  match s.caller with
  | .awaiting _ | .returned _ _ | .gone => true
  | _ => false

/-- What the block has come to, if it was not dropped. -/
def result? (s : BlockState β) : Option (Except SpawnError β) :=
  match s.caller with
  | .awaiting result | .returned result _ => some result
  | _ => none

/-- What a block accounts for. -/
structure Accounts (s : BlockState β) (specs : List ProcessSpec) : Prop where
  /-- The block spawns its specifications in their order, each once. -/
  spawned : s.spawns.map Prod.fst <+: specs
  /-- The body is given one process of this scope for each specification, in their order. -/
  given : ∀ processes, s.given = some processes →
    s.spawns.map Prod.fst = specs ∧ processes.Nodup ∧
      Admitted s.cfg.shared.history s.scope s.spawns processes ∧
      ∀ p ∈ processes, ∃ os, Happened s.cfg.shared.history (.attached s.scope p os)
  /-- A value is that of the body; an error is that of the spawn that ended the block. -/
  result : ∀ result, s.result? = some result → s.Ended specs result
  /-- Its worker is told as soon as the block has ended, however it did. -/
  told : s.told = s.isOver
  /-- A worker that was told can go on. -/
  begins : s.told = true → s.worker = none → ∃ s' t, s.step .finish = some s' ∧ s'.worker = some t
  /-- The report was published for the scope; a verified one is exact, and leaves no process of
  the scope without evidence. -/
  report : ∀ result termination, s.caller = .returned result termination →
    Happened s.cfg.shared.history (.published s.scope termination) ∧
      ∀ r, termination = .ok r → r.allVerified = true →
        ExactReport s.cfg.shared.history s.scope r ∧
          ∀ p os, Happened s.cfg.shared.history (.attached s.scope p os) →
            HasEvidence s.cfg.shared.history p
  /-- Once the worker is over, the scope has a verified report or was killed, and a block that
  awaits its report gets one. -/
  finished : ∀ t, s.worker = some t → s.cfg.tasks t = none →
    Shown s.scope s.cfg.shared.history ∧
      ∀ result, s.caller = .awaiting result → ∃ termination,
        s.go = some { s with caller := .returned result termination }

/-- What is known at a place tells the spawns of the block. -/
theorem Placed.spawned {at' : BlockAt β} (hp : s.Placed specs at') :
    s.spawns.map Prod.fst <+: specs := by
  have hgiven : s.Given specs → s.spawns.map Prod.fst <+: specs := by
    rintro ⟨_, -, -, rfl⟩
    exact List.prefix_refl _
  have hended : ∀ {result}, s.Ended specs result → s.spawns.map Prod.fst <+: specs := by
    intro result he
    cases result with
    | ok value => exact hgiven he
    | error e => exact he.2.1
  cases at' with
  | spawning processes rest => exact ⟨_, hp.2.2⟩
  | admitting processes rest t => exact ⟨_, hp.2.2⟩
  | running => exact hgiven hp.2
  | awaiting result => exact hended hp.2
  | returned result termination => exact hended hp.1.2
  | gone => exact hp.2.elim hgiven And.right

/-- What is known at a place tells what the body was given. -/
theorem Placed.given {at' : BlockAt β} {processes : List ProcessId} (hp : s.Placed specs at')
    (hg : s.given = some processes) : s.spawns.map Prod.fst = specs ∧
      Admitted s.cfg.shared.history s.scope s.spawns processes := by
  have hgiven : s.Given specs → s.spawns.map Prod.fst = specs ∧
      Admitted s.cfg.shared.history s.scope s.spawns processes := by
    rintro ⟨_, hg', ha, hm⟩
    obtain rfl := Option.some.inj (hg.symm.trans hg')
    exact ⟨hm, ha⟩
  have hnone : s.given ≠ none := by simp [hg]
  have hended : ∀ {result}, s.Ended specs result → s.Given specs := by
    intro result he
    cases result with
    | ok value => exact he
    | error e => exact absurd he.1 hnone
  cases at' with
  | spawning _ rest => exact absurd hp.1.1 hnone
  | admitting _ rest t => exact absurd hp.1.1 hnone
  | running => exact hgiven hp.2
  | awaiting result => exact hgiven (hended hp.2)
  | returned result termination => exact hgiven (hended hp.1.2)
  | gone => exact hgiven (hp.2.resolve_right fun h => hnone h.1)

/-- A worker that still waits can take its owner. -/
theorem begins_takeOwner (call : Call) (hw : s.worker = none) :
    ∃ s' t, s.takeOwner call = some s' ∧ s'.worker = some t := by
  cases hs : s.call call with
  | none => cases hs
  | some cfg =>
      refine ⟨{ s with cfg, worker := some s.cfg.shared.nextTask }, s.cfg.shared.nextTask, ?_, rfl⟩
      rw [takeOwner, if_pos (by rw [hw]; rfl), hs]
      rfl

/-- A published report that is verified was committed. -/
theorem committed_of_published {r : ScopeTerminationReport} (hl : Lawful h)
    (hp : Happened h (.published c (.ok r))) (hv : r.allVerified = true) :
    Happened h (.committed c r) := by
  obtain ⟨_, older, hs, -, hj⟩ := hl.of_happened hp
  exact ((hj r rfl).2 hv).mono hs

/-- **A block accounts for its scope**, whether it returns, fails to spawn, panics or is
cancelled, and whatever happens beside it. -/
theorem with_scope_accounts {cfg : Config Res Ret Inner} {specs : List ProcessSpec}
    {options : TerminateOptions} {s₀ : BlockState β} (hr : Reachable cfg)
    (h₀ : start cfg specs options = some s₀) (h : Reaches step s₀ s) : s.Accounts specs := by
  have hi := blockInv_of_reaches hr h₀ h
  have hl := (inv_of_reachable hi.reachable).lawful
  have hp := hi.placed
  refine ⟨hp.spawned, fun processes hg => ?_, fun result hres => ?_, ?_,
    fun htold hw => ?_,
    fun result termination hat => ?_, fun t ht hover => ?_⟩
  · obtain ⟨hm, ha⟩ := hp.given hg
    refine ⟨hm, ha.nodup hl hi.distinct, ha, fun p hmem => ?_⟩
    obtain ⟨call, -, os, hat⟩ := Admitted.exists_call (ha.attached hl) hmem
    exact ⟨os, call.2, hat⟩
  · rw [result?] at hres
    split at hres
    · next hat =>
        obtain rfl := Option.some.inj hres
        rw [hat] at hp
        exact hp.2
    · next hat =>
        obtain rfl := Option.some.inj hres
        rw [hat] at hp
        exact hp.1.2
    · cases hres
  · rw [isOver]
    split
    · next hat => rw [hat] at hp; exact hp.1
    · next hat => rw [hat] at hp; exact hp.1.1
    · next hat => rw [hat] at hp; exact hp.1
    · next h₁ h₂ h₃ =>
        cases hat : s.caller <;> rw [hat] at hp
        case spawning => exact hp.1.2
        case admitting => exact hp.1.2
        case running => exact hp.1
        case awaiting => exact absurd hat (h₁ _)
        case returned => exact absurd hat (h₂ _ _)
        case gone => exact absurd hat h₃
  · obtain ⟨s', t, hs, ht⟩ := begins_takeOwner (.finish s.scope s.options true) hw
    exact ⟨s', t, by rw [step, if_pos htold, hs], ht⟩
  · rw [hat] at hp
    refine ⟨hp.2, ?_⟩
    rintro r rfl hv
    have hc := committed_of_published hl hp.2 hv
    exact ⟨hl.exactReport hc, fun p os hatt => hl.evidence_of_committed ⟨r, hc⟩ hatt⟩
  · obtain ⟨hsh, hcl⟩ := hi.over ht hover
    refine ⟨hsh, fun result hat => ?_⟩
    obtain ⟨termination, hv⟩ := Option.isSome_iff_exists.mp hcl
    exact ⟨termination, by rw [BlockState.go, hat, hv]; rfl⟩

/-! ### A cancelled block -/

/-- Steps of the supervisor. -/
def supervised (ls : List (Label Answer Call)) : List (BlockAction β) :=
  ls.map .supervisor

/-- The block spawns a process that exits, and runs its body. -/
def enterBody : List (BlockAction β) :=
  .go :: supervised (steps 1 6 ++ [.run 1 (.spawned (.ok ⟨100, .unavailable⟩))] ++ steps 1 2 ++
    [.run 1 (.instant 0)] ++ steps 1 1 ++ [.run 1 (.output none)] ++ steps 1 7 ++
    steps 2 1 ++ [.run 2 (.waited (some ⟨some 0, none, false⟩))] ++ steps 2 7) ++ [.go, .go]

/-- The block is cancelled, and its worker commits the scope. -/
def cancelBlock : List (BlockAction β) :=
  .drop :: .finish :: supervised (steps 3 8 ++ steps 4 1 ++ [.run 3 (.joined 4)] ++ steps 3 1 ++
    [.run 3 (.cleaned (.ok ())), .run 3 (.order [(1, .exitedNaturally)]),
      .run 3 (.order [(1, .exitedNaturally)])] ++ steps 3 13)

/-- A block with one process, in a new supervisor. -/
def freshBlock : Option (BlockState ℕ) :=
  start (Machine.initial Inner.new) [.new []] .default

/-- The body was given a process, the block is gone, and its worker is over. -/
def cancelled (s : BlockState β) : Bool :=
  match s.caller with
  | .gone => s.given = some [1] && s.workerOver
  | _ => false

set_option maxRecDepth 10000 in
/-- The schedule of a cancelled block comes to its end. -/
theorem cancelBlock_is_over : freshBlock.any (fun s₀ =>
    (follow step s₀ (enterBody ++ cancelBlock)).any cancelled) = true := by
  decide +kernel

/-- A block that is cancelled while its body runs is accounted for all the same. -/
theorem cancelled_block_is_cleaned_up : ∃ s₀ s, freshBlock = some s₀ ∧ Reaches step s₀ s ∧
    cancelled s = true ∧ s.Accounts [.new []] := by
  obtain ⟨s₀, h₀, hP⟩ := (Option.any_eq_true _ _).mp cancelBlock_is_over
  obtain ⟨s, hf, hP⟩ := (Option.any_eq_true _ _).mp hP
  exact ⟨s₀, s, h₀, .of_follow hf, hP, with_scope_accounts .initial h₀ (.of_follow hf)⟩

end BlockState

end Shepherd
