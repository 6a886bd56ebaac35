import Shepherd.Conc.Steps
import Shepherd.Domain.ScopeRun
import Shepherd.Registry

/-!
# Runs of the Scope Registry

A run of a registry is any sequence of its operations and of operations on its scopes. Its
users mint an identifier under the registry lock and attach the process with it at once, so
a run attaches a process only with an identifier that was minted and not used before.

The run remembers the identifiers it minted and used. `Owned` relates them to the map:
every scope and every process in it has an identifier that was minted, and no process is in
two scopes. The result is `registry_ownership_is_exclusive`.
-/

open Std

namespace Shepherd

open Conc

variable {c c' : ProcessScopeId} {pid : ProcessId}

/-- The operations on a registry, and on the scopes in it. -/
inductive RegistryOp where
  | nextScopeId
  | createScope
  | nextProcessId
  | remove (id : ProcessScopeId)
  | onScope (id : ProcessScopeId) (op : ScopeOp)

/-- A registry, the identifiers minted so far, newest first, and those used in an attach. -/
structure RegistryRun where
  registry : ScopeRegistry
  scopeIds : List ProcessScopeId
  processIds : List ProcessId
  used : List ProcessId

/-- The identifier an operation on a scope uses: that of an attach. -/
def ScopeOp.uses : ScopeOp → List ProcessId
  | .attachSpawned pid _ _ => [pid]
  | _ => []

namespace ScopeRegistry

/-- An operation on a scope, through `get_mut`. -/
def onScope (r : ScopeRegistry) (id : ProcessScopeId) (op : ScopeOp) : ScopeRegistry :=
  r.modify id (fun s => (op.apply s).2) op.apply_id

/-- What the registry has after an operation on one scope. -/
theorem get_onScope (r : ScopeRegistry) (id c : ProcessScopeId) (op : ScopeOp) :
    (r.onScope id op).get c =
      if id = c then (r.get c).map fun s => (op.apply s).2 else r.get c :=
  get_modify ..

/-- Whether a scope tracks the process. -/
def Tracks (r : ScopeRegistry) (c : ProcessScopeId) (pid : ProcessId) : Prop :=
  ∃ s, r.get c = some s ∧ s.contains pid = true

/-- The lookup finds a scope that tracks the process. -/
theorem tracks_of_scopeOf {r : ScopeRegistry} (h : r.scopeOf pid = some c) : r.Tracks c pid := by
  obtain ⟨s, p, hs, hp⟩ := scopeOf_eq_some h
  exact ⟨s, hs, (s.contains_iff pid).mpr ⟨p, hp⟩⟩

/-- A tracked process is found, in some scope. -/
theorem Tracks.scopeOf {r : ScopeRegistry} (h : r.Tracks c pid) :
    ∃ c', r.scopeOf pid = some c' := by
  obtain ⟨s, hs, hc⟩ := h
  cases hso : r.scopeOf pid with
  | some c' => exact ⟨c', rfl⟩
  | none =>
      obtain ⟨p, hp⟩ := (s.contains_iff pid).mp hc
      rw [scopeOf_eq_none hso hs] at hp
      cases hp

/-- Only an attach can make a scope track a process. -/
theorem tracks_onScope {r : ScopeRegistry} {id : ProcessScopeId} {op : ScopeOp}
    (h : (r.onScope id op).Tracks c pid) :
    r.Tracks c pid ∨ c = id ∧ pid ∈ op.uses := by
  obtain ⟨s', hs', hc⟩ := h
  rw [get_onScope] at hs'
  split at hs'
  · next hid =>
      obtain ⟨s, hs, rfl⟩ := Option.map_eq_some_iff.mp hs'
      cases hp : s.get pid with
      | some p => exact .inl ⟨s, hs, (s.contains_iff pid).mpr ⟨p, hp⟩⟩
      | none =>
          obtain ⟨p', hp'⟩ := ((op.apply s).2.contains_iff pid).mp hc
          have ha : (op.apply s).2.get pid ≠ none := by simp [hp']
          obtain ⟨os, spec, rfl⟩ := ScopeOp.eq_attach_of_added hp ha
          exact .inr ⟨hid.symm, List.mem_singleton_self pid⟩
  · exact .inl ⟨s', hs', hc⟩

end ScopeRegistry

namespace RegistryRun

variable {x x' : RegistryRun}

/-- A new registry. -/
def new : RegistryRun :=
  ⟨.new, [], [], []⟩

/-- Fewer than 2⁶⁴ identifiers are minted, and an attach uses a minted one once. -/
def admits (x : RegistryRun) : RegistryOp → Bool
  | .nextScopeId | .createScope => x.registry.nextScope + 1 < 2 ^ 64
  | .nextProcessId => x.registry.nextProcess + 1 < 2 ^ 64
  | .onScope _ op => ∀ pid ∈ op.uses, pid ∈ x.processIds ∧ pid ∉ x.used
  | .remove _ => true

/-- One operation. -/
def step (x : RegistryRun) : RegistryOp → Option RegistryRun
  | .nextScopeId =>
      let (id, registry) := x.registry.nextScopeId
      some { x with registry, scopeIds := id :: x.scopeIds }
  | .createScope =>
      let (id, registry) := x.registry.createScope
      some { x with registry, scopeIds := id :: x.scopeIds }
  | .nextProcessId =>
      let (id, registry) := x.registry.nextProcessId
      some { x with registry, processIds := id :: x.processIds }
  | .remove id => some { x with registry := x.registry.remove id }
  | .onScope id op =>
      some { x with registry := x.registry.onScope id op, used := op.uses ++ x.used }

/-- The runs of a registry. -/
abbrev Reached (x : RegistryRun) : Prop :=
  ReachesUnder step (fun x op => x.admits op = true) new x

/-- The scope an operation is about. -/
def scopeAt (x : RegistryRun) : RegistryOp → Option ProcessScopeId
  | .createScope => some x.registry.createScope.1
  | .remove id | .onScope id _ => some id
  | .nextScopeId | .nextProcessId => none

/-- **The invariant**: the counters are above what was minted, the map holds minted
identifiers only, and no process is in two scopes. -/
structure Owned (x : RegistryRun) : Prop where
  scopeIds : x.scopeIds.Nodup
  processIds : x.processIds.Nodup
  scopes_le : ∀ c ∈ x.scopeIds, c ≤ x.registry.nextScope
  processes_le : ∀ pid ∈ x.processIds, pid ≤ x.registry.nextProcess
  minted : ∀ c s, x.registry.get c = some s → c ∈ x.scopeIds
  used : ∀ pid ∈ x.used, pid ∈ x.processIds
  tracked : ∀ c pid, x.registry.Tracks c pid → pid ∈ x.used
  unique : ∀ c c' pid, x.registry.Tracks c pid → x.registry.Tracks c' pid → c = c'

/-- A new registry owns nothing. -/
theorem owned_new : new.Owned := by
  refine ⟨List.nodup_nil, List.nodup_nil, nofun, nofun, fun c s hs => ?_, nofun, ?_, ?_⟩
  · simp [new] at hs
  · rintro c pid ⟨s, hs, -⟩
    simp [new] at hs
  · rintro c c' pid ⟨s, hs, -⟩
    simp [new] at hs

/-- An identifier that is minted next. -/
theorem mint_fresh {n : ℕ} {l : List ℕ} (hb : n + 1 < 2 ^ 64) (hl : l.Nodup)
    (hle : ∀ i ∈ l, i ≤ n) :
    ((n + 1) % 2 ^ 64 :: l).Nodup ∧ ∀ i ∈ (n + 1) % 2 ^ 64 :: l, i ≤ (n + 1) % 2 ^ 64 := by
  rw [Nat.mod_eq_of_lt hb]
  refine ⟨List.nodup_cons.mpr ⟨fun hm => ?_, hl⟩, fun i hi => ?_⟩
  · have := hle _ hm
    omega
  · rcases List.mem_cons.mp hi with rfl | hi
    · exact Nat.le_refl _
    · have := hle i hi
      omega

/-- A new scope tracks nothing, and the others are as they were. -/
theorem tracks_createScope {r : ScopeRegistry} (h : r.createScope.2.Tracks c pid) :
    r.Tracks c pid := by
  obtain ⟨s, hs, hc⟩ := h
  rw [ScopeRegistry.get_createScope] at hs
  split at hs
  · obtain rfl := Option.some.inj hs
    obtain ⟨p, hp⟩ := (ProcessScope.contains_iff _ pid).mp hc
    simp at hp
  · exact ⟨s, hs, hc⟩

/-- **A step keeps the ownership**: a process that is attached was tracked by no scope before. -/
theorem Owned.step {op : RegistryOp} (h : x.Owned) (ha : x.admits op = true)
    (hs : x.step op = some x') : x'.Owned := by
  cases op with
  | nextScopeId =>
      obtain rfl := Option.some.inj hs
      obtain ⟨hn, hle⟩ := mint_fresh (of_decide_eq_true ha) h.scopeIds h.scopes_le
      exact ⟨hn, h.processIds, hle, h.processes_le,
        fun c s hg => List.mem_cons_of_mem _ (h.minted c s hg), h.used, h.tracked, h.unique⟩
  | createScope =>
      obtain rfl := Option.some.inj hs
      obtain ⟨hn, hle⟩ := mint_fresh (of_decide_eq_true ha) h.scopeIds h.scopes_le
      refine ⟨hn, h.processIds, hle, h.processes_le, fun c s hg => ?_, h.used,
        fun c pid ht => h.tracked c pid (tracks_createScope ht),
        fun c c' pid ht ht' => h.unique c c' pid (tracks_createScope ht) (tracks_createScope ht')⟩
      have hg : x.registry.createScope.2.get c = some s := hg
      rw [ScopeRegistry.get_createScope] at hg
      split at hg
      · next heq => exact heq ▸ List.mem_cons_self
      · exact List.mem_cons_of_mem _ (h.minted c s hg)
  | nextProcessId =>
      obtain rfl := Option.some.inj hs
      obtain ⟨hn, hle⟩ := mint_fresh (of_decide_eq_true ha) h.processIds h.processes_le
      exact ⟨h.scopeIds, hn, h.scopes_le, hle, h.minted,
        fun pid hm => List.mem_cons_of_mem _ (h.used pid hm), h.tracked, h.unique⟩
  | remove id =>
      obtain rfl := Option.some.inj hs
      have hget : ∀ {c s}, (x.registry.remove id).get c = some s → x.registry.get c = some s := by
        intro c s hg
        rw [ScopeRegistry.get_remove] at hg
        split at hg
        · cases hg
        · exact hg
      have htr : ∀ {c pid}, (x.registry.remove id).Tracks c pid → x.registry.Tracks c pid :=
        fun ⟨s, hg, hc⟩ => ⟨s, hget hg, hc⟩
      exact ⟨h.scopeIds, h.processIds, h.scopes_le, h.processes_le,
        fun c s hg => h.minted c s (hget hg), h.used, fun c pid ht => h.tracked c pid (htr ht),
        fun c c' pid ht ht' => h.unique c c' pid (htr ht) (htr ht')⟩
  | onScope id op =>
      obtain rfl := Option.some.inj hs
      have hminted : ∀ c s, (x.registry.onScope id op).get c = some s → c ∈ x.scopeIds := by
        intro c s hg
        rw [ScopeRegistry.get_onScope] at hg
        split at hg
        · obtain ⟨s₀, hg, -⟩ := Option.map_eq_some_iff.mp hg
          exact h.minted c s₀ hg
        · exact h.minted c s hg
      have hfresh : ∀ pid ∈ op.uses, pid ∈ x.processIds ∧ pid ∉ x.used := of_decide_eq_true ha
      refine ⟨h.scopeIds, h.processIds, h.scopes_le, h.processes_le, hminted, fun pid hm => ?_,
        fun c pid ht => ?_, fun c c' pid ht ht' => ?_⟩
      · rcases List.mem_append.mp hm with hm | hm
        · exact (hfresh pid hm).1
        · exact h.used pid hm
      · rcases ScopeRegistry.tracks_onScope ht with ht | ⟨-, hu⟩
        · exact List.mem_append_right _ (h.tracked c pid ht)
        · exact List.mem_append_left _ hu
      · rcases ScopeRegistry.tracks_onScope ht with ht | ⟨hid, hu⟩ <;>
          rcases ScopeRegistry.tracks_onScope ht' with ht' | ⟨hid', hu'⟩
        · exact h.unique c c' pid ht ht'
        · exact absurd (h.tracked c pid ht) (hfresh pid hu').2
        · exact absurd (h.tracked c' pid ht') (hfresh pid hu).2
        · exact hid.trans hid'.symm

/-- **Ownership holds in every state of a run.** -/
theorem owned_of_reached (h : x.Reached) : x.Owned :=
  h.invariant owned_new fun _ _ _ ho ha hs => ho.step ha hs

/-- **The frame of an operation**: the scopes it is not about are as they were. -/
theorem step_get {op : RegistryOp} (hs : x.step op = some x') (hc : x.scopeAt op ≠ some c) :
    x'.registry.get c = x.registry.get c := by
  cases op with
  | nextScopeId | nextProcessId =>
      obtain rfl := Option.some.inj hs
      rfl
  | createScope =>
      obtain rfl := Option.some.inj hs
      exact (ScopeRegistry.get_createScope x.registry c).trans
        (if_neg fun heq => hc (congrArg some heq))
  | remove id =>
      obtain rfl := Option.some.inj hs
      exact (ScopeRegistry.get_remove x.registry id c).trans
        (if_neg fun heq => hc (congrArg some heq))
  | onScope id op =>
      obtain rfl := Option.some.inj hs
      exact (ScopeRegistry.get_onScope x.registry id c op).trans
        (if_neg fun heq => hc (congrArg some heq))

/-- What it means that the ownership of a registry is exclusive. -/
structure Exclusive (x : RegistryRun) : Prop where
  /-- No scope identifier is minted twice in a run. -/
  scopeIds : x.scopeIds.Nodup
  /-- No process identifier is minted twice in a run. -/
  processIds : x.processIds.Nodup
  /-- What the registry holds was minted. -/
  minted : ∀ c s, x.registry.get c = some s →
    c ∈ x.scopeIds ∧ ∀ pid, s.contains pid = true → pid ∈ x.processIds
  /-- No process is in two scopes. -/
  unique : ∀ pid c c' s s', x.registry.get c = some s → x.registry.get c' = some s' →
    s.contains pid = true → s'.contains pid = true → c = c'
  /-- The owner of a process is the scope it is in. -/
  owner : ∀ pid c, x.registry.scopeOf pid = some c ↔
    ∃ s, x.registry.get c = some s ∧ s.contains pid = true
  /-- A new scope takes nobody's place. -/
  created : x.registry.nextScope + 1 < 2 ^ 64 →
    x.registry.get x.registry.createScope.1 = none
  /-- An operation leaves the other scopes as they are. -/
  frame : ∀ op x', x.step op = some x' → ∀ c, x.scopeAt op ≠ some c →
    x'.registry.get c = x.registry.get c

/-- **Registry ownership is exclusive**, in every state of a run. -/
theorem registry_ownership_is_exclusive (h : x.Reached) : x.Exclusive := by
  have ho := owned_of_reached h
  refine ⟨ho.scopeIds, ho.processIds, fun c s hs => ⟨ho.minted c s hs, fun pid hc => ?_⟩,
    fun pid c c' s s' hs hs' hc hc' => ho.unique c c' pid ⟨s, hs, hc⟩ ⟨s', hs', hc'⟩,
    fun pid c => ⟨ScopeRegistry.tracks_of_scopeOf, fun ht => ?_⟩, fun hb => ?_,
    fun op x' hs c hc => step_get hs hc⟩
  · exact ho.used pid (ho.tracked c pid ⟨s, hs, hc⟩)
  · obtain ⟨c', hc'⟩ := ScopeRegistry.Tracks.scopeOf ht
    rw [hc', ho.unique c' c pid (ScopeRegistry.tracks_of_scopeOf hc') ht]
  · cases hg : x.registry.get x.registry.createScope.1 with
    | none => rfl
    | some s =>
        have hle := ho.scopes_le _ (ho.minted _ s hg)
        have hid : x.registry.createScope.1 = x.registry.nextScope + 1 := Nat.mod_eq_of_lt hb
        rw [hid] at hle
        exact absurd hle (Nat.not_succ_le_self _)

/-! ### A run -/

/-- Two scopes; a process in the first is reaped and pruned, and the scope is removed. -/
def removedScopeRun : List RegistryOp :=
  [.createScope, .createScope, .nextProcessId,
    .onScope 1 (.attachSpawned 1 ⟨100, .unavailable⟩ (.new [])),
    .onScope 1 (.recordReaped 1 ⟨1, some 0, none, .exitedNaturally, false⟩), .onScope 1 (.prune 1),
    .remove 1, .nextProcessId, .onScope 2 (.attachSpawned 2 ⟨100, .unavailable⟩ (.new [])),
    .createScope]

/-- The schedule in which a scope is removed: its process is found no more, and another scope has
its own. -/
theorem removedScopeRun_owner : (follow (guarded step admits) new removedScopeRun).any
    (fun x => x.registry.scopeOf 2 == some 2 && x.scopeIds == [3, 2, 1]) = true := by
  decide +kernel

/-- In that run, each process has one owner. -/
theorem removed_scope_is_exclusive :
    ∃ x, Reached x ∧ x.registry.scopeOf 2 = some 2 ∧ x.Exclusive := by
  obtain ⟨x, h, hP⟩ := ReachesUnder.exists_of_follow step admits new removedScopeRun _
    removedScopeRun_owner
  obtain ⟨hown, -⟩ := Bool.and_eq_true_iff.mp hP
  exact ⟨x, h, eq_of_beq hown, registry_ownership_is_exclusive h⟩

end RegistryRun

end Shepherd
