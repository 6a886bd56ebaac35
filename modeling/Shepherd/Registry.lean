import Shepherd.Domain.Scope

/-!
# The Scope Registry

`ScopeRegistry` is the in-memory repository of scopes in `shepherd-app`. It mints scope
and process identifiers from two 64-bit counters and finds the scope that owns a process.

The map is private in the source and a scope is stored under its own identifier; the
field `keyed` says so. `modify` stands for an access through `get_mut`.
-/

open Std

namespace Shepherd

/-- The repository of scopes. -/
structure ScopeRegistry where
  scopes : ExtTreeMap ProcessScopeId ProcessScope
  nextScope : ℕ
  nextProcess : ℕ
  keyed : ∀ (id : ProcessScopeId) (s : ProcessScope), scopes[id]? = some s → s.id = id

namespace ScopeRegistry

/-- An empty registry. -/
def new : ScopeRegistry where
  scopes := ∅
  nextScope := 0
  nextProcess := 0
  keyed := by simp

/-- Mints a scope identifier. -/
def nextScopeId (r : ScopeRegistry) : ProcessScopeId × ScopeRegistry :=
  ((r.nextScope + 1) % 2 ^ 64, { r with nextScope := (r.nextScope + 1) % 2 ^ 64 })

/-- Mints a process identifier. -/
def nextProcessId (r : ScopeRegistry) : ProcessId × ScopeRegistry :=
  ((r.nextProcess + 1) % 2 ^ 64, { r with nextProcess := (r.nextProcess + 1) % 2 ^ 64 })

/-- Inserts a new scope. -/
def createScope (r : ScopeRegistry) : ProcessScopeId × ScopeRegistry :=
  let (id, r) := r.nextScopeId
  (id, { r with
    scopes := r.scopes.insert id (ProcessScope.new id)
    keyed := by
      intro c s
      rw [ExtTreeMap.getElem?_insert]
      split
      · next h => rintro ⟨⟩; exact Std.compare_eq_iff_eq.mp h
      · exact r.keyed c s })

/-- The scope with an identifier. -/
def get (r : ScopeRegistry) (id : ProcessScopeId) : Option ProcessScope :=
  r.scopes[id]?

/-- Changes the scope with an identifier in place. -/
def modify (r : ScopeRegistry) (id : ProcessScopeId) (f : ProcessScope → ProcessScope)
    (hf : ∀ s, (f s).id = s.id) : ScopeRegistry where
  scopes := r.scopes.modify id f
  nextScope := r.nextScope
  nextProcess := r.nextProcess
  keyed := by
    intro c s
    rw [ExtTreeMap.getElem?_modify]
    split
    · next h =>
        obtain rfl := Std.compare_eq_iff_eq.mp h
        simp only [Option.map_eq_some_iff]
        rintro ⟨s₀, h₀, rfl⟩
        exact (hf s₀).trans (r.keyed id s₀ h₀)
    · exact r.keyed c s

/-- Removes a scope. -/
def remove (r : ScopeRegistry) (id : ProcessScopeId) : ScopeRegistry where
  scopes := r.scopes.erase id
  nextScope := r.nextScope
  nextProcess := r.nextProcess
  keyed := by
    intro c s
    rw [ExtTreeMap.getElem?_erase]
    split
    · exact fun h => absurd h (by simp)
    · exact r.keyed c s

/-- The identifiers of the scopes, in ascending order. -/
def scopeIds (r : ScopeRegistry) : List ProcessScopeId :=
  r.scopes.keys

/-- The scope that owns a process. -/
def scopeOf (r : ScopeRegistry) (pid : ProcessId) : Option ProcessScopeId :=
  (r.scopes.toList.find? fun kv => kv.2.contains pid).map Prod.fst

/-! ### Lookups -/

/-- A new registry has no scopes. -/
@[simp] theorem get_new (c : ProcessScopeId) : new.get c = none := by
  simp [new, get]

/-- A scope is stored under its own identifier. -/
theorem id_of_get {r : ScopeRegistry} {c : ProcessScopeId} {s : ProcessScope}
    (h : r.get c = some s) : s.id = c :=
  r.keyed c s h

/-- What the registry has after a scope was created. -/
theorem get_createScope (r : ScopeRegistry) (c : ProcessScopeId) :
    r.createScope.2.get c =
      if r.createScope.1 = c then some (ProcessScope.new c) else r.get c := by
  have hget : r.createScope.2.get c =
      (r.scopes.insert r.createScope.1 (ProcessScope.new r.createScope.1))[c]? := rfl
  rw [hget, ExtTreeMap.getElem?_insert]
  simp only [Std.compare_eq_iff_eq]
  split
  · next h => rw [h]
  · rfl

/-- What the registry has after one scope was changed. -/
theorem get_modify (r : ScopeRegistry) (id c : ProcessScopeId)
    (f : ProcessScope → ProcessScope) (hf : ∀ s, (f s).id = s.id) :
    (r.modify id f hf).get c = if id = c then (r.get c).map f else r.get c := by
  simp only [modify, get, ExtTreeMap.getElem?_modify, Std.compare_eq_iff_eq]
  split
  · next h => rw [h]
  · rfl

/-- What the registry has after a scope was removed. -/
theorem get_remove (r : ScopeRegistry) (id c : ProcessScopeId) :
    (r.remove id).get c = if id = c then none else r.get c := by
  simp only [remove, get, ExtTreeMap.getElem?_erase, Std.compare_eq_iff_eq]

/-- To take a number for a process changes no scope. -/
@[simp] theorem get_nextProcessId (r : ScopeRegistry) (c : ProcessScopeId) :
    r.nextProcessId.2.get c = r.get c := rfl

/-- The identifiers of the registry are those of its scopes. -/
theorem mem_scopeIds (r : ScopeRegistry) (c : ProcessScopeId) :
    c ∈ r.scopeIds ↔ ∃ s, r.get c = some s := by
  rw [scopeIds, ExtTreeMap.mem_keys, ExtTreeMap.mem_iff_isSome_getElem?,
    Option.isSome_iff_exists, get]

/-- The owner of a process tracks it. -/
theorem scopeOf_eq_some {r : ScopeRegistry} {pid : ProcessId} {c : ProcessScopeId}
    (h : r.scopeOf pid = some c) : ∃ s p, r.get c = some s ∧ s.get pid = some p := by
  rw [scopeOf, Option.map_eq_some_iff] at h
  obtain ⟨⟨c', s⟩, hf, rfl⟩ := h
  have hc : s.contains pid = true := by simpa using List.find?_some hf
  obtain ⟨p, hp⟩ := (ProcessScope.contains_iff s pid).mp hc
  exact ⟨s, p, ExtTreeMap.mem_toList_iff_getElem?_eq_some.mp (List.mem_of_find?_eq_some hf), hp⟩

/-- A process without an owner is tracked by no scope. -/
theorem scopeOf_eq_none {r : ScopeRegistry} {pid : ProcessId} (h : r.scopeOf pid = none)
    {c : ProcessScopeId} {s : ProcessScope} (hs : r.get c = some s) : s.get pid = none := by
  rw [scopeOf, Option.map_eq_none_iff, List.find?_eq_none] at h
  have hc := h (c, s) (ExtTreeMap.mem_toList_iff_getElem?_eq_some.mpr hs)
  cases hg : s.get pid with
  | none => rfl
  | some p => exact absurd ((ProcessScope.contains_iff s pid).mpr ⟨p, hg⟩) hc

end ScopeRegistry

end Shepherd
