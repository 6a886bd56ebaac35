import Mathlib.Algebra.BigOperators.Group.Finset.Basic
import Mathlib.Data.Nat.Notation
import Mathlib.Logic.Relation
import Mathlib.Tactic.Common

/-!
# Exploring a Graph

The loop that explores what can be reached from a vertex with a queue: it takes a vertex, and
if it has not been visited before, visits it and appends its successors.

* `visit` — the loop, with fuel; the visited vertices in order.
* `Explored` — a list with the start first, then exactly what can be reached, each vertex once
  and after one of its predecessors (`visit_explores`).
* `visit_returns` — on a finite graph some fuel suffices: every step uses up a pending vertex
  or an edge.
-/

namespace Shepherd.Graph

variable {V : Type*} {succ : V → List V} {start v : V}
  {queue visited order : List V}

/-- The loop over the queue; `none` when the fuel is used up. -/
def visit [DecidableEq V] (succ : V → List V) : ℕ → List V → List V → Option (List V)
  | _, [], visited => some visited
  | 0, _ :: _, _ => none
  | fuel + 1, v :: queue, visited =>
      if v ∈ visited then visit succ fuel queue visited
      else visit succ fuel (queue ++ succ v) (visited ++ [v])

/-- `v` is a successor of `u`. -/
def Edge (succ : V → List V) (u v : V) : Prop := v ∈ succ u

/-- Vertices in the order of an exploration. -/
structure Explored (succ : V → List V) (start : V) (order : List V) : Prop where
  head : order.head? = some start
  nodup : order.Nodup
  mem_iff : ∀ v, v ∈ order ↔ Relation.ReflTransGen (Edge succ) start v
  preceded : ∀ before v after, order = before ++ v :: after →
    before = [] ∨ ∃ u ∈ before, v ∈ succ u

/-! ### What the loop keeps -/

/-- The state of the loop. -/
structure Exploring (succ : V → List V) (start : V) (queue visited : List V) : Prop where
  begun : visited.head? = some start ∨ visited = [] ∧ queue = [start]
  nodup : visited.Nodup
  reached : ∀ v, v ∈ visited ∨ v ∈ queue → Relation.ReflTransGen (Edge succ) start v
  closed : ∀ u ∈ visited, ∀ v ∈ succ u, v ∈ visited ∨ v ∈ queue
  pending : ∀ v ∈ queue, v = start ∨ ∃ u ∈ visited, v ∈ succ u
  preceded : ∀ before v after, visited = before ++ v :: after →
    before = [] ∨ ∃ u ∈ before, v ∈ succ u

namespace Exploring

/-- Before the first step, the start is on the list. -/
theorem init (succ : V → List V) (start : V) : Exploring succ start [start] [] where
  begun := .inr ⟨rfl, rfl⟩
  nodup := List.nodup_nil
  reached v hv := by
    rcases hv with hv | hv
    · cases hv
    · rw [List.mem_singleton.mp hv]
  closed u hu := by cases hu
  pending v hv := .inl (List.mem_singleton.mp hv)
  preceded before v after h := by
    have := congrArg List.length h
    simp at this

/-- A vertex that was visited before is skipped. -/
theorem skip (h : Exploring succ start (v :: queue) visited) (hv : v ∈ visited) :
    Exploring succ start queue visited where
  begun := by
    rcases h.begun with hb | ⟨rfl, -⟩
    · exact .inl hb
    · cases hv
  nodup := h.nodup
  reached u hu := h.reached u (hu.imp_right (List.mem_cons_of_mem v))
  closed u hu w hw := by
    rcases h.closed u hu w hw with hw | hw
    · exact .inl hw
    · rcases List.mem_cons.mp hw with rfl | hw
      · exact .inl hv
      · exact .inr hw
  pending u hu := h.pending u (List.mem_cons_of_mem v hu)
  preceded := h.preceded

/-- The first vertex to be visited is the start. -/
theorem eq_start (h : Exploring succ start (v :: queue) []) : v = start := by
  rcases h.begun with hb | ⟨-, hq⟩
  · cases hb
  · exact (List.cons.inj hq).1

/-- A vertex is taken from the list: it is visited, and its successors are pending; or it had been
visited before. -/
theorem take (h : Exploring succ start (v :: queue) visited) (hv : v ∉ visited) :
    Exploring succ start (queue ++ succ v) (visited ++ [v]) where
  begun := by
    left
    cases visited with
    | nil => rw [h.eq_start]; rfl
    | cons u visited =>
        rcases h.begun with hb | ⟨hn, -⟩
        · exact hb
        · cases hn
  nodup := h.nodup.append (List.nodup_singleton v) (List.disjoint_singleton.mpr hv)
  reached u hu := by
    have hreach := h.reached v (.inr List.mem_cons_self)
    rcases hu with hu | hu
    · rcases List.mem_append.mp hu with hu | hu
      · exact h.reached u (.inl hu)
      · rwa [List.mem_singleton.mp hu]
    · rcases List.mem_append.mp hu with hu | hu
      · exact h.reached u (.inr (List.mem_cons_of_mem v hu))
      · exact hreach.tail hu
  closed u hu w hw := by
    rcases List.mem_append.mp hu with hu | hu
    · rcases h.closed u hu w hw with hw | hw
      · exact .inl (List.mem_append_left _ hw)
      · rcases List.mem_cons.mp hw with rfl | hw
        · exact .inl (List.mem_append_right _ (List.mem_singleton_self w))
        · exact .inr (List.mem_append_left _ hw)
    · rw [List.mem_singleton.mp hu] at hw
      exact .inr (List.mem_append_right _ hw)
  pending u hu := by
    rcases List.mem_append.mp hu with hu | hu
    · rcases h.pending u (List.mem_cons_of_mem v hu) with rfl | ⟨w, hw, hu⟩
      · exact .inl rfl
      · exact .inr ⟨w, List.mem_append_left _ hw, hu⟩
    · exact .inr ⟨v, List.mem_append_right _ (List.mem_singleton_self v), hu⟩
  preceded before u after heq := by
    rcases List.eq_nil_or_concat after with rfl | ⟨after, w, rfl⟩
    · obtain ⟨rfl, hu⟩ := List.append_inj' heq rfl
      obtain rfl := (List.cons.inj hu).1
      rcases h.pending v List.mem_cons_self with rfl | hp
      · rcases h.begun with hb | ⟨hn, -⟩
        · exact absurd (List.mem_of_mem_head? hb) hv
        · exact .inl hn
      · exact .inr hp
    · rw [List.concat_eq_append, ← List.cons_append, ← List.append_assoc] at heq
      exact h.preceded before u after (List.append_inj' heq rfl).1

/-- Nothing is pending. -/
theorem explored (h : Exploring succ start [] visited) : Explored succ start visited where
  head := by
    rcases h.begun with hb | ⟨-, hq⟩
    · exact hb
    · cases hq
  nodup := h.nodup
  mem_iff v := by
    refine ⟨fun hv => h.reached v (.inl hv), fun hr => ?_⟩
    induction hr with
    | refl =>
        rcases h.begun with hb | ⟨-, hq⟩
        · exact List.mem_of_mem_head? hb
        · cases hq
    | tail _ he ih =>
        rcases h.closed _ ih _ he with hv | hv
        · exact hv
        · cases hv
  preceded := h.preceded

end Exploring

section

variable [DecidableEq V]

/-- **The loop explores the graph.** -/
theorem Exploring.visit {fuel : ℕ} (h : Exploring succ start queue visited)
    (hr : visit succ fuel queue visited = some order) : Explored succ start order := by
  induction fuel generalizing queue visited with
  | zero =>
      cases queue with
      | nil =>
          obtain rfl := Option.some.inj hr
          exact h.explored
      | cons v queue => cases hr
  | succ fuel ih =>
      cases queue with
      | nil =>
          obtain rfl := Option.some.inj hr
          exact h.explored
      | cons v queue =>
          rw [Graph.visit] at hr
          split at hr
          · next hv => exact ih (h.skip hv) hr
          · next hv => exact ih (h.take hv) hr

/-- **What a worklist visits is what is reachable**, in the order of its first visits. -/
theorem visit_explores {fuel : ℕ} (hr : visit succ fuel [start] [] = some order) :
    Explored succ start order :=
  (Exploring.init succ start).visit hr

/-! ### The fuel -/

/-- The edges out of the vertices that are not visited. -/
def edgesLeft (succ : V → List V) (vertices : Finset V) (visited : List V) : ℕ :=
  ∑ u ∈ vertices.filter (· ∉ visited), (succ u).length

/-- A vertex that is visited uses up its edges. -/
theorem edgesLeft_take {vertices : Finset V} (hv : v ∈ vertices) (hn : v ∉ visited) :
    edgesLeft succ vertices visited =
      (succ v).length + edgesLeft succ vertices (visited ++ [v]) := by
  have hmem : v ∈ vertices.filter (· ∉ visited) := Finset.mem_filter.mpr ⟨hv, hn⟩
  have herase : vertices.filter (· ∉ visited ++ [v]) = (vertices.filter (· ∉ visited)).erase v := by
    ext u
    simp only [Finset.mem_filter, Finset.mem_erase, List.mem_append, List.mem_singleton, not_or]
    tauto
  rw [edgesLeft, edgesLeft, herase, Finset.add_sum_erase _ (fun u => (succ u).length) hmem]

/-- Among finitely many vertices, one unit of fuel for each pending vertex and each edge is
enough. -/
theorem visit_returns {vertices : Finset V} (hclosed : ∀ u ∈ vertices, ∀ v ∈ succ u, v ∈ vertices)
    {fuel : ℕ} (hq : ∀ v ∈ queue, v ∈ vertices)
    (hfuel : queue.length + edgesLeft succ vertices visited ≤ fuel) :
    ∃ order, visit succ fuel queue visited = some order := by
  induction fuel generalizing queue visited with
  | zero =>
      have hnil : queue = [] := List.length_eq_zero_iff.mp (by omega)
      rw [hnil]
      exact ⟨visited, rfl⟩
  | succ fuel ih =>
      cases queue with
      | nil => exact ⟨visited, rfl⟩
      | cons v queue =>
          rw [List.length_cons] at hfuel
          have hrest : ∀ u ∈ queue, u ∈ vertices := fun u hu => hq u (List.mem_cons_of_mem v hu)
          have hmem : v ∈ vertices := hq v List.mem_cons_self
          rw [visit]
          split
          · exact ih hrest (by omega)
          · next hv =>
              rw [edgesLeft_take hmem hv] at hfuel
              refine ih (fun u hu => ?_) (by rw [List.length_append]; omega)
              rcases List.mem_append.mp hu with hu | hu
              · exact hrest u hu
              · exact hclosed v hmem u hu

end

end Shepherd.Graph
