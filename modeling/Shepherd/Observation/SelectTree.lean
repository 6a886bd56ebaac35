import Shepherd.Domain.Types
import Shepherd.Graph.Worklist

/-!
# Selecting a Process Tree

`select_tree` takes the tree below a process out of a snapshot. The snapshot is a list that
other processes can influence: pids may repeat, and parent pids may be missing, form cycles or
name a process that took over the pid. A parent is **stale** when it is known to be younger
than its child.

* `selectTree` — the function, with fuel for its loop.
* `SelectedTree` — what is selected: the root first, then exactly what is below it along links
  that are not stale. A pid stands for the process that is listed last.
* `select_tree_selects` — the answers of `select_tree`, for every snapshot.
-/

namespace Shepherd.Observation

open Std Relation

/-- An observed pid and its reported start time. -/
structure ObservedProcessIdentity where
  osPid : ℕ
  startTimeUnixSeconds : Option ℕ
  deriving DecidableEq, Repr

/-- One visible process in a snapshot. -/
structure ObservedProcess where
  identity : ObservedProcessIdentity
  parentOsPid : Option ℕ
  name : String
  deriving DecidableEq, Repr

/-- The visible processes, in any order. -/
structure ProcessSnapshot where
  processes : List ObservedProcess
  deriving DecidableEq, Repr

/-- A root and its descendants. -/
structure ProcessTree where
  root : ObservedProcessIdentity
  processes : List ObservedProcess
  deriving DecidableEq, Repr

/-- Failure to collect or select an observation. -/
inductive ObservationError where
  | unsupported
  | notVisible (pid : ℕ)
  | identityChanged (pid : ℕ)
  | backend (message : String)
  deriving DecidableEq, Repr

/-- The pid of a process. -/
def ObservedProcess.osPid (p : ObservedProcess) : ℕ := p.identity.osPid

/-- A newer process cannot be the parent of an older one. -/
def staleLink (parent p : ObservedProcess) : Bool :=
  match parent.identity.startTimeUnixSeconds, p.identity.startTimeUnixSeconds with
  | some a, some b => a > b
  | _, _ => false

/-! ### The function -/

/-- The processes by pid. -/
def processMap (snapshot : ProcessSnapshot) : TreeMap ℕ ObservedProcess :=
  .ofList (snapshot.processes.map fun p => (p.identity.osPid, p))

/-- Lists a process below its parent, unless the link is stale. -/
def addChild (processes : TreeMap ℕ ObservedProcess) (children : TreeMap ℕ (List ℕ))
    (p : ObservedProcess) : TreeMap ℕ (List ℕ) :=
  match p.parentOsPid with
  | none => children
  | some parent =>
      if processes[parent]?.any (staleLink · p) then children
      else children.insert parent (children.getD parent [] ++ [p.identity.osPid])

/-- The pids below each pid. -/
def childMap (processes : TreeMap ℕ ObservedProcess) : TreeMap ℕ (List ℕ) :=
  processes.foldl (fun children _ p => addChild processes children p) ∅

/-- The loop over the queue; `none` when the fuel is used up. -/
def selectLoop (processes : TreeMap ℕ ObservedProcess) (children : TreeMap ℕ (List ℕ)) :
    ℕ → List ℕ → List ℕ → List ObservedProcess → Option (List ObservedProcess)
  | _, [], _, selected => some selected
  | 0, _ :: _, _, _ => none
  | fuel + 1, pid :: queue, seen, selected =>
      if pid ∈ seen then selectLoop processes children fuel queue seen selected
      else
        selectLoop processes children fuel (queue ++ children.getD pid []) (seen ++ [pid])
          (selected ++ processes[pid]?.toList)

/-- `select_tree`. -/
def selectTree (fuel : ℕ) (snapshot : ProcessSnapshot) (pid : ℕ)
    (expected : Option ObservedProcessIdentity) : Option (Except ObservationError ProcessTree) :=
  let processes := processMap snapshot
  match processes[pid]? with
  | none => some (.error (.notVisible pid))
  | some root =>
      if expected.any (· ≠ root.identity) then some (.error (.identityChanged pid))
      else
        (selectLoop processes (childMap processes) fuel [pid] [] []).map fun selected =>
          .ok ⟨root.identity, selected⟩

/-! ### The tree -/

/-- The process that is listed last with a pid. -/
def lastListed (snapshot : ProcessSnapshot) (pid : ℕ) : Option ObservedProcess :=
  snapshot.processes.reverse.find? (·.osPid = pid)

/-- A process stands for its pid. -/
def Visible (snapshot : ProcessSnapshot) (p : ObservedProcess) : Prop :=
  lastListed snapshot p.osPid = some p

/-- A link from a process to one that reports it as its parent, if it is not stale. -/
structure Link (snapshot : ProcessSnapshot) (parent child : ObservedProcess) : Prop where
  parent_visible : Visible snapshot parent
  child_visible : Visible snapshot child
  reported : child.parentOsPid = some parent.osPid
  fresh : ∀ a b, parent.identity.startTimeUnixSeconds = some a →
    child.identity.startTimeUnixSeconds = some b → a ≤ b

/-- What is selected below a root. -/
structure SelectedTree (snapshot : ProcessSnapshot) (root : ObservedProcess) (t : ProcessTree) :
    Prop where
  root_eq : t.root = root.identity
  head : t.processes.head? = some root
  nodup : (t.processes.map ObservedProcess.osPid).Nodup
  mem_iff : ∀ p, p ∈ t.processes ↔ ReflTransGen (Link snapshot) root p
  preceded : ∀ before p after, t.processes = before ++ p :: after →
    before = [] ∨ ∃ parent ∈ before, Link snapshot parent p

/-- **The answers of `select_tree`.** -/
structure Selects (snapshot : ProcessSnapshot) (pid : ℕ)
    (expected : Option ObservedProcessIdentity) (result : Except ObservationError ProcessTree) :
    Prop where
  notVisible_iff : result = .error (.notVisible pid) ↔ ∀ p ∈ snapshot.processes, p.osPid ≠ pid
  identityChanged_iff : result = .error (.identityChanged pid) ↔
    ∃ root e, lastListed snapshot pid = some root ∧ expected = some e ∧ e ≠ root.identity
  errors : ∀ e, result = .error e → e = .notVisible pid ∨ e = .identityChanged pid
  ok : ∀ t, result = .ok t → ∃ root, lastListed snapshot pid = some root ∧
    SelectedTree snapshot root t

variable {snapshot : ProcessSnapshot} {pid v : ℕ} {p root parent child : ObservedProcess}
  {processes : TreeMap ℕ ObservedProcess} {children : TreeMap ℕ (List ℕ)}

/-- The process that is last listed under a number has it. -/
theorem osPid_of_lastListed (h : lastListed snapshot pid = some p) : p.osPid = pid := by
  have := List.find?_some h
  simpa using this

/-- The process that is last listed under its number is visible. -/
theorem visible_of_lastListed (h : lastListed snapshot pid = some p) : Visible snapshot p := by
  rw [Visible, osPid_of_lastListed h]
  exact h

/-- No process is last listed under a number that none has. -/
theorem lastListed_eq_none : lastListed snapshot pid = none ↔
    ∀ p ∈ snapshot.processes, p.osPid ≠ pid := by
  simp [lastListed]

/-- The map has the processes that are listed last. -/
theorem getElem?_processMap : (processMap snapshot)[pid]? = lastListed snapshot pid := by
  rw [processMap, TreeMap.ofList_eq_insertMany_empty, TreeMap.getElem?_insertMany_list,
    TreeMap.getElem?_emptyc, Option.or_none, List.findSomeRev?_eq_findSome?_reverse,
    ← List.map_reverse, List.findSome?_map, lastListed]
  induction snapshot.processes.reverse with
  | nil => rfl
  | cons p ps ih =>
      rw [List.findSome?_cons, List.find?_cons, ih]
      by_cases hp : p.identity.osPid = pid
      · simp [ObservedProcess.osPid, hp]
      · simp [ObservedProcess.osPid, hp]

/-- A link is not stale unless the child started before its parent. -/
theorem staleLink_eq_false : staleLink parent child = false ↔
    ∀ a b, parent.identity.startTimeUnixSeconds = some a →
      child.identity.startTimeUnixSeconds = some b → a ≤ b := by
  rw [staleLink]
  split
  · next a b ha hb => simp [ha, hb]
  · next hn => exact ⟨fun _ a b ha hb => (hn a b ha hb).elim, fun _ => rfl⟩

/-- A process is listed below the parent it reports. -/
theorem mem_addChild {p : ObservedProcess} :
    v ∈ (addChild processes children p).getD pid [] ↔ v ∈ children.getD pid [] ∨
      p.osPid = v ∧ p.parentOsPid = some pid ∧ processes[pid]?.any (staleLink · p) = false := by
  rw [addChild]
  split
  · next hp => simp [hp]
  · next parent hp =>
      rw [hp, Option.some.injEq]
      split
      · next hs =>
          constructor
          · exact .inl
          · rintro (hv | ⟨-, rfl, hn⟩)
            · exact hv
            · rw [hs] at hn
              cases hn
      · next hs =>
          rw [TreeMap.getD_insert]
          by_cases heq : parent = pid
          · subst heq
            have hself : compare parent parent = .eq := Nat.compare_eq_eq.mpr rfl
            rw [if_pos hself, List.mem_append, List.mem_singleton]
            simp [Bool.eq_false_iff.mpr hs, ObservedProcess.osPid, eq_comm]
          · rw [if_neg fun hc => heq (Nat.compare_eq_eq.mp hc)]
            simp [heq]

/-- The children of a process after some processes were entered; by induction on them. -/
theorem mem_foldl_addChild {ps : List (ℕ × ObservedProcess)} :
    v ∈ (ps.foldl (fun children p => addChild processes children p.2) children).getD pid [] ↔
      v ∈ children.getD pid [] ∨ ∃ p ∈ ps, p.2.osPid = v ∧ p.2.parentOsPid = some pid ∧
        processes[pid]?.any (staleLink · p.2) = false := by
  induction ps generalizing children with
  | nil => simp
  | cons p ps ih =>
      rw [List.foldl_cons, ih, mem_addChild, or_assoc]
      simp only [List.exists_mem_cons_iff]

/-- The pids below a visible process are those of its links. -/
theorem mem_childMap (hp : lastListed snapshot pid = some parent) :
    v ∈ (childMap (processMap snapshot)).getD pid [] ↔
      ∃ child, Link snapshot parent child ∧ child.osPid = v := by
  rw [childMap, TreeMap.foldl_eq_foldl_toList, mem_foldl_addChild, TreeMap.getD_emptyc,
    getElem?_processMap, hp]
  simp only [Option.any_some]
  have hpid := osPid_of_lastListed hp
  constructor
  · rintro (hv | ⟨⟨k, child⟩, hm, rfl, hr, hs⟩)
    · cases hv
    · rw [TreeMap.mem_toList_iff_getElem?_eq_some, getElem?_processMap] at hm
      refine ⟨child, ⟨visible_of_lastListed hp, visible_of_lastListed hm, ?_,
        staleLink_eq_false.mp hs⟩, rfl⟩
      rw [hpid]
      exact hr
  · rintro ⟨child, hl, rfl⟩
    refine .inr ⟨(child.osPid, child), ?_, rfl, ?_, staleLink_eq_false.mpr hl.fresh⟩
    · rw [TreeMap.mem_toList_iff_getElem?_eq_some, getElem?_processMap]
      exact hl.child_visible
    · rw [hl.reported, hpid]

/-! ### The loop -/

/-- The loop is an exploration of the pids. -/
theorem selectLoop_eq_visit {fuel : ℕ} {queue seen : List ℕ} :
    selectLoop processes children fuel queue seen (seen.filterMap (processes[·]?)) =
      (Graph.visit (children.getD · []) fuel queue seen).map
        (List.filterMap (processes[·]?)) := by
  induction fuel generalizing queue seen with
  | zero =>
      cases queue with
      | nil => rfl
      | cons pid queue => rfl
  | succ fuel ih =>
      cases queue with
      | nil => rfl
      | cons pid queue =>
          rw [selectLoop, Graph.visit]
          split
          · exact ih
          · rw [← ih, List.filterMap_append]
            congr 2

/-- The pids below a pid. -/
abbrev below (snapshot : ProcessSnapshot) (pid : ℕ) : List ℕ :=
  (childMap (processMap snapshot)).getD pid []

/-- What can be reached from a pid stands for what can be reached from its process. -/
theorem reached_of_edges (hroot : lastListed snapshot pid = some root)
    (h : ReflTransGen (Graph.Edge (below snapshot)) pid v) :
    ∃ p, lastListed snapshot v = some p ∧ ReflTransGen (Link snapshot) root p := by
  induction h with
  | refl => exact ⟨root, hroot, .refl⟩
  | tail _ he ih =>
      obtain ⟨parent, hp, hr⟩ := ih
      obtain ⟨child, hl, rfl⟩ := (mem_childMap hp).mp he
      exact ⟨child, hl.child_visible, hr.tail hl⟩

/-- What is linked to the root is reached in the graph of the children. -/
theorem edges_of_reached (hroot : lastListed snapshot pid = some root)
    (h : ReflTransGen (Link snapshot) root p) :
    ReflTransGen (Graph.Edge (below snapshot)) pid p.osPid := by
  induction h with
  | refl => rw [osPid_of_lastListed hroot]
  | tail _ hl ih => exact ih.tail ((mem_childMap hl.parent_visible).mpr ⟨_, hl, rfl⟩)

/-- The processes of visible pids have these pids. -/
theorem map_filterMap_lastListed {order : List ℕ}
    (h : ∀ v ∈ order, ∃ p, lastListed snapshot v = some p) :
    (order.filterMap (lastListed snapshot)).map ObservedProcess.osPid = order := by
  induction order with
  | nil => rfl
  | cons v order ih =>
      obtain ⟨p, hp⟩ := h v List.mem_cons_self
      rw [List.filterMap_cons_some hp, List.map_cons, osPid_of_lastListed hp,
        ih fun u hu => h u (List.mem_cons_of_mem v hu)]

/-- **An exploration of the pids selects the tree.** -/
theorem selectedTree_of_explored {order : List ℕ} (hroot : lastListed snapshot pid = some root)
    (h : Graph.Explored (below snapshot) pid order) :
    SelectedTree snapshot root ⟨root.identity, order.filterMap (lastListed snapshot)⟩ := by
  have hvisible : ∀ v ∈ order, ∃ p, lastListed snapshot v = some p := by
    intro v hv
    obtain ⟨p, hp, -⟩ := reached_of_edges hroot ((h.mem_iff v).mp hv)
    exact ⟨p, hp⟩
  have hpids := map_filterMap_lastListed hvisible
  have hselected : ∀ p ∈ order.filterMap (lastListed snapshot), Visible snapshot p := by
    intro p hp
    obtain ⟨v, -, hv⟩ := List.mem_filterMap.mp hp
    exact visible_of_lastListed hv
  constructor
  · rfl
  · obtain ⟨rest, rfl⟩ : ∃ rest, order = pid :: rest := by
      cases order with
      | nil => cases h.head
      | cons v rest => exact ⟨rest, by rw [Option.some.inj h.head]⟩
    rw [List.filterMap_cons_some hroot]
    rfl
  · rw [hpids]
    exact h.nodup
  · intro p
    rw [List.mem_filterMap]
    constructor
    · rintro ⟨v, hv, hp⟩
      obtain ⟨q, hq, hr⟩ := reached_of_edges hroot ((h.mem_iff v).mp hv)
      rw [hp] at hq
      rwa [Option.some.inj hq]
    · intro hr
      refine ⟨p.osPid, (h.mem_iff _).mpr (edges_of_reached hroot hr), ?_⟩
      cases hr with
      | refl => exact visible_of_lastListed hroot
      | tail _ hl => exact hl.child_visible
  · intro before p after heq
    change order.filterMap (lastListed snapshot) = before ++ p :: after at heq
    have hm (q : ObservedProcess) (hq : q ∈ before ++ p :: after) : Visible snapshot q :=
      hselected q (heq ▸ hq)
    have horder : order = before.map ObservedProcess.osPid ++
        p.osPid :: after.map ObservedProcess.osPid := by
      rw [← hpids, heq, List.map_append, List.map_cons]
    rcases h.preceded _ _ _ horder with hb | ⟨u, hu, hedge⟩
    · exact .inl (List.map_eq_nil_iff.mp hb)
    · right
      obtain ⟨parent, hmem, rfl⟩ := List.mem_map.mp hu
      obtain ⟨child, hl, hpid⟩ := (mem_childMap (hm parent (List.mem_append_left _ hmem))).mp hedge
      have hchild : lastListed snapshot p.osPid = some child := hpid ▸ hl.child_visible
      have hp : lastListed snapshot p.osPid = some p :=
        hm p (List.mem_append_right _ List.mem_cons_self)
      rw [hp] at hchild
      obtain rfl := Option.some.inj hchild
      exact ⟨parent, hmem, hl⟩

/-- The loop over the queue is an exploration of the pids. -/
theorem selectLoop_eq (snapshot : ProcessSnapshot) (fuel pid : ℕ) :
    selectLoop (processMap snapshot) (childMap (processMap snapshot)) fuel [pid] [] [] =
      (Graph.visit (below snapshot) fuel [pid] []).map
        (List.filterMap (lastListed snapshot)) := by
  have hlast : lastListed snapshot = fun v => (processMap snapshot)[v]? :=
    funext fun v => getElem?_processMap.symm
  rw [hlast]
  exact selectLoop_eq_visit

/-- The loop ends: the pids in the snapshot are finitely many. -/
theorem exists_visit (hroot : lastListed snapshot pid = some root) :
    ∃ bound, ∀ fuel ≥ bound, ∃ order, Graph.visit (below snapshot) fuel [pid] [] = some order := by
  let pids := (snapshot.processes.map ObservedProcess.osPid).toFinset
  have hmem {v : ℕ} : v ∈ pids ↔ ∃ p, lastListed snapshot v = some p := by
    rw [← Option.ne_none_iff_exists', ne_eq, lastListed_eq_none]
    simp [pids]
  have hclosed : ∀ u ∈ pids, ∀ v ∈ below snapshot u, v ∈ pids := by
    intro u hu v hv
    obtain ⟨p, hp⟩ := hmem.mp hu
    obtain ⟨child, hl, rfl⟩ := (mem_childMap hp).mp hv
    exact hmem.mpr ⟨child, hl.child_visible⟩
  have hstart : ∀ v ∈ [pid], v ∈ pids := by
    intro v hv
    rw [List.mem_singleton.mp hv]
    exact hmem.mpr ⟨root, hroot⟩
  exact ⟨1 + Graph.edgesLeft (below snapshot) pids [], fun fuel hfuel =>
    Graph.visit_returns hclosed hstart hfuel⟩

/-! ### The answers -/

/-- A root that is not listed is not visible. -/
theorem Selects.notVisible (h : lastListed snapshot pid = none)
    (expected : Option ObservedProcessIdentity) :
    Selects snapshot pid expected (.error (.notVisible pid)) where
  notVisible_iff := ⟨fun _ => lastListed_eq_none.mp h, fun _ => rfl⟩
  identityChanged_iff := by
    constructor
    · intro hc
      cases hc
    · rintro ⟨root, e, hr, -⟩
      rw [h] at hr
      cases hr
  errors e he := .inl (Except.error.inj he).symm
  ok t ht := by cases ht

/-- A pid that is listed is visible. -/
theorem not_notVisible (h : lastListed snapshot pid = some root) :
    ¬ ∀ p ∈ snapshot.processes, p.osPid ≠ pid := by
  rw [← lastListed_eq_none, h]
  exact Option.some_ne_none root

/-- A root that is not the expected one has changed its identity. -/
theorem Selects.identityChanged {e : ObservedProcessIdentity}
    (h : lastListed snapshot pid = some root) (he : e ≠ root.identity) :
    Selects snapshot pid (some e) (.error (.identityChanged pid)) where
  notVisible_iff := by
    constructor
    · intro hc
      cases hc
    · exact fun hn => (not_notVisible h hn).elim
  identityChanged_iff := ⟨fun _ => ⟨root, e, h, rfl, he⟩, fun _ => rfl⟩
  errors e he := .inr (Except.error.inj he).symm
  ok t ht := by cases ht

/-- The tree of a root that is the expected one is selected. -/
theorem Selects.of_tree {expected : Option ObservedProcessIdentity} {t : ProcessTree}
    (h : lastListed snapshot pid = some root) (he : ∀ e, expected = some e → e = root.identity)
    (ht : SelectedTree snapshot root t) : Selects snapshot pid expected (.ok t) where
  notVisible_iff := by
    constructor
    · intro hc
      cases hc
    · exact fun hn => (not_notVisible h hn).elim
  identityChanged_iff := by
    constructor
    · intro hc
      cases hc
    · rintro ⟨root', e, hr, hexp, hne⟩
      rw [h] at hr
      obtain rfl := Option.some.inj hr
      exact (hne (he e hexp)).elim
  errors e he := by cases he
  ok t' ht' := by
    obtain rfl := Except.ok.inj ht'
    exact ⟨root, h, ht⟩

/-- **`select_tree` selects the tree**: with enough fuel it answers, and the answer is right. -/
theorem select_tree_selects (snapshot : ProcessSnapshot) (pid : ℕ)
    (expected : Option ObservedProcessIdentity) :
    ∃ bound, ∀ fuel ≥ bound, ∃ result,
      selectTree fuel snapshot pid expected = some result ∧
        Selects snapshot pid expected result := by
  cases hroot : lastListed snapshot pid with
  | none =>
      refine ⟨0, fun fuel _ => ⟨.error (.notVisible pid), ?_, .notVisible hroot expected⟩⟩
      simp only [selectTree, getElem?_processMap, hroot]
  | some root =>
      by_cases hexp : expected.any (· ≠ root.identity) = true
      · obtain ⟨e, rfl, he⟩ := (Option.any_eq_true _ _).mp hexp
        refine ⟨0, fun fuel _ => ⟨.error (.identityChanged pid), ?_,
          .identityChanged hroot (of_decide_eq_true he)⟩⟩
        simp only [selectTree, getElem?_processMap, hroot, if_pos hexp]
      · obtain ⟨bound, hb⟩ := exists_visit hroot
        refine ⟨bound, fun fuel hfuel => ?_⟩
        obtain ⟨order, ho⟩ := hb fuel hfuel
        refine ⟨.ok ⟨root.identity, order.filterMap (lastListed snapshot)⟩, ?_, ?_⟩
        · simp only [selectTree, getElem?_processMap, hroot, if_neg hexp, selectLoop_eq, ho]
          rfl
        · refine .of_tree hroot ?_ (selectedTree_of_explored hroot (Graph.visit_explores ho))
          rintro e rfl
          simpa using hexp

/-- A cycle of parents ends, and the siblings of the root are not selected. -/
example :
    let p (pid : ℕ) (parent : Option ℕ) : ObservedProcess := ⟨⟨pid, some 1⟩, parent, "p"⟩
    selectTree 4 ⟨[p 4 (some 2), p 3 (some 1), p 2 (some 4), p 1 none]⟩ 2 none =
      some (.ok ⟨⟨2, some 1⟩, [p 2 (some 4), p 4 (some 2)]⟩) := by
  decide +kernel

end Shepherd.Observation
