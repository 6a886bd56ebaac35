import Mathlib.Data.Option.Basic
import Shepherd.Backend.Groups

/-!
# Pinned Process Groups

In process-group containment a group number is signalled or joined only while it is pinned
by an unreaped anchor child of the scope, and a scope whose group was sent `SIGKILL` gets
no new root before a cleanup removed its anchor.

`Inv` says why. The group and the anchor of a scope come and go together and agree on the
number; an anchor child is unreaped while its exit channel is empty; a worker that is still
armed belongs to the stored anchor, or to one that a spawn call is about to store; and a
killed scope is **condemned**: its anchor is marked, or its worker was interrupted.

`Later` is what the parties other than spawn and cleanup calls can do to all that.
-/

open Std

namespace Shepherd.UnixState

variable {s s' : UnixState} {scope c : ProcessScopeId} {n m child : ℕ}

/-- The group of a scope was sent `SIGKILL` after the last cleanup of the scope. -/
def Killed (c : ProcessScopeId) : List GroupEvent → Prop
  | [] => False
  | e :: log => e = .killed c ∨ (e ≠ .cleaned c ∧ Killed c log)

instance decidableKilled (c : ProcessScopeId) :
    (log : List GroupEvent) → Decidable (Killed c log)
  | [] => inferInstanceAs (Decidable False)
  | e :: log =>
      have := decidableKilled c log
      inferInstanceAs (Decidable (e = .killed c ∨ (e ≠ .cleaned c ∧ Killed c log)))

/-- What is true of an event, given the history before it: a group number was pinned when it
was used, no root is spawned into a killed scope, and a call that returns a root has
spawned it. -/
def EventLawful (log : List GroupEvent) : GroupEvent → Prop
  | .signalled _ _ pinned | .joined _ _ pinned => pinned = true
  | .forked _ c _ => ¬ Killed c log
  | .spawned n c root => .forked n c root ∈ log
  | _ => True

def LogLawful : List GroupEvent → Prop
  | [] => True
  | e :: log => EventLawful log e ∧ LogLawful log

/-- The anchor of the scope is marked, or the worker of an anchor that is stored, or about
to be, was interrupted. -/
def Condemned (s : UnixState) (c : ProcessScopeId) : Prop :=
  (∃ anchor, s.anchors[c]? = some anchor ∧
    (anchor.killIssued = true ∨ ∃ e, s.exitOf anchor.child = some (.error e))) ∨
  ∃ n child e, s.spawns n = some (.storing c child) ∧ s.exitOf child = some (.error e)

/-- What a spawn call relies on. -/
def SpawnSound (s : UnixState) (n : ℕ) : SpawnCall → Prop
  | .locking c => n ∈ s.spawning c
  | .ensuring c => n ∈ s.spawning c ∧ s.locks c = some n
  | .anchoring c => n ∈ s.spawning c ∧ s.locks c = some n ∧ s.anchors[c]? = none
  | .storing c child => n ∈ s.spawning c ∧ s.locks c = some n ∧ s.anchors[c]? = none ∧
      ∃ a, s.anchorChildren child = some a ∧ a.scope = c
  | .joining c => n ∈ s.spawning c ∧ s.locks c = some n ∧ (s.anchors[c]?).isSome = true
  | .registering c root newGroup => n ∈ s.spawning c ∧ s.locks c = some n ∧
      (s.anchors[c]?).isSome = true ∧ newGroup = false ∧ .forked n c root ∈ s.log
  | .returned => True

/-- What a cleanup call relies on. -/
def CleanupSound (s : UnixState) (m : ℕ) : CleanupCall → Prop
  | .killing c | .observing c => m ∈ s.cleaning c
  | .waiting c child => m ∈ s.cleaning c ∧
      ∀ anchor, s.anchors[c]? = some anchor → anchor.child = child
  | .removing c => m ∈ s.cleaning c ∧
      ∀ anchor, s.anchors[c]? = some anchor → (s.exitOf anchor.child).isSome = true
  | .returned => True

/-- What is always true of an anchor child. -/
structure ChildSound (a : AnchorChild) : Prop where
  armed : a.armed = a.exit.isNone
  unreaped : a.exit = none → a.reaped = false

/-- The worker of an anchor child belongs to the stored anchor, or to one about to be
stored. -/
def Owned (s : UnixState) (child : ℕ) (a : AnchorChild) : Prop :=
  (∃ anchor, s.anchors[a.scope]? = some anchor ∧ anchor.child = child) ∨
    ∃ n, s.spawns n = some (.storing a.scope child)

/-- **The invariant** of process-group containment. -/
structure Inv (s : UnixState) : Prop where
  mode : s.mode = .processGroup
  bounded : ∀ child a, s.anchorChildren child = some a → child < s.nextAnchor
  childSound : ∀ child a, s.anchorChildren child = some a → ChildSound a
  paired : ∀ c : ProcessScopeId, (s.groups[c]?).isSome = (s.anchors[c]?).isSome
  led : ∀ (c : ProcessScopeId) anchor group,
    s.anchors[c]? = some anchor → s.groups[c]? = some group →
    ∃ a, s.anchorChildren anchor.child = some a ∧ a.scope = c ∧ a.pgid = group.pgid
  spawnSound : ∀ n call, s.spawns n = some call → s.SpawnSound n call
  cleanupSound : ∀ m call, s.cleanups m = some call → s.CleanupSound m call
  exclusive : ∀ c, s.spawning c = [] ∨ s.cleaning c = []
  owned : ∀ child a, s.anchorChildren child = some a → a.armed = true → s.Owned child a
  condemned : ∀ c, Killed c s.log → s.Condemned c
  lawful : LogLawful s.log

/-- A new backend has no groups. -/
theorem inv_new : (new .processGroup).Inv where
  mode := rfl
  bounded := nofun
  childSound := nofun
  paired := by simp [new]
  led c anchor group h := absurd h (by simp [new])
  spawnSound := nofun
  cleanupSound := nofun
  exclusive _ := .inl rfl
  owned := nofun
  condemned _ h := h.elim
  lawful := trivial

/-- The exit of an anchor child. -/
theorem exitOf_eq {a : AnchorChild} (h : s.anchorChildren child = some a) :
    s.exitOf child = a.exit := by
  rw [exitOf, h, Option.bind_some]

/-- An unreaped anchor child pins its number. -/
theorem Inv.pins (h : s.Inv) {a : AnchorChild} (ha : s.anchorChildren child = some a)
    (he : a.exit = none) : s.pins a.scope a.pgid = true := by
  rw [UnixState.pins, List.any_eq_true]
  refine ⟨child, List.mem_range.mpr (h.bounded child a ha), ?_⟩
  rw [ha]
  simp [(h.childSound child a ha).unreaped he]

/-- The stored anchor of a scope pins its group while its exit channel is empty. -/
theorem Inv.pins_group (h : s.Inv) {anchor : Anchor} {group : ScopeGroup}
    (ha : s.anchors[c]? = some anchor) (hg : s.groups[c]? = some group)
    (he : s.exitOf anchor.child = none) : s.pins c group.pgid = true := by
  obtain ⟨a, hchild, rfl, hp⟩ := h.led c anchor group ha hg
  rw [exitOf_eq hchild] at he
  rw [← hp]
  exact h.pins hchild he

/-- Two calls that hold the lock of a scope are the same. -/
theorem SpawnSound.held {call : SpawnCall} (h : s.SpawnSound n call)
    (hc : call.held = some c) : s.locks c = some n ∧ n ∈ s.spawning c := by
  cases call with
  | locking => exact absurd hc (by simp [SpawnCall.held])
  | returned => exact absurd hc (by simp [SpawnCall.held])
  | ensuring => obtain rfl := Option.some.inj hc; exact ⟨h.2, h.1⟩
  | anchoring => obtain rfl := Option.some.inj hc; exact ⟨h.2.1, h.1⟩
  | storing => obtain rfl := Option.some.inj hc; exact ⟨h.2.1, h.1⟩
  | joining => obtain rfl := Option.some.inj hc; exact ⟨h.2.1, h.1⟩
  | registering => obtain rfl := Option.some.inj hc; exact ⟨h.2.1, h.1⟩

/-- One spawn holds the anchor of a scope. -/
theorem Inv.holder_unique (h : s.Inv) {call call' : SpawnCall} {n' : ℕ}
    (hn : s.spawns n = some call) (hn' : s.spawns n' = some call')
    (hc : call.held = some c) (hc' : call'.held = some c) : n = n' := by
  have h₁ := ((h.spawnSound n call hn).held hc).1
  have h₂ := ((h.spawnSound n' call' hn').held hc').1
  exact Option.some.inj (h₁.symm.trans h₂)

/-! ### What the other parties can do -/

/-- A later state of an anchor child. -/
structure ChildLater (a a' : AnchorChild) : Prop where
  scope : a'.scope = a.scope
  pgid : a'.pgid = a.pgid
  exit : ∀ r, a.exit = some r → a'.exit = some r
  armed : a'.armed = true → a.armed = true

/-- What everyone but the spawn and cleanup calls can do: mark anchors, change what is
counted of a group, and move anchor children on. -/
structure Later (s s' : UnixState) : Prop where
  mode : s'.mode = s.mode
  nextAnchor : s'.nextAnchor = s.nextAnchor
  spawns : s'.spawns = s.spawns
  cleanups : s'.cleanups = s.cleanups
  locks : s'.locks = s.locks
  spawning : s'.spawning = s.spawning
  cleaning : s'.cleaning = s.cleaning
  anchors : ∀ c : ProcessScopeId,
    (s'.anchors[c]?).map Anchor.child = (s.anchors[c]?).map Anchor.child
  marked : ∀ (c : ProcessScopeId) a a', s.anchors[c]? = some a → s'.anchors[c]? = some a' →
    a.killIssued = true → a'.killIssued = true
  groups : ∀ c : ProcessScopeId,
    (s'.groups[c]?).map ScopeGroup.pgid = (s.groups[c]?).map ScopeGroup.pgid
  children : ∀ child, Option.Rel ChildLater (s.anchorChildren child) (s'.anchorChildren child)
  log : ∀ e ∈ s.log, e ∈ s'.log

namespace Later

/-- A state is later than itself. -/
theorem refl (s : UnixState) : Later s s where
  mode := rfl
  nextAnchor := rfl
  spawns := rfl
  cleanups := rfl
  locks := rfl
  spawning := rfl
  cleaning := rfl
  anchors _ := rfl
  marked c a a' h h' hk := by
    obtain rfl := Option.some.inj (h.symm.trans h')
    exact hk
  groups _ := rfl
  children child := by
    cases s.anchorChildren child with
    | none => exact .none
    | some a => exact .some ⟨rfl, rfl, fun _ h => h, id⟩
  log _ h := h

/-- An anchor of a later state was there, with the same child, and stays killed. -/
theorem anchor_back (k : Later s s') {a' : Anchor} (h : s'.anchors[c]? = some a') :
    ∃ a, s.anchors[c]? = some a ∧ a'.child = a.child ∧
      (a.killIssued = true → a'.killIssued = true) := by
  have hc := k.anchors c
  rw [h, Option.map_some] at hc
  obtain ⟨a, ha, hac⟩ := Option.map_eq_some_iff.mp hc.symm
  exact ⟨a, ha, hac.symm, k.marked c a a' ha h⟩

/-- An anchor is there later, with the same child, and stays killed. -/
theorem anchor_forth (k : Later s s') {a : Anchor} (h : s.anchors[c]? = some a) :
    ∃ a', s'.anchors[c]? = some a' ∧ a'.child = a.child ∧
      (a.killIssued = true → a'.killIssued = true) := by
  have hc := k.anchors c
  rw [h, Option.map_some] at hc
  obtain ⟨a', ha, hac⟩ := Option.map_eq_some_iff.mp hc
  exact ⟨a', ha, hac, k.marked c a a' h ha⟩

/-- The same scopes have an anchor. -/
theorem anchor_isSome (k : Later s s') (c : ProcessScopeId) :
    (s'.anchors[c]?).isSome = (s.anchors[c]?).isSome := by
  have := congrArg Option.isSome (k.anchors c)
  simpa using this

/-- The same scopes have a group. -/
theorem group_isSome (k : Later s s') (c : ProcessScopeId) :
    (s'.groups[c]?).isSome = (s.groups[c]?).isSome := by
  have := congrArg Option.isSome (k.groups c)
  simpa using this

/-- An anchor's child of a later state was there. -/
theorem child_back (k : Later s s') {a' : AnchorChild} (h : s'.anchorChildren child = some a') :
    ∃ a, s.anchorChildren child = some a ∧ ChildLater a a' := by
  have hc := k.children child
  rw [h] at hc
  cases hs : s.anchorChildren child with
  | none => rw [hs] at hc; cases hc
  | some a =>
      rw [hs] at hc
      cases hc with
      | some hr => exact ⟨a, rfl, hr⟩

/-- An anchor's child is there later. -/
theorem child_forth (k : Later s s') {a : AnchorChild} (h : s.anchorChildren child = some a) :
    ∃ a', s'.anchorChildren child = some a' ∧ ChildLater a a' := by
  have hc := k.children child
  rw [h] at hc
  cases hs : s'.anchorChildren child with
  | none => rw [hs] at hc; cases hc
  | some a' =>
      rw [hs] at hc
      cases hc with
      | some hr => exact ⟨a', rfl, hr⟩

/-- The exit of an anchor stays published. -/
theorem exit (k : Later s s') {r : Except String Unit} (h : s.exitOf child = some r) :
    s'.exitOf child = some r := by
  obtain ⟨a, ha, he⟩ := Option.bind_eq_some_iff.mp h
  obtain ⟨a', ha', hl⟩ := k.child_forth ha
  rw [exitOf_eq ha']
  exact hl.exit r he

/-- A condemned scope stays condemned. -/
theorem condemned (k : Later s s') (h : s.Condemned c) : s'.Condemned c := by
  rcases h with ⟨anchor, ha, hm⟩ | ⟨n, child, e, hn, he⟩
  · obtain ⟨anchor', ha', hc, hk⟩ := k.anchor_forth ha
    refine .inl ⟨anchor', ha', ?_⟩
    rcases hm with hm | ⟨e, he⟩
    · exact .inl (hk hm)
    · exact .inr ⟨e, by rw [hc]; exact k.exit he⟩
  · exact .inr ⟨n, child, e, by rw [k.spawns]; exact hn, k.exit he⟩

/-- What a spawn relies on holds later. -/
theorem spawnSound (k : Later s s') {call : SpawnCall} (h : s.SpawnSound n call) :
    s'.SpawnSound n call := by
  have hnone : ∀ c : ProcessScopeId, s.anchors[c]? = none → s'.anchors[c]? = none := by
    intro c hc
    have := k.anchor_isSome c
    rw [hc] at this
    exact Option.not_isSome_iff_eq_none.mp (by rw [this]; decide)
  have hsome : ∀ c : ProcessScopeId, (s.anchors[c]?).isSome = true →
      (s'.anchors[c]?).isSome = true :=
    fun c hc => (k.anchor_isSome c).trans hc
  cases call with
  | locking c => rw [SpawnSound, k.spawning]; exact h
  | ensuring c => rw [SpawnSound, k.spawning, k.locks]; exact h
  | anchoring c => rw [SpawnSound, k.spawning, k.locks]; exact ⟨h.1, h.2.1, hnone c h.2.2⟩
  | storing c child =>
      obtain ⟨h₁, h₂, h₃, a, ha, hs⟩ := h
      obtain ⟨a', ha', hl⟩ := k.child_forth ha
      rw [SpawnSound, k.spawning, k.locks]
      exact ⟨h₁, h₂, hnone c h₃, a', ha', hl.scope.trans hs⟩
  | joining c => rw [SpawnSound, k.spawning, k.locks]; exact ⟨h.1, h.2.1, hsome c h.2.2⟩
  | registering c root newGroup =>
      rw [SpawnSound, k.spawning, k.locks]
      exact ⟨h.1, h.2.1, hsome c h.2.2.1, h.2.2.2.1, k.log _ h.2.2.2.2⟩
  | returned => trivial

/-- What a cleanup relies on holds later. -/
theorem cleanupSound (k : Later s s') {call : CleanupCall} (h : s.CleanupSound m call) :
    s'.CleanupSound m call := by
  cases call with
  | killing c => rw [CleanupSound, k.cleaning]; exact h
  | observing c => rw [CleanupSound, k.cleaning]; exact h
  | waiting c child =>
      rw [CleanupSound, k.cleaning]
      refine ⟨h.1, fun anchor' ha' => ?_⟩
      obtain ⟨anchor, ha, hc, -⟩ := k.anchor_back ha'
      exact hc.trans (h.2 anchor ha)
  | removing c =>
      rw [CleanupSound, k.cleaning]
      refine ⟨h.1, fun anchor' ha' => ?_⟩
      obtain ⟨anchor, ha, hc, -⟩ := k.anchor_back ha'
      obtain ⟨r, hr⟩ := Option.isSome_iff_exists.mp (h.2 anchor ha)
      rw [hc, k.exit hr]
      rfl
  | returned => trivial

end Later

/-- **The other parties' steps.** What they do keeps the invariant, given that it keeps the
anchor children sound and that the history is accounted for. -/
theorem Inv.later (h : s.Inv) (k : Later s s')
    (hsound : ∀ child a, s'.anchorChildren child = some a → ChildSound a)
    (hcond : ∀ c, Killed c s'.log → s'.Condemned c)
    (hlawful : LogLawful s'.log) : s'.Inv where
  mode := k.mode.trans h.mode
  bounded child a' ha' := by
    obtain ⟨a, ha, -⟩ := k.child_back ha'
    rw [k.nextAnchor]
    exact h.bounded child a ha
  childSound := hsound
  paired c := (k.group_isSome c).trans ((h.paired c).trans (k.anchor_isSome c).symm)
  led c anchor' group' ha' hg' := by
    obtain ⟨anchor, ha, hc, -⟩ := k.anchor_back ha'
    have hg := k.groups c
    rw [hg', Option.map_some] at hg
    obtain ⟨group, hg, hp⟩ := Option.map_eq_some_iff.mp hg.symm
    obtain ⟨a, hchild, hscope, hpgid⟩ := h.led c anchor group ha hg
    obtain ⟨a', hchild', hl⟩ := k.child_forth hchild
    exact ⟨a', hc ▸ hchild', hl.scope.trans hscope, hl.pgid.trans (hpgid.trans hp)⟩
  spawnSound n call hn := k.spawnSound (h.spawnSound n call (k.spawns ▸ hn))
  cleanupSound m call hm := k.cleanupSound (h.cleanupSound m call (k.cleanups ▸ hm))
  exclusive c := by
    rw [k.spawning, k.cleaning]
    exact h.exclusive c
  owned child a' ha' harmed := by
    obtain ⟨a, ha, hl⟩ := k.child_back ha'
    rw [Owned, hl.scope, k.spawns]
    rcases h.owned child a ha (hl.armed harmed) with ⟨anchor, hanchor, hc⟩ | hn
    · obtain ⟨anchor', hanchor', hc', -⟩ := k.anchor_forth hanchor
      exact .inl ⟨anchor', hanchor', hc'.trans hc⟩
    · exact .inr hn
  condemned := hcond
  lawful := hlawful

/-- Marking the anchor of a scope. -/
theorem Later.mark {anchor : Anchor} (h : s.anchors[c]? = some anchor) :
    Later s { s with anchors := s.anchors.insert c { anchor with killIssued := true } } :=
  { Later.refl s with
    anchors := fun d => by
      rw [getElem?_insert]
      split
      · next hd => subst hd; rw [h]; rfl
      · rfl
    marked := fun d a a' ha ha' hk => by
      rw [getElem?_insert] at ha'
      split at ha'
      · obtain rfl := Option.some.inj ha'
        rfl
      · obtain rfl := Option.some.inj (ha.symm.trans ha')
        exact hk }

/-- The anchor's child that is set. -/
theorem setAnchorChild_self (s : UnixState) (child : ℕ) (a : AnchorChild) :
    (s.setAnchorChild child a).anchorChildren child = some a :=
  Function.update_self ..

/-- The other children of anchors stay as they are. -/
theorem setAnchorChild_of_ne {d : ℕ} (h : d ≠ child) (s : UnixState) (a : AnchorChild) :
    (s.setAnchorChild child a).anchorChildren d = s.anchorChildren d :=
  Function.update_of_ne h ..

/-- Moving an anchor child on. -/
theorem Later.setAnchorChild {a a' : AnchorChild} (h : s.anchorChildren child = some a)
    (hl : ChildLater a a') : Later s (s.setAnchorChild child a') :=
  { Later.refl s with
    children := fun d => by
      by_cases hd : d = child
      · subst hd
        rw [h, setAnchorChild_self]
        exact .some hl
      · rw [setAnchorChild_of_ne hd]
        exact (Later.refl s).children d }

/-- The anchor children stay sound when one of them moves on to a sound state. -/
theorem Inv.childSound_set (h : s.Inv) {a' : AnchorChild} (ha' : ChildSound a') :
    ∀ d a, (s.setAnchorChild child a').anchorChildren d = some a → ChildSound a := by
  intro d a hd
  by_cases hc : d = child
  · subst hc
    rw [setAnchorChild_self] at hd
    obtain rfl := Option.some.inj hd
    exact ha'
  · rw [setAnchorChild_of_ne hc] at hd
    exact h.childSound d a hd

/-- Recording a lawful event keeps the invariant, when a killed scope is condemned. -/
theorem Inv.record (h : s.Inv) (e : GroupEvent) (he : EventLawful s.log e)
    (hcond : ∀ c, e = .killed c → s.Condemned c) : (s.record e).Inv := by
  have k : Later s (s.record e) :=
    { Later.refl s with log := fun _ hm => List.mem_cons_of_mem e hm }
  refine h.later k h.childSound ?_ ⟨he, h.lawful⟩
  rintro c (hc | ⟨-, hc⟩)
  · exact hcond c hc
  · exact h.condemned c hc

/-- Marking the anchor of a scope keeps the invariant. -/
theorem Inv.mark (h : s.Inv) {anchor : Anchor} (ha : s.anchors[c]? = some anchor) :
    ({ s with anchors := s.anchors.insert c { anchor with killIssued := true } } :
      UnixState).Inv :=
  h.later (Later.mark ha) h.childSound (fun d hd => (Later.mark ha).condemned (h.condemned d hd))
    h.lawful

/-- A scope whose anchor is marked is condemned. -/
theorem condemned_of_marked {anchor : Anchor} (ha : s.anchors[c]? = some anchor)
    (hk : anchor.killIssued = true) : s.Condemned c :=
  .inl ⟨anchor, ha, .inl hk⟩

/-- A signal to the group of a scope whose anchor is neither marked nor gone. -/
theorem Inv.killGroup (h : s.Inv) {anchor : Anchor} {group : ScopeGroup}
    (ha : s.anchors[c]? = some anchor) (hg : s.groups[c]? = some group)
    (he : s.exitOf anchor.child = none) (signal : NixSignal) (answer : KillAnswer) :
    (s.killGroup c group signal answer).1.Inv := by
  have hsignal := h.record (.signalled c group.pgid (s.pins c group.pgid))
    (h.pins_group ha hg he) nofun
  rw [UnixState.killGroup]
  split
  · exact hsignal
  · split
    · have hkept : (s.record (.signalled c group.pgid (s.pins c group.pgid))).anchors[c]? =
          some anchor := ha
      rw [hkept]
      refine (hsignal.mark hkept).record (.killed c) trivial fun d hd => ?_
      obtain rfl := GroupEvent.killed.inj hd
      exact condemned_of_marked ((getElem?_insert ..).trans (if_pos rfl)) rfl
    · exact hsignal

/-- A signal to a group keeps the invariant: it goes to a group that is pinned. -/
theorem Inv.signalGroup (h : s.Inv) (c : ProcessScopeId) (signal : NixSignal)
    (answer : KillAnswer) : (s.signalGroup c signal answer).1.Inv := by
  rw [UnixState.signalGroup]
  split
  · exact h
  · next group hg =>
      split
      · next ha =>
          have hpair := h.paired c
          rw [hg, ha] at hpair
          exact Bool.noConfusion hpair
      · next anchor ha =>
          split
          · exact h
          · split
            · exact h
            · next he =>
                exact h.killGroup ha hg (Option.not_isSome_iff_eq_none.mp he) signal answer

/-- A signal to a scope keeps the invariant. -/
theorem Inv.signalScope (h : s.Inv) (c : ProcessScopeId) (signal : Signal) (known : Bool)
    (answer : KillAnswer) : (s.signalScope c signal known answer).1.Inv := by
  rw [UnixState.signalScope]
  split
  · exact h
  · split
    · exact h
    · next number _ => exact h.signalGroup c number answer

/-- A hard kill of a scope keeps the invariant. -/
theorem Inv.hardKillScope (h : s.Inv) (c : ProcessScopeId) (answer : KillAnswer) :
    (s.hardKillScope c answer).Inv := by
  rw [UnixState.hardKillScope]
  split
  · exact h
  · exact h.signalGroup c .SIGKILL answer

/-- A hard kill of all scopes keeps the invariant; by induction on the groups. -/
theorem Inv.hardKillAll (h : s.Inv) (answers : List (ProcessScopeId × KillAnswer)) :
    (s.hardKillAll answers).Inv := by
  rw [UnixState.hardKillAll]
  split
  · exact h
  · induction answers generalizing s with
    | nil => exact h
    | cons a answers ih =>
        have hnext := h.signalGroup a.1 .SIGKILL a.2
        exact ih hnext (by rw [hnext.mode]; decide)

/-- Moving an anchor child on to a sound state keeps the invariant. -/
theorem Inv.setAnchorChild (h : s.Inv) {a a' : AnchorChild} (ha : s.anchorChildren child = some a)
    (hl : ChildLater a a') (hs : ChildSound a') : (s.setAnchorChild child a').Inv := by
  have k := Later.setAnchorChild ha hl
  exact h.later k (h.childSound_set hs) (fun c hc => k.condemned (h.condemned c hc)) h.lawful

/-- The exit channel of an armed worker is empty. -/
theorem ChildSound.exit_none {a : AnchorChild} (h : ChildSound a) (harmed : a.armed = true) :
    a.exit = none := by
  have he := h.armed
  rw [harmed] at he
  exact Option.isNone_iff_eq_none.mp he.symm

/-- An armed worker that ends is a step forward of its child. -/
theorem ChildLater.disarm {a : AnchorChild} (h : a.exit = none) (r : Except String Unit)
    (reaped : Bool) :
    ChildLater a { a with exit := some r, armed := false, reaped := reaped } where
  scope := rfl
  pgid := rfl
  exit r hr := absurd (h.symm.trans hr) (by simp)
  armed := nofun

/-- The worker of an anchor reaps it, or fails to. -/
theorem Inv.pollExit (h : s.Inv) {a : AnchorChild} (ha : s.anchorChildren child = some a)
    (harmed : a.armed = true) (result : Except String Unit) :
    (s.pollExit child a result).Inv :=
  h.setAnchorChild ha (.disarm ((h.childSound child a ha).exit_none harmed) ..) ⟨rfl, nofun⟩

/-- The orphan reaper waits for a child whose worker is gone. -/
theorem Inv.reapOrphan (h : s.Inv) {a : AnchorChild} (ha : s.anchorChildren child = some a)
    (harmed : ¬ a.armed = true) :
    (s.setAnchorChild child { a with reaped := true }).Inv := by
  have hs := h.childSound child a ha
  refine h.setAnchorChild ha ⟨rfl, rfl, fun _ hr => hr, id⟩ ⟨hs.armed, fun he => ?_⟩
  have harm := hs.armed
  rw [he] at harm
  exact absurd harm harmed

/-- When the worker of an anchor child was interrupted, its scope is condemned. -/
theorem Owned.condemned {a : AnchorChild} {e : String} (h : s.Owned child a)
    (he : s.exitOf child = some (.error e)) : s.Condemned a.scope := by
  rcases h with ⟨anchor, hanchor, rfl⟩ | ⟨n, hn⟩
  · exact .inl ⟨anchor, hanchor, .inr ⟨e, he⟩⟩
  · exact .inr ⟨n, child, e, hn, he⟩

/-- An armed worker is dropped: its own group is killed while its child pins it. -/
theorem Inv.dropWorker (h : s.Inv) {a : AnchorChild} (ha : s.anchorChildren child = some a)
    (harmed : a.armed = true) : (s.dropWorker child a).Inv := by
  have hnone := (h.childSound child a ha).exit_none harmed
  have hend : ∀ t : UnixState, t.Inv → t.anchorChildren child = some a →
      ((t.setAnchorChild child a.interrupt).record (.killed a.scope)).Inv := by
    intro t ht hta
    have hset : (t.setAnchorChild child a.interrupt).Inv :=
      ht.setAnchorChild hta (.disarm hnone ..) ⟨rfl, nofun⟩
    refine hset.record (.killed a.scope) trivial fun c hc => ?_
    obtain rfl := GroupEvent.killed.inj hc
    have howned : Owned (t.setAnchorChild child a.interrupt) child a :=
      ht.owned child a hta harmed
    exact howned.condemned (exitOf_eq (setAnchorChild_self ..))
  have hsignal := h.record (.signalled a.scope a.pgid (s.pins a.scope a.pgid))
    (h.pins ha hnone) nofun
  rw [UnixState.dropWorker]
  split
  · next hg hanchor =>
      split
      · exact hend _ (hsignal.mark hanchor) ha
      · exact hend _ hsignal ha
  · exact hend _ hsignal ha

/-- Changing what is counted of a group keeps the invariant, whatever the registered roots
are. -/
theorem Inv.setGroup (h : s.Inv) {group group' : ScopeGroup} (hg : s.groups[c]? = some group)
    (hp : group'.pgid = group.pgid) (children : ℕ → Option Root) :
    ({ s with groups := s.groups.insert c group', children := children } : UnixState).Inv := by
  have k : Later s { s with groups := s.groups.insert c group', children := children } :=
    { Later.refl s with
      groups := fun d => by
        rw [getElem?_insert]
        split
        · next hd => subst hd; rw [hg, Option.map_some, Option.map_some, hp]
        · rfl }
  exact h.later k h.childSound (fun d hd => k.condemned (h.condemned d hd)) h.lawful

/-- The waiter of a root publishes its result. -/
theorem Inv.publishWaitResult (h : s.Inv) (root : ℕ) (r : Root) (ok : Bool) :
    (s.publishWaitResult root r ok).Inv := by
  have hrecord : ∀ t : UnixState, t.Inv →
      (t.record (if ok then .exited r.scope root else .waitFailed r.scope root)).Inv := by
    intro t ht
    cases ok with
    | true => exact ht.record _ trivial nofun
    | false => exact ht.record _ trivial nofun
  rw [UnixState.publishWaitResult]
  refine hrecord _ ?_
  split
  · next group hg =>
      refine h.setGroup hg ?_ _
      split <;> rfl
  · exact h.later { Later.refl s with } h.childSound h.condemned h.lawful

end Shepherd.UnixState
