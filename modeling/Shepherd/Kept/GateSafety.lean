import Mathlib.Tactic.Common
import Shepherd.Kept.Gate

/-!
# The Launch Gate is Safe

The child reaches `exec` only after it read `GO`, which the owner sends only after the
record was committed with the pid and the start token of the living child; a launch that
fails, or whose owner dies before that, never runs the program.

`Inv` follows the bytes. As long as nothing was sent and the owner's end is open, the child
stays in its `read`, so its pid is its own; and once the owner has given up, or its process
is gone, nobody can open the gate any more.
-/

namespace Shepherd

/-- A call of `watch` that found `launching` cleared. -/
def WatchCall.past : WatchCall → Bool
  | .loading => false
  | _ => true

/-- The child was forked and has exited. -/
def GateChild.gone : GateChild → Bool
  | .dead | .reaped => true
  | _ => false

/-- The watcher is past its wait. -/
def Watcher.past : Watcher → Bool
  | .absent | .waiting => false
  | _ => true

namespace Gate

open Conc

variable {s s' : Gate}

/-- What is true of an event, given the history before it. -/
def EventSound (log : List GateEvent) : GateEvent → Prop
  | .execed => .goRead ∈ log
  | .goRead => .goSent ∈ log
  | .goSent => .ownerDied ∉ log ∧
      ∃ pid token mid past, log = mid ++ .committed pid token :: past ∧
        .tokenRead pid token .gated ∈ past
  | .reaped launching => launching = false
  | _ => True

def LogSound : List GateEvent → Prop
  | [] => True
  | e :: log => EventSound log e ∧ LogSound log

/-- The launch has failed for good: the gate was not opened, or `spawn` failed. -/
def Doomed (s : Gate) : Prop :=
  .goSent ∉ s.log ∨ s.spawner = .done false

/-- Nothing was sent to the child yet. -/
structure Silent (s : Gate) : Prop where
  toChild : s.toChild = []
  ownerEnd : s.ownerEnd = true
  notSent : .goSent ∉ s.log

/-- What the child has reported. -/
def Reported (s : Gate) : GateChild → Prop
  | .unborn | .forked | .closing | .reporting => s.toOwner = []
  | .gated => s.toOwner = toNeBytes s.pid
  | _ => s.toOwner.length < 4

/-- What the owner relies on. -/
def OwnerSound (s : Gate) : GateOwner → Prop
  | .preparing => s.Silent ∧ .registered ∉ s.log ∧ s.spawner = .unstarted ∧ s.Reported s.child
  | .reading => s.Silent ∧ .registered ∉ s.log ∧ s.Reported s.child
  | .tokenizing pid => s.Silent ∧ .registered ∉ s.log ∧ s.child = .gated ∧ pid = s.pid
  | .registering pid token => s.Silent ∧ .registered ∉ s.log ∧
      .tokenRead pid token .gated ∈ s.log
  | .committing pid token => s.Silent ∧ .registered ∈ s.log ∧
      .tokenRead pid token .gated ∈ s.log
  | .opening pid token => s.Silent ∧ .registered ∈ s.log ∧
      ∃ mid past, s.log = mid ++ .committed pid token :: past ∧
        .tokenRead pid token .gated ∈ past
  | .joining _ _ opened => .registered ∈ s.log ∧ (opened = false → .goSent ∉ s.log)
  | .ending _ _ ok => .registered ∈ s.log ∧ (ok = false → s.Doomed ∧ s.child.gone = true)
  | .aborting registered | .dropping registered | .joiningAborted registered =>
      .goSent ∉ s.log ∧ (.registered ∈ s.log ↔ registered = true)
  | .abandoning => .registered ∈ s.log ∧ s.Doomed ∧ s.child.gone = true
  | .publishing => .registered ∈ s.log ∧ s.Doomed ∧ s.child.gone = true ∧ s.ended = true
  | .forgetting => .registered ∈ s.log ∧ s.Doomed ∧ s.child.gone = true ∧ s.ended = true ∧
      s.published = true
  | .clearing _ _ => .registered ∈ s.log
  | .watching _ _ _ => .registered ∈ s.log ∧ s.launching = false
  | .returned _ | .died => True

/-- What does not depend on where the owner is. -/
structure Core (s : Gate) : Prop where
  goByte : GO ∈ s.toChild → .goSent ∈ s.log
  released : s.child = .released → .goRead ∈ s.log
  running : s.child = .running → .execed ∈ s.log
  execed : .execed ∈ s.log → s.child = .running ∨ s.child.gone = true
  unforked : s.spawner = .unstarted ∨ s.spawner = .forking → s.child = .unborn
  spawned : s.spawner = .closing true ∨ s.spawner = .done true →
    s.child = .running ∨ s.child.gone = true
  unspawned : s.spawner = .closing false ∨ s.spawner = .done false →
    (s.child = .unborn ∨ s.child = .reaped) ∧ .execed ∉ s.log
  bounded : s.child ≠ .unborn → s.pid < 2 ^ 31
  tokenRead : ∀ pid token child, .tokenRead pid token child ∈ s.log →
    pid = s.pid ∧ token = s.token ∧ s.child ≠ .unborn
  unknown : .registered ∉ s.log →
    (∀ n, s.attaches n = none) ∧ s.watcher = .absent ∧ s.inRegistry = false
  born : .registered ∈ s.log → s.child ≠ .unborn
  attachPast : ∀ n call, s.attaches n = some (.watching call) → call.past = true →
    s.launching = false
  attachGone : ∀ n, s.attaches n = some .observing → s.child.gone = true
  watched : s.watcher ≠ .absent → s.launching = false
  watcherGone : s.watcher.past = true → s.child.gone = true
  removed : .registered ∈ s.log → s.inRegistry = false → s.child.gone = true
  stray : s.stray = false
  lawful : LogSound s.log

/-- **The invariant** of the gate. -/
structure Inv (s : Gate) : Prop extends Core s where
  failed : .returnedErr ∈ s.log → (s.owner = .returned none ∨ s.owner = .died) ∧ s.Doomed ∧
    (.registered ∈ s.log → s.ended = true ∧ s.published = true ∧ s.inRegistry = false)
  died : .ownerDied ∈ s.log → s.owner = .died
  owner : s.OwnerSound s.owner

/-- Nothing has happened at the start. -/
theorem inv_start : start.Inv where
  goByte := by simp [start]
  released := by simp [start]
  running := by simp [start]
  execed := by simp [start]
  unforked := by simp [start]
  spawned := by simp [start]
  unspawned := by simp [start]
  bounded := by simp [start]
  tokenRead := by simp [start]
  unknown := by simp [start]
  born := by simp [start]
  attachPast := by simp [start]
  attachGone := by simp [start]
  watched := by simp [start]
  watcherGone := by simp [start, Watcher.past]
  removed := by simp [start]
  stray := rfl
  failed := by simp [start]
  died := by simp [start]
  owner := ⟨⟨rfl, rfl, by simp [start]⟩, by simp [start], rfl, rfl⟩
  lawful := trivial

/-- What everybody but the owner can do to what the owner relies on. -/
structure Later (s s' : Gate) : Prop where
  log : s'.log = s.log ∨ ∃ e, s'.log = e :: s.log ∧ e ≠ .goSent ∧ e ≠ .registered
  silent : s.toChild = [] → s'.toChild = []
  ownerEnd : s'.ownerEnd = s.ownerEnd
  unstarted : s.spawner = .unstarted → s'.spawner = .unstarted
  doomed : s.spawner = .done false → s'.spawner = .done false
  reported : s.Silent → .registered ∉ s.log → s.Reported s.child → s'.Reported s'.child
  gated : s.Silent → .registered ∉ s.log → s.child = .gated → s'.child = .gated ∧ s'.pid = s.pid
  gone : s.child.gone = true → s'.child.gone = true
  ended : s.ended = true → s'.ended = true
  published : s.published = true → s'.published = true
  launching : s'.launching = s.launching

namespace Later

/-- Whether `GO` was sent does not change. -/
theorem goSent (k : Later s s') : .goSent ∈ s'.log ↔ .goSent ∈ s.log := by
  rcases k.log with hl | ⟨e, hl, hne, -⟩
  · rw [hl]
  · rw [hl, List.mem_cons]
    exact or_iff_right (Ne.symm hne)

/-- Whether the child is registered does not change. -/
theorem registered (k : Later s s') : .registered ∈ s'.log ↔ .registered ∈ s.log := by
  rcases k.log with hl | ⟨e, hl, -, hne⟩
  · rw [hl]
  · rw [hl, List.mem_cons]
    exact or_iff_right (Ne.symm hne)

/-- What was logged is logged later. -/
theorem mem (k : Later s s') {e : GateEvent} (h : e ∈ s.log) : e ∈ s'.log := by
  rcases k.log with hl | ⟨e', hl, -⟩
  · rwa [hl]
  · rw [hl]
    exact List.mem_cons_of_mem e' h

/-- A child that is doomed stays so. -/
theorem doomed' (k : Later s s') (h : s.Doomed) : s'.Doomed :=
  h.imp (mt k.goSent.mp) k.doomed

/-- A gate that is silent stays so. -/
theorem silent' (k : Later s s') (h : s.Silent) : s'.Silent :=
  ⟨k.silent h.toChild, k.ownerEnd.trans h.ownerEnd, mt k.goSent.mp h.notSent⟩

/-- What the owner relies on holds later. -/
theorem ownerSound (k : Later s s') {owner : GateOwner} (h : s.OwnerSound owner) :
    s'.OwnerSound owner := by
  have hreg := k.registered
  have hnot := not_congr k.registered
  have hsent := not_congr k.goSent
  cases owner with
  | preparing =>
      exact ⟨k.silent' h.1, hnot.mpr h.2.1, k.unstarted h.2.2.1,
        k.reported h.1 h.2.1 h.2.2.2⟩
  | reading => exact ⟨k.silent' h.1, hnot.mpr h.2.1, k.reported h.1 h.2.1 h.2.2⟩
  | tokenizing pid =>
      obtain ⟨hg, hp⟩ := k.gated h.1 h.2.1 h.2.2.1
      exact ⟨k.silent' h.1, hnot.mpr h.2.1, hg, h.2.2.2.trans hp.symm⟩
  | registering pid token => exact ⟨k.silent' h.1, hnot.mpr h.2.1, k.mem h.2.2⟩
  | committing pid token => exact ⟨k.silent' h.1, hreg.mpr h.2.1, k.mem h.2.2⟩
  | opening pid token =>
      obtain ⟨h₁, h₂, mid, past, hl, ht⟩ := h
      refine ⟨k.silent' h₁, hreg.mpr h₂, ?_⟩
      rcases k.log with hl' | ⟨e, hl', -⟩
      · exact ⟨mid, past, hl'.trans hl, ht⟩
      · exact ⟨e :: mid, past, by rw [hl', hl]; rfl, ht⟩
  | joining pid token opened => exact ⟨hreg.mpr h.1, fun ho => hsent.mpr (h.2 ho)⟩
  | ending pid token ok =>
      exact ⟨hreg.mpr h.1, fun ho => ⟨k.doomed' (h.2 ho).1, k.gone (h.2 ho).2⟩⟩
  | aborting registered => exact ⟨hsent.mpr h.1, hreg.trans h.2⟩
  | dropping registered => exact ⟨hsent.mpr h.1, hreg.trans h.2⟩
  | joiningAborted registered => exact ⟨hsent.mpr h.1, hreg.trans h.2⟩
  | abandoning => exact ⟨hreg.mpr h.1, k.doomed' h.2.1, k.gone h.2.2⟩
  | publishing => exact ⟨hreg.mpr h.1, k.doomed' h.2.1, k.gone h.2.2.1, k.ended h.2.2.2⟩
  | forgetting =>
      exact ⟨hreg.mpr h.1, k.doomed' h.2.1, k.gone h.2.2.1, k.ended h.2.2.2.1,
        k.published h.2.2.2.2⟩
  | clearing pid token => exact hreg.mpr h
  | watching pid token call => exact ⟨hreg.mpr h.1, k.launching.trans h.2⟩
  | returned launch => trivial
  | died => trivial

end Later

/-- A gate is later than itself. -/
theorem Later.refl (s : Gate) : Later s s where
  log := .inl rfl
  silent h := h
  ownerEnd := rfl
  unstarted h := h
  doomed h := h
  reported _ _ h := h
  gated _ _ h := ⟨h, rfl⟩
  gone h := h
  ended h := h
  published h := h
  launching := rfl

/-- Events that only say where the owner is. -/
theorem Core.record (h : s.Core) (e : GateEvent) (hs : EventSound s.log e)
    (hexec : e ≠ .execed) (htoken : ∀ pid token child, e ≠ .tokenRead pid token child)
    (hreg : e ≠ .registered) : (s.record e).Core := by
  have hforth : ∀ {e'}, e' ∈ s.log → e' ∈ e :: s.log := List.mem_cons_of_mem e
  have hback : ∀ {e'}, e ≠ e' → e' ∈ e :: s.log → e' ∈ s.log :=
    fun hne hm => (List.mem_cons.mp hm).resolve_left (Ne.symm hne)
  exact { h with
    goByte := fun hb => hforth (h.goByte hb)
    released := fun hr => hforth (h.released hr)
    running := fun hr => hforth (h.running hr)
    execed := fun hx => h.execed (hback hexec hx)
    unspawned := fun hu => (h.unspawned hu).imp_right fun hx hm => hx (hback hexec hm)
    tokenRead := fun pid token c ht => h.tokenRead pid token c (hback (htoken pid token c) ht)
    unknown := fun hr => h.unknown fun hm => hr (hforth hm)
    born := fun hr => h.born (hback hreg hr)
    removed := fun hr => h.removed (hback hreg hr)
    lawful := ⟨hs, h.lawful⟩ }

/-- The child read `GO`, or was reaped. -/
theorem Inv.record (h : s.Inv) {e : GateEvent} (he : e = .goRead ∨ ∃ l, e = .reaped l)
    (hs : EventSound s.log e) : (s.record e).Inv := by
  have hne : e ≠ .goSent ∧ e ≠ .registered ∧ e ≠ .execed ∧ e ≠ .returnedErr ∧ e ≠ .ownerDied ∧
      ∀ pid token child, e ≠ .tokenRead pid token child := by
    rcases he with rfl | ⟨l, rfl⟩
    · exact ⟨nofun, nofun, nofun, nofun, nofun, nofun⟩
    · exact ⟨nofun, nofun, nofun, nofun, nofun, nofun⟩
  obtain ⟨hgo, hreg, hexec, herr, hdied, htoken⟩ := hne
  have hback : ∀ {e'}, e ≠ e' → e' ∈ e :: s.log → e' ∈ s.log :=
    fun hne hm => (List.mem_cons.mp hm).resolve_left (Ne.symm hne)
  have k : Later s (s.record e) := { Later.refl s with log := .inr ⟨e, rfl, hgo, hreg⟩ }
  exact { h.toCore.record e hs hexec htoken hreg with
    failed := fun hf => by
      obtain ⟨ho, hd, hr⟩ := h.failed (hback herr hf)
      exact ⟨ho, k.doomed' hd, fun hm => hr (hback hreg hm)⟩
    died := fun hd => h.died (hback hdied hd)
    owner := k.ownerSound h.owner }

/-! ### The child -/

/-- A child that is alive is not gone. -/
theorem not_gone_of_alive {child : GateChild} (h : child.alive = true) : ¬ child.gone = true := by
  cases child with
  | dead => exact absurd h nofun
  | reaped => exact absurd h nofun
  | _ => exact nofun

/-- A living child moves on, and neither opens the gate for itself nor is forgotten. -/
theorem Inv.moveChild (h : s.Inv) {child : GateChild} {toChild toOwner : List ℕ} {e : Bool}
    (halive : s.child.alive = true) (hborn : child ≠ .unborn)
    (hbytes : ∀ b ∈ toChild, b ∈ s.toChild)
    (hreleased : child = .released → .goRead ∈ s.log)
    (hrunning : child ≠ .running)
    (hgone : s.child = .running → child.gone = true)
    (k : Later s { s with
      child := child, toChild := toChild, toOwner := toOwner, childOwnerEnd := e }) :
    ({ s with
      child := child, toChild := toChild, toOwner := toOwner, childOwnerEnd := e } :
        Gate).Inv := by
  have hno := not_gone_of_alive halive
  have hunborn : s.child ≠ .unborn := by
    intro hu
    rw [hu] at halive
    exact absurd halive nofun
  have hreaped : s.child ≠ .reaped := by
    intro hu
    rw [hu] at halive
    exact absurd halive nofun
  refine { h with
    goByte := fun hb => h.goByte (hbytes GO hb)
    released := hreleased
    running := fun hr => absurd hr hrunning
    execed := fun hx => .inr ?_
    unforked := fun hs => absurd (h.unforked hs) hunborn
    spawned := fun hs => .inr ?_
    unspawned := fun hs => ?_
    bounded := fun _ => h.bounded hunborn
    tokenRead := fun pid token c ht => ?_
    born := fun _ => hborn
    attachGone := fun n hn => absurd (h.attachGone n hn) hno
    watcherGone := fun hw => absurd (h.watcherGone hw) hno
    removed := fun hr hi => absurd (h.removed hr hi) hno
    owner := k.ownerSound h.owner }
  · exact hgone ((h.execed hx).resolve_right hno)
  · exact hgone ((h.spawned hs).resolve_right hno)
  · rcases (h.unspawned hs).1 with hu | hu
    · exact absurd hu hunborn
    · exact absurd hu hreaped
  · obtain ⟨hp, htok, -⟩ := h.tokenRead pid token c ht
    exact ⟨hp, htok, hborn⟩

/-- A child that does not wait at the gate moves on unheard. -/
theorem Later.child {child : GateChild} {toOwner : List ℕ} {e : Bool}
    (halive : s.child.alive = true) (hgated : s.child ≠ .gated)
    (hreported : s.Reported s.child →
      Reported { s with child := child, toOwner := toOwner, childOwnerEnd := e } child) :
    Later s { s with child := child, toOwner := toOwner, childOwnerEnd := e } :=
  { Later.refl s with
    reported := fun _ _ hr => hreported hr
    gated := fun _ _ hg => absurd hg hgated
    gone := fun hg => absurd hg (not_gone_of_alive halive) }

/-- The program is executed. -/
theorem Inv.exec (h : s.Inv) (hc : s.child = .released) :
    ({ s with child := .running }.record .execed : Gate).Inv := by
  have hread := h.released hc
  have hforth : ∀ {e}, e ∈ s.log → e ∈ GateEvent.execed :: s.log := List.mem_cons_of_mem _
  have hback : ∀ {e}, e ≠ .execed → e ∈ GateEvent.execed :: s.log → e ∈ s.log :=
    fun hne hm => (List.mem_cons.mp hm).resolve_left hne
  have hno : ¬ s.child.gone = true := by rw [hc]; exact nofun
  have hunborn : s.child ≠ .unborn := by rw [hc]; exact nofun
  have hspawner : ∀ {ok}, ¬ (s.spawner = .closing ok ∨ s.spawner = .done ok) := by
    intro ok hs
    cases ok with
    | true =>
        have hr := (h.spawned hs).resolve_right hno
        exact absurd (hc.symm.trans hr) nofun
    | false =>
        rcases (h.unspawned hs).1 with hu | hu
        · exact hunborn hu
        · exact absurd (hc.symm.trans hu) nofun
  have k : Later s ({ s with child := .running }.record .execed) :=
    { Later.refl s with
      log := .inr ⟨.execed, rfl, nofun, nofun⟩
      reported := fun _ _ hr => by rw [hc] at hr; exact hr
      gated := fun _ _ hg => absurd (hc.symm.trans hg) nofun
      gone := fun hg => absurd hg hno }
  refine { h with
    goByte := fun hb => hforth (h.goByte hb)
    released := fun hr => absurd hr nofun
    running := fun _ => List.mem_cons_self ..
    execed := fun _ => .inl rfl
    unforked := fun hs => absurd (h.unforked hs) hunborn
    spawned := fun hs => absurd hs hspawner
    unspawned := fun hs => absurd hs hspawner
    bounded := fun _ => h.bounded hunborn
    tokenRead := fun pid token c ht => ?_
    unknown := fun hr => h.unknown fun hm => hr (hforth hm)
    born := fun _ => nofun
    attachGone := fun n hn => absurd (h.attachGone n hn) hno
    watcherGone := fun hw => absurd (h.watcherGone hw) hno
    removed := fun hr hi => absurd (h.removed (hback nofun hr) hi) hno
    failed := fun hf => ?_
    died := fun hd => h.died (hback nofun hd)
    owner := k.ownerSound h.owner
    lawful := ⟨hread, h.lawful⟩ }
  · obtain ⟨hp, htok, -⟩ := h.tokenRead pid token c (hback nofun ht)
    exact ⟨hp, htok, nofun⟩
  · obtain ⟨ho, hd, hreg⟩ := h.failed (hback nofun hf)
    exact ⟨ho, k.doomed' hd, fun hr => hreg (hback nofun hr)⟩

/-- The steps of the child. -/
theorem Inv.childStep (h : s.Inv) {ok : Bool} {sent : ℕ}
    (hs : s.childStep ok sent = some s') : s'.Inv := by
  rw [Gate.childStep] at hs
  split at hs
  · next hc =>
      obtain rfl := Option.some.inj hs
      have halive : s.child.alive = true := by rw [hc]; rfl
      have hgated : s.child ≠ .gated := by rw [hc]; exact nofun
      have hrep : s.Reported s.child → s.toOwner = [] := by rw [hc]; exact id
      have hrun : ∀ {c : GateChild}, s.child = .running → c.gone = true :=
        fun hr => absurd (hc.symm.trans hr) nofun
      split
      · exact h.moveChild halive nofun (fun _ hb => hb) nofun nofun hrun
          (.child halive hgated hrep)
      · refine h.moveChild halive nofun (fun _ hb => hb) nofun nofun hrun
          (.child halive hgated fun hr => ?_)
        change s.toOwner.length < 4
        rw [hrep hr]
        decide
  · next hc =>
      obtain rfl := Option.some.inj hs
      have halive : s.child.alive = true := by rw [hc]; rfl
      have hgated : s.child ≠ .gated := by rw [hc]; exact nofun
      have hrep : s.Reported s.child → s.toOwner = [] := by rw [hc]; exact id
      exact h.moveChild halive nofun (fun _ hb => hb) nofun nofun
        (fun hr => absurd (hc.symm.trans hr) nofun) (.child halive hgated hrep)
  · next hc =>
      obtain rfl := Option.some.inj hs
      have halive : s.child.alive = true := by rw [hc]; rfl
      have hgated : s.child ≠ .gated := by rw [hc]; exact nofun
      have hrep : s.Reported s.child → s.toOwner = [] := by rw [hc]; exact id
      have hrun : ∀ {c : GateChild}, s.child = .running → c.gone = true :=
        fun hr => absurd (hc.symm.trans hr) nofun
      split
      · refine h.moveChild halive nofun (fun _ hb => hb) nofun nofun hrun
          (.child halive hgated fun hr => ?_)
        change s.toOwner ++ toNeBytes s.pid = toNeBytes s.pid
        rw [hrep hr, List.nil_append]
      · refine h.moveChild halive nofun (fun _ hb => hb) nofun nofun hrun
          (.child halive hgated fun hr => ?_)
        change (s.toOwner ++ (toNeBytes s.pid).take (min sent 3)).length < 4
        rw [hrep hr, List.nil_append, List.length_take]
        omega
  · next hc =>
      have halive : s.child.alive = true := by rw [hc]; rfl
      have hrun : ∀ {c : GateChild}, s.child = .running → c.gone = true :=
        fun hr => absurd (hc.symm.trans hr) nofun
      have hno := not_gone_of_alive halive
      split at hs
      · next b bytes hbytes =>
          obtain rfl := Option.some.inj hs
          have hloud : ¬ s.Silent := fun hsil => absurd (hbytes.symm.trans hsil.toChild) nofun
          have hsub : ∀ b' ∈ bytes, b' ∈ s.toChild := by
            intro b' hb
            rw [hbytes]
            exact List.mem_cons_of_mem b hb
          split
          · next hgo =>
              have hread := h.record (.inl rfl) (h.goByte (by rw [hbytes, hgo]; simp))
              have hloud' : ¬ (s.record .goRead).Silent := fun hsil =>
                absurd (hbytes.symm.trans hsil.toChild) nofun
              have k : Later (s.record .goRead)
                  ({ s with child := .released, toChild := bytes }.record .goRead) :=
                { Later.refl (s.record .goRead) with
                  silent := fun ht => absurd (hbytes.symm.trans ht) nofun
                  reported := fun hsil => absurd hsil hloud'
                  gated := fun hsil => absurd hsil hloud'
                  gone := fun hg => absurd hg hno }
              exact hread.moveChild halive nofun hsub (fun _ => List.mem_cons_self ..) nofun
                hrun k
          · have k : Later s { s with child := .failed, toChild := bytes } :=
              { Later.refl s with
                silent := fun ht => absurd (hbytes.symm.trans ht) nofun
                reported := fun hsil => absurd hsil hloud
                gated := fun hsil => absurd hsil hloud
                gone := fun hg => absurd hg hno }
            exact h.moveChild halive nofun hsub nofun nofun hrun k
      · rw [Option.ite_none_left_eq_some] at hs
        obtain ⟨hclosed, hs⟩ := hs
        obtain rfl := Option.some.inj hs
        have hloud : ¬ s.Silent := by
          intro hsil
          rw [hsil.ownerEnd] at hclosed
          exact hclosed rfl
        refine h.moveChild halive nofun (fun _ hb => hb) nofun nofun hrun ?_
        exact { Later.refl s with
          reported := fun hsil => absurd hsil hloud
          gated := fun hsil => absurd hsil hloud
          gone := fun hg => absurd hg hno }
  · next hc =>
      obtain rfl := Option.some.inj hs
      have halive : s.child.alive = true := by rw [hc]; rfl
      have hgated : s.child ≠ .gated := by rw [hc]; exact nofun
      split
      · exact h.exec hc
      · refine h.moveChild halive nofun (fun _ hb => hb) nofun nofun
          (fun hr => absurd (hc.symm.trans hr) nofun) (.child halive hgated ?_)
        rw [hc]
        exact id
  · exact absurd hs nofun

/-- The child is gone. -/
theorem Inv.childGone (h : s.Inv) {child : GateChild} (hborn : s.child ≠ .unborn)
    (hgone : child.gone = true) (hunspawned : s.child = .reaped → child = .reaped)
    (k : Later s { s with child := child }) : ({ s with child := child } : Gate).Inv := by
  have hunborn : child ≠ .unborn := by
    rintro rfl
    exact absurd hgone nofun
  refine { h with
    released := ?_
    running := ?_
    execed := fun _ => .inr hgone
    unforked := fun hs => absurd (h.unforked hs) hborn
    spawned := fun _ => .inr hgone
    unspawned := fun hs => ?_
    bounded := fun _ => h.bounded hborn
    tokenRead := fun pid token c ht => ?_
    born := fun _ => hunborn
    attachGone := fun _ _ => hgone
    watcherGone := fun _ => hgone
    removed := fun _ _ => hgone
    owner := k.ownerSound h.owner }
  · rintro rfl
    exact absurd hgone nofun
  · rintro rfl
    exact absurd hgone nofun
  · obtain ⟨hc, hx⟩ := h.unspawned hs
    exact ⟨.inr (hunspawned (hc.resolve_left hborn)), hx⟩
  · obtain ⟨hp, htok, -⟩ := h.tokenRead pid token c ht
    exact ⟨hp, htok, hunborn⟩

/-- The program exits. -/
theorem Inv.programExits (h : s.Inv) (hc : s.child = .running) :
    ({ s with child := .dead } : Gate).Inv := by
  refine h.childGone (by rw [hc]; exact nofun) rfl (fun hr => absurd (hc.symm.trans hr) nofun) ?_
  exact { Later.refl s with
    reported := fun _ _ hr => by rw [hc] at hr; exact hr
    gated := fun _ _ hg => absurd (hc.symm.trans hg) nofun
    gone := fun _ => rfl }

/-- A child that somebody knows of dies, or is reaped. -/
theorem Later.known (hr : .registered ∈ s.log) {child : GateChild} (hg : child.gone = true) :
    Later s { s with child := child } :=
  { Later.refl s with
    reported := fun _ hn => absurd hr hn
    gated := fun _ hn => absurd hr hn
    gone := fun _ => hg }

/-! ### The spawn thread -/

/-- The spawn thread moves on. -/
theorem Inv.toSpawner (h : s.Inv) {spawner : Spawner} (hstarted : s.spawner ≠ .unstarted)
    (hdone : s.spawner ≠ .done false)
    (hunforked : spawner ≠ .unstarted ∧ spawner ≠ .forking)
    (hspawned : spawner = .closing true ∨ spawner = .done true →
      s.child = .running ∨ s.child.gone = true)
    (hunspawned : spawner = .closing false ∨ spawner = .done false →
      (s.child = .unborn ∨ s.child = .reaped) ∧ .execed ∉ s.log) :
    ({ s with spawner := spawner } : Gate).Inv := by
  have k : Later s { s with spawner := spawner } :=
    { Later.refl s with
      unstarted := fun hu => absurd hu hstarted
      doomed := fun hu => absurd hu hdone }
  exact { h with
    unforked := fun hu => absurd hu (not_or.mpr hunforked)
    spawned := hspawned
    unspawned := hunspawned
    failed := fun hf => (h.failed hf).imp_right fun hd => ⟨k.doomed' hd.1, hd.2⟩
    owner := k.ownerSound h.owner }

/-- A child that was not executed is not in the history as such. -/
theorem Inv.not_execed (h : s.Inv) (hrun : s.child ≠ .running) (hgone : ¬ s.child.gone = true) :
    .execed ∉ s.log := by
  intro hx
  rcases h.execed hx with hr | hg
  · exact hrun hr
  · exact hgone hg

/-- The child is forked; nobody has heard of it. -/
theorem Inv.forked (h : s.Inv) (hsp : s.spawner = .forking) {pid : ℕ} (hp : pid < 2 ^ 31)
    (token : ℕ) :
    ({ s with
      spawner := .waiting
      child := .forked
      pid := pid
      token := token
      childOwnerEnd := true } : Gate).Inv := by
  have hunborn := h.unforked (.inr hsp)
  have hnone : .registered ∉ s.log := fun hr => h.born hr hunborn
  have hno : ¬ s.child.gone = true := by rw [hunborn]; exact nofun
  have hrun : s.child ≠ .running := by rw [hunborn]; exact nofun
  have k : Later s { s with
      spawner := .waiting, child := .forked, pid := pid, token := token, childOwnerEnd := true } :=
    { Later.refl s with
      unstarted := fun hu => absurd (hsp.symm.trans hu) nofun
      doomed := fun hu => absurd (hsp.symm.trans hu) nofun
      reported := fun _ _ hr => by rw [hunborn] at hr; exact hr
      gated := fun _ _ hg => absurd (hunborn.symm.trans hg) nofun
      gone := fun hg => absurd hg hno }
  exact { h with
    released := nofun
    running := nofun
    execed := fun hx => absurd hx (h.not_execed hrun hno)
    unforked := fun hu => by simp at hu
    spawned := fun hu => by simp at hu
    unspawned := fun hu => by simp at hu
    bounded := fun _ => hp
    tokenRead := fun p t c ht => absurd hunborn (h.tokenRead p t c ht).2.2
    born := fun _ => nofun
    attachGone := fun n hn => absurd (h.attachGone n hn) hno
    watcherGone := fun hw => absurd (h.watcherGone hw) hno
    removed := fun hr => absurd hr hnone
    failed := fun hf => (h.failed hf).imp_right fun hd => ⟨k.doomed' hd.1, hd.2⟩
    owner := k.ownerSound h.owner }

/-- `spawn` reaps a child that has failed. -/
theorem Inv.spawnFailed (h : s.Inv) (hsp : s.spawner = .waiting) (hc : s.child = .failed) :
    ({ s with spawner := .closing false, child := .reaped } : Gate).Inv := by
  have hx : .execed ∉ s.log := h.not_execed (by rw [hc]; exact nofun) (by rw [hc]; exact nofun)
  have k : Later s { s with child := .reaped } :=
    { Later.refl s with
      reported := fun _ _ hr => by rw [hc] at hr; exact hr
      gated := fun _ _ hg => absurd (hc.symm.trans hg) nofun
      gone := fun _ => rfl }
  have hreaped := h.childGone (by rw [hc]; exact nofun) rfl (fun _ => rfl) k
  exact hreaped.toSpawner (by rw [hsp]; exact nofun) (by rw [hsp]; exact nofun)
    ⟨nofun, nofun⟩ (fun hu => by simp at hu) fun _ => ⟨.inr rfl, hx⟩

/-- The steps of the spawn thread. -/
theorem Inv.spawnerStep (h : s.Inv) {pid token : ℕ} {ok : Bool}
    (hs : s.spawnerStep pid token ok = some s') : s'.Inv := by
  rw [Gate.spawnerStep] at hs
  split at hs
  · exact absurd hs nofun
  · next hsp =>
      have hunborn := h.unforked (.inr hsp)
      split at hs
      · obtain rfl := Option.some.inj hs
        have hx : .execed ∉ s.log :=
          h.not_execed (by rw [hunborn]; exact nofun) (by rw [hunborn]; exact nofun)
        exact h.toSpawner (by rw [hsp]; exact nofun) (by rw [hsp]; exact nofun) ⟨nofun, nofun⟩
          (fun hu => by simp at hu) fun _ => ⟨.inl hunborn, hx⟩
      · rw [Option.ite_none_right_eq_some] at hs
        obtain rfl := Option.some.inj hs.2
        exact h.forked hsp hs.1 token
  · next hsp =>
      have hne : s.spawner ≠ .unstarted := by rw [hsp]; exact nofun
      have hnd : s.spawner ≠ .done false := by rw [hsp]; exact nofun
      split at hs
      · next hc =>
          obtain rfl := Option.some.inj hs
          exact h.toSpawner hne hnd ⟨nofun, nofun⟩ (fun _ => .inl hc) (fun hu => by simp at hu)
      · next hc =>
          obtain rfl := Option.some.inj hs
          exact h.toSpawner hne hnd ⟨nofun, nofun⟩ (fun _ => .inr (by rw [hc]; rfl))
            (fun hu => by simp at hu)
      · next hc =>
          obtain rfl := Option.some.inj hs
          exact h.spawnFailed hsp hc
      · exact absurd hs nofun
  · next r hsp =>
      obtain rfl := Option.some.inj hs
      refine h.toSpawner (by rw [hsp]; exact nofun) (by rw [hsp]; exact nofun) ⟨nofun, nofun⟩
        (fun hu => h.spawned (.inl ?_)) (fun hu => h.unspawned (.inl ?_))
      · rcases hu with hu | hu
        · exact absurd hu nofun
        · rw [hsp, Spawner.done.inj hu]
      · rcases hu with hu | hu
        · exact absurd hu nofun
        · rw [hsp, Spawner.done.inj hu]
  · exact absurd hs nofun

/-! ### Those who attach, and the watcher -/

/-- An `attach` moves. -/
theorem Inv.toAttach (h : s.Inv) (hr : .registered ∈ s.log) {n : ℕ} {call : AttachCall}
    (hpast : ∀ w, call = .watching w → w.past = true → s.launching = false)
    (hgone : call = .observing → s.child.gone = true) : (s.toAttach n call).Inv := by
  have k : Later s (s.toAttach n call) := { Later.refl s with }
  have hself : (s.toAttach n call).attaches n = some call := Function.update_self ..
  have hother : ∀ {m}, m ≠ n → (s.toAttach n call).attaches m = s.attaches m :=
    fun hne => Function.update_of_ne hne ..
  refine { h with
    unknown := fun hn => absurd hr hn
    attachPast := fun m w hm => ?_
    attachGone := fun m hm => ?_
    owner := k.ownerSound h.owner }
  · by_cases he : m = n
    · subst he
      exact hpast w (Option.some.inj (hself.symm.trans hm))
    · exact h.attachPast m w ((hother he).symm.trans hm)
  · by_cases he : m = n
    · subst he
      exact hgone (Option.some.inj (hself.symm.trans hm))
    · exact h.attachGone m ((hother he).symm.trans hm)

/-- A step of `watch` starts a watcher only when `launching` was seen cleared. -/
theorem Inv.watch (h : s.Inv) (hr : .registered ∈ s.log) {call : WatchCall}
    (hpast : call.past = true → s.launching = false) :
    (s.watch call).1.Inv ∧ Later s (s.watch call).1 ∧ (s.watch call).1.owner = s.owner ∧
      ∀ next, (s.watch call).2 = some next → s.launching = false := by
  cases call with
  | loading =>
      refine ⟨h, .refl s, rfl, fun next hn => ?_⟩
      cases hl : s.launching with
      | false => rfl
      | true =>
          rw [Gate.watch, hl] at hn
          exact absurd hn nofun
  | exiting => exact ⟨h, .refl s, rfl, fun _ _ => hpast rfl⟩
  | swapping =>
      rw [Gate.watch]
      split
      · exact ⟨h, .refl s, rfl, fun _ _ => hpast rfl⟩
      · have k : Later s { s with started := true, watcher := .waiting } := { Later.refl s with }
        refine ⟨?_, k, rfl, fun _ _ => hpast rfl⟩
        exact { h with
          unknown := fun hn => absurd hr hn
          watched := fun _ => hpast rfl
          watcherGone := nofun
          owner := k.ownerSound h.owner }

/-- A registration is logged later. -/
theorem Later.mem_registered (k : Later s s') (h : .registered ∈ s.log) :
    .registered ∈ s'.log :=
  k.registered.mpr h

/-- The steps of an `attach`. It finds no registration only when the child is gone. -/
theorem Inv.attachStep (h : s.Inv) {n : ℕ} {call : AttachCall} (hcall : s.attaches n = some call)
    (hs : s.attachStep n call = some s') : s'.Inv := by
  have hr : .registered ∈ s.log := by
    by_contra hn
    exact absurd (((h.unknown hn).1 n).symm.trans hcall) nofun
  cases call with
  | looking =>
      obtain rfl := Option.some.inj hs
      split
      · exact h.toAttach hr nofun nofun
      · next hreg => exact h.toAttach hr nofun fun _ => h.removed hr (Bool.eq_false_iff.mpr hreg)
  | found =>
      obtain rfl := Option.some.inj hs
      split
      · exact h.toAttach hr nofun nofun
      · refine h.toAttach hr (fun w hw hp => ?_) nofun
        obtain rfl := AttachCall.watching.inj hw
        exact absurd hp nofun
  | observing =>
      obtain rfl := Option.some.inj hs
      have hgone := h.attachGone n hcall
      split
      · exact h.toAttach hr nofun nofun
      · exact h.toAttach hr nofun nofun
      · next hc =>
          have hreaped : ({ s with child := .reaped } : Gate).Inv :=
            h.childGone (by rw [hc]; exact nofun) rfl (fun _ => rfl) (.known hr rfl)
          exact hreaped.toAttach hr nofun nofun
      · next h₁ h₂ h₃ =>
          cases hc : s.child with
          | dead => exact absurd hc h₃
          | reaped => exact absurd hc h₂
          | _ =>
              rw [hc] at hgone
              exact absurd hgone nofun
  | watching w =>
      obtain ⟨hinv, k, -, hnext⟩ := h.watch hr (h.attachPast n w hcall)
      obtain rfl := Option.some.inj hs
      split
      · next t next hw =>
          rw [hw] at hinv k hnext
          refine hinv.toAttach (k.mem_registered hr) (fun _ _ _ => ?_) nofun
          exact k.launching.trans (hnext next rfl)
      · next t hw =>
          rw [hw] at hinv k
          exact hinv.toAttach (k.mem_registered hr) nofun nofun
  | attached =>
      obtain rfl := Option.some.inj hs
      refine h.toAttach hr (fun w hw hp => ?_) nofun
      obtain rfl := AttachCall.watching.inj hw
      exact absurd hp nofun
  | refused => exact absurd hs nofun

/-- A target kills the child. -/
theorem Inv.kill (h : s.Inv) {n : ℕ} (hcall : s.attaches n = some .attached)
    (halive : s.child.alive = true) : ({ s with child := .dead } : Gate).Inv := by
  have hr : .registered ∈ s.log := by
    by_contra hn
    exact absurd (((h.unknown hn).1 n).symm.trans hcall) nofun
  refine h.childGone ?_ rfl (fun hc => ?_) (.known hr rfl)
  · exact h.born hr
  · rw [hc] at halive
    exact absurd halive nofun

/-- The watcher moves, and what it tells the others only grows. -/
theorem Inv.toWatcher (h : s.Inv) (hr : .registered ∈ s.log) {watcher : Watcher}
    {ended published started inRegistry : Bool} (hlaunched : s.launching = false)
    (hgone : watcher.past = true → s.child.gone = true)
    (hended : s.ended = true → ended = true)
    (hpublished : s.published = true → published = true)
    (hkept : inRegistry = s.inRegistry ∨ (inRegistry = false ∧ s.child.gone = true)) :
    ({ s with
      watcher := watcher
      ended := ended
      published := published
      started := started
      inRegistry := inRegistry } : Gate).Inv := by
  have k : Later s { s with
      watcher := watcher, ended := ended, published := published, started := started,
      inRegistry := inRegistry } :=
    { Later.refl s with
      ended := hended
      published := hpublished }
  have hfalse : s.inRegistry = false → inRegistry = false := by
    intro hi
    rcases hkept with hk | hk
    · exact hk.trans hi
    · exact hk.1
  refine { h with
    unknown := fun hn => absurd hr hn
    watched := fun _ => hlaunched
    watcherGone := hgone
    removed := fun _ hi => ?_
    failed := fun hf => ?_
    owner := k.ownerSound h.owner }
  · rcases hkept with hk | hk
    · exact h.removed hr (hk.symm.trans hi)
    · exact hk.2
  · obtain ⟨ho, hd, hreg⟩ := h.failed hf
    obtain ⟨he, hp, hi⟩ := hreg hr
    exact ⟨ho, hd, fun _ => ⟨hended he, hpublished hp, hfalse hi⟩⟩

/-- The steps of the watcher. -/
theorem Inv.watcherStep (h : s.Inv) (hs : s.watcherStep = some s') : s'.Inv := by
  rw [Gate.watcherStep] at hs
  have hreg : s.watcher ≠ .absent → .registered ∈ s.log := by
    intro hw
    by_contra hn
    exact hw (h.unknown hn).2.1
  split at hs
  · exact absurd hs nofun
  · next hw =>
      have hne : s.watcher ≠ .absent := by rw [hw]; exact nofun
      rw [Option.ite_none_left_eq_some] at hs
      obtain ⟨hdead, hs⟩ := hs
      obtain rfl := Option.some.inj hs
      refine h.toWatcher (hreg hne) (h.watched hne) (fun _ => ?_) id id (.inl rfl)
      have hborn := h.born (hreg hne)
      cases hc : s.child with
      | unborn => exact absurd hc hborn
      | dead => rfl
      | reaped => rfl
      | _ =>
          rw [hc] at hdead
          exact absurd rfl hdead
  · next hw =>
      have hne : s.watcher ≠ .absent := by rw [hw]; exact nofun
      have hgone := h.watcherGone (by rw [hw]; rfl)
      obtain rfl := Option.some.inj hs
      split
      · exact h.toWatcher (hreg hne) (h.watched hne) (fun _ => hgone) id (fun _ => rfl) (.inl rfl)
      · split
        · next hc =>
            have hreaped : ({ s with child := .reaped } : Gate).Inv :=
              h.childGone (by rw [hc]; exact nofun) rfl (fun _ => rfl) (.known (hreg hne) rfl)
            have hlog := hreaped.record (.inr ⟨s.launching, rfl⟩) (h.watched hne)
            exact hlog.toWatcher (List.mem_cons_of_mem _ (hreg hne)) (h.watched hne)
              (fun _ => rfl) (fun _ => rfl) id (.inl rfl)
        · exact h.toWatcher (hreg hne) (h.watched hne) (fun _ => hgone) (fun _ => rfl) id
            (.inl rfl)
  · next hw =>
      have hne : s.watcher ≠ .absent := by rw [hw]; exact nofun
      have hgone := h.watcherGone (by rw [hw]; rfl)
      obtain rfl := Option.some.inj hs
      exact h.toWatcher (hreg hne) (h.watched hne) (fun _ => hgone) id (fun _ => rfl) (.inl rfl)
  · next hw =>
      have hne : s.watcher ≠ .absent := by rw [hw]; exact nofun
      have hgone := h.watcherGone (by rw [hw]; rfl)
      obtain rfl := Option.some.inj hs
      exact h.toWatcher (hreg hne) (h.watched hne) nofun id id (.inr ⟨rfl, hgone⟩)

/-! ### The owner -/

/-- The owner is alive and has not failed. -/
def Live (s : Gate) : Prop :=
  s.owner ≠ .died ∧ s.owner ≠ .returned none

/-- While the owner is at work, it has returned no error. -/
theorem Inv.not_failed (h : s.Inv) (hl : s.Live) : .returnedErr ∉ s.log := by
  intro hf
  rcases (h.failed hf).1 with ho | ho
  · exact hl.2 ho
  · exact hl.1 ho

/-- While the owner is at work, it has not died. -/
theorem Inv.not_died (h : s.Inv) (hl : s.Live) : .ownerDied ∉ s.log :=
  fun hd => hl.1 (h.died hd)

/-- The owner moves on, and may read what was sent to it, send `ABORT`, and drop its end. -/
theorem Inv.toOwner (h : s.Inv) (hl : s.Live) {owner : GateOwner} {toChild toOwner : List ℕ}
    {ownerEnd : Bool} (hbytes : GO ∈ toChild → GO ∈ s.toChild)
    (hsound : OwnerSound { s with
      owner := owner, toChild := toChild, toOwner := toOwner, ownerEnd := ownerEnd } owner) :
    ({ s with
      owner := owner, toChild := toChild, toOwner := toOwner, ownerEnd := ownerEnd } :
        Gate).Inv :=
  { h with
    goByte := fun hb => h.goByte (hbytes hb)
    failed := fun hf => absurd hf (h.not_failed hl)
    died := fun hd => absurd hd (h.not_died hl)
    owner := hsound }

/-- `gated_spawn` returns an error. -/
theorem Core.fail (h : s.Core) (hdied : .ownerDied ∉ s.log) (hdoomed : s.Doomed)
    (hreg : .registered ∈ s.log → s.ended = true ∧ s.published = true ∧ s.inRegistry = false) :
    s.fail.Inv := by
  have hback : ∀ {e}, e ≠ .returnedErr → e ∈ GateEvent.returnedErr :: s.log → e ∈ s.log :=
    fun hne hm => (List.mem_cons.mp hm).resolve_left hne
  have hcore : ({ s with owner := .returned none } : Gate).Core := { h with }
  exact { hcore.record .returnedErr trivial nofun nofun nofun with
    failed := fun _ => ⟨.inl rfl, hdoomed.imp_left fun hn hm => hn (hback nofun hm),
      fun hr => hreg (hback nofun hr)⟩
    died := fun hd => (hdied (hback nofun hd)).elim
    owner := trivial }

/-- The owner's process dies. -/
theorem Inv.ownerDies (h : s.Inv) :
    ({ s with owner := .died, ownerEnd := false }.record .ownerDied : Gate).Inv := by
  have hback : ∀ {e}, e ≠ .ownerDied → e ∈ GateEvent.ownerDied :: s.log → e ∈ s.log :=
    fun hne hm => (List.mem_cons.mp hm).resolve_left hne
  have hcore : ({ s with owner := .died, ownerEnd := false } : Gate).Core := { h.toCore with }
  refine { hcore.record .ownerDied trivial nofun nofun nofun with
    failed := fun hf => ?_
    died := fun _ => rfl
    owner := trivial }
  obtain ⟨-, hd, hreg⟩ := h.failed (hback nofun hf)
  exact ⟨.inr rfl, hd.imp_left fun hn hm => hn (hback nofun hm), fun hr => hreg (hback nofun hr)⟩

/-- The owner reads the start token of the child, which waits at the gate. -/
theorem Inv.readToken (h : s.Inv) (hl : s.Live) {pid token : ℕ}
    (ho : s.OwnerSound (.tokenizing pid)) (hread : s.readStartTime pid (some token) = true) :
    ({ s with owner := .registering pid token }.record (.tokenRead pid token s.child) :
      Gate).Inv := by
  obtain ⟨hsilent, hreg, hc, rfl⟩ := ho
  have htoken : token = s.token := by
    simp only [readStartTime, hc] at hread
    simpa using hread
  have hborn : s.child ≠ .unborn := by rw [hc]; exact nofun
  have hforth : ∀ {e}, e ∈ s.log → e ∈ GateEvent.tokenRead s.pid token s.child :: s.log :=
    List.mem_cons_of_mem _
  have hback : ∀ {e}, e ≠ .tokenRead s.pid token s.child →
      e ∈ GateEvent.tokenRead s.pid token s.child :: s.log → e ∈ s.log :=
    fun hne hm => (List.mem_cons.mp hm).resolve_left hne
  refine { h with
    goByte := fun hb => hforth (h.goByte hb)
    released := fun hr => hforth (h.released hr)
    running := fun hr => hforth (h.running hr)
    execed := fun hx => h.execed (hback nofun hx)
    unspawned := fun hu => (h.unspawned hu).imp_right fun hx hm => hx (hback nofun hm)
    tokenRead := fun pid' token' c ht => ?_
    unknown := fun hr => h.unknown fun hm => hr (hforth hm)
    born := fun _ => hborn
    removed := fun hr => h.removed (hback nofun hr)
    failed := fun hf => (h.not_failed hl (hback nofun hf)).elim
    died := fun hd => absurd (h.died (hback nofun hd)) hl.1
    owner := ⟨⟨hsilent.toChild, hsilent.ownerEnd, fun hm => hsilent.notSent (hback nofun hm)⟩,
      fun hm => hreg (hback nofun hm), ?_⟩
    lawful := ⟨trivial, h.lawful⟩ }
  · rcases List.mem_cons.mp ht with he | ht
    · obtain ⟨rfl, rfl, rfl⟩ := GateEvent.tokenRead.inj he
      exact ⟨rfl, htoken, hborn⟩
    · exact h.tokenRead pid' token' c ht
  · rw [hc]
    exact List.mem_cons_self ..

/-- The child is registered. -/
theorem Inv.register (h : s.Inv) (hl : s.Live) {pid token : ℕ}
    (ho : s.OwnerSound (.registering pid token)) :
    ({ s with
      owner := .committing pid token
      launching := true
      inRegistry := true }.record .registered : Gate).Inv := by
  obtain ⟨hsilent, hreg, htoken⟩ := ho
  obtain ⟨hattaches, hwatcher, -⟩ := h.unknown hreg
  have hborn := (h.tokenRead pid token _ htoken).2.2
  have hforth : ∀ {e}, e ∈ s.log → e ∈ GateEvent.registered :: s.log := List.mem_cons_of_mem _
  have hback : ∀ {e}, e ≠ .registered → e ∈ GateEvent.registered :: s.log → e ∈ s.log :=
    fun hne hm => (List.mem_cons.mp hm).resolve_left hne
  exact { h with
    goByte := fun hb => hforth (h.goByte hb)
    released := fun hr => hforth (h.released hr)
    running := fun hr => hforth (h.running hr)
    execed := fun hx => h.execed (hback nofun hx)
    unspawned := fun hu => (h.unspawned hu).imp_right fun hx hm => hx (hback nofun hm)
    tokenRead := fun pid token c ht => h.tokenRead pid token c (hback nofun ht)
    unknown := fun hn => absurd (List.mem_cons_self ..) hn
    born := fun _ => hborn
    attachPast := fun n w hn => absurd ((hattaches n).symm.trans hn) nofun
    watched := fun hw => absurd hwatcher hw
    removed := fun _ hi => absurd hi nofun
    failed := fun hf => (h.not_failed hl (hback nofun hf)).elim
    died := fun hd => absurd (h.died (hback nofun hd)) hl.1
    owner := ⟨⟨hsilent.toChild, hsilent.ownerEnd, fun hm => hsilent.notSent (hback nofun hm)⟩,
      List.mem_cons_self .., hforth htoken⟩
    lawful := ⟨trivial, h.lawful⟩ }

/-- The commit returns `Ok`. -/
theorem Inv.commit (h : s.Inv) (hl : s.Live) {pid token : ℕ}
    (ho : s.OwnerSound (.committing pid token)) :
    ({ s with owner := .opening pid token }.record (.committed pid token) : Gate).Inv := by
  obtain ⟨hsilent, hreg, htoken⟩ := ho
  have hback : ∀ {e}, e ≠ .committed pid token → e ∈ GateEvent.committed pid token :: s.log →
      e ∈ s.log := fun hne hm => (List.mem_cons.mp hm).resolve_left hne
  have hcore : ({ s with owner := .opening pid token } : Gate).Core := { h.toCore with }
  exact { hcore.record (.committed pid token) trivial nofun nofun nofun with
    failed := fun hf => (h.not_failed hl (hback nofun hf)).elim
    died := fun hd => absurd (h.died (hback nofun hd)) hl.1
    owner := ⟨⟨hsilent.toChild, hsilent.ownerEnd, fun hm => hsilent.notSent (hback nofun hm)⟩,
      List.mem_cons_of_mem _ hreg, [], s.log, rfl, htoken⟩ }

/-- `GO` is sent. -/
theorem Inv.openGate (h : s.Inv) (hl : s.Live) {pid token : ℕ}
    (ho : s.OwnerSound (.opening pid token)) :
    ({ s with
      owner := .joining pid token true
      toChild := s.toChild ++ [GO] }.record .goSent : Gate).Inv := by
  obtain ⟨-, hreg, mid, past, hlog, htoken⟩ := ho
  have hback : ∀ {e}, e ≠ .goSent → e ∈ GateEvent.goSent :: s.log → e ∈ s.log :=
    fun hne hm => (List.mem_cons.mp hm).resolve_left hne
  have hrecord := h.toCore.record .goSent
    ⟨h.not_died hl, pid, token, mid, past, hlog, htoken⟩ nofun nofun nofun
  exact { hrecord with
    goByte := fun _ => List.mem_cons_self ..
    failed := fun hf => (h.not_failed hl (hback nofun hf)).elim
    died := fun hd => absurd (h.died (hback nofun hd)) hl.1
    owner := ⟨List.mem_cons_of_mem _ hreg, nofun⟩ }

/-- What a sound history says of each of its events. -/
theorem LogSound.split {newer older : List GateEvent} {e : GateEvent}
    (h : LogSound (newer ++ e :: older)) : EventSound older e ∧ LogSound older := by
  induction newer with
  | nil => exact h
  | cons e' newer ih => exact ih h.2

/-- A program was executed only after `GO` was sent. -/
theorem LogSound.goSent_of_execed {log : List GateEvent} (h : LogSound log)
    (hx : .execed ∈ log) : .goSent ∈ log := by
  obtain ⟨mid, past, rfl⟩ := List.append_of_mem hx
  obtain ⟨hread, hpast⟩ := h.split
  obtain ⟨mid', past', rfl⟩ := List.append_of_mem hread
  have hsent : GateEvent.goSent ∈ past' := hpast.split.1
  simp [hsent]

/-- A launch that failed for good, with a spawn thread that is done, has no living child. -/
theorem Inv.gone_of_doomed (h : s.Inv) (hr : .registered ∈ s.log) {ok : Bool}
    (hsp : s.spawner = .done ok) (hd : s.Doomed) : s.child.gone = true := by
  cases ok with
  | true =>
      rcases h.spawned (.inr hsp) with hrun | hg
      · have hsent : .goSent ∉ s.log := hd.resolve_right (by rw [hsp]; exact nofun)
        exact absurd (h.lawful.goSent_of_execed (h.running hrun)) hsent
      · exact hg
  | false =>
      rcases (h.unspawned (.inr hsp)).1 with hu | hc
      · exact absurd hu (h.born hr)
      · rw [hc]
        rfl

/-- The spawn thread is started. -/
theorem Inv.startSpawner (h : s.Inv) (hl : s.Live) (ho : s.OwnerSound .preparing) :
    ({ s with owner := .reading, spawner := .forking } : Gate).Inv := by
  obtain ⟨hsilent, hreg, hsp, hrep⟩ := ho
  exact { h with
    unforked := fun _ => h.unforked (.inl hsp)
    spawned := fun hu => by simp at hu
    unspawned := fun hu => by simp at hu
    failed := fun hf => (h.not_failed hl hf).elim
    died := fun hd => absurd (h.died hd) hl.1
    owner := ⟨⟨hsilent.toChild, hsilent.ownerEnd, hsilent.notSent⟩, hreg, hrep⟩ }

/-- Four bytes are the report of a child that waits at the gate. -/
theorem Inv.reportRead (h : s.Inv) (hl : s.Live) (ho : s.OwnerSound .reading)
    (hfour : 4 ≤ s.toOwner.length) :
    ({ s with
      owner := .tokenizing (fromNeBytes (s.toOwner.take 4))
      toOwner := s.toOwner.drop 4 } : Gate).Inv := by
  obtain ⟨hsilent, hreg, hrep⟩ := ho
  have hc : s.child = .gated ∧ s.toOwner = toNeBytes s.pid := by
    have hempty : s.toOwner ≠ [] := by
      intro he
      rw [he] at hfour
      exact absurd hfour (by decide)
    cases hc : s.child with
    | gated =>
        rw [hc] at hrep
        exact ⟨rfl, hrep⟩
    | unborn => rw [hc] at hrep; exact absurd hrep hempty
    | forked => rw [hc] at hrep; exact absurd hrep hempty
    | closing => rw [hc] at hrep; exact absurd hrep hempty
    | reporting => rw [hc] at hrep; exact absurd hrep hempty
    | _ =>
        rw [hc] at hrep
        exact absurd hfour (Nat.not_le.mpr hrep)
  have hpid : fromNeBytes (s.toOwner.take 4) = s.pid := by
    rw [hc.2]
    exact fromNeBytes_toNeBytes (h.bounded (by rw [hc.1]; exact nofun))
  exact h.toOwner hl id
    ⟨⟨hsilent.toChild, hsilent.ownerEnd, hsilent.notSent⟩, hreg, hc.1, hpid⟩

/-- The owner calls `watch`. -/
theorem Inv.ownerWatch (h : s.Inv) (hl : s.Live) {pid token : ℕ} {call : WatchCall}
    (ho : s.OwnerSound (.watching pid token call)) :
    Inv (match s.watch call with
      | (t, some next) => { t with owner := .watching pid token next }
      | (t, none) =>
          { t with owner := .returned (some (pid, token)) }.record (.returnedOk pid token)) := by
  obtain ⟨hreg, hlaunched⟩ := ho
  obtain ⟨hinv, k, howner, -⟩ := h.watch hreg fun _ => hlaunched
  split
  · next t next hw =>
      rw [hw] at hinv k howner
      have hlive : t.Live := ⟨howner ▸ hl.1, howner ▸ hl.2⟩
      exact hinv.toOwner hlive id ⟨k.mem_registered hreg, k.launching.trans hlaunched⟩
  · next t hw =>
      rw [hw] at hinv howner
      have hlive : t.Live := ⟨howner ▸ hl.1, howner ▸ hl.2⟩
      have hback : ∀ {e}, e ≠ .returnedOk pid token → e ∈ GateEvent.returnedOk pid token :: t.log →
          e ∈ t.log := fun hne hm => (List.mem_cons.mp hm).resolve_left hne
      have hcore : ({ t with owner := .returned (some (pid, token)) } : Gate).Core :=
        { hinv.toCore with }
      exact { hcore.record (.returnedOk pid token) trivial nofun nofun nofun with
        failed := fun hf => (hinv.not_failed hlive (hback nofun hf)).elim
        died := fun hd => (hinv.not_died hlive (hback nofun hd)).elim
        owner := trivial }

/-- The steps of `gated_spawn`. -/
theorem Inv.ownerStep (h : s.Inv) {os : OwnerAnswer} (hs : s.ownerStep os s.owner = some s') :
    s'.Inv := by
  have ho := h.owner
  have hlive : ∀ {owner}, s.owner = owner → owner ≠ .died → owner ≠ .returned none → s.Live := by
    rintro owner rfl hd hr
    exact ⟨hd, hr⟩
  cases hpc : s.owner with
  | preparing =>
      rw [hpc] at ho hs
      have hl := hlive hpc nofun nofun
      obtain rfl := Option.some.inj hs
      split
      · exact h.startSpawner hl ho
      · have hcore : ({ s with ownerEnd := false } : Gate).Core := { h.toCore with }
        exact hcore.fail (h.not_died hl) (.inl ho.1.notSent) fun hr => absurd hr ho.2.1
  | reading =>
      rw [hpc] at ho hs
      have hl := hlive hpc nofun nofun
      rw [Gate.ownerStep] at hs
      split at hs
      · rw [Option.ite_none_right_eq_some] at hs
        obtain rfl := Option.some.inj hs.2
        exact h.reportRead hl ho hs.1
      · obtain rfl := Option.some.inj hs
        exact h.toOwner hl id ⟨ho.1.notSent, fun hr => absurd hr ho.2.1, nofun⟩
  | tokenizing pid =>
      rw [hpc] at ho hs
      have hl := hlive hpc nofun nofun
      rw [Gate.ownerStep, Option.ite_none_right_eq_some] at hs
      obtain ⟨hread, hs⟩ := hs
      obtain rfl := Option.some.inj hs
      split
      · next token ht =>
          rw [ht] at hread
          exact h.readToken hl ho hread
      · exact h.toOwner hl id ⟨ho.1.notSent, fun hr => absurd hr ho.2.1, nofun⟩
  | registering pid token =>
      rw [hpc] at ho hs
      obtain rfl := Option.some.inj hs
      exact h.register (hlive hpc nofun nofun) ho
  | committing pid token =>
      rw [hpc] at ho hs
      have hl := hlive hpc nofun nofun
      obtain rfl := Option.some.inj hs
      split
      · exact h.commit hl ho
      · exact h.toOwner hl id ⟨ho.1.notSent, fun _ => rfl, fun _ => ho.2.1⟩
  | opening pid token =>
      rw [hpc] at ho hs
      have hl := hlive hpc nofun nofun
      obtain rfl := Option.some.inj hs
      split
      · exact h.openGate hl ho
      · exact h.toOwner hl id ⟨ho.2.1, fun _ => ho.1.notSent⟩
  | joining pid token opened =>
      rw [hpc] at ho hs
      have hl := hlive hpc nofun nofun
      rw [Gate.ownerStep] at hs
      split at hs
      · next ok hsp =>
          obtain rfl := Option.some.inj hs
          refine h.toOwner hl id ⟨ho.1, fun hboth => ?_⟩
          have hdoomed : s.Doomed := by
            rcases Bool.and_eq_false_iff.mp hboth with hopened | hok
            · exact .inl (ho.2 hopened)
            · exact .inr (by rw [hsp, hok])
          exact ⟨hdoomed, h.gone_of_doomed ho.1 hsp hdoomed⟩
      · exact absurd hs nofun
  | ending pid token ok =>
      rw [hpc] at ho hs
      have hl := hlive hpc nofun nofun
      obtain rfl := Option.some.inj hs
      cases ok with
      | true => exact h.toOwner hl id ho.1
      | false => exact h.toOwner hl id ⟨ho.1, ho.2 rfl⟩
  | aborting registered =>
      rw [hpc] at ho hs
      have hl := hlive hpc nofun nofun
      obtain rfl := Option.some.inj hs
      refine h.toOwner hl (fun hb => ?_) ho
      split at hb
      · rcases List.mem_append.mp hb with hb | hb
        · exact hb
        · exact absurd hb (by decide)
      · exact hb
  | dropping registered =>
      rw [hpc] at ho hs
      obtain rfl := Option.some.inj hs
      exact h.toOwner (hlive hpc nofun nofun) id ho
  | joiningAborted registered =>
      rw [hpc] at ho hs
      have hl := hlive hpc nofun nofun
      rw [Gate.ownerStep] at hs
      split at hs
      · next ok hsp =>
          obtain rfl := Option.some.inj hs
          split
          · next hreg =>
              have hr := ho.2.mpr hreg
              exact h.toOwner hl id ⟨hr, .inl ho.1, h.gone_of_doomed hr hsp (.inl ho.1)⟩
          · next hreg =>
              exact h.toCore.fail (h.not_died hl) (.inl ho.1) fun hr => absurd (ho.2.mp hr) hreg
      · exact absurd hs nofun
  | abandoning =>
      rw [hpc] at ho hs
      have hl := hlive hpc nofun nofun
      obtain rfl := Option.some.inj hs
      exact { h with
        failed := fun hf => (h.not_failed hl hf).elim
        died := fun hd => absurd (h.died hd) hl.1
        owner := ⟨ho.1, ho.2.1, ho.2.2, rfl⟩ }
  | publishing =>
      rw [hpc] at ho hs
      have hl := hlive hpc nofun nofun
      obtain rfl := Option.some.inj hs
      exact { h with
        failed := fun hf => (h.not_failed hl hf).elim
        died := fun hd => absurd (h.died hd) hl.1
        owner := ⟨ho.1, ho.2.1, ho.2.2.1, ho.2.2.2, rfl⟩ }
  | forgetting =>
      rw [hpc] at ho hs
      have hl := hlive hpc nofun nofun
      obtain rfl := Option.some.inj hs
      obtain ⟨hr, hdoomed, hgone, hended, hpublished⟩ := ho
      have hcore : ({ s with inRegistry := false } : Gate).Core :=
        { h.toCore with
          unknown := fun hn => absurd hr hn
          removed := fun _ _ => hgone }
      exact hcore.fail (h.not_died hl) hdoomed fun _ => ⟨hended, hpublished, rfl⟩
  | clearing pid token =>
      rw [hpc] at ho hs
      have hl := hlive hpc nofun nofun
      obtain rfl := Option.some.inj hs
      exact { h with
        attachPast := fun _ _ _ _ => rfl
        watched := fun _ => rfl
        failed := fun hf => (h.not_failed hl hf).elim
        died := fun hd => absurd (h.died hd) hl.1
        owner := ⟨ho, rfl⟩ }
  | watching pid token call =>
      rw [hpc] at ho hs
      obtain rfl := Option.some.inj hs
      exact h.ownerWatch (hlive hpc nofun nofun) ho
  | returned launch =>
      rw [hpc] at hs
      exact absurd hs nofun
  | died =>
      rw [hpc] at hs
      exact absurd hs nofun

/-! ### Runs -/

/-- Every step keeps the invariant. -/
theorem Inv.step (h : s.Inv) {a : GateAction} (hs : s.step a = some s') : s'.Inv := by
  cases a with
  | owner os => exact h.ownerStep hs
  | ownerDies =>
      rw [Gate.step, Option.ite_none_left_eq_some] at hs
      obtain rfl := Option.some.inj hs.2
      exact h.ownerDies
  | spawner pid token ok =>
      rw [Gate.step, Option.ite_none_left_eq_some] at hs
      exact h.spawnerStep hs.2
  | child ok sent => exact h.childStep hs
  | programExits =>
      rw [Gate.step, Option.ite_none_right_eq_some] at hs
      obtain rfl := Option.some.inj hs.2
      exact h.programExits hs.1
  | startAttach n =>
      rw [Gate.step, Option.ite_none_right_eq_some] at hs
      obtain ⟨⟨-, -, hr⟩, hs⟩ := hs
      obtain rfl := Option.some.inj hs
      exact h.toAttach hr nofun nofun
  | attach n =>
      rw [Gate.step, Option.ite_none_left_eq_some] at hs
      obtain ⟨call, hcall, hs⟩ := Option.bind_eq_some_iff.mp hs.2
      exact h.attachStep hcall hs
  | kill n =>
      rw [Gate.step, Option.ite_none_right_eq_some] at hs
      obtain ⟨⟨-, hcall⟩, hs⟩ := hs
      obtain rfl := Option.some.inj hs
      split
      · exact h
      · split
        · next halive => exact h.kill hcall halive
        · exact h
  | watcher =>
      rw [Gate.step, Option.ite_none_left_eq_some] at hs
      exact h.watcherStep hs.2
  | dropWatcher =>
      rw [Gate.step, Option.ite_none_right_eq_some] at hs
      obtain ⟨⟨-, hw⟩, hs⟩ := hs
      obtain rfl := Option.some.inj hs
      have hne : s.watcher ≠ .absent := by
        rcases hw with hw | hw
        · rw [hw]; exact nofun
        · rw [hw]; exact nofun
      have hr : .registered ∈ s.log := by
        by_contra hn
        exact hne (h.unknown hn).2.1
      exact h.toWatcher hr (h.watched hne) nofun id id (.inl rfl)

/-- **The invariant of the gate holds in every run.** -/
theorem inv_of_reaches (h : Reaches step start s) : s.Inv :=
  h.invariant inv_start fun _ _ _ hi hs => hi.step hs

/-- What makes a launch safe. -/
structure Safe (s : Gate) : Prop where
  /-- The program is executed only after the child read `GO`, and that was sent. -/
  exec_after_go : ∀ newer older, s.log = newer ++ .execed :: older → .goRead ∈ older
  go_was_sent : ∀ newer older, s.log = newer ++ .goRead :: older → .goSent ∈ older
  /-- `GO` is sent only after a commit with the pid of the child and the start token read
  while it was alive. -/
  go_after_commit : ∀ newer older, s.log = newer ++ .goSent :: older →
    ∃ mid past, older = mid ++ .committed s.pid s.token :: past ∧
      ∃ child, .tokenRead s.pid s.token child ∈ past ∧ child.alive = true
  /-- A launch that fails, or whose owner dies before it sent `GO`, never runs the program. -/
  failed_never_runs : .returnedErr ∈ s.log → .execed ∉ s.log
  died_never_runs : ∀ newer older, s.log = newer ++ .ownerDied :: older → .goSent ∉ older →
    .execed ∉ s.log
  /-- A registration whose launch failed is ended and removed. -/
  failed_is_forgotten : .returnedErr ∈ s.log → .registered ∈ s.log →
    s.ended = true ∧ s.published = true ∧ s.inRegistry = false
  /-- No watcher reaps the child while it is launching, and it has no other registration. -/
  reaped_after_launch : ∀ launching, .reaped launching ∈ s.log → launching = false
  one_registration : s.stray = false

/-- **The launch gate is safe** in every run. Where the owner has died without sending `GO`, nobody
sends it later. -/
theorem launch_gate_is_safe (h : Reaches step start s) : s.Safe := by
  have hinv := inv_of_reaches h
  have hlog := hinv.lawful
  refine ⟨fun newer older hl => ?_, fun newer older hl => ?_, fun newer older hl => ?_,
    fun hf hx => ?_, fun newer older hl hsent hx => ?_, fun hf hr => (hinv.failed hf).2.2 hr,
    fun launching hr => ?_, hinv.stray⟩
  · rw [hl] at hlog
    exact hlog.split.1
  · rw [hl] at hlog
    exact hlog.split.1
  · rw [hl] at hlog
    obtain ⟨-, pid, token, mid, past, hpast, htoken⟩ := hlog.split.1
    have hmem : .tokenRead pid token .gated ∈ s.log := by
      rw [hl, hpast]
      simp [htoken]
    obtain ⟨rfl, rfl, -⟩ := hinv.tokenRead pid token _ hmem
    exact ⟨mid, past, hpast, .gated, htoken, rfl⟩
  · rcases (hinv.failed hf).2.1 with hsent | hsp
    · exact hsent (hlog.goSent_of_execed hx)
    · exact (hinv.unspawned (.inr hsp)).2 hx
  · have hgo := hlog.goSent_of_execed hx
    rw [hl, List.mem_append, List.mem_cons] at hgo
    rcases hgo with hgo | hgo | hgo
    · obtain ⟨later, past, rfl⟩ := List.append_of_mem hgo
      rw [hl, List.append_assoc, List.cons_append] at hlog
      exact hlog.split.1.1 (by simp)
    · exact absurd hgo nofun
    · exact hsent hgo
  · obtain ⟨newer, older, hl⟩ := List.append_of_mem hr
    rw [hl] at hlog
    exact hlog.split.1

/-- A commit fails after somebody has attached: the child is refused and forgotten. -/
theorem refused_launch_is_forgotten :
    ∃ s : Gate, s.attaches 0 = some .attached ∧ .registered ∈ s.log ∧ .execed ∉ s.log ∧
      s.ended = true ∧ s.inRegistry = false := by
  obtain ⟨s, hs, hp⟩ := Reaches.exists_of_follow step start
    [.owner ⟨true, none⟩, .spawner 7 5 true, .child true 0, .child true 0, .child true 0,
      .owner ⟨true, none⟩, .owner ⟨true, some 5⟩, .owner ⟨true, none⟩, .startAttach 0,
      .attach 0, .attach 0, .attach 0, .owner ⟨false, none⟩, .owner ⟨true, none⟩,
      .owner ⟨true, none⟩, .child true 0, .spawner 0 0 true, .spawner 0 0 true,
      .owner ⟨true, none⟩, .owner ⟨true, none⟩, .owner ⟨true, none⟩, .owner ⟨true, none⟩]
    (fun s => s.attaches 0 == some .attached && s.log.contains .returnedErr &&
      s.log.contains .registered)
    (by decide)
  simp only [Bool.and_eq_true, beq_iff_eq, List.contains_eq_mem, decide_eq_true_eq] at hp
  obtain ⟨⟨hattached, hfailed⟩, hregistered⟩ := hp
  have hsafe := launch_gate_is_safe hs
  obtain ⟨hended, -, hremoved⟩ := hsafe.failed_is_forgotten hfailed hregistered
  exact ⟨s, hattached, hregistered, hsafe.failed_never_runs hfailed, hended, hremoved⟩

end Gate

end Shepherd
