import Shepherd.Backend.Wait

/-!
# What Waits Return

A trace of the worker and the calls of `wait` remembers the results that were published and,
for each call, what had been published when it found the slot and when it observed an error,
whether its retry token was accepted, the result it took, and what it returned.

An exit is the last publication, and a call that takes its result after the last publication it
has observed can only take a newer one. So results are monotone, in every run
(`wait_results_are_monotone`).
-/

namespace Shepherd

open Conc

/-- What the worker publishes: the result of a wait. -/
abbrev Publication := Except String RawExit

/-- What is remembered of a call. -/
structure CallNotes where
  /-- The publications when the call found the slot, newest first. -/
  started : Option (List Publication)
  /-- The publications when its first read found an error. -/
  observed : Option (List Publication)
  /-- Its token was accepted, or another one was there. -/
  offered : Bool
  /-- The result it took. -/
  exit : Option Publication
  /-- What it returned; `some none` for an error of its own. -/
  returned : Option (Option Publication)
  /-- Its steps. -/
  steps : ℕ

/-- Nothing. -/
def CallNotes.new : CallNotes where
  started := none
  observed := none
  offered := false
  exit := none
  returned := none
  steps := 0

/-- A state, the publications, newest first, the calls that removed the slot with the result
each had taken, and what is remembered of the calls. -/
structure WaitTrace where
  state : WaitState
  publications : List Publication
  removals : List (ℕ × Option Publication)
  notes : ℕ → CallNotes

namespace WaitTrace

/-- A child that was just registered. -/
def start : WaitTrace where
  state := .start
  publications := []
  removals := []
  notes := fun _ => .new

/-- What a step of a call adds to its notes. -/
def noteCall (t : WaitTrace) (k : CallNotes) : WaitCall → CallNotes
  | .subscribed =>
      match t.state.value with
      | some (.error _) => { k with observed := some t.publications }
      | _ => k
  | .retrying _ => if t.state.worker = .stopped then k else { k with offered := true }
  | .awaitingRetry seen | .awaiting seen =>
      if seen < t.state.published then k else { k with returned := some none }
  | .reading =>
      match t.state.value with
      | some (.ok raw) => { k with exit := some (.ok raw) }
      | some (.error m) => { k with exit := some (.error m), returned := some (some (.error m)) }
      | none => k
  | .removing => { k with returned := some k.exit }
  | .returned => k

/-- The notes of a call that starts. -/
def noteStart (t : WaitTrace) : CallNotes :=
  if t.state.registered then { CallNotes.new with started := some t.publications }
  else { CallNotes.new with returned := some none }

/-- What is remembered of a step into a state. -/
def note (t : WaitTrace) (s : WaitState) : WaitAction → WaitTrace
  | .work _ =>
      { t with
        state := s
        publications :=
          match t.state.worker with
          | .publishing r => r.published :: t.publications
          | _ => t.publications }
  | .start n => { t with state := s, notes := Function.update t.notes n t.noteStart }
  | .run n =>
      match t.state.calls n with
      | some c =>
          let k := t.noteCall (t.notes n) c
          { t with
            state := s
            removals :=
              if c = .removing then (n, (t.notes n).exit) :: t.removals else t.removals
            notes := Function.update t.notes n { k with steps := k.steps + 1 } }
      | none => { t with state := s }
  | _ => { t with state := s }

/-- One step. -/
def step (t : WaitTrace) (a : WaitAction) : Option WaitTrace :=
  (t.state.step a).map fun s => t.note s a

/-- The notes of a trace leave the state alone. -/
@[simp] theorem note_state (t : WaitTrace) (s : WaitState) (a : WaitAction) :
    (t.note s a).state = s := by
  cases a with
  | run n =>
      rw [note]
      split <;> rfl
  | _ => rfl

/-- **Traces are runs**, and every run has a trace. -/
theorem reaches_iff {s : WaitState} :
    Reaches WaitState.step .start s ↔ ∃ t, Reaches step start t ∧ t.state = s := by
  constructor
  · intro h
    induction h with
    | initial => exact ⟨start, .initial, rfl⟩
    | step a _ _ hs ih =>
        obtain ⟨t, ht, rfl⟩ := ih
        exact ⟨t.note _ a, ht.next a (by rw [step, hs]; rfl), t.note_state _ a⟩
  · rintro ⟨t, ht, rfl⟩
    induction ht with
    | initial => exact .initial
    | step a _ _ hs ih =>
        obtain ⟨s, hstep, rfl⟩ := Option.map_eq_some_iff.mp hs
        rw [note_state]
        exact ih.next a hstep

end WaitTrace

/-! ### What a call may return -/

/-- An exit had been published when the call found the slot. -/
def CallNotes.Settled (k : CallNotes) (raw : RawExit) : Prop :=
  ∃ p, k.started = some p ∧ .ok raw ∈ p

/-- Something was published after the error that the call has observed. -/
def CallNotes.Newer (k : CallNotes) (pubs : List Publication) : Prop :=
  k.offered = true → ∀ p, k.observed = some p → p.length < pubs.length

/-- What a call returned after its token was accepted was published after the error that it has
observed. -/
def CallNotes.Fresh (k : CallNotes) (pubs : List Publication) : Prop :=
  ∀ v, k.returned = some v → k.offered = true → ∀ p, k.observed = some p →
    ∃ r newer, v = some r ∧ r ∈ newer ∧ newer ++ p <:+ pubs

/-- What holds of the notes of a call, by its place. -/
def CallNotes.At (k : CallNotes) (pubs : List Publication) : WaitCall → Prop
  | .subscribed => k.returned = none ∧ k.observed = none ∧ k.offered = false ∧ k.steps = 0
  | .retrying seen =>
      k.returned = none ∧ k.offered = false ∧ (∃ p, k.observed = some p ∧ seen = p.length) ∧
        ∀ raw, ¬ k.Settled raw
  | .awaitingRetry seen =>
      k.returned = none ∧ (∃ p, k.observed = some p ∧ seen = p.length) ∧ ∀ raw, ¬ k.Settled raw
  | .reading => k.returned = none ∧ k.Newer pubs ∧ ∀ raw, k.Settled raw → k.steps = 1
  | .awaiting seen => k.returned = none ∧ seen = 0 ∧ k.offered = false ∧ ∀ raw, ¬ k.Settled raw
  | .removing =>
      k.returned = none ∧ k.Newer pubs ∧
        ∃ raw, k.exit = some (.ok raw) ∧ pubs.head? = some (.ok raw) ∧
          ∀ raw', k.Settled raw' → raw' = raw ∧ k.steps = 2
  | .returned =>
      k.Fresh pubs ∧ ∀ raw, k.Settled raw → k.returned = some (some (.ok raw))

/-- What holds of a call. -/
structure CallSound (pubs : List Publication) (c : WaitCall) (k : CallNotes) : Prop where
  started : ∀ p, k.started = some p → p <:+ pubs
  observed : ∀ p, k.observed = some p → p <:+ pubs ∧ ∃ m, p.head? = some (.error m)
  offered : k.offered = true → k.observed ≠ none
  place : k.At pubs c

/-- The publications, newest first: an exit is the last one. -/
def Settling (pubs : List Publication) : Prop :=
  ∀ r ∈ pubs.tail, ∃ m, r = .error m

/-- In publications that settle, an exit is the newest. -/
theorem Settling.head {pubs : List Publication} {raw : RawExit} (h : Settling pubs)
    (hm : .ok raw ∈ pubs) : pubs.head? = some (.ok raw) := by
  cases pubs with
  | nil => cases hm
  | cons r pubs =>
      rcases List.mem_cons.mp hm with rfl | hm
      · rfl
      · obtain ⟨m, hm⟩ := h _ hm
        cases hm

/-- A publication changes nothing for the calls, as long as there was no exit. -/
theorem CallSound.publish {pubs : List Publication} {c : WaitCall} {k : CallNotes}
    (h : CallSound pubs c k) (hx : ∀ raw, pubs.head? ≠ some (.ok raw)) (r : Publication) :
    CallSound (r :: pubs) c k := by
  have hsuf := List.suffix_cons r pubs
  refine ⟨fun p hp => (h.started p hp).trans hsuf,
    fun p hp => ⟨(h.observed p hp).1.trans hsuf, (h.observed p hp).2⟩, h.offered, ?_⟩
  have hp := h.place
  cases c with
  | reading => exact ⟨hp.1, fun ho p hobs => Nat.lt_succ_of_lt (hp.2.1 ho p hobs), hp.2.2⟩
  | removing =>
      obtain ⟨-, -, raw, -, hhead, -⟩ := hp
      exact absurd hhead (hx raw)
  | returned =>
      refine ⟨fun v hv ho p hobs => ?_, hp.2⟩
      obtain ⟨r', newer, hr, hmem, hs⟩ := hp.1 v hv ho p hobs
      exact ⟨r', newer, hr, hmem, hs.trans hsuf⟩
  | _ => exact hp

/-- The head of a list that is longer than one of its suffixes is not in the suffix. -/
theorem exists_newer {pubs p : List Publication} {r : Publication} (hs : p <:+ pubs)
    (hlt : p.length < pubs.length) (hr : pubs.head? = some r) :
    ∃ newer, r ∈ newer ∧ newer ++ p <:+ pubs := by
  obtain ⟨newer, rfl⟩ := hs
  refine ⟨newer, ?_, List.suffix_rfl⟩
  cases newer with
  | nil => exact absurd hlt (Nat.lt_irrefl _)
  | cons r' newer =>
      obtain rfl := Option.some.inj hr
      exact List.mem_cons_self

/-- A call that returns the last publication. -/
theorem CallSound.fresh {pubs : List Publication} {c : WaitCall} {k k' : CallNotes}
    {r : Publication} (h : CallSound pubs c k) (hn : k.Newer pubs) (hr : pubs.head? = some r)
    (ho : k'.offered = k.offered) (hobs : k'.observed = k.observed)
    (hret : k'.returned = some (some r)) : k'.Fresh pubs := by
  intro v hv hoff p hp
  obtain rfl := Option.some.inj (hret.symm.trans hv)
  have hp' := hobs.symm.trans hp
  obtain ⟨newer, hmem, hs⟩ := exists_newer (h.observed p hp').1 (hn (ho.symm.trans hoff) p hp') hr
  exact ⟨r, newer, rfl, hmem, hs⟩

/-- A call that is dropped has returned nothing, and was not settled. -/
theorem CallSound.drop {pubs : List Publication} {c : WaitCall} {k : CallNotes}
    (h : CallSound pubs c k) (hc : c.suspended.isSome = true) : CallSound pubs .returned k := by
  have hp := h.place
  refine ⟨h.started, h.observed, h.offered, ?_⟩
  cases c with
  | awaitingRetry seen =>
      exact ⟨fun v hv => (by cases hp.1.symm.trans hv), fun raw hx => absurd hx (hp.2.2 raw)⟩
  | awaiting seen =>
      exact ⟨fun v hv => (by cases hp.1.symm.trans hv), fun raw hx => absurd hx (hp.2.2.2 raw)⟩
  | _ => cases hc

/-- The worker and the channel, without the calls. -/
def WaitState.quiet (s : WaitState) : WaitState :=
  { s with calls := fun _ => none }

namespace WaitTrace

/-- **The invariant of a trace.** -/
structure Inv (t : WaitTrace) : Prop where
  channel : t.state.quiet.Inv
  value : t.state.value = t.publications.head?
  published : t.state.published = t.publications.length
  settling : Settling t.publications
  removed : t.state.registered = false → t.removals ≠ []
  removals : ∀ x ∈ t.removals, ∃ raw, x.2 = some (.ok raw)
  unused : ∀ n, t.state.calls n = none → t.notes n = .new
  calls : ∀ n c, t.state.calls n = some c → CallSound t.publications c (t.notes n)

variable {t t' : WaitTrace} {n : ℕ} {c : WaitCall}

/-- A new trace has no notes. -/
theorem inv_start : start.Inv where
  channel := WaitState.inv_start
  value := rfl
  published := rfl
  settling _ hm := by cases hm
  removed h := by cases h
  removals _ hm := by cases hm
  unused _ _ := rfl
  calls _ _ h := by cases h

/-- The worker does not look at the calls, and publishes in one place. -/
theorem quiet_work {s s' : WaitState} {r : OsWait} (h : s.work r = some s') :
    s.quiet.work r = some s'.quiet ∧ s'.calls = s.calls ∧ s'.registered = s.registered ∧
      ((∀ x, s.worker ≠ .publishing x) → s'.value = s.value ∧ s'.published = s.published) := by
  cases hw : s.worker with
  | receiving =>
      simp only [WaitState.work, hw] at h
      split at h
      · next htok =>
          obtain rfl := Option.some.inj h
          simp [WaitState.work, WaitState.quiet, hw, htok]
      · next htok =>
          split at h
          · cases h
          · next hreg =>
              obtain rfl := Option.some.inj h
              simp [WaitState.work, WaitState.quiet, hw, htok, hreg]
  | stopped =>
      simp only [WaitState.work, hw] at h
      cases h
  | _ =>
      simp only [WaitState.work, hw] at h
      obtain rfl := Option.some.inj h
      simp [WaitState.work, WaitState.quiet, hw]

/-- Before a publication there was no exit. -/
theorem Inv.unsettled (h : t.Inv) {r : OsWait} (hw : t.state.worker = .publishing r)
    (raw : RawExit) : t.publications.head? ≠ some (.ok raw) := by
  intro hp
  have hclosed : t.state.quiet.closed = true := h.channel.exited raw (h.value.trans hp)
  rw [WaitState.closed, WaitState.closing, WaitState.quiet, hw] at hclosed
  cases hclosed

/-- **The worker's step.** -/
theorem Inv.work (h : t.Inv) {r : OsWait} {s : WaitState} (hs : t.state.work r = some s) :
    (t.note s (.work r)).Inv := by
  obtain ⟨hquiet, hcalls, hreg, hsame⟩ := quiet_work hs
  have hchannel := h.channel.work hquiet
  cases hw : t.state.worker with
  | publishing x =>
      simp only [WaitState.work, hw] at hs
      obtain rfl := Option.some.inj hs
      have hx := h.unsettled hw
      rw [note, hw]
      exact {
        channel := hchannel
        value := rfl
        published := congrArg (· + 1) h.published
        settling := fun y hy => by
          cases y with
          | error m => exact ⟨m, rfl⟩
          | ok raw => exact absurd (h.settling.head hy) (hx raw)
        removed := h.removed
        removals := h.removals
        unused := h.unused
        calls := fun n c hc => (h.calls n c hc).publish hx _ }
  | _ =>
      obtain ⟨hvalue, hpub⟩ := hsame (by simp [hw])
      rw [note, hw]
      exact { h with
        channel := hchannel
        value := hvalue.trans h.value
        published := hpub.trans h.published
        removed := fun hr => h.removed (hreg.symm.trans hr)
        unused := fun n hn => h.unused n (hcalls ▸ hn)
        calls := fun n c hn => h.calls n c (hcalls ▸ hn) }

/-- A call moves, and its notes with it. -/
theorem Inv.move (h : t.Inv) {s : WaitState} {k : CallNotes}
    {removals : List (ℕ × Option Publication)} (hq : s.quiet.Inv)
    (hv : s.value = t.state.value) (hp : s.published = t.state.published)
    (hc : s.calls = Function.update t.state.calls n (some c))
    (hk : CallSound t.publications c k) (hr : s.registered = false → removals ≠ [])
    (hrem : ∀ x ∈ removals, ∃ raw, x.2 = some (.ok raw)) :
    Inv ⟨s, t.publications, removals, Function.update t.notes n k⟩ where
  channel := hq
  value := hv.trans h.value
  published := hp.trans h.published
  settling := h.settling
  removed := hr
  removals := hrem
  unused m hm := by
    by_cases hmn : m = n
    · subst hmn
      simp [hc] at hm
    · simp only [hc, Function.update_of_ne hmn] at hm
      simp only [Function.update_of_ne hmn]
      exact h.unused m hm
  calls m d hm := by
    by_cases hmn : m = n
    · subst hmn
      simp only [hc, Function.update_self, Option.some.injEq] at hm
      subst hm
      simpa using hk
    · simp only [hc, Function.update_of_ne hmn] at hm
      simp only [Function.update_of_ne hmn]
      exact h.calls m d hm

/-- The removal of a slot, or of nothing. -/
theorem Inv.quiet_move (h : t.Inv) (n : ℕ) (c : WaitCall) : (t.state.move n c).quiet.Inv :=
  h.channel

/-- What a call finds in the channel. -/
theorem Inv.value_eq (h : t.Inv) {v : Option Publication} (hv : t.state.value = v) :
    t.publications.head? = v :=
  h.value.symm.trans hv

/-- A settled call finds the exit. -/
theorem Inv.value_of_settled (h : t.Inv) (hc : t.state.calls n = some c) {raw : RawExit}
    (hs : (t.notes n).Settled raw) : t.state.value = some (.ok raw) := by
  obtain ⟨p, hp, hm⟩ := hs
  rw [h.value]
  exact h.settling.head (((h.calls n c hc).started p hp).mem hm)

/-- A call that suspends has a publication to come: the slot would be removed only after an exit,
and nothing newer than the error was published. -/
theorem Inv.newer (h : t.Inv) (hc : t.state.calls n = some c) {seen : ℕ}
    (hobs : ∃ p, (t.notes n).observed = some p ∧ seen = p.length)
    (hslot : t.state.registered = false) :
    seen < t.state.published := by
  obtain ⟨p, hp, rfl⟩ := hobs
  obtain ⟨hs, m, hm⟩ := (h.calls n c hc).observed p hp
  rw [h.published]
  refine Nat.lt_of_le_of_ne hs.length_le fun heq => ?_
  obtain rfl := hs.eq_of_length heq
  obtain ⟨raw, hraw⟩ := h.channel.slot hslot
  cases hm.symm.trans (h.value_eq hraw)

/-- What was published, when there is a result. -/
theorem Inv.publications_ne_nil (h : t.Inv) {r : Publication} (hv : t.state.value = some r) :
    0 < t.state.published := by
  have hhead := h.value_eq hv
  rw [h.published]
  cases hp : t.publications with
  | nil =>
      rw [hp] at hhead
      cases hhead
  | cons r' pubs => exact Nat.succ_pos _

/-- A call moves without touching the channel or the removals. -/
theorem Inv.moved (h : t.Inv) (n : ℕ) {k : CallNotes} (hk : CallSound t.publications c k) :
    Inv ⟨t.state.move n c, t.publications, t.removals, Function.update t.notes n k⟩ :=
  h.move (h.quiet_move n c) rfl rfl rfl hk h.removed h.removals

section

variable {s : WaitState}

/-- The first read of a call: an error is observed, anything else is read again. -/
theorem Inv.runSubscribed (h : t.Inv) (hc : t.state.calls n = some .subscribed)
    (hs : t.state.runCall n .subscribed = some s) : (t.note s (.run n)).Inv := by
  have hk := h.calls n _ hc
  obtain ⟨hret, hobs, hoff, hsteps⟩ := hk.place
  rw [note, hc]
  dsimp only
  rw [WaitState.runCall] at hs
  split at hs
  · next m hv =>
      obtain rfl := Option.some.inj hs
      rw [noteCall, hv]
      refine h.moved n ⟨hk.started, fun p hp => ?_, fun _ => Option.some_ne_none _, ?_⟩
      · obtain rfl := Option.some.inj hp
        exact ⟨List.suffix_rfl, m, h.value_eq hv⟩
      · exact ⟨hret, hoff, ⟨_, rfl, h.published⟩,
          fun raw hset => (by cases hv.symm.trans (h.value_of_settled hc hset))⟩
  · next hne =>
      obtain rfl := Option.some.inj hs
      have hnotes : (match t.state.value with
          | some (.error _) => { t.notes n with observed := some t.publications }
          | _ => t.notes n) = t.notes n := by
        split
        · next m hv => exact absurd hv (hne m)
        · rfl
      rw [noteCall, hnotes]
      refine h.moved n ⟨hk.started, hk.observed, hk.offered, hret,
        fun ho => (by cases hoff.symm.trans ho), fun raw _ => ?_⟩
      change (t.notes n).steps + 1 = 1
      rw [hsteps]

/-- The retry: the token is offered, unless the worker is gone. -/
theorem Inv.runRetrying (h : t.Inv) {seen : ℕ} (hc : t.state.calls n = some (.retrying seen))
    (hs : t.state.runCall n (.retrying seen) = some s) : (t.note s (.run n)).Inv := by
  have hk := h.calls n _ hc
  obtain ⟨hret, hoff, hobs, hset⟩ := hk.place
  rw [note, hc]
  dsimp only
  rw [WaitState.runCall] at hs
  rw [noteCall]
  split at hs
  · next hw =>
      obtain rfl := Option.some.inj hs
      rw [if_pos hw]
      exact h.moved n ⟨hk.started, hk.observed, hk.offered, hret,
        fun ho => (by cases hoff.symm.trans ho), fun raw hx => absurd hx (hset raw)⟩
  · next hw =>
      obtain rfl := Option.some.inj hs
      rw [if_neg hw]
      have hsent : t.state.trySend.quiet.Inv := { h.channel with }
      refine h.move hsent rfl rfl rfl ?_ h.removed h.removals
      obtain ⟨p, hp, hseen⟩ := hobs
      exact ⟨hk.started, hk.observed, fun _ hn => (by cases hp.symm.trans hn), hret,
        ⟨p, hp, hseen⟩, hset⟩

/-- The wait for the answer to a retry: the channel does not close before there is one. -/
theorem Inv.runAwaitingRetry (h : t.Inv) {seen : ℕ}
    (hc : t.state.calls n = some (.awaitingRetry seen))
    (hs : t.state.runCall n (.awaitingRetry seen) = some s) : (t.note s (.run n)).Inv := by
  have hk := h.calls n _ hc
  obtain ⟨hret, hobs, hset⟩ := hk.place
  rw [note, hc]
  dsimp only
  rw [WaitState.runCall, WaitState.changed] at hs
  rw [noteCall]
  split at hs
  · next hlt =>
      obtain rfl := Option.some.inj hs
      rw [if_pos hlt]
      refine h.moved n ⟨hk.started, hk.observed, hk.offered, hret, fun _ p hp => ?_,
        fun raw hx => absurd hx (hset raw)⟩
      obtain ⟨p', hp', rfl⟩ := hobs
      obtain rfl := Option.some.inj (hp'.symm.trans hp)
      exact h.published ▸ hlt
  · next hge =>
      split at hs
      · next hclosed =>
          simp only [Bool.and_eq_true, Bool.not_eq_true'] at hclosed
          exact absurd (h.newer hc hobs hclosed.1) hge
      · cases hs

/-- The result is read: an exit is taken, an error is returned, nothing is awaited. -/
theorem Inv.runReading (h : t.Inv) (hc : t.state.calls n = some .reading)
    (hs : t.state.runCall n .reading = some s) : (t.note s (.run n)).Inv := by
  have hk := h.calls n _ hc
  obtain ⟨hret, hnewer, hset⟩ := hk.place
  have hvalue : ∀ {raw}, (t.notes n).Settled raw → t.state.value = some (.ok raw) :=
    fun hx => h.value_of_settled hc hx
  rw [note, hc]
  dsimp only
  rw [WaitState.runCall] at hs
  split at hs
  · next raw hv =>
      obtain rfl := Option.some.inj hs
      rw [noteCall, hv]
      refine h.moved n ⟨hk.started, hk.observed, hk.offered, hret, hnewer, raw, rfl,
        h.value_eq hv, fun raw' hx => ?_⟩
      have heq := hv.symm.trans (hvalue hx)
      simp only [Option.some.injEq, Except.ok.injEq] at heq
      exact ⟨heq.symm, congrArg (· + 1) (hset raw' hx)⟩
  · next m hv =>
      obtain rfl := Option.some.inj hs
      rw [noteCall, hv]
      exact h.moved n ⟨hk.started, hk.observed, hk.offered,
        hk.fresh hnewer (h.value_eq hv) rfl rfl rfl,
        fun raw hx => (by cases hv.symm.trans (hvalue hx))⟩
  · next hv =>
      obtain rfl := Option.some.inj hs
      rw [noteCall, hv]
      refine h.moved n ⟨hk.started, hk.observed, hk.offered, hret,
        h.channel.unpublished.mp hv, ?_, fun raw hx => (by cases hv.symm.trans (hvalue hx))⟩
      cases hoff : (t.notes n).offered with
      | false => rfl
      | true =>
          obtain ⟨p, hp⟩ := Option.ne_none_iff_exists'.mp (hk.offered hoff)
          have hlt := hnewer hoff p hp
          have hzero : t.state.published = 0 := h.channel.unpublished.mp hv
          rw [← h.published, hzero] at hlt
          cases hlt

/-- The wait for the first result: the channel does not close before there is one. -/
theorem Inv.runAwaiting (h : t.Inv) {seen : ℕ} (hc : t.state.calls n = some (.awaiting seen))
    (hs : t.state.runCall n (.awaiting seen) = some s) : (t.note s (.run n)).Inv := by
  have hk := h.calls n _ hc
  obtain ⟨hret, rfl, hoff, hset⟩ := hk.place
  rw [note, hc]
  dsimp only
  rw [WaitState.runCall, WaitState.changed] at hs
  rw [noteCall]
  split at hs
  · next hlt =>
      obtain rfl := Option.some.inj hs
      rw [if_pos hlt]
      exact h.moved n ⟨hk.started, hk.observed, hk.offered, hret,
        fun ho => (by cases hoff.symm.trans ho), fun raw hx => absurd hx (hset raw)⟩
  · next hge =>
      split at hs
      · next hclosed =>
          simp only [Bool.and_eq_true, Bool.not_eq_true'] at hclosed
          obtain ⟨raw, hraw⟩ := h.channel.slot hclosed.1
          exact absurd (h.publications_ne_nil hraw) hge
      · cases hs

/-- The slot is removed after an exit, and the exit is returned. -/
theorem Inv.runRemoving (h : t.Inv) (hc : t.state.calls n = some .removing)
    (hs : t.state.runCall n .removing = some s) : (t.note s (.run n)).Inv := by
  have hk := h.calls n _ hc
  obtain ⟨hret, hnewer, raw, hexit, hhead, hset⟩ := hk.place
  rw [note, hc]
  dsimp only
  obtain rfl := Option.some.inj hs
  have hv : t.state.value = some (.ok raw) := h.value.trans hhead
  have hslot : WaitState.Inv
      (WaitState.quiet { t.state.move n .returned with registered := false }) :=
    { h.channel with slot := fun _ => ⟨raw, hv⟩ }
  rw [noteCall, hexit, if_pos rfl]
  refine h.move hslot rfl rfl rfl ?_ (fun _ => List.cons_ne_nil _ _) ?_
  · refine ⟨hk.started, hk.observed, hk.offered, hk.fresh hnewer hhead rfl rfl rfl,
      fun raw' hx => ?_⟩
    rw [(hset raw' hx).1]
  · intro x hx
    rcases List.mem_cons.mp hx with rfl | hx
    · exact ⟨raw, rfl⟩
    · exact h.removals x hx

/-- **The step of a call.** -/
theorem Inv.run (h : t.Inv) (hc : t.state.calls n = some c)
    (hs : t.state.runCall n c = some s) : (t.note s (.run n)).Inv := by
  cases c with
  | subscribed => exact h.runSubscribed hc hs
  | retrying seen => exact h.runRetrying hc hs
  | awaitingRetry seen => exact h.runAwaitingRetry hc hs
  | reading => exact h.runReading hc hs
  | awaiting seen => exact h.runAwaiting hc hs
  | removing => exact h.runRemoving hc hs
  | returned => cases hs

end

/-- The notes of a call that starts. -/
theorem startCall (t : WaitTrace) : CallSound t.publications
    (if t.state.registered then .subscribed else .returned) t.noteStart := by
  rw [noteStart]
  cases t.state.registered with
  | true =>
      refine ⟨fun p hp => ?_, nofun, nofun, rfl, rfl, rfl, rfl⟩
      obtain rfl := Option.some.inj hp
      exact List.suffix_rfl
  | false => exact ⟨nofun, nofun, nofun, nofun, fun raw ⟨p, hp, _⟩ => (by cases hp)⟩

/-- **Every step keeps the invariant.** -/
theorem Inv.step (h : t.Inv) {a : WaitAction} (hs : t.step a = some t') : t'.Inv := by
  obtain ⟨s, hstep, rfl⟩ := Option.map_eq_some_iff.mp hs
  cases a with
  | work r => exact h.work hstep
  | offer =>
      rw [WaitState.step, Option.ite_none_right_eq_some] at hstep
      obtain ⟨-, ⟨⟩⟩ := hstep
      exact { h with channel := { h.channel with } }
  | start n =>
      rw [WaitState.step, Option.ite_none_right_eq_some] at hstep
      obtain ⟨-, ⟨⟩⟩ := hstep
      exact h.moved n t.startCall
  | run n =>
      obtain ⟨c, hc, hr⟩ := Option.bind_eq_some_iff.mp hstep
      exact h.run hc hr
  | drop n =>
      rw [WaitState.step] at hstep
      split at hstep
      · next c hc =>
          rw [Option.ite_none_right_eq_some] at hstep
          obtain ⟨hsus, ⟨⟩⟩ := hstep
          have hmoved := h.moved n ((h.calls n c hc).drop hsus)
          rwa [Function.update_eq_self] at hmoved
      · cases hstep

/-- **The invariant of a trace holds in every run.** -/
theorem inv_of_reaches (h : Reaches step start t) : t.Inv :=
  h.invariant inv_start fun _ _ _ hi hs => hi.step hs

/-- A settled call returns the exit within three steps. -/
theorem Inv.settled (h : t.Inv) {raw : RawExit} (hs : (t.notes n).Settled raw) :
    (t.notes n).returned = some (some (.ok raw)) ∨
      (t.notes n).returned = none ∧ (t.notes n).steps < 3 ∧ (t.step (.run n)).isSome = true := by
  cases hc : t.state.calls n with
  | none =>
      obtain ⟨p, hp, -⟩ := hs
      rw [h.unused n hc] at hp
      cases hp
  | some c =>
      have hplace := (h.calls n c hc).place
      have hrun : (t.state.runCall n c).isSome = true → (t.step (.run n)).isSome = true := by
        intro hr
        rw [WaitTrace.step, WaitState.step, hc, Option.bind_some, Option.isSome_map]
        exact hr
      cases c with
      | subscribed =>
          obtain ⟨hret, -, -, hsteps⟩ := hplace
          refine .inr ⟨hret, by omega, hrun ?_⟩
          rw [WaitState.runCall]
          split <;> rfl
      | reading =>
          obtain ⟨hret, -, hsteps⟩ := hplace
          have hone := hsteps raw hs
          refine .inr ⟨hret, by omega, hrun ?_⟩
          rw [WaitState.runCall]
          split <;> rfl
      | removing =>
          obtain ⟨hret, -, _, -, -, hsteps⟩ := hplace
          have htwo := (hsteps raw hs).2
          exact .inr ⟨hret, by omega, hrun rfl⟩
      | returned => exact .inl (hplace.2 raw hs)
      | retrying seen => exact absurd hs (hplace.2.2.2 raw)
      | awaitingRetry seen => exact absurd hs (hplace.2.2 raw)
      | awaiting seen => exact absurd hs (hplace.2.2.2 raw)

/-- What a call returned after its token was accepted is newer than what it had observed. -/
theorem Inv.returned_fresh (h : t.Inv) : (t.notes n).Fresh t.publications := by
  cases hc : t.state.calls n with
  | none =>
      rw [h.unused n hc]
      exact nofun
  | some c =>
      have hplace := (h.calls n c hc).place
      cases c with
      | returned => exact hplace.1
      | _ => exact fun v hv => (by cases hplace.1.symm.trans hv)

/-- **Wait results are monotone**, in every run of the worker, the kill paths and any calls.
An exit is published once, as the last result; the slot is removed by calls only that took an
exit; a call that finds the slot after the exit was published returns it, within three steps;
and what a call returns after its token was accepted was published after the error that it had
observed. -/
theorem wait_results_are_monotone (h : Reaches step start t) :
    (∀ newer raw older, t.publications = newer ++ .ok raw :: older →
      newer = [] ∧ (∀ r ∈ older, ∃ m, r = .error m) ∧ t.state.value = some (.ok raw)) ∧
    ((∀ x ∈ t.removals, ∃ raw, x.2 = some (.ok raw)) ∧
      (t.state.registered = false → t.removals ≠ [])) ∧
    (∀ n raw, (t.notes n).Settled raw → (t.notes n).returned = some (some (.ok raw)) ∨
      (t.notes n).returned = none ∧ (t.notes n).steps < 3 ∧ (t.step (.run n)).isSome = true) ∧
    ∀ n p v, (t.notes n).observed = some p → (t.notes n).offered = true →
      (t.notes n).returned = some v →
      ∃ r newer, v = some r ∧ r ∈ newer ∧ newer ++ p <:+ t.publications := by
  have hi := inv_of_reaches h
  refine ⟨fun newer raw older heq => ?_, ⟨hi.removals, hi.removed⟩, fun n raw => hi.settled,
    fun n p v hp ho hv => hi.returned_fresh v hv ho p hp⟩
  have hset := hi.settling
  cases newer with
  | nil =>
      rw [heq] at hset
      exact ⟨rfl, hset, hi.value.trans (by rw [heq]; rfl)⟩
  | cons r newer =>
      rw [heq] at hset
      obtain ⟨m, hm⟩ := hset (.ok raw) (by simp)
      cases hm

/-- A wait fails and is retried: the call that has observed the error returns the exit, and so
does a call that starts before the slot is removed. -/
def retriedWait : List WaitAction :=
  [.work (.failed "wait"), .work (.failed "wait"), .work (.failed "wait"), .start 0, .run 0,
    .run 0, .work (.failed "wait"), .work (.exited ⟨some 0, none, false⟩),
    .work (.exited ⟨some 0, none, false⟩), .start 1, .run 0, .run 0, .run 0, .run 1, .run 1, .run 1]

/-- A wait that found an error returns a newer publication, and one that begins after the exit
returns it. -/
theorem retried_wait_returns_exit : ∃ t, Reaches step start t ∧
    ((t.notes 0).observed = some [.error "wait"] ∧ (t.notes 0).offered = true ∧
      (t.notes 1).Settled ⟨some 0, none, false⟩ ∧ t.state.registered = false) ∧
    (∃ r newer, (t.notes 0).returned = some (some r) ∧ r ∈ newer ∧
      newer ++ [.error "wait"] <:+ t.publications) ∧
    ((t.notes 1).returned = some (some (.ok ⟨some 0, none, false⟩)) ∨
      (t.notes 1).returned = none ∧ (t.notes 1).steps < 3 ∧ (t.step (.run 1)).isSome = true) := by
  obtain ⟨t, ht, hP⟩ := Reaches.exists_of_follow step start retriedWait
    (fun t => (t.notes 0).observed = some [.error "wait"] && (t.notes 0).offered &&
      (t.notes 1).started = some [.ok ⟨some 0, none, false⟩, .error "wait"] &&
      !t.state.registered && (t.notes 0).returned = some (some (.ok ⟨some 0, none, false⟩)))
    (by decide +kernel)
  simp only [Bool.and_eq_true, Bool.not_eq_true', decide_eq_true_eq] at hP
  obtain ⟨⟨⟨⟨hobs, hoff⟩, hstart⟩, hreg⟩, hret⟩ := hP
  have hset : (t.notes 1).Settled ⟨some 0, none, false⟩ := ⟨_, hstart, List.mem_cons_self⟩
  obtain ⟨-, -, hsettled, hfresh⟩ := wait_results_are_monotone ht
  obtain ⟨r, newer, hr, hmem, hs⟩ := hfresh 0 _ _ hobs hoff hret
  exact ⟨t, ht, ⟨hobs, hoff, hset, hreg⟩, ⟨r, newer, by rw [hret, hr], hmem, hs⟩,
    hsettled 1 _ hset⟩

end WaitTrace

end Shepherd
