import Shepherd.Backend.Sampling

/-!
# Bounded Sampling

What a pool promises over all runs, with calls dropped at any await and reads that return or
panic: at most one native read of a child runs, and at most 16 of a pool; a flag is set exactly
while a call for it is queued or the task of its read is not over; and the guards of a call are
dropped once, not before its read is over (`native_sampling_is_bounded`).

No guard is left behind either: a pool in which nothing can happen but new calls has all its
permits and no flag set (`sampling_comes_to_rest`).
-/

namespace Shepherd

open Conc

namespace SamplingState

variable {α : Type} {s s' : SamplingState α} {n m flag : ℕ}

/-- A call for the flag is queued, or its read is submitted and its task has not finished. -/
def Active (s : SamplingState α) (n flag : ℕ) : Prop :=
  s.Queued n flag ∨ s.Submitted n flag

instance (s : SamplingState α) (n flag : ℕ) : Decidable (s.Active n flag) :=
  inferInstanceAs (Decidable (_ = _ ∨ _ = _))

/-- A call has the guard of a flag while it is queued or its task has not finished. -/
theorem Inv.guard_iff (h : s.Inv) : s.guard n = some flag ↔ s.Active n flag := by
  have hflag : ∀ o : Option ActiveSample,
      o.map ActiveSample.flag = some flag ↔ o = some ⟨flag⟩ := by
    intro o
    cases o with
    | none => simp
    | some active => cases active; simp
  rw [guard, hflag, Option.or_eq_some_iff, Active, Queued, Submitted]
  refine or_congr_right ⟨And.right, fun hr => ⟨?_, hr⟩⟩
  obtain ⟨r, hr, -⟩ := Option.bind_eq_some_iff.mp hr
  obtain ⟨c, hc, ha, -⟩ := h.handed n r hr
  rw [hc, Option.bind_some, ha]

/-- A running read has its flag. -/
theorem Reading.active (hr : s.Reading n flag) : s.Active n flag := by
  refine .inr ?_
  rw [Submitted, hr]
  rfl

/-- And a permit. -/
theorem Inv.capacity_of_reading (h : s.Inv) (hr : s.Reading n flag) : s.capacity n = true :=
  h.capacity_of_read hr

/-! ### What is bounded -/

/-- A flag is set while one call for it is active. -/
theorem Inv.flag_iff (h : s.Inv) (flag : ℕ) : s.flags flag = true ↔ ∃ n, s.Active n flag :=
  (h.ledger.raised flag).trans (exists_congr fun _ => h.guard_iff)

/-- A flag is guarded by one sample. -/
theorem Inv.active_unique (h : s.Inv) (hn : s.Active n flag) (hm : s.Active m flag) : n = m :=
  h.ledger.exclusive n m flag (h.guard_iff.mpr hn) (h.guard_iff.mpr hm)

/-- The reads that run have the permits of the pool. -/
theorem Inv.length_reading_le (h : s.Inv) {ns : List ℕ} (hn : ns.Nodup)
    (hr : ∀ n ∈ ns, ∃ flag, s.Reading n flag) : ns.length ≤ 16 := by
  refine h.ledger.length_le hn fun n hm => ?_
  obtain ⟨flag, hread⟩ := hr n hm
  exact h.capacity_of_reading hread

/-! ### What is dropped -/

/-- The guards of a call are dropped once: of a flag that it has set and of a permit that it has
taken, all but what it still has. -/
structure DroppedOnce (s : SamplingState α) : Prop where
  flagOnce : ∀ n flag, s.log.count (n, .raised flag) ≤ 1
  flag : ∀ n flag, s.log.count (n, .lowered flag) + (if s.Active n flag then 1 else 0) =
    s.log.count (n, .raised flag)
  permitOnce : ∀ n, s.log.count (n, .acquired) ≤ 1
  permit : ∀ n, s.log.count (n, .permitReleased) + (if s.capacity n then 1 else 0) =
    s.log.count (n, .acquired)

/-- A guard is dropped once. -/
theorem Inv.droppedOnce (h : s.Inv) : s.DroppedOnce where
  flagOnce := h.ledger.flagOnce
  flag n flag := by
    simp only [← h.guard_iff]
    exact h.ledger.flagBalance n flag
  permitOnce := h.ledger.permitOnce
  permit := h.ledger.permitBalance

/-- No guard of a call was dropped. -/
def Undropped (s : SamplingState α) (n flag : ℕ) : Prop :=
  (n, .lowered flag) ∉ s.log ∧ (n, .permitReleased) ∉ s.log

/-- The guards of a running read were not dropped. -/
theorem Inv.undropped (h : s.Inv) (hr : s.Reading n flag) : s.Undropped n flag :=
  ⟨h.ledger.not_lowered (h.guard_iff.mpr hr.active),
    h.ledger.not_released (h.capacity_of_reading hr)⟩

/-- How a task goes on. -/
inductive Follows : Option (SampleRead α) → SampleRead α → Prop
  | submitted (active : ActiveSample) : Follows none (.submitted active)
  | entered (active : ActiveSample) : Follows (some (.submitted active)) (.reading active)
  | ended (active : ActiveSample) (outcome : ReadOutcome α) :
      Follows (some (.reading active)) (.ended active outcome)
  | capacityDropped (active : ActiveSample) (outcome : ReadOutcome α) :
      Follows (some (.ended active outcome)) (.releasing active outcome)
  | activeDropped (active : ActiveSample) (outcome : ReadOutcome α) :
      Follows (some (.releasing active outcome)) (.finished outcome)

/-- **One task moves in a step**, or none. -/
theorem Inv.reads_step (h : s.Inv) {a : SamplingAction α} (hs : s.step a = some s') :
    s'.reads = s.reads ∨
      ∃ m r, Follows (s.reads m) r ∧ s'.reads = Function.update s.reads m (some r) := by
  cases a with
  | start m _ =>
      rw [SamplingState.step, Option.ite_none_right_eq_some] at hs
      obtain ⟨-, hs⟩ := hs
      split at hs <;> obtain rfl := Option.some.inj hs <;> exact .inl rfl
  | acquire m =>
      rw [SamplingState.step] at hs
      split at hs
      · rw [if_neg (Bool.not_eq_true _ ▸ h.opened), Option.ite_none_right_eq_some] at hs
        obtain ⟨-, ⟨⟩⟩ := hs
        exact .inl rfl
      · cases hs
  | submit m =>
      rw [SamplingState.step] at hs
      split at hs
      · next active hc =>
          obtain rfl := Option.some.inj hs
          refine .inr ⟨m, _, ?_, rfl⟩
          rw [h.unsubmitted hc rfl]
          exact .submitted active
      · cases hs
  | enter m =>
      rw [SamplingState.step] at hs
      split at hs
      · next active hm =>
          obtain rfl := Option.some.inj hs
          exact .inr ⟨m, _, hm ▸ .entered active, rfl⟩
      · cases hs
  | finish m outcome =>
      rw [SamplingState.step] at hs
      split at hs
      · next active hm =>
          obtain rfl := Option.some.inj hs
          exact .inr ⟨m, _, hm ▸ .ended active outcome, rfl⟩
      · cases hs
  | dropCapacity m =>
      rw [SamplingState.step] at hs
      split at hs
      · next active outcome hm =>
          obtain rfl := Option.some.inj hs
          exact .inr ⟨m, _, hm ▸ .capacityDropped active outcome, rfl⟩
      · cases hs
  | dropActive m =>
      rw [SamplingState.step] at hs
      split at hs
      · next active outcome hm =>
          obtain rfl := Option.some.inj hs
          exact .inr ⟨m, _, hm ▸ .activeDropped active outcome, rfl⟩
      · cases hs
  | join m =>
      rw [SamplingState.step] at hs
      split at hs
      · obtain rfl := Option.some.inj hs
        exact .inl rfl
      · cases hs
  | cancel m =>
      rw [SamplingState.step] at hs
      split at hs
      · obtain rfl := Option.some.inj hs
        exact .inl rfl
      · obtain rfl := Option.some.inj hs
        exact .inl rfl
      · obtain rfl := Option.some.inj hs
        exact .inl rfl
      · cases hs
  | leave m =>
      rw [SamplingState.step] at hs
      split at hs
      · obtain rfl := Option.some.inj hs
        exact .inl rfl
      · obtain rfl := Option.some.inj hs
        exact .inl rfl
      · cases hs

/-- A running read goes on until it ends by itself. -/
theorem Inv.reading_step (h : s.Inv) (hr : s.Reading n flag) {a : SamplingAction α}
    (hs : s.step a = some s') :
    s'.Reading n flag ∨ ∃ outcome, s'.reads n = some (.ended ⟨flag⟩ outcome) := by
  rcases h.reads_step hs with heq | ⟨m, r, hf, heq⟩
  · exact .inl ((congrFun heq n).trans hr)
  · by_cases hne : n = m
    · subst hne
      rw [hr] at hf
      cases hf with
      | ended _ outcome => exact .inr ⟨outcome, by rw [heq, Function.update_self]⟩
    · refine .inl ?_
      rw [Reading, heq, Function.update_of_ne hne]
      exact hr

/-- No step drops a guard of a read that runs before it. -/
theorem Inv.undropped_of_step (h : s.Inv) (hr : s.Reading n flag) {a : SamplingAction α}
    (hs : s.step a = some s') : s'.Undropped n flag := by
  have h' := h.step hs
  rcases h.reading_step hr hs with hr' | ⟨outcome, hr'⟩
  · exact h'.undropped hr'
  · exact ⟨h'.ledger.not_lowered (h'.guard_of_read hr'),
      h'.ledger.not_released (h'.capacity_of_read hr')⟩

/-! ### Pools at rest -/

/-- No call is queued, and every task has finished. -/
def Idle (s : SamplingState α) : Prop :=
  (∀ n flag, ¬ s.Queued n flag) ∧
    ∀ n r, s.reads n = some r → ∃ outcome, r = .finished outcome

/-- All permits are free, and no flag is set. -/
def Free (s : SamplingState α) : Prop :=
  s.pool.permits = 16 ∧ ∀ flag, s.flags flag = false

/-- A call has no permit unless it is about to submit its read or its task goes on. -/
theorem capacity_eq_false (hc : ∀ active, s.calls n ≠ some (.acquired active))
    (hr : ∀ r, s.reads n = some r → ∃ outcome, r = .finished outcome) : s.capacity n = false := by
  have hread : (s.reads n).any SampleRead.hasCapacity = false := by
    cases hn : s.reads n with
    | none => rfl
    | some r =>
        obtain ⟨outcome, rfl⟩ := hr r hn
        rfl
  rw [capacity, hread, Bool.or_false]
  cases hn : s.calls n with
  | none => rfl
  | some c =>
      cases c with
      | acquired active => exact absurd hn (hc active)
      | _ => rfl

/-- A pool that is idle is free: a guard is with a queued call, or with a task that has not
finished. -/
theorem Inv.free_of_idle (h : s.Inv) (hi : s.Idle) : s.Free := by
  obtain ⟨hqueued, hfinished⟩ := hi
  refine ⟨h.ledger.free_eq fun n => capacity_eq_false (fun active hc => ?_) (hfinished n),
    h.ledger.flags_eq fun n => ?_⟩
  · refine hqueued n active.flag ?_
    rw [Queued, hc]
    rfl
  · rw [Option.eq_none_iff_forall_ne_some]
    intro flag hg
    rcases h.guard_iff.mp hg with hq | hs
    · exact hqueued n flag hq
    · obtain ⟨r, hr, ha⟩ := Option.bind_eq_some_iff.mp hs
      obtain ⟨outcome, rfl⟩ := hfinished n r hr
      cases ha

/-! ### Progress -/

/-- A step of a call or of a task, other than a new call or a cancellation. -/
def goesOn : SamplingAction α → Bool
  | .start _ _ | .cancel _ => false
  | _ => true

/-- Nothing can happen but new calls and cancellations. -/
def AtRest (s : SamplingState α) : Prop :=
  ∀ a, goesOn a = true → s.step a = none

/-- Tasks go on until they have finished. -/
theorem AtRest.finished (h : s.AtRest) {r : SampleRead α} (hr : s.reads n = some r) :
    ∃ outcome, r = .finished outcome := by
  cases r with
  | submitted active =>
      have hn := h (.enter n) rfl
      rw [SamplingState.step, hr] at hn
      cases hn
  | reading active =>
      have hn := h (.finish n (.panicked "")) rfl
      rw [SamplingState.step, hr] at hn
      cases hn
  | ended active outcome =>
      have hn := h (.dropCapacity n) rfl
      rw [SamplingState.step, hr] at hn
      cases hn
  | releasing active outcome =>
      have hn := h (.dropActive n) rfl
      rw [SamplingState.step, hr] at hn
      cases hn
  | finished outcome => exact ⟨outcome, rfl⟩

/-- Calls go on until they wait for a permit, or have no guard. -/
theorem AtRest.waiting (h : s.AtRest) {c : SampleCall α} (hc : s.calls n = some c) :
    c.active = none ∨ ∃ active, c = .acquiring active := by
  cases c with
  | acquiring active => exact .inr ⟨active, rfl⟩
  | acquired active =>
      have hn := h (.submit n) rfl
      rw [SamplingState.step, hc] at hn
      cases hn
  | leaving active result =>
      have hn := h (.leave n) rfl
      rw [SamplingState.step, hc] at hn
      cases result <;> cases hn
  | joining => exact .inl rfl
  | returned result => exact .inl rfl
  | dropped => exact .inl rfl

/-- Nobody has a permit in a pool at rest. -/
theorem AtRest.capacity_eq (h : s.AtRest) (n : ℕ) : s.capacity n = false := by
  refine capacity_eq_false (fun active hc => ?_) fun r hr => h.finished hr
  rcases h.waiting hc with ha | ⟨_, ⟨⟩⟩
  cases ha

/-- So no call waits for one. -/
theorem Inv.idle_of_atRest (hi : s.Inv) (h : s.AtRest) : s.Idle := by
  refine ⟨fun n flag hq => ?_, fun n r hr => h.finished hr⟩
  obtain ⟨c, hc, ha⟩ := Option.bind_eq_some_iff.mp hq
  rcases h.waiting hc with hnone | ⟨active, rfl⟩
  · cases hnone.symm.trans ha
  · have hfree : s.pool.permits = 16 := hi.ledger.free_eq h.capacity_eq
    have hn := h (.acquire n) rfl
    rw [SamplingState.step, hc, hi.opened, hfree] at hn
    cases hn

end SamplingState

open SamplingState

variable {α : Type} {s : SamplingState α}

/-- **Native sampling is bounded**, in every run of any calls on any flags, with calls dropped at
any await and reads that return or panic. At most one read of a flag runs, and at most 16 of the
pool; a flag is set exactly while one call for it is queued or its read is submitted and its task
not finished; every guard is dropped once, not while the read runs and not by the step that ends
it; and a pool that is idle has all its permits and no flag set. -/
theorem native_sampling_is_bounded (h : Reaches SamplingState.step (new : SamplingState α) s) :
    (∀ n m flag, s.Reading n flag → s.Reading m flag → n = m) ∧
    (∀ ns : List ℕ, ns.Nodup → (∀ n ∈ ns, ∃ flag, s.Reading n flag) → ns.length ≤ 16) ∧
    ((∀ flag, s.flags flag = true ↔ ∃ n, s.Active n flag) ∧
      ∀ n m flag, s.Active n flag → s.Active m flag → n = m) ∧
    (s.DroppedOnce ∧ ∀ n flag, s.Reading n flag → s.Undropped n flag ∧
      ∀ a s', s.step a = some s' → s'.Undropped n flag) ∧
    (s.Idle → s.Free) := by
  have hi := inv_of_reaches h
  refine ⟨fun n m flag hn hm => hi.active_unique hn.active hm.active,
    fun ns hn hr => hi.length_reading_le hn hr,
    ⟨hi.flag_iff, fun n m flag hn hm => hi.active_unique hn hm⟩,
    ⟨hi.droppedOnce, fun n flag hr => ⟨hi.undropped hr, fun a s' hs => ?_⟩⟩, hi.free_of_idle⟩
  exact hi.undropped_of_step hr hs

/-- A call is dropped while its read runs, another call for its child is refused, and a call of
another child is dropped while it waits for a permit. -/
def cancelledSamples : List (SamplingAction ℕ) :=
  [.start 0 7, .acquire 0, .submit 0, .enter 0, .cancel 0, .start 1 7, .start 2 8, .cancel 2]

/-- A sample whose caller was dropped goes on reading behind its flag: another call for the process
is refused, and one for another process goes ahead. -/
theorem cancelled_sample_keeps_flag : ∃ s : SamplingState ℕ,
    Reaches SamplingState.step new s ∧
    (s.calls 0 = some .dropped ∧ s.Reading 0 7 ∧
      s.calls 1 = some (.returned (.error (.backend "previous native sample still running"))) ∧
      s.Active 2 8 ∧ s.pool.permits = 15) ∧
    (∀ m, s.Reading m 7 → m = 0) ∧ s.flags 7 = true ∧ (∀ m, s.Active m 8 → m = 2) ∧
    s.DroppedOnce ∧ s.Undropped 0 7 ∧ (s.Idle → s.Free) := by
  obtain ⟨s, hs, hP⟩ := Reaches.exists_of_follow SamplingState.step (new : SamplingState ℕ)
    cancelledSamples
    (fun s => s.calls 0 = some .dropped && s.reads 0 = some (.reading ⟨7⟩) &&
      s.calls 1 = some (.returned (.error (.backend "previous native sample still running"))) &&
      s.calls 2 = some (.leaving ⟨8⟩ none) && s.pool.permits = 15)
    (by decide +kernel)
  simp only [Bool.and_eq_true, decide_eq_true_eq] at hP
  obtain ⟨⟨⟨⟨hdropped, hread⟩, hrefused⟩, hleaving⟩, hpermits⟩ := hP
  have hactive : s.Active 2 8 := by
    refine .inl ?_
    rw [SamplingState.Queued, hleaving]
    rfl
  obtain ⟨hone, -, ⟨hflag, hunique⟩, ⟨honce, hheld⟩, hfree⟩ := native_sampling_is_bounded hs
  exact ⟨s, hs, ⟨hdropped, hread, hrefused, hactive, hpermits⟩,
    fun m hm => hone m 0 7 hm hread, (hflag 7).mpr ⟨0, Reading.active hread⟩,
    fun m hm => hunique m 2 8 hm hactive, honce, (hheld 0 7 hread).1, hfree⟩

/-- **Native sampling comes to rest.** When nothing can happen but new calls and cancellations,
no call waits for a permit, and no guard is left. -/
theorem sampling_comes_to_rest (h : Reaches SamplingState.step (new : SamplingState α) s)
    (hr : s.AtRest) : s.Idle ∧ s.Free :=
  have hi := inv_of_reaches h
  have hidle := hi.idle_of_atRest hr
  ⟨hidle, hi.free_of_idle hidle⟩

end Shepherd
