import Shepherd.Conc.Guards
import Shepherd.Conc.Steps
import Shepherd.Domain.Types

/-!
# Native Sampling

A native sample is read by a blocking task, so that a read that hangs does not stall the
runtime. `SamplingPool::run` bounds these tasks: a call sets the flag of its child, waits for one
of 16 permits, and moves the guards of both into the closure that reads. A call that is dropped
while it waits drops its guards itself; a call that is dropped later leaves them to the closure,
which drops them after its read has returned or panicked.

* `SamplingState` — the semaphore and the flags of a pool, its calls and their blocking tasks.
* `step` — one atomic operation of a call or of a task, or a cancellation at an await. The
  semaphore may serve its waiters in any order.
* `ledger` — who has which guard. Every step is a move of the ledger, or moves a guard from a
  call to its task.

Nothing closes the semaphore, so the error of a closed pool is never returned.
-/

namespace Shepherd

open Conc

/-! ### Calls and blocking tasks -/

/-- Error sampling a process. -/
inductive StatsError where
  | notReady (process : ProcessId)
  | unknownProcess (process : ProcessId)
  | backend (message : String)
  deriving DecidableEq, Repr

/-- The semaphore of a `SamplingPool`. -/
structure Semaphore where
  permits : ℕ
  closed : Bool
  deriving DecidableEq, Repr

/-- `SamplingPool::default()`. -/
def samplingPool : Semaphore :=
  ⟨16, false⟩

/-- The guard of the flag of a child: dropping it stores `false`. -/
structure ActiveSample where
  flag : ℕ
  deriving DecidableEq, Repr

variable {α : Type}

/-- How a native read ends. The panic comes with the text of its `JoinError`. -/
inductive ReadOutcome (α : Type) where
  | returned (result : Except StatsError α)
  | panicked (error : String)
  deriving DecidableEq

/-- What the call makes of the joined task. -/
def ReadOutcome.joined : ReadOutcome α → Except StatsError α
  | .returned result => result
  | .panicked error => .error (.backend ("native sample failed: " ++ error))

/-- Where a call of `run` is. -/
inductive SampleCall (α : Type) where
  /-- In `acquire_owned().await`, with the flag set. -/
  | acquiring (active : ActiveSample)
  /-- With a permit, before `spawn_blocking`. -/
  | acquired (active : ActiveSample)
  /-- In the await of the blocking task. -/
  | joining
  /-- Returns early, or its future is dropped: before the drop of the guard. -/
  | leaving (active : ActiveSample) (result : Option (Except StatsError α))
  | returned (result : Except StatsError α)
  | dropped
  deriving DecidableEq

namespace SampleCall

/-- The guard of a call: from the exchange of the flag until it is moved or dropped. -/
def active : SampleCall α → Option ActiveSample
  | .acquiring active | .acquired active | .leaving active _ => some active
  | _ => none

/-- The call has a permit. -/
def hasCapacity : SampleCall α → Bool
  | .acquired _ => true
  | _ => false

end SampleCall

/-- Where the blocking task of a call is. -/
inductive SampleRead (α : Type) where
  /-- In the queue of the blocking threads. -/
  | submitted (active : ActiveSample)
  /-- In `read()`. -/
  | reading (active : ActiveSample)
  /-- Before the drop of `_capacity`. -/
  | ended (active : ActiveSample) (outcome : ReadOutcome α)
  /-- Before the drop of `_active`. -/
  | releasing (active : ActiveSample) (outcome : ReadOutcome α)
  | finished (outcome : ReadOutcome α)
  deriving DecidableEq

namespace SampleRead

/-- The guard of a task, until it is dropped. -/
def active : SampleRead α → Option ActiveSample
  | .submitted active | .reading active | .ended active _ | .releasing active _ => some active
  | .finished _ => none

/-- The task has a permit. -/
def hasCapacity : SampleRead α → Bool
  | .submitted _ | .reading _ | .ended _ _ => true
  | _ => false

end SampleRead

/-- A pool, the flags of the children, the calls of `run` and their blocking tasks, and the log
of what happened to the guards. -/
structure SamplingState (α : Type) where
  pool : Semaphore
  flags : ℕ → Bool
  calls : ℕ → Option (SampleCall α)
  reads : ℕ → Option (SampleRead α)
  log : List (ℕ × GuardEvent ℕ)

/-- What can happen next. -/
inductive SamplingAction (α : Type) where
  /-- A call is polled for the first time. -/
  | start (call flag : ℕ)
  /-- The semaphore serves a call. -/
  | acquire (call : ℕ)
  /-- A call submits its read. -/
  | submit (call : ℕ)
  /-- A read starts. -/
  | enter (call : ℕ)
  /-- A read returns, or panics. -/
  | finish (call : ℕ) (outcome : ReadOutcome α)
  /-- A task drops its permit. -/
  | dropCapacity (call : ℕ)
  /-- A task drops the guard of its flag. -/
  | dropActive (call : ℕ)
  /-- A call sees that its task is over. -/
  | join (call : ℕ)
  /-- A call is dropped at an await. -/
  | cancel (call : ℕ)
  /-- A call that returns early or is dropped drops the guard of its flag. -/
  | leave (call : ℕ)

namespace SamplingState

/-- A new pool, with every flag unset. -/
def new : SamplingState α where
  pool := samplingPool
  flags := fun _ => false
  calls := fun _ => none
  reads := fun _ => none
  log := []

/-- Moves a call. -/
def setCall (s : SamplingState α) (n : ℕ) (c : SampleCall α) : SamplingState α :=
  { s with calls := Function.update s.calls n (some c) }

/-- Moves a blocking task. -/
def setRead (s : SamplingState α) (n : ℕ) (r : SampleRead α) : SamplingState α :=
  { s with reads := Function.update s.reads n (some r) }

/-- The exchange of a flag from `false` to `true`. -/
def setFlag (s : SamplingState α) (n flag : ℕ) : SamplingState α :=
  { s with flags := Function.update s.flags flag true, log := (n, .raised flag) :: s.log }

/-- The drop of an `ActiveSample`. -/
def dropFlag (s : SamplingState α) (n : ℕ) (active : ActiveSample) : SamplingState α :=
  { s with
    flags := Function.update s.flags active.flag false
    log := (n, .lowered active.flag) :: s.log }

/-- A permit of the semaphore is taken. -/
def takePermit (s : SamplingState α) (n : ℕ) : SamplingState α :=
  { s with
    pool := { s.pool with permits := s.pool.permits - 1 }
    log := (n, .acquired) :: s.log }

/-- The drop of an `OwnedSemaphorePermit`. -/
def dropPermit (s : SamplingState α) (n : ℕ) : SamplingState α :=
  { s with
    pool := { s.pool with permits := s.pool.permits + 1 }
    log := (n, .permitReleased) :: s.log }

/-- One step. -/
def step (s : SamplingState α) : SamplingAction α → Option (SamplingState α)
  | .start n flag =>
      if (s.calls n).isNone then
        if s.flags flag then
          some (s.setCall n
            (.returned (.error (.backend "previous native sample still running"))))
        else some ((s.setFlag n flag).setCall n (.acquiring ⟨flag⟩))
      else none
  | .acquire n =>
      match s.calls n with
      | some (.acquiring active) =>
          if s.pool.closed then
            some (s.setCall n
              (.leaving active (some (.error (.backend "native sampling pool closed")))))
          else if 0 < s.pool.permits then some ((s.takePermit n).setCall n (.acquired active))
          else none
      | _ => none
  | .submit n =>
      match s.calls n with
      | some (.acquired active) => some ((s.setCall n .joining).setRead n (.submitted active))
      | _ => none
  | .enter n =>
      match s.reads n with
      | some (.submitted active) => some (s.setRead n (.reading active))
      | _ => none
  | .finish n outcome =>
      match s.reads n with
      | some (.reading active) => some (s.setRead n (.ended active outcome))
      | _ => none
  | .dropCapacity n =>
      match s.reads n with
      | some (.ended active outcome) =>
          some ((s.dropPermit n).setRead n (.releasing active outcome))
      | _ => none
  | .dropActive n =>
      match s.reads n with
      | some (.releasing active outcome) =>
          some ((s.dropFlag n active).setRead n (.finished outcome))
      | _ => none
  | .join n =>
      match s.calls n, s.reads n with
      | some .joining, some (.finished outcome) => some (s.setCall n (.returned outcome.joined))
      | _, _ => none
  | .cancel n =>
      match s.calls n with
      | some (.acquiring active) => some (s.setCall n (.leaving active none))
      -- the permit was assigned, but the call was not polled since
      | some (.acquired active) => some ((s.dropPermit n).setCall n (.leaving active none))
      -- the task goes on without the call
      | some .joining => some (s.setCall n .dropped)
      | _ => none
  | .leave n =>
      match s.calls n with
      | some (.leaving active (some result)) =>
          some ((s.dropFlag n active).setCall n (.returned result))
      | some (.leaving active none) => some ((s.dropFlag n active).setCall n .dropped)
      | _ => none

/-! ### What holds of the calls and the tasks -/

/-- A call for the flag is queued: it has set the flag, and has neither handed the guard over to
its task nor dropped it. -/
def Queued (s : SamplingState α) (n flag : ℕ) : Prop :=
  (s.calls n).bind SampleCall.active = some ⟨flag⟩

/-- The read of a call is submitted and its task has not finished. -/
def Submitted (s : SamplingState α) (n flag : ℕ) : Prop :=
  (s.reads n).bind SampleRead.active = some ⟨flag⟩

/-- The native read of a call is running. -/
def Reading (s : SamplingState α) (n flag : ℕ) : Prop :=
  s.reads n = some (.reading ⟨flag⟩)

/-- The flag whose guard a call has, or its task. -/
def guard (s : SamplingState α) (n : ℕ) : Option ℕ :=
  (((s.calls n).bind SampleCall.active).or ((s.reads n).bind SampleRead.active)).map
    ActiveSample.flag

/-- A call has a permit, or its task. -/
def capacity (s : SamplingState α) (n : ℕ) : Bool :=
  (s.calls n).any SampleCall.hasCapacity || (s.reads n).any SampleRead.hasCapacity

/-- The ledger of the guards. -/
def ledger (s : SamplingState α) : Ledger ℕ ℕ where
  free := s.pool.permits
  flags := s.flags
  flag := s.guard
  permit := s.capacity
  log := s.log

/-- The invariant: the guards are accounted for, a call that has a task has handed its guards
over, and what a call did is in the log. -/
structure Inv (s : SamplingState α) : Prop where
  ledger : s.ledger.Inv 16
  opened : s.pool.closed = false
  handed : ∀ n r, s.reads n = some r →
    ∃ c, s.calls n = some c ∧ c.active = none ∧ c.hasCapacity = false
  fresh : ∀ n ev, s.calls n = none → (n, ev) ∉ s.log
  waiting : ∀ n active, s.calls n = some (.acquiring active) → (n, .acquired) ∉ s.log

/-- A new sampler has all its permits, and no flag is raised. -/
theorem inv_new : (new : SamplingState α).Inv where
  ledger := Ledger.inv_new 16
  opened := rfl
  handed := nofun
  fresh _ _ _ := List.not_mem_nil
  waiting := nofun

/-! ### Moves -/

variable {s s' : SamplingState α} {n flag : ℕ} {c : SampleCall α} {r : SampleRead α}
  {active : ActiveSample}

/-- Only one call and its task differ. -/
structure Moves (n : ℕ) (s s' : SamplingState α) : Prop where
  calls : ∀ m, m ≠ n → s'.calls m = s.calls m
  reads : ∀ m, m ≠ n → s'.reads m = s.reads m

/-- A step of one call leaves the others alone. -/
theorem moves_setCall (s t : SamplingState α) (hc : t.calls = s.calls) (hr : t.reads = s.reads)
    (n : ℕ) (c : SampleCall α) : Moves n s (t.setCall n c) :=
  ⟨fun _ hm => (Function.update_of_ne hm ..).trans (congrFun hc _), fun _ _ => congrFun hr _⟩

/-- A step of one read leaves the others alone. -/
theorem moves_setRead (s t : SamplingState α) (hc : t.calls = s.calls) (hr : t.reads = s.reads)
    (n : ℕ) (r : SampleRead α) : Moves n s (t.setRead n r) :=
  ⟨fun _ _ => congrFun hc _, fun _ hm => (Function.update_of_ne hm ..).trans (congrFun hr _)⟩

/-- Two changes of the same number. -/
theorem Moves.trans {s₁ s₂ : SamplingState α} (hm : Moves n s s₁) (hm' : Moves n s₁ s₂) :
    Moves n s s₂ :=
  ⟨fun m hmn => (hm'.calls m hmn).trans (hm.calls m hmn),
    fun m hmn => (hm'.reads m hmn).trans (hm.reads m hmn)⟩

/-- The guard of a number after a step of its call: with the call, or with its read. -/
@[simp] theorem guard_setCall (s : SamplingState α) (n : ℕ) (c : SampleCall α) :
    (s.setCall n c).guard n =
      (c.active.or ((s.reads n).bind SampleRead.active)).map ActiveSample.flag := by
  simp [guard, setCall]

/-- The guard of a number after a step of its read. -/
@[simp] theorem guard_setRead (s : SamplingState α) (n : ℕ) (r : SampleRead α) :
    (s.setRead n r).guard n =
      (((s.calls n).bind SampleCall.active).or r.active).map ActiveSample.flag := by
  simp [guard, setRead]

/-- The permit of a number after a step of its call. -/
@[simp] theorem capacity_setCall (s : SamplingState α) (n : ℕ) (c : SampleCall α) :
    (s.setCall n c).capacity n = (c.hasCapacity || (s.reads n).any SampleRead.hasCapacity) := by
  simp [capacity, setCall]

/-- The permit of a number after a step of its read. -/
@[simp] theorem capacity_setRead (s : SamplingState α) (n : ℕ) (r : SampleRead α) :
    (s.setRead n r).capacity n = ((s.calls n).any SampleCall.hasCapacity || r.hasCapacity) := by
  simp [capacity, setRead]

/-- The guards of the other numbers stay where they are. -/
theorem Moves.guard (hm : Moves n s s') : s'.guard = Function.update s.guard n (s'.guard n) := by
  funext m
  by_cases hmn : m = n
  · subst hmn
    rw [Function.update_self]
  · rw [Function.update_of_ne hmn, SamplingState.guard, SamplingState.guard, hm.calls m hmn,
      hm.reads m hmn]

/-- The permits of the other numbers stay where they are. -/
theorem Moves.capacity (hm : Moves n s s') :
    s'.capacity = Function.update s.capacity n (s'.capacity n) := by
  funext m
  by_cases hmn : m = n
  · subst hmn
    rw [Function.update_self]
  · rw [Function.update_of_ne hmn, SamplingState.capacity, SamplingState.capacity,
      hm.calls m hmn, hm.reads m hmn]

/-- The ledger after a move. -/
theorem Moves.ledger (hm : Moves n s s') : s'.ledger =
    ⟨s'.pool.permits, s'.flags, Function.update s.guard n (s'.guard n),
      Function.update s.capacity n (s'.capacity n), s'.log⟩ := by
  rw [SamplingState.ledger, ← hm.guard, ← hm.capacity]

section Moves

variable (hm : Moves n s s')
include hm

/-- A move that changes no guard. -/
theorem Moves.ledger_eq (hp : s'.pool = s.pool) (hf : s'.flags = s.flags) (hl : s'.log = s.log)
    (hg : s'.guard n = s.guard n) (hc : s'.capacity n = s.capacity n) :
    s'.ledger = s.ledger := by
  rw [hm.ledger, hp, hf, hl, hg, hc, Function.update_eq_self, Function.update_eq_self]
  rfl

/-- A call that sets a flag raises it in the ledger. -/
theorem Moves.ledger_raise (hp : s'.pool = s.pool)
    (hf : s'.flags = Function.update s.flags flag true) (hl : s'.log = (n, .raised flag) :: s.log)
    (hg : s'.guard n = some flag) (hc : s'.capacity n = s.capacity n) :
    s'.ledger = s.ledger.raise n flag := by
  rw [hm.ledger, hp, hf, hl, hg, hc, Function.update_eq_self]
  rfl

/-- A call that gets a permit acquires it in the ledger. -/
theorem Moves.ledger_acquire (hp : s'.pool.permits = s.pool.permits - 1)
    (hf : s'.flags = s.flags) (hl : s'.log = (n, .acquired) :: s.log)
    (hg : s'.guard n = s.guard n) (hc : s'.capacity n = true) :
    s'.ledger = s.ledger.acquire n := by
  rw [hm.ledger, hp, hf, hl, hg, hc, Function.update_eq_self]
  rfl

/-- A permit that is given back is released in the ledger. -/
theorem Moves.ledger_release (hp : s'.pool.permits = s.pool.permits + 1)
    (hf : s'.flags = s.flags) (hl : s'.log = (n, .permitReleased) :: s.log)
    (hg : s'.guard n = s.guard n) (hc : s'.capacity n = false) :
    s'.ledger = s.ledger.release n := by
  rw [hm.ledger, hp, hf, hl, hg, hc, Function.update_eq_self]
  rfl

/-- A guard that is dropped lowers its flag in the ledger. -/
theorem Moves.ledger_lower (hp : s'.pool = s.pool)
    (hf : s'.flags = Function.update s.flags flag false)
    (hl : s'.log = (n, .lowered flag) :: s.log) (hg : s'.guard n = none)
    (hc : s'.capacity n = s.capacity n) : s'.ledger = s.ledger.lower n flag := by
  rw [hm.ledger, hp, hf, hl, hg, hc, Function.update_eq_self]
  rfl

end Moves

/-- **A move keeps the invariant** when it keeps the ledger in order. -/
theorem Inv.move (h : s.Inv) (hm : Moves n s s') (hl : s'.ledger.Inv 16)
    (hp : s'.pool.closed = s.pool.closed)
    (hlog : s'.log = s.log ∨ ∃ ev, s'.log = (n, ev) :: s.log) (hc : s'.calls n = some c)
    (hr : ∀ r, s'.reads n = some r → c.active = none ∧ c.hasCapacity = false)
    (hw : ∀ active, c = .acquiring active → (n, .acquired) ∉ s'.log) : s'.Inv := by
  have hold : ∀ m ev, m ≠ n → (m, ev) ∈ s'.log → (m, ev) ∈ s.log := by
    intro m ev hmn hmem
    rcases hlog with hlog | ⟨ev', hlog⟩
    · exact hlog ▸ hmem
    · rw [hlog] at hmem
      exact (List.mem_cons.mp hmem).resolve_left fun heq => hmn (Prod.mk.inj heq).1
  refine
    { ledger := hl
      opened := hp.trans h.opened
      handed := fun m r hmr => ?_
      fresh := fun m ev hmc hmem => ?_
      waiting := fun m active hmc hmem => ?_ }
  · by_cases hmn : m = n
    · subst hmn
      exact ⟨c, hc, hr r hmr⟩
    · rw [hm.calls m hmn]
      exact h.handed m r (hm.reads m hmn ▸ hmr)
  · by_cases hmn : m = n
    · subst hmn
      cases hc.symm.trans hmc
    · exact h.fresh m ev (hm.calls m hmn ▸ hmc) (hold m ev hmn hmem)
  · by_cases hmn : m = n
    · subst hmn
      exact hw active (Option.some.inj (hc.symm.trans hmc)) hmem
    · exact h.waiting m active (hm.calls m hmn ▸ hmc) (hold m _ hmn hmem)

/-- A call that has a guard has no task yet. -/
theorem Inv.unsubmitted (h : s.Inv) (hc : s.calls n = some c) (ha : c.active = some active) :
    s.reads n = none := by
  rw [Option.eq_none_iff_forall_ne_some]
  intro r hr
  obtain ⟨c', hc', ha', -⟩ := h.handed n r hr
  obtain rfl := Option.some.inj (hc.symm.trans hc')
  cases ha.symm.trans ha'

/-- A call that has not started has no task. -/
theorem Inv.unstarted (h : s.Inv) (hc : s.calls n = none) : s.reads n = none := by
  rw [Option.eq_none_iff_forall_ne_some]
  intro r hr
  obtain ⟨c, hc', -⟩ := h.handed n r hr
  cases hc.symm.trans hc'

/-- A move that touches no guard keeps the invariant. -/
theorem Inv.keep (h : s.Inv) (hm : Moves n s s') (hp : s'.pool = s.pool)
    (hf : s'.flags = s.flags) (hl : s'.log = s.log) (hg : s'.guard n = s.guard n)
    (hcap : s'.capacity n = s.capacity n) (hc : s'.calls n = some c)
    (hr : ∀ r, s'.reads n = some r → c.active = none ∧ c.hasCapacity = false)
    (hw : ∀ active, c ≠ .acquiring active) : s'.Inv := by
  refine h.move hm ?_ (congrArg _ hp) (.inl hl) hc hr fun active ha => absurd ha (hw active)
  rw [hm.ledger_eq hp hf hl hg hcap]
  exact h.ledger

/-! ### Steps -/

/-- Before there is a read, the guard is with the call. -/
theorem guard_of_call (hc : s.calls n = some c) (hr : s.reads n = none) :
    s.guard n = c.active.map ActiveSample.flag := by
  simp [guard, hc, hr]

/-- Before there is a read, the permit is with the call. -/
theorem capacity_of_call (hc : s.calls n = some c) (hr : s.reads n = none) :
    s.capacity n = c.hasCapacity := by
  simp [capacity, hc, hr]

/-- A call starts: its flag is set already, or it sets it and waits for a permit. -/
theorem Inv.start (h : s.Inv) (hs : s.step (.start n flag) = some s') : s'.Inv := by
  rw [SamplingState.step, Option.ite_none_right_eq_some] at hs
  obtain ⟨hc, hs⟩ := hs
  have hnone : s.calls n = none := Option.isNone_iff_eq_none.mp hc
  have hr := h.unstarted hnone
  have hg : s.guard n = none := by simp [guard, hnone, hr]
  have hcap : s.capacity n = false := by simp [capacity, hnone, hr]
  split at hs
  · obtain rfl := Option.some.inj hs
    exact h.keep (moves_setCall s s rfl rfl n _) rfl rfl rfl (by simp [hr, hg, SampleCall.active])
      (by simp [hr, hcap, SampleCall.hasCapacity]) (Function.update_self ..)
      (fun _ _ => ⟨rfl, rfl⟩) nofun
  · next hf =>
      obtain rfl := Option.some.inj hs
      have hm : Moves n s ((s.setFlag n flag).setCall n (.acquiring ⟨flag⟩)) :=
        moves_setCall s (s.setFlag n flag) rfl rfl n _
      refine h.move hm ?_ rfl (.inr ⟨_, rfl⟩) (Function.update_self ..) ?_ fun _ _ hmem => ?_
      · rw [hm.ledger_raise rfl rfl rfl (by simp [SampleCall.active])
          (by simp [setFlag, hr, hcap, SampleCall.hasCapacity])]
        exact h.ledger.raise (Bool.not_eq_true _ ▸ hf) fun g => h.fresh n _ hnone
      · exact fun r hr' => nomatch hr.symm.trans hr'
      · exact h.fresh n _ hnone ((List.mem_cons.mp hmem).resolve_left nofun)

/-- The semaphore serves a call that waits. -/
theorem Inv.acquire (h : s.Inv) (hs : s.step (.acquire n) = some s') : s'.Inv := by
  rw [SamplingState.step] at hs
  split at hs
  · next active hc =>
      have hr := h.unsubmitted hc rfl
      rw [if_neg (Bool.not_eq_true _ ▸ h.opened), Option.ite_none_right_eq_some] at hs
      obtain ⟨hfree, ⟨⟩⟩ := hs
      have hm : Moves n s ((s.takePermit n).setCall n (.acquired active)) :=
        moves_setCall s (s.takePermit n) rfl rfl n _
      have hg := guard_of_call hc hr
      refine h.move hm ?_ rfl (.inr ⟨_, rfl⟩) (Function.update_self ..) ?_ nofun
      · rw [hm.ledger_acquire rfl rfl rfl (by simp [takePermit, hr, hg, SampleCall.active])
          (by simp [SampleCall.hasCapacity])]
        exact h.ledger.acquire hfree (h.waiting n active hc)
      · exact fun r hr' => nomatch hr.symm.trans hr'
  · cases hs

/-- A call hands its guards over to its task. -/
theorem Inv.submit (h : s.Inv) (hs : s.step (.submit n) = some s') : s'.Inv := by
  rw [SamplingState.step] at hs
  split at hs
  · next active hc =>
      have hr := h.unsubmitted hc rfl
      obtain rfl := Option.some.inj hs
      have hm : Moves n s ((s.setCall n .joining).setRead n (.submitted active)) :=
        (moves_setCall s s rfl rfl n _).trans (moves_setRead _ _ rfl rfl n _)
      have hg := guard_of_call hc hr
      have hcap := capacity_of_call hc hr
      refine h.keep hm rfl rfl rfl ?_ ?_ (Function.update_self ..) (fun _ _ => ⟨rfl, rfl⟩) nofun
      · simp [setCall, hg, SampleCall.active, SampleRead.active]
      · simp [setCall, hcap, SampleCall.hasCapacity, SampleRead.hasCapacity]
  · cases hs

/-- The guards of a call that has a task are with the task. -/
theorem Inv.guard_of_read (h : s.Inv) (hr : s.reads n = some r) :
    s.guard n = r.active.map ActiveSample.flag := by
  obtain ⟨c, hc, ha, -⟩ := h.handed n r hr
  simp [guard, hc, hr, ha]

/-- Once there is a read, the permit is with it. -/
theorem Inv.capacity_of_read (h : s.Inv) (hr : s.reads n = some r) :
    s.capacity n = r.hasCapacity := by
  obtain ⟨c, hc, -, hcap⟩ := h.handed n r hr
  simp [capacity, hc, hr, hcap]

/-- The guards after a step of a task. -/
theorem Inv.guard_setRead (h : s.Inv) (hr : s.reads n = some r) {t : SamplingState α}
    (hc : t.calls = s.calls) (r' : SampleRead α) :
    (t.setRead n r').guard n = r'.active.map ActiveSample.flag ∧
      (t.setRead n r').capacity n = r'.hasCapacity := by
  obtain ⟨c, hc', ha, hcap⟩ := h.handed n r hr
  simp [hc, hc', ha, hcap]

/-- **A step of a task** keeps the invariant when it keeps the ledger in order. -/
theorem Inv.moveRead (h : s.Inv) (hr : s.reads n = some r) {t : SamplingState α}
    {r' : SampleRead α} (hcalls : t.calls = s.calls) (hreads : t.reads = s.reads)
    (hl : (t.setRead n r').ledger.Inv 16) (hp : t.pool.closed = s.pool.closed)
    (hlog : t.log = s.log ∨ ∃ ev, t.log = (n, ev) :: s.log) : (t.setRead n r').Inv := by
  obtain ⟨c, hc, ha, hcap⟩ := h.handed n r hr
  refine h.move (moves_setRead s t hcalls hreads n r') hl hp hlog ((congrFun hcalls n).trans hc)
    (fun _ _ => ⟨ha, hcap⟩) ?_
  rintro active rfl
  cases ha

/-- A task goes on with its guards. -/
theorem Inv.advance (h : s.Inv) (hr : s.reads n = some r) {r' : SampleRead α}
    (ha : r'.active = r.active) (hcap : r'.hasCapacity = r.hasCapacity) :
    (s.setRead n r').Inv := by
  obtain ⟨hg, hc⟩ := h.guard_setRead hr rfl r'
  refine h.moveRead hr rfl rfl ?_ rfl (.inl rfl)
  rw [(moves_setRead s s rfl rfl n r').ledger_eq rfl rfl rfl
    (by rw [hg, ha, h.guard_of_read hr]) (by rw [hc, hcap, h.capacity_of_read hr])]
  exact h.ledger

/-- A read ends: its task gives the permit back. -/
theorem Inv.dropCapacity (h : s.Inv) (hs : s.step (.dropCapacity n) = some s') : s'.Inv := by
  rw [SamplingState.step] at hs
  split at hs
  · next active outcome hr =>
      obtain rfl := Option.some.inj hs
      obtain ⟨hg, hc⟩ := h.guard_setRead (t := s.dropPermit n) hr rfl (.releasing active outcome)
      refine h.moveRead hr rfl rfl ?_ rfl (.inr ⟨_, rfl⟩)
      rw [(moves_setRead s (s.dropPermit n) rfl rfl n _).ledger_release rfl rfl rfl
        (hg.trans (h.guard_of_read hr).symm) hc]
      exact h.ledger.release (h.capacity_of_read hr)
  · cases hs

/-- And then unsets the flag. -/
theorem Inv.dropActive (h : s.Inv) (hs : s.step (.dropActive n) = some s') : s'.Inv := by
  rw [SamplingState.step] at hs
  split at hs
  · next active outcome hr =>
      obtain rfl := Option.some.inj hs
      obtain ⟨hg, hc⟩ := h.guard_setRead (t := s.dropFlag n active) hr rfl (.finished outcome)
      refine h.moveRead hr rfl rfl ?_ rfl (.inr ⟨_, rfl⟩)
      rw [(moves_setRead s (s.dropFlag n active) rfl rfl n _).ledger_lower rfl rfl rfl hg
        (hc.trans (h.capacity_of_read hr).symm)]
      exact h.ledger.lower (h.guard_of_read hr)
  · cases hs

/-- A call that waits for its task has handed its guards over. -/
theorem Inv.leaveTask (h : s.Inv) (hc : s.calls n = some .joining) (ha : c.active = none)
    (hcap : c.hasCapacity = false) : (s.setCall n c).Inv := by
  refine h.keep (moves_setCall s s rfl rfl n c) rfl rfl rfl ?_ ?_ (Function.update_self ..)
    (fun _ _ => ⟨ha, hcap⟩) ?_
  · rw [SamplingState.guard_setCall, guard, hc, ha]
    rfl
  · rw [capacity_setCall, capacity, hc, hcap]
    rfl
  · rintro active rfl
    cases ha

/-- A call is dropped: while it waits for a permit it is left with the guard of its flag, after
that its task goes on. -/
theorem Inv.cancel (h : s.Inv) (hs : s.step (.cancel n) = some s') : s'.Inv := by
  rw [SamplingState.step] at hs
  split at hs
  · next active hc =>
      have hr := h.unsubmitted hc rfl
      obtain rfl := Option.some.inj hs
      exact h.keep (moves_setCall s s rfl rfl n _) rfl rfl rfl
        (by simp [hr, guard_of_call hc hr, SampleCall.active])
        (by simp [hr, capacity_of_call hc hr, SampleCall.hasCapacity])
        (Function.update_self ..) (fun r hr' => nomatch hr.symm.trans hr') nofun
  · next active hc =>
      have hr := h.unsubmitted hc rfl
      obtain rfl := Option.some.inj hs
      have hm : Moves n s ((s.dropPermit n).setCall n (.leaving active none)) :=
        moves_setCall s (s.dropPermit n) rfl rfl n _
      refine h.move hm ?_ rfl (.inr ⟨_, rfl⟩) (Function.update_self ..) ?_ nofun
      · rw [hm.ledger_release rfl rfl rfl
          (by simp [dropPermit, hr, guard_of_call hc hr, SampleCall.active])
          (by simp [dropPermit, hr, SampleCall.hasCapacity])]
        exact h.ledger.release (capacity_of_call hc hr)
      · exact fun r hr' => nomatch hr.symm.trans hr'
  · next hc =>
      obtain rfl := Option.some.inj hs
      exact h.leaveTask hc rfl rfl
  · cases hs

/-- A call that leaves unsets its flag. -/
theorem Inv.leaveCall (h : s.Inv) {result : Option (Except StatsError α)}
    (hc : s.calls n = some (.leaving active result)) (ha : c.active = none)
    (hcap : c.hasCapacity = false) : ((s.dropFlag n active).setCall n c).Inv := by
  have hr := h.unsubmitted hc rfl
  have hm : Moves n s ((s.dropFlag n active).setCall n c) :=
    moves_setCall s (s.dropFlag n active) rfl rfl n c
  refine h.move hm ?_ rfl (.inr ⟨_, rfl⟩) (Function.update_self ..) (fun _ _ => ⟨ha, hcap⟩) ?_
  · have hcap' : ((s.dropFlag n active).setCall n c).capacity n = s.capacity n := by
      rw [capacity_setCall, hcap, capacity_of_call hc hr]
      simp [dropFlag, hr, SampleCall.hasCapacity]
    rw [hm.ledger_lower rfl rfl rfl (by simp [dropFlag, hr, ha]) hcap']
    exact h.ledger.lower (guard_of_call hc hr)
  · rintro active rfl
    cases ha

/-- **Every step keeps the invariant.** -/
theorem Inv.step (h : s.Inv) {a : SamplingAction α} (hs : s.step a = some s') : s'.Inv := by
  cases a with
  | start n flag => exact h.start hs
  | acquire n => exact h.acquire hs
  | submit n => exact h.submit hs
  | enter n =>
      rw [SamplingState.step] at hs
      split at hs
      · next active hr =>
          obtain rfl := Option.some.inj hs
          exact h.advance hr rfl rfl
      · cases hs
  | finish n outcome =>
      rw [SamplingState.step] at hs
      split at hs
      · next active hr =>
          obtain rfl := Option.some.inj hs
          exact h.advance hr rfl rfl
      · cases hs
  | dropCapacity n => exact h.dropCapacity hs
  | dropActive n => exact h.dropActive hs
  | join n =>
      rw [SamplingState.step] at hs
      split at hs
      · next outcome hc _ =>
          obtain rfl := Option.some.inj hs
          exact h.leaveTask hc rfl rfl
      · cases hs
  | cancel n => exact h.cancel hs
  | leave n =>
      rw [SamplingState.step] at hs
      split at hs
      · next active result hc =>
          obtain rfl := Option.some.inj hs
          exact h.leaveCall hc rfl rfl
      · next active hc =>
          obtain rfl := Option.some.inj hs
          exact h.leaveCall hc rfl rfl
      · cases hs

/-- The invariant holds in every reachable state. -/
theorem inv_of_reaches (h : Reaches SamplingState.step (new : SamplingState α) s) : s.Inv :=
  h.invariant inv_new fun _ _ _ hi hs => hi.step hs

end SamplingState

end Shepherd
