import Shepherd.Conc.Steps
import Shepherd.Domain.Types

/-!
# Waiting on the Unix Backend

Each child has a worker task that waits on the operating system, publishes the result on a
watch channel, and leaves its loop when the child was reaped or when its ownership was
lost (`ECHILD`); after any other error it waits for a retry token first. A worker that has
left its loop lets the output readers drain and drops its end of the retry channel last.

A call of `wait` subscribes to the watch channel. If the value it finds is an error it
offers a retry token and, unless the retry channel is closed, awaits a newer publication;
then it takes the first value it finds and, if that is an exit, removes the child's slot.
Any number of calls run beside the worker and beside kill paths that offer tokens too.

The watch channel is its number of publications and its last value; a receiver is the
number of publications it has seen.
-/

namespace Shepherd

open Conc

/-- The result of an OS wait: an exit, an error, or the error that says the child is no
longer ours (`ECHILD`). -/
inductive OsWait where
  | exited (raw : RawExit)
  | failed (message : String)
  | ownershipLost
  deriving DecidableEq, Repr

namespace OsWait

/-- The value published for a result. -/
def published : OsWait → Except String RawExit
  | .exited raw => .ok raw
  | .failed message => .error message
  | .ownershipLost => .error "No child processes (os error 10)"

/-- Whether the worker leaves its loop after publishing the result. -/
def isFinal : OsWait → Bool
  | .exited _ | .ownershipLost => true
  | .failed _ => false

end OsWait

/-- Where the worker of a child is. -/
inductive WaitWorker where
  /-- In `wait_os_child`. -/
  | waiting
  /-- Before the publication of a result. -/
  | publishing (result : OsWait)
  /-- Before the test for leaving the loop. -/
  | published (result : OsWait)
  /-- In `retry_rx.recv()`. -/
  | receiving
  /-- Out of the loop, in `finish_readers`. -/
  | draining
  /-- Over; its end of the retry channel is dropped. -/
  | stopped
  deriving DecidableEq, Repr

/-- The worker has not left its loop. -/
def WaitWorker.inLoop : WaitWorker → Bool
  | .draining | .stopped => false
  | _ => true

/-- Where a call of `wait` is. -/
inductive WaitCall where
  /-- Subscribed, before the first read of the channel. -/
  | subscribed
  /-- Found an error, before `retry.try_send`. -/
  | retrying (seen : ℕ)
  /-- Suspended in the `changed` after an accepted token. -/
  | awaitingRetry (seen : ℕ)
  /-- At the head of the loop. -/
  | reading
  /-- Suspended in the `changed` of the loop. -/
  | awaiting (seen : ℕ)
  /-- Found an exit, before the slot is removed. -/
  | removing
  /-- Returned, or dropped. -/
  | returned
  deriving DecidableEq, Repr

/-- The call is suspended on the watch channel and has seen this many publications. -/
def WaitCall.suspended : WaitCall → Option ℕ
  | .awaitingRetry seen | .awaiting seen => some seen
  | _ => none

/-- The channels of a child, its worker, and the calls of `wait` for it. -/
structure WaitState where
  published : ℕ
  value : Option (Except String RawExit)
  tokens : ℕ
  registered : Bool
  worker : WaitWorker
  calls : ℕ → Option WaitCall

/-- What can happen next. -/
inductive WaitAction where
  /-- The worker takes its next step; the argument is the result of an OS wait. -/
  | work (result : OsWait)
  /-- A kill path offers a retry token. -/
  | offer
  /-- A call starts. -/
  | start (call : ℕ)
  /-- A call takes its next step. -/
  | run (call : ℕ)
  /-- A suspended call is dropped. -/
  | drop (call : ℕ)
  deriving DecidableEq, Repr

namespace WaitState

/-- A child that was just registered. -/
def start : WaitState where
  published := 0
  value := none
  tokens := 0
  registered := true
  worker := .waiting
  calls := fun _ => none

/-- Moves a call. -/
def move (s : WaitState) (n : ℕ) (c : WaitCall) : WaitState :=
  { s with calls := Function.update s.calls n (some c) }

/-- `try_send(())` on the retry channel, which holds one token. -/
def trySend (s : WaitState) : WaitState :=
  { s with tokens := 1 }

/-- The next step of the worker. Receiving may end without a token once the slot and its
sender are gone. -/
def work (s : WaitState) (result : OsWait) : Option WaitState :=
  match s.worker with
  | .waiting => some { s with worker := .publishing result }
  | .publishing r =>
      some { s with
        published := s.published + 1
        value := some r.published
        worker := .published r }
  | .published r => some { s with worker := if r.isFinal then .draining else .receiving }
  | .receiving =>
      if 0 < s.tokens then some { s with tokens := s.tokens - 1, worker := .waiting }
      else if s.registered then none
      else some { s with worker := .draining }
  | .draining => some { s with worker := .stopped }
  | .stopped => none

/-- `rx.changed()`: a newer publication, or every sender of the channel is gone. -/
def changed (s : WaitState) (n seen : ℕ) : Option WaitState :=
  if seen < s.published then some (s.move n .reading)
  else if !s.registered && s.worker == .stopped then some (s.move n .returned)
  else none

/-- The next step of a call. -/
def runCall (s : WaitState) (n : ℕ) : WaitCall → Option WaitState
  | .subscribed =>
      match s.value with
      | some (.error _) => some (s.move n (.retrying s.published))
      | _ => some (s.move n .reading)
  | .retrying seen =>
      if s.worker = .stopped then some (s.move n .reading)
      else some (s.trySend.move n (.awaitingRetry seen))
  | .awaitingRetry seen => s.changed n seen
  | .reading =>
      match s.value with
      | some (.ok _) => some (s.move n .removing)
      | some (.error _) => some (s.move n .returned)
      | none => some (s.move n (.awaiting s.published))
  | .awaiting seen => s.changed n seen
  | .removing => some { s.move n .returned with registered := false }
  | .returned => none

/-- One step. -/
def step (s : WaitState) : WaitAction → Option WaitState
  | .work result => s.work result
  | .offer =>
      if s.registered && s.worker != .stopped then some s.trySend else none
  | .start n =>
      if (s.calls n).isNone then
        some (s.move n (if s.registered then .subscribed else .returned))
      else none
  | .run n => (s.calls n).bind (s.runCall n)
  | .drop n =>
      match s.calls n with
      | some c => if c.suspended.isSome then some (s.move n .returned) else none
      | none => none

/-! ### Blocked calls -/

/-- No call is suspended without a newer publication while the worker has left its loop. -/
def NeverBlocked (s : WaitState) : Prop :=
  ∀ n c seen, s.calls n = some c → c.suspended = some seen → seen = s.published →
    s.worker.inLoop = true

/-- The worker has published its last result and still holds the retry channel open. -/
def closing (s : WaitState) : Bool :=
  match s.worker with
  | .published r => r.isFinal
  | .draining => true
  | _ => false

/-- The step does not offer the token of a call that has seen the last publication of a
worker that will not receive it any more. -/
def heard (s : WaitState) : WaitAction → Bool
  | .run n =>
      match s.calls n with
      | some (.retrying seen) => !(seen == s.published && s.closing)
      | _ => true
  | _ => true

/-- The worker will publish nothing any more. -/
def closed (s : WaitState) : Bool :=
  s.closing || s.worker == .stopped

/-- What a call knows. -/
def Knows (s : WaitState) : WaitCall → Prop
  | .retrying seen => seen ≤ s.published ∧ (seen = s.published → ∃ m, s.value = some (.error m))
  | .awaitingRetry seen => seen ≤ s.published ∧ (seen = s.published → s.closed = false)
  | .awaiting seen => seen = 0
  | .removing => ∃ raw, s.value = some (.ok raw)
  | _ => True

/-- **The invariant.** The value is that of the worker's last result; an exit is the last
one; the slot is removed after an exit only; and a call that offered its token and has seen
the last publication has a worker that goes on. -/
structure Inv (s : WaitState) : Prop where
  unpublished : s.value = none ↔ s.published = 0
  published : ∀ r, s.worker = .published r → s.value = some r.published
  receiving : s.worker = .receiving → ∃ m, s.value = some (.error m)
  final : s.worker.inLoop = false → s.value.isSome = true
  exited : ∀ raw, s.value = some (.ok raw) → s.closed = true
  slot : s.registered = false → ∃ raw, s.value = some (.ok raw)
  knows : ∀ n c, s.calls n = some c → s.Knows c

variable {s s' : WaitState}

/-- Nothing has been published at the start. -/
theorem inv_start : start.Inv where
  unpublished := by simp [start]
  published r h := by cases h
  receiving h := by cases h
  final h := by cases h
  exited raw h := by cases h
  slot h := by cases h
  knows n c h := by cases h

/-- A state whose calls never block. -/
theorem Inv.neverBlocked (h : s.Inv) : s.NeverBlocked := by
  intro n c seen hc hs hseen
  have hk := h.knows n c hc
  cases c with
  | awaitingRetry v =>
      obtain rfl : v = seen := Option.some.inj hs
      have hopen := hk.2 hseen
      cases hw : s.worker with
      | draining => rw [closed, closing, hw] at hopen; exact absurd hopen (by decide)
      | stopped => rw [closed, closing, hw] at hopen; exact absurd hopen (by decide)
      | _ => rfl
  | awaiting v =>
      obtain rfl : v = seen := Option.some.inj hs
      have hv : s.value = none := h.unpublished.mpr (hseen.symm.trans hk)
      cases hl : s.worker.inLoop with
      | true => rfl
      | false => exact absurd (h.final hl) (by simp [hv])
  | _ => exact absurd hs (by simp [WaitCall.suspended])

/-- What a call knows stays true while nothing is published and the worker goes on. -/
theorem Knows.mono {c : WaitCall} (h : s.Knows c) (hp : s'.published = s.published)
    (hv : s'.value = s.value) (ho : s.closed = false → s'.closed = false) : s'.Knows c := by
  cases c with
  | retrying seen => exact ⟨hp ▸ h.1, fun hs => hv ▸ h.2 (hs.trans hp)⟩
  | awaitingRetry seen => exact ⟨hp ▸ h.1, fun hs => ho (h.2 (hs.trans hp))⟩
  | awaiting seen => exact h
  | removing =>
      obtain ⟨raw, hr⟩ := h
      exact ⟨raw, hv.trans hr⟩
  | _ => trivial

/-- A publication is news for every suspended call. -/
theorem Knows.publish {c : WaitCall} {v : Except String RawExit} {w : WaitWorker}
    (h : s.Knows c) (hx : ∀ raw, s.value ≠ some (.ok raw)) :
    Knows { s with published := s.published + 1, value := some v, worker := w } c := by
  cases c with
  | retrying seen =>
      have hle : seen ≤ s.published := h.1
      refine ⟨Nat.le_succ_of_le hle, fun hs => ?_⟩
      have : seen = s.published + 1 := hs
      omega
  | awaitingRetry seen =>
      have hle : seen ≤ s.published := h.1
      refine ⟨Nat.le_succ_of_le hle, fun hs => ?_⟩
      have : seen = s.published + 1 := hs
      omega
  | awaiting seen => exact h
  | removing =>
      obtain ⟨raw, hr⟩ := h
      exact absurd hr (hx raw)
  | _ => trivial

/-- Moving a call to a place it knows enough for. -/
theorem Inv.move (h : s.Inv) {n : ℕ} {c : WaitCall} (hc : s.Knows c) : (s.move n c).Inv :=
  { h with
    knows := fun m d hd => by
      by_cases hm : m = n
      · subst hm
        obtain rfl : c = d := by simpa [WaitState.move] using hd
        exact hc
      · exact h.knows m d (by simpa [WaitState.move, hm] using hd) }

/-- **The worker's step.** -/
theorem Inv.work (h : s.Inv) {result : OsWait} (hs : s.work result = some s') : s'.Inv := by
  cases hw : s.worker with
  | waiting =>
      have hopen : s.closed = false := by rw [closed, closing, hw]; rfl
      simp only [WaitState.work, hw] at hs
      obtain rfl := Option.some.inj hs
      exact { h with
        published := nofun
        receiving := nofun
        final := nofun
        exited := fun raw hr => absurd (h.exited raw hr) (by simp [hopen])
        knows := fun n c hc => (h.knows n c hc).mono rfl rfl fun _ => rfl }
  | publishing r =>
      have hopen : s.closed = false := by rw [closed, closing, hw]; rfl
      have hx : ∀ raw, s.value ≠ some (.ok raw) := fun raw hr =>
        absurd (h.exited raw hr) (by simp [hopen])
      simp only [WaitState.work, hw] at hs
      obtain rfl := Option.some.inj hs
      exact {
        unpublished := by simp
        published := by rintro r' ⟨⟩; rfl
        receiving := nofun
        final := nofun
        exited := fun raw hr => by
          cases r with
          | exited x => rfl
          | failed m => exact absurd hr (by simp [OsWait.published])
          | ownershipLost => exact absurd hr (by simp [OsWait.published])
        slot := fun hr => by
          obtain ⟨raw, hv⟩ := h.slot hr
          exact absurd hv (hx raw)
        knows := fun n c hc => (h.knows n c hc).publish hx }
  | published r =>
      have hv := h.published r hw
      simp only [WaitState.work, hw] at hs
      obtain rfl := Option.some.inj hs
      cases r with
      | failed m =>
          exact { h with
            published := nofun
            receiving := fun _ => ⟨m, hv⟩
            final := nofun
            exited := fun raw hr => absurd (hv.symm.trans hr) (by simp [OsWait.published])
            knows := fun n c hc => (h.knows n c hc).mono rfl rfl fun _ => rfl }
      | exited raw =>
          exact { h with
            published := nofun
            receiving := nofun
            final := fun _ => by rw [hv]; rfl
            exited := fun _ _ => rfl
            knows := fun n c hc => (h.knows n c hc).mono rfl rfl fun ho => by
              rw [closed, closing, hw] at ho
              exact absurd ho (by simp [OsWait.isFinal]) }
      | ownershipLost =>
          exact { h with
            published := nofun
            receiving := nofun
            final := fun _ => by rw [hv]; rfl
            exited := fun _ _ => rfl
            knows := fun n c hc => (h.knows n c hc).mono rfl rfl fun ho => by
              rw [closed, closing, hw] at ho
              exact absurd ho (by simp [OsWait.isFinal]) }
  | receiving =>
      obtain ⟨m, hv⟩ := h.receiving hw
      have hslot : s.registered = true := by
        cases hr : s.registered with
        | true => rfl
        | false =>
            obtain ⟨raw, hx⟩ := h.slot hr
            exact absurd (hv.symm.trans hx) (by simp)
      simp only [WaitState.work, hw, hslot] at hs
      split at hs
      · obtain rfl := Option.some.inj hs
        exact { h with
          published := nofun
          receiving := nofun
          final := nofun
          exited := fun raw hr => absurd (hv.symm.trans hr) (by simp)
          slot := nofun
          knows := fun n c hc => (h.knows n c hc).mono rfl rfl fun _ => rfl }
      · exact absurd hs (by simp)
  | draining =>
      have hl : s.value.isSome = true := h.final (by rw [hw]; rfl)
      simp only [WaitState.work, hw] at hs
      obtain rfl := Option.some.inj hs
      exact { h with
        published := nofun
        receiving := nofun
        final := fun _ => hl
        exited := fun _ _ => rfl
        knows := fun n c hc => (h.knows n c hc).mono rfl rfl fun ho => by
          rw [closed, closing, hw] at ho
          exact absurd ho (by simp) }
  | stopped =>
      simp only [WaitState.work, hw] at hs
      exact absurd hs (by simp)

/-- A resumed or returned call knows nothing in particular. -/
theorem Inv.changed (h : s.Inv) {n seen : ℕ} (hs : s.changed n seen = some s') : s'.Inv := by
  rw [WaitState.changed] at hs
  split at hs
  · obtain rfl := Option.some.inj hs
    exact h.move trivial
  · split at hs
    · obtain rfl := Option.some.inj hs
      exact h.move trivial
    · exact absurd hs (by simp)

/-- **The step of a call**, unless it offers a token that is not heard. -/
theorem Inv.runCall (h : s.Inv) {n : ℕ} {c : WaitCall} (hc : s.calls n = some c)
    (hheard : ∀ seen, c = .retrying seen → seen = s.published → s.closing = false)
    (hs : s.runCall n c = some s') : s'.Inv := by
  have hk := h.knows n c hc
  cases c with
  | subscribed =>
      rw [WaitState.runCall] at hs
      split at hs
      · next m hv =>
          obtain rfl := Option.some.inj hs
          exact h.move ⟨Nat.le_refl _, fun _ => ⟨m, hv⟩⟩
      · obtain rfl := Option.some.inj hs
        exact h.move trivial
  | retrying seen =>
      rw [WaitState.runCall] at hs
      split at hs
      · obtain rfl := Option.some.inj hs
        exact h.move trivial
      · next hw =>
          obtain rfl := Option.some.inj hs
          have hsent : s.trySend.Inv := { h with }
          refine hsent.move ⟨hk.1, fun hseen => ?_⟩
          have hclosing : s.trySend.closing = false := hheard seen rfl hseen
          rw [closed, hclosing, Bool.false_or]
          exact beq_eq_false_iff_ne.mpr hw
  | awaitingRetry seen => exact h.changed hs
  | reading =>
      rw [WaitState.runCall] at hs
      split at hs
      · next raw hv =>
          obtain rfl := Option.some.inj hs
          exact h.move ⟨raw, hv⟩
      · obtain rfl := Option.some.inj hs
        exact h.move trivial
      · next hv =>
          obtain rfl := Option.some.inj hs
          exact h.move (h.unpublished.mp hv)
  | awaiting seen => exact h.changed hs
  | removing =>
      obtain rfl := Option.some.inj hs
      have hremoved : Inv { s with registered := false } := { h with slot := fun _ => hk }
      exact hremoved.move trivial
  | returned => exact absurd hs (by simp [WaitState.runCall])

/-- **The step.** -/
theorem Inv.step (h : s.Inv) {a : WaitAction} (hc : s.heard a = true) (hs : s.step a = some s') :
    s'.Inv := by
  cases a with
  | work result => exact h.work hs
  | offer =>
      rw [WaitState.step, Option.ite_none_right_eq_some] at hs
      obtain ⟨-, ⟨⟩⟩ := hs
      exact { h with }
  | start n =>
      rw [WaitState.step, Option.ite_none_right_eq_some] at hs
      obtain ⟨-, ⟨⟩⟩ := hs
      refine h.move ?_
      split
      · trivial
      · trivial
  | run n =>
      obtain ⟨c, hn, hr⟩ := Option.bind_eq_some_iff.mp hs
      refine h.runCall hn (fun seen hretry hseen => ?_) hr
      subst hretry
      simpa [heard, hn, hseen] using hc
  | drop n =>
      rw [WaitState.step] at hs
      split at hs
      · rw [Option.ite_none_right_eq_some] at hs
        obtain ⟨-, ⟨⟩⟩ := hs
        exact h.move trivial
      · exact absurd hs (by simp)

/-- **A wait never blocks on a stopped worker**, in every run in which no call offers its
retry token between the last publication, which it has seen, and the drop of the worker's
end of the retry channel. -/
theorem wait_never_blocks_when_heard (s : WaitState)
    (h : ReachesUnder step (fun s a => s.heard a = true) start s) : s.NeverBlocked :=
  (ReachesUnder.invariant h inv_start fun _ _ _ hi hc hs => Inv.step hi hc hs).neverBlocked

/-- A token that is not heard blocks its call: once the worker is out of its loop, the call
is suspended and nothing newer will be published. -/
theorem blocks_when_unheard {n : ℕ} (hn : s.calls n = some (.retrying s.published))
    (hc : s.closing = true) : ∃ s', Reaches step s s' ∧ ¬ s'.NeverBlocked := by
  have hopen : s.worker ≠ .stopped := fun hw => by
    rw [closing, hw] at hc
    exact absurd hc (by simp)
  have hrun : s.step (.run n) = some (s.trySend.move n (.awaitingRetry s.published)) := by
    rw [step, hn, Option.bind_some, runCall, if_neg hopen]
  have hblocked : ∀ s' : WaitState, s'.published = s.published →
      s'.calls n = some (.awaitingRetry s.published) → s'.worker.inLoop = false →
      ¬ s'.NeverBlocked := by
    intro s' hp hcall hl hnever
    have := hnever n _ s.published hcall rfl hp.symm
    exact absurd (hl.symm.trans this) (by simp)
  cases hw : s.worker with
  | published r =>
      have hfinal : r.isFinal = true := by
        rw [closing, hw] at hc
        exact hc
      refine ⟨{ s.trySend.move n (.awaitingRetry s.published) with worker := .draining },
        (Reaches.initial.next (.run n) hrun).next (.work .ownershipLost) ?_, ?_⟩
      · simp only [step, work, move, trySend, hw, hfinal, if_true]
      · exact hblocked _ rfl (by simp [move]) rfl
  | draining =>
      refine ⟨_, Reaches.initial.next (.run n) hrun, hblocked _ rfl (by simp [move]) ?_⟩
      simp only [move, trySend, hw, WaitWorker.inLoop]
  | _ =>
      rw [closing, hw] at hc
      exact absurd hc (by simp)

/-- The child is lost, and a call that finds the error offers its token before the worker
is out of its loop and has dropped its end. -/
def lostToken : List WaitAction :=
  [.work .ownershipLost, .work .ownershipLost, .start 0, .run 0, .run 0, .work .ownershipLost]

/-- A wait can block on a stopped worker. -/
theorem wait_blocks_on_stopped_worker : ¬ ∀ s, Reaches step start s → s.NeverBlocked := by
  intro h
  obtain ⟨s, hs, hp⟩ := Reaches.exists_of_follow step start lostToken
    (fun s => s.calls 0 == some (.awaitingRetry 1) && s.published == 1 && !s.worker.inLoop)
    (by decide)
  simp only [Bool.and_eq_true, beq_iff_eq, Bool.not_eq_true'] at hp
  have := h s hs 0 _ 1 hp.1.1 rfl hp.1.2.symm
  exact absurd (hp.2.symm.trans this) (by simp)

/-- The worker fails, a call has it retry, the child turns out to be lost, and the call
returns the error; a later call finds the retry channel closed and returns it too. -/
theorem heard_token_never_blocks :
    ∃ s : WaitState, (s.calls 0 == some .returned && s.calls 1 == some .returned) = true ∧
      s.NeverBlocked := by
  obtain ⟨s, hs, hp⟩ := ReachesUnder.exists_of_follow step heard start
    [.work (.failed "wait"), .work (.failed "wait"), .start 0, .run 0, .run 0,
      .work .ownershipLost, .work .ownershipLost, .work .ownershipLost, .work .ownershipLost,
      .work .ownershipLost, .work .ownershipLost, .run 0, .run 0, .start 1, .run 1, .run 1,
      .run 1]
    (fun s => s.calls 0 == some .returned && s.calls 1 == some .returned) (by decide)
  exact ⟨s, hp, wait_never_blocks_when_heard s hs⟩

end WaitState

end Shepherd
