import Shepherd.Conc.Steps
import Shepherd.Domain.Types

/-!
# Waiting on the Windows Backend

Each root of the Job Object backend has a worker task that waits on the process, publishes the
result on a watch channel, and leaves its loop when the result is an exit or when the slot of the
root, and with it the sender of the retry channel, is gone; after an error it first waits for a
retry token.

A call of `wait` subscribes to the watch channel. If the last publication is an error it offers a
retry token and awaits a newer publication; when the retry channel is closed it looks once more,
since a competing retry may have completed. Then it takes the first value it finds and, if that
is an exit, removes the slot of the root. Kills offer tokens too, and set a flag that the worker
reads when it makes an exit of a status.

The watch channel is the log of its publications, the newest first; a receiver is the number of
publications it has seen.
-/

namespace Shepherd

open Conc

/-- The exit code that a kill by the backend leaves behind. -/
def KILLED : UInt32 := 0xe0000001

/-- The exit code of a process that has not ended. -/
def STILL_ACTIVE : UInt32 := 259

/-- Where the worker of a root is. -/
inductive JobWorker where
  /-- Before `tokio::spawn`. -/
  | idle
  /-- In `child.wait()`. -/
  | waiting
  /-- Before it makes an exit of a status, for which it loads the flag. -/
  | waited (status : Except String UInt32)
  /-- Before `tx.send_replace`. -/
  | publishing (exit : Except String RawExit)
  /-- Before the test for leaving the loop. -/
  | published (verified : Bool)
  /-- In `retry_rx.recv()`. -/
  | receiving
  /-- Out of the loop, in `finish_readers`. -/
  | draining
  /-- Over; its ends of both channels are dropped. -/
  | stopped
  deriving DecidableEq, Repr

/-- The worker has begun a native wait and has not published its result. -/
def JobWorker.isWaiting : JobWorker → Bool
  | .waiting | .waited _ | .publishing _ => true
  | _ => false

/-- The worker has left its loop, or is about to. -/
def JobWorker.isLeaving : JobWorker → Bool
  | .published true | .draining | .stopped => true
  | _ => false

/-- Where a call of `wait` is. -/
inductive JobWaitCall where
  /-- Subscribed, before the first look at the channel. -/
  | subscribed
  /-- Found an error, before `retry.try_send`. -/
  | retrying (seen : ℕ)
  /-- Found the retry channel closed, before the second look. -/
  | closed
  /-- Suspended in the `changed` after an accepted token. -/
  | awaitingRetry (seen : ℕ)
  /-- At the head of the loop. -/
  | reading
  /-- Suspended in the `changed` of the loop. -/
  | awaiting (seen : ℕ)
  /-- Found an exit, before the slot is removed. -/
  | removing (exit : RawExit)
  | returned (result : Except String RawExit)
  /-- Dropped at an await. -/
  | dropped
  deriving DecidableEq, Repr

namespace JobWaitCall

/-- The call is suspended on the watch channel and has seen this many publications. -/
def suspended : JobWaitCall → Option ℕ
  | .awaitingRetry seen | .awaiting seen => some seen
  | _ => none

/-- The call has not ended. -/
def inFlight : JobWaitCall → Bool
  | .returned _ | .dropped => false
  | _ => true

end JobWaitCall

/-- The slot of a root and its worker, and the calls of `wait` for it. -/
structure JobReader where
  scope : ProcessScopeId
  /-- The slot is in the registry. -/
  registered : Bool
  killed : Bool
  tokens : ℕ
  /-- The publications, the newest first. -/
  log : List (Except String RawExit)
  worker : JobWorker
  /-- The native waits that were begun. -/
  waits : ℕ
  calls : ℕ → Option JobWaitCall

/-- What can happen next to a reader. -/
inductive ReaderAction where
  /-- The worker takes its next step; the argument is the result of a native wait. -/
  | work (status : Except String UInt32)
  /-- A kill sets the flag. -/
  | flag
  /-- A kill offers a retry token. -/
  | offer
  /-- A call starts. -/
  | start (call : ℕ)
  /-- A call takes its next step. -/
  | run (call : ℕ)
  /-- A suspended call is dropped. -/
  | drop (call : ℕ)
  deriving DecidableEq

/-- What the worker makes of the status of an exit. -/
def rawExit (killed : Bool) (code : UInt32) : RawExit where
  code := some code.toInt32.toInt
  signal := if killed && code == KILLED then some .kill else none
  coreDumped := false

namespace JobReader

/-- A root that was just registered. -/
def new (scope : ProcessScopeId) : JobReader where
  scope := scope
  registered := true
  killed := false
  tokens := 0
  log := []
  worker := .idle
  waits := 0
  calls := fun _ => none

/-- Moves a call. -/
def move (r : JobReader) (n : ℕ) (c : JobWaitCall) : JobReader :=
  { r with calls := Function.update r.calls n (some c) }

/-- `try_send(())` on the retry channel, which holds one token. -/
def trySend (r : JobReader) : JobReader :=
  { r with tokens := 1 }

/-- `killed.store(true)`. -/
def flag (r : JobReader) : JobReader :=
  { r with killed := true }

/-- The worker begins a native wait. -/
def beginWait (r : JobReader) : JobReader :=
  { r with worker := .waiting, waits := r.waits + 1 }

/-- The next step of the worker. -/
def work (r : JobReader) (status : Except String UInt32) : Option JobReader :=
  match r.worker with
  | .idle => some r.beginWait
  | .waiting => some { r with worker := .waited status }
  | .waited status => some { r with worker := .publishing (status.map (rawExit r.killed)) }
  | .publishing exit =>
      some { r with log := exit :: r.log, worker := .published exit.toBool }
  | .published verified => some { r with worker := if verified then .draining else .receiving }
  | .receiving =>
      if 0 < r.tokens then some { r with tokens := r.tokens - 1 }.beginWait
      else if r.registered then none
      else some { r with worker := .draining }
  | .draining => some { r with worker := .stopped }
  | .stopped => none

/-- `rx.changed()`: a newer publication, or every sender of the channel is gone. -/
def changed (r : JobReader) (n seen : ℕ) : Option JobReader :=
  if seen < r.log.length then some (r.move n .reading)
  else if !r.registered && r.worker == .stopped then
    some (r.move n (.returned (.error "waiter closed")))
  else none

/-- The next step of a call. -/
def runCall (r : JobReader) (n : ℕ) : JobWaitCall → Option JobReader
  | .subscribed =>
      match r.log with
      | .error _ :: _ => some (r.move n (.retrying r.log.length))
      | _ => some (r.move n .reading)
  | .retrying seen =>
      if r.worker = .stopped then some (r.move n .closed)
      else some (r.trySend.move n (.awaitingRetry seen))
  | .closed =>
      match r.log with
      | .ok _ :: _ => some (r.move n .reading)
      | _ => some (r.move n (.returned (.error "waiter closed")))
  | .awaitingRetry seen => r.changed n seen
  | .reading =>
      match r.log with
      | .ok exit :: _ => some (r.move n (.removing exit))
      | .error m :: _ => some (r.move n (.returned (.error m)))
      | [] => some (r.move n (.awaiting r.log.length))
  | .awaiting seen => r.changed n seen
  | .removing exit => some { r.move n (.returned (.ok exit)) with registered := false }
  | .returned _ | .dropped => none

/-- One step. -/
def step (r : JobReader) : ReaderAction → Option JobReader
  | .work status => r.work status
  | .flag => some r.flag
  | .offer => if r.worker = .stopped then none else some r.trySend
  | .start n =>
      if (r.calls n).isNone then
        some (r.move n
          (if r.registered then .subscribed else .returned (.error "unknown process handle")))
      else none
  | .run n => (r.calls n).bind (r.runCall n)
  | .drop n =>
      match r.calls n with
      | some c => if c.suspended.isSome then some (r.move n .dropped) else none
      | none => none

/-- The publication that a receiver saw last. -/
def lastSeen (r : JobReader) (seen : ℕ) : Option (Except String RawExit) :=
  (r.log.drop (r.log.length - seen)).head?

/-- An exit is the newest publication. -/
def Exited (r : JobReader) (exit : RawExit) : Prop :=
  r.log.head? = some (.ok exit)

/-- The worker goes on with a wait, or has a token to begin one. -/
def Stirring (r : JobReader) : Prop :=
  r.worker.isWaiting = true ∨ (0 < r.tokens ∧ r.worker.isLeaving = false)

/-- What a call knows. -/
def Knows (r : JobReader) : JobWaitCall → Prop
  | .retrying seen => seen ≤ r.log.length ∧ ∃ m, r.lastSeen seen = some (.error m)
  | .closed => ∃ exit, r.Exited exit
  | .awaitingRetry seen => seen ≤ r.log.length ∧ (seen = r.log.length → r.Stirring)
  | .awaiting seen => seen = 0
  | .removing exit => r.Exited exit
  | .returned (.ok exit) => r.Exited exit
  | .returned (.error m) => m = "unknown process handle" ∨ .error m ∈ r.log
  | _ => True

/-- **The invariant.** Only the newest publication is an exit, after which the worker leaves its
loop, and it leaves for no other reason; the slot is removed after an exit only; and a call that
has offered its token and has seen every publication has a worker that goes on. -/
structure Inv (r : JobReader) : Prop where
  final : ∀ e ∈ r.log.tail, ∃ m, e = .error m
  published : ∀ verified, r.worker = .published verified →
    ∃ e, r.log.head? = some e ∧ e.toBool = verified
  receiving : r.worker = .receiving → ∃ m, r.log.head? = some (.error m)
  exited : r.worker.isLeaving = true ↔ ∃ exit, r.Exited exit
  slot : r.registered = false → ∃ exit, r.Exited exit
  knows : ∀ n c, r.calls n = some c → r.Knows c

variable {r r' : JobReader}

/-- A new reader has published nothing. -/
theorem inv_new (scope : ProcessScopeId) : (new scope).Inv where
  final := by simp [new]
  published _ h := by cases h
  receiving h := by cases h
  exited := by simp [new, JobWorker.isLeaving, Exited]
  slot h := by cases h
  knows _ _ h := by cases h

/-! ### What calls know -/

/-- A receiver that has seen everything saw the newest publication last. -/
theorem lastSeen_length (r : JobReader) : r.lastSeen r.log.length = r.log.head? := by
  simp [lastSeen]

/-- A publication does not change what was seen before. -/
theorem lastSeen_publish (r : JobReader) {seen : ℕ} (h : seen ≤ r.log.length)
    (e : Except String RawExit) (w : JobWorker) :
    lastSeen { r with log := e :: r.log, worker := w } seen = r.lastSeen seen := by
  have hlen : (e :: r.log).length - seen = (r.log.length - seen) + 1 := by
    rw [List.length_cons]
    omega
  change ((e :: r.log).drop ((e :: r.log).length - seen)).head? = _
  rw [hlen, List.drop_succ_cons]
  rfl

/-- What a call knows stays true while nothing is published and the worker goes on. -/
theorem Knows.mono {c : JobWaitCall} (h : r.Knows c) (hl : r'.log = r.log)
    (hs : r.Stirring → r'.Stirring) : r'.Knows c := by
  cases c with
  | retrying seen => rwa [Knows, lastSeen, hl]
  | closed =>
      obtain ⟨exit, he⟩ := h
      exact ⟨exit, by rwa [Exited, hl]⟩
  | awaitingRetry seen => exact ⟨hl ▸ h.1, fun heq => hs (h.2 (hl ▸ heq))⟩
  | awaiting seen => exact h
  | removing exit => rwa [Knows, Exited, hl]
  | returned result =>
      cases result with
      | ok exit => rwa [Knows, Exited, hl]
      | error m => rwa [Knows, hl]
  | _ => trivial

/-- A publication is news for every suspended call. -/
theorem Knows.publish {c : JobWaitCall} (h : r.Knows c) (hx : ∀ exit, ¬ r.Exited exit)
    (e : Except String RawExit) (w : JobWorker) :
    Knows { r with log := e :: r.log, worker := w } c := by
  cases c with
  | retrying seen =>
      obtain ⟨hle, m, hm⟩ := h
      exact ⟨Nat.le_succ_of_le hle, m, (r.lastSeen_publish hle e w).trans hm⟩
  | closed =>
      obtain ⟨exit, he⟩ := h
      exact absurd he (hx exit)
  | awaitingRetry seen =>
      obtain ⟨hle, -⟩ := h
      refine ⟨Nat.le_succ_of_le hle, fun heq => ?_⟩
      have : seen = r.log.length + 1 := heq
      omega
  | awaiting seen => exact h
  | removing exit => exact absurd h (hx exit)
  | returned result =>
      cases result with
      | ok exit => exact absurd h (hx exit)
      | error m => exact h.imp id (List.mem_cons_of_mem e)
  | _ => trivial

/-- Moving a call to a place it knows enough for. -/
theorem Inv.move (h : r.Inv) {n : ℕ} {c : JobWaitCall} (hc : r.Knows c) : (r.move n c).Inv :=
  { h with
    knows := fun m d hd => by
      by_cases hm : m = n
      · subst hm
        obtain rfl : c = d := by simpa [JobReader.move] using hd
        exact hc
      · exact h.knows m d (by simpa [JobReader.move, hm] using hd) }

/-- A worker that is not leaving has published no exit. -/
theorem Inv.not_exited (h : r.Inv) (hw : r.worker.isLeaving = false) (exit : RawExit) :
    ¬ r.Exited exit := by
  intro he
  rw [h.exited.mpr ⟨exit, he⟩] at hw
  cases hw

/-- A worker whose newest publication is an error is not leaving. -/
theorem Inv.not_leaving (h : r.Inv) {m : String} (hm : r.log.head? = some (.error m)) :
    r.worker.isLeaving = false := by
  rw [← Bool.not_eq_true, h.exited]
  rintro ⟨exit, he⟩
  cases hm.symm.trans he

/-- The slot is in the registry until the worker leaves its loop. -/
theorem Inv.registered (h : r.Inv) (hw : r.worker.isLeaving = false) : r.registered = true := by
  cases hr : r.registered with
  | true => rfl
  | false =>
      obtain ⟨exit, he⟩ := h.slot hr
      exact absurd he (h.not_exited hw exit)

/-! ### Calls that are suspended -/

/-- A call that is suspended and has seen every publication has a worker that goes on. -/
theorem Inv.stirring (h : r.Inv) {n seen : ℕ} {c : JobWaitCall} (hc : r.calls n = some c)
    (hs : c.suspended = some seen) (hseen : seen = r.log.length) :
    r.Stirring ∨ (r.log = [] ∧ r.worker.isLeaving = false) := by
  have hk := h.knows n c hc
  cases c with
  | awaitingRetry v =>
      obtain rfl : v = seen := Option.some.inj hs
      exact .inl (hk.2 hseen)
  | awaiting v =>
      obtain rfl : v = seen := Option.some.inj hs
      have hnil : r.log = [] := List.eq_nil_of_length_eq_zero (hseen.symm.trans hk)
      refine .inr ⟨hnil, ?_⟩
      rw [← Bool.not_eq_true, h.exited]
      rintro ⟨exit, he⟩
      rw [Exited, hnil] at he
      cases he
  | _ => cases hs

/-- **A suspended call is not told that the channel is closed.** -/
theorem Inv.changed_eq (h : r.Inv) {n seen : ℕ} {c : JobWaitCall} (hc : r.calls n = some c)
    (hsus : c.suspended = some seen) (hle : seen ≤ r.log.length)
    (hs : r.changed n seen = some r') : seen < r.log.length ∧ r' = r.move n .reading := by
  rw [changed] at hs
  split at hs
  · next hlt => exact ⟨hlt, (Option.some.inj hs).symm⟩
  · next hlt =>
      have hopen : r.worker ≠ .stopped := by
        intro hw
        rcases h.stirring hc hsus (by omega) with (hwait | ⟨-, hl⟩) | ⟨-, hl⟩
        · rw [hw] at hwait
          cases hwait
        · rw [hw] at hl
          cases hl
        · rw [hw] at hl
          cases hl
      rw [if_neg (by simp [hopen])] at hs
      cases hs

/-! ### Steps -/

/-- A step of the worker that publishes nothing and does not decide to leave. -/
theorem Inv.goOn (h : r.Inv) {w : JobWorker} {tokens waits : ℕ}
    (hl : w.isLeaving = r.worker.isLeaving)
    (hp : ∀ verified, w = .published verified →
      ∃ e, r.log.head? = some e ∧ e.toBool = verified)
    (hr : w = .receiving → ∃ m, r.log.head? = some (.error m))
    (hs : r.Stirring → Stirring { r with worker := w, tokens, waits }) :
    Inv { r with worker := w, tokens, waits } where
  final := h.final
  published := hp
  receiving := hr
  exited := hl ▸ h.exited
  slot := h.slot
  knows n c hc := (h.knows n c hc).mono rfl hs

/-- **The worker's step.** Until its last publication, all that it has published are errors. -/
theorem Inv.work (h : r.Inv) {status : Except String UInt32} (hs : r.work status = some r') :
    r'.Inv := by
  cases hw : r.worker with
  | idle =>
      simp only [JobReader.work, hw] at hs
      obtain rfl := Option.some.inj hs
      exact h.goOn (by rw [hw]; rfl) nofun nofun fun _ => .inl rfl
  | waiting =>
      simp only [JobReader.work, hw] at hs
      obtain rfl := Option.some.inj hs
      exact h.goOn (by rw [hw]; rfl) nofun nofun fun _ => .inl rfl
  | waited st =>
      simp only [JobReader.work, hw] at hs
      obtain rfl := Option.some.inj hs
      exact h.goOn (by rw [hw]; rfl) nofun nofun fun _ => .inl rfl
  | publishing exit =>
      have hx := h.not_exited (by rw [hw]; rfl)
      have hreg := h.registered (by rw [hw]; rfl)
      simp only [JobReader.work, hw] at hs
      obtain rfl := Option.some.inj hs
      have herror : ∀ e ∈ r.log, ∃ m, e = .error m := by
        intro e he
        cases hlog : r.log with
        | nil => rw [hlog] at he; cases he
        | cons e₀ rest =>
            have hf := h.final
            rw [hlog] at he hf
            rcases List.mem_cons.mp he with rfl | he
            · cases e with
              | error m => exact ⟨m, rfl⟩
              | ok x => exact absurd (by rw [Exited, hlog]; rfl) (hx x)
            · exact hf e he
      exact {
        final := herror
        published := by
          rintro verified ⟨⟩
          exact ⟨exit, rfl, rfl⟩
        receiving := nofun
        exited := by
          cases exit with
          | ok x => simp [JobWorker.isLeaving, Exited, Except.toBool]
          | error m => simp [JobWorker.isLeaving, Exited, Except.toBool]
        slot := fun hr => by
          rw [hreg] at hr
          cases hr
        knows := fun n c hc => (h.knows n c hc).publish hx exit _ }
  | published verified =>
      obtain ⟨e, he, htoBool⟩ := h.published verified hw
      simp only [JobReader.work, hw] at hs
      obtain rfl := Option.some.inj hs
      refine h.goOn ?_ ?_ ?_ fun hst => ?_
      · rw [hw]
        cases verified <;> rfl
      · cases verified <;> nofun
      · intro hrec
        cases e with
        | error m => exact ⟨m, he⟩
        | ok x =>
            obtain rfl : verified = true := htoBool.symm
            cases hrec
      · rcases hst with hwait | ⟨ht, hl⟩
        · rw [hw] at hwait
          cases hwait
        · refine .inr ⟨ht, ?_⟩
          rw [hw] at hl
          cases verified with
          | true => cases hl
          | false => rfl
  | receiving =>
      have hreg := h.registered (by rw [hw]; rfl)
      simp only [JobReader.work, hw] at hs
      split at hs
      · obtain rfl := Option.some.inj hs
        change Inv { r with worker := .waiting, tokens := r.tokens - 1, waits := r.waits + 1 }
        exact h.goOn (by rw [hw]; rfl) nofun nofun fun _ => .inl rfl
      · cases hs
  | draining =>
      simp only [JobReader.work, hw] at hs
      obtain rfl := Option.some.inj hs
      refine h.goOn (by rw [hw]; rfl) nofun nofun fun hst => ?_
      rcases hst with hwait | ⟨-, hl⟩
      · rw [hw] at hwait
        cases hwait
      · rw [hw] at hl
        cases hl
  | stopped =>
      simp only [JobReader.work, hw] at hs
      cases hs

/-- A token makes no difference but to a worker that waits for one. -/
theorem Inv.trySend (h : r.Inv) : r.trySend.Inv :=
  { h with
    knows := fun n c hc => (h.knows n c hc).mono rfl fun hs =>
      hs.imp id fun hst => ⟨Nat.one_pos, hst.2⟩ }

/-- A reader may be flagged at any time. -/
theorem Inv.flag (h : r.Inv) : r.flag.Inv :=
  { h with knows := fun n c hc => (h.knows n c hc).mono rfl id }

/-- **The step of a call.** -/
theorem Inv.runCall (h : r.Inv) {n : ℕ} {c : JobWaitCall} (hc : r.calls n = some c)
    (hs : r.runCall n c = some r') : r'.Inv := by
  have hk := h.knows n c hc
  cases c with
  | subscribed =>
      rw [JobReader.runCall] at hs
      split at hs
      · next m rest hlog =>
          obtain rfl := Option.some.inj hs
          refine h.move ⟨Nat.le_refl _, m, ?_⟩
          rw [lastSeen_length, hlog]
          rfl
      · obtain rfl := Option.some.inj hs
        exact h.move trivial
  | retrying seen =>
      obtain ⟨hle, m, hm⟩ := hk
      rw [JobReader.runCall] at hs
      split at hs
      · next hw =>
          obtain rfl := Option.some.inj hs
          exact h.move (h.exited.mp (by rw [hw]; rfl))
      · obtain rfl := Option.some.inj hs
        refine h.trySend.move ⟨hle, fun heq => .inr ⟨Nat.one_pos, ?_⟩⟩
        have heq : seen = r.log.length := heq
        rw [heq, lastSeen_length] at hm
        exact h.not_leaving hm
  | closed =>
      obtain ⟨exit, he⟩ := hk
      rw [JobReader.runCall] at hs
      split at hs
      · obtain rfl := Option.some.inj hs
        exact h.move trivial
      · next hlog =>
          obtain ⟨rest, hrest⟩ := List.head?_eq_some_iff.mp he
          exact absurd hrest (hlog exit rest)
  | awaitingRetry seen =>
      obtain ⟨-, rfl⟩ := h.changed_eq hc rfl hk.1 hs
      exact h.move trivial
  | reading =>
      rw [JobReader.runCall] at hs
      split at hs
      · next exit rest hlog =>
          obtain rfl := Option.some.inj hs
          exact h.move (by rw [Knows, Exited, hlog]; rfl)
      · next m rest hlog =>
          obtain rfl := Option.some.inj hs
          exact h.move (.inr (by rw [hlog]; exact List.mem_cons_self))
      · next hlog =>
          obtain rfl := Option.some.inj hs
          exact h.move (by rw [hlog]; rfl)
  | awaiting seen =>
      obtain ⟨-, rfl⟩ := h.changed_eq hc rfl (hk ▸ Nat.zero_le _) hs
      exact h.move trivial
  | removing exit =>
      obtain rfl := Option.some.inj hs
      have hremoved : Inv { r with registered := false } :=
        { h with
          slot := fun _ => ⟨exit, hk⟩
          knows := fun n c hc => (h.knows n c hc).mono rfl id }
      exact hremoved.move hk
  | returned result => exact absurd hs (by simp [JobReader.runCall])
  | dropped => exact absurd hs (by simp [JobReader.runCall])

/-- **The step.** -/
theorem Inv.step (h : r.Inv) {a : ReaderAction} (hs : r.step a = some r') : r'.Inv := by
  cases a with
  | work status => exact h.work hs
  | flag =>
      obtain rfl := Option.some.inj hs
      exact h.flag
  | offer =>
      rw [JobReader.step, Option.ite_none_left_eq_some] at hs
      obtain ⟨-, ⟨⟩⟩ := hs
      exact h.trySend
  | start n =>
      rw [JobReader.step, Option.ite_none_right_eq_some] at hs
      obtain ⟨-, ⟨⟩⟩ := hs
      refine h.move ?_
      split
      · trivial
      · exact .inl rfl
  | run n =>
      obtain ⟨c, hn, hr⟩ := Option.bind_eq_some_iff.mp hs
      exact h.runCall hn hr
  | drop n =>
      rw [JobReader.step] at hs
      split at hs
      · rw [Option.ite_none_right_eq_some] at hs
        obtain ⟨-, ⟨⟩⟩ := hs
        exact h.move trivial
      · cases hs

end JobReader

end Shepherd
