import Mathlib.Data.List.Induction
import Shepherd.Waiters

/-!
# Runs of the Waiter Table

A run is any sequence of the three calls of the `Waiters` port over any processes and
exits. `WaiterCall` is one call and `InMemoryWaiters.after` the table a run leaves.

Beside the representation invariant, which the table carries, a run keeps `Sound`: the
value behind the sender of a pending slot is not verified, a channel was opened before it
got a value, and its value was signalled for its process. What one call can do to the
queue is said once, by `completed_call`; what it can do to a sender by `sender_call`.
-/

open Std

namespace Shepherd

open Conc

/-- A call of the waiter port. -/
inductive WaiterCall where
  | signalExit (pid : ProcessId) (exit : ProcessExit)
  | tryGet (pid : ProcessId)
  | wait (pid : ProcessId)
  deriving DecidableEq, Repr

namespace Slots

variable {w : Slots} {pid q : ProcessId} {exit e : ProcessExit} {ch : Channel}

/-- The table after a call. -/
def call (w : Slots) : WaiterCall → Slots
  | .signalExit pid exit => w.signalExit pid exit
  | .tryGet _ => w
  | .wait pid => (w.wait pid).2

/-- Every call keeps the table well formed. -/
theorem WF.call (hw : w.WF) (c : WaiterCall) : (w.call c).WF := by
  cases c with
  | signalExit pid exit => exact hw.signalExit pid exit
  | tryGet pid => exact hw
  | wait pid => exact hw.wait pid

/-- What a sequence of calls has left behind, beside the representation. -/
structure Sound (calls : List WaiterCall) (w : Slots) : Prop extends w.WF where
  unverified : ∀ (pid : ProcessId) (ch : Channel) (e : ProcessExit),
    w.entries[pid]? = some (.pending ch) → w.cells ch = some e → ¬ e.Verified
  opened : ∀ (ch : Channel) (e : ProcessExit), w.cells ch = some e → ch.index < w.opened
  signalled : ∀ (ch : Channel) (e : ProcessExit), w.cells ch = some e →
    .signalExit ch.pid e ∈ calls

/-! ### What one call does to the queue -/

/-- **One call on the queue.** The queue stays, or a first publication goes to its back
and, when it was full, the oldest entry leaves at the front. -/
theorem completed_call (hw : w.WF) (c : WaiterCall) :
    (w.call c).completed = w.completed ∨
      ∃ pid exit, c = .signalExit pid exit ∧ pid ∉ w.completed ∧
        (w.call c).completed =
          if w.completed.length < WAITER_HISTORY_BOUND then w.completed ++ [pid]
          else (w.completed ++ [pid]).tail := by
  cases c with
  | tryGet pid => exact .inl rfl
  | wait pid => exact .inl (completed_wait w pid)
  | signalExit pid exit =>
      rcases signalExit_cases w pid exit with ⟨e, -, hs⟩ | ⟨-, ⟨-, hs⟩ | ⟨hp, hs⟩⟩
      · exact .inl (congrArg completed hs)
      · refine .inl ?_
        rw [call, hs, trim, publish_completed, evict_of_le hw.length_le]
      · refine .inr ⟨pid, exit, rfl, ?_, ?_⟩
        · intro hm
          rw [hw.mem_completed, hp] at hm
          exact absurd hm (by decide)
        · have hlen := hw.length_le
          rw [call, hs, trim]
          simp only [publish_completed, evict, List.length_append, List.length_singleton]
          split
          · next hlt =>
              have hz : w.completed.length + 1 - WAITER_HISTORY_BOUND = 0 := by omega
              rw [hz, List.drop_zero]
          · next hge =>
              have hone : w.completed.length + 1 - WAITER_HISTORY_BOUND = 1 := by omega
              rw [hone, List.drop_one]

/-- A call evicts a process: its published exit leaves the table. -/
def Evicts (w : Slots) (c : WaiterCall) (pid : ProcessId) : Prop :=
  (w.tryGet pid).isSome = true ∧ ((w.call c).tryGet pid).isSome = false

/-- **Only the oldest leaves.** A call that evicts a process is a first publication into a
full queue whose oldest entry is that process. -/
theorem Evicts.oldest (hw : w.WF) {c : WaiterCall} (h : w.Evicts c pid) :
    w.completed.head? = some pid ∧ w.completed.length = WAITER_HISTORY_BOUND := by
  have hin : pid ∈ w.completed := (hw.mem_completed pid).mpr h.1
  have hout : pid ∉ (w.call c).completed := by
    rw [(hw.call c).mem_completed, h.2]
    decide
  rcases completed_call hw c with hc | ⟨x, exit, -, hx, hc⟩
  · exact absurd (hc ▸ hin) hout
  · rw [hc] at hout
    split at hout
    · exact absurd (List.mem_append_left [x] hin) hout
    · next hge =>
        have hlen := hw.length_le
        refine ⟨?_, by omega⟩
        cases hq : w.completed with
        | nil => rw [hq] at hin; exact absurd hin (by simp)
        | cons y rest =>
            rw [hq] at hin hout
            rcases List.mem_cons.mp hin with rfl | hm
            · rfl
            · exact absurd (List.mem_append_left [x] hm) hout

/-! ### What one call does to a sender -/

/-- What a slot's sender becomes when a process is published. -/
theorem sender_publish (h : ∀ e, w.entries[pid]? ≠ some (.completed e))
    (hp : w.entries[q]? = some (.pending ch)) :
    (w.publish pid exit).entries[q]? = some (.pending ch) ∨
      ((w.publish pid exit).cells ch).isSome = true := by
  rcases publish_cases w pid exit h with ⟨-, he, -, hc⟩ | ⟨-, ⟨ch', -, hpub⟩ | ⟨hn, hpub⟩⟩
  · by_cases hq : pid = q
    · subst hq
      refine .inr ?_
      rw [hc, send, hp]
      simp
    · refine .inl ?_
      rw [he, ExtTreeMap.getElem?_insert, if_neg, hp]
      exact fun hc => hq (Std.compare_eq_iff_eq.mp hc)
  · rw [hpub]
    exact .inl hp
  · refine .inl ?_
    rw [hpub, entries_openSlot, if_neg, hp]
    rintro rfl
    exact absurd (hn.symm.trans hp) (by simp)

/-- Trimming drops senders of published slots only. -/
theorem Indexed.sender_trim (hw : w.Indexed) (hp : w.entries[q]? = some (.pending ch)) :
    w.trim.entries[q]? = some (.pending ch) ∨ (w.trim.cells ch).isSome = true := by
  rw [entries_trim]
  split
  · next hev =>
      refine .inr ?_
      have hm : q ∈ w.completed := List.mem_of_mem_take hev
      rw [hw.mem_completed, tryGet_of_pending hp] at hm
      exact hm
  · exact .inl hp

/-- A channel that holds a value keeps one. -/
theorem cells_mono (hi : ch.index < w.opened) (h : (w.cells ch).isSome = true)
    (c : WaiterCall) : ((w.call c).cells ch).isSome = true := by
  have hupd : ∀ ch' (x : ProcessExit),
      (Function.update w.cells ch' (some x) ch).isSome = true := by
    intro ch' x
    by_cases hc : ch = ch'
    · subst hc; simp
    · rw [Function.update_of_ne hc]; exact h
  have hpub : ∀ pid exit, (∀ e, w.entries[pid]? ≠ some (.completed e)) →
      ((w.publish pid exit).cells ch).isSome = true := by
    intro pid exit hne
    rcases publish_cases w pid exit hne with ⟨-, -, -, hc⟩ | ⟨-, ⟨ch', -, hpub⟩ | ⟨-, hpub⟩⟩
    · rw [hc, send]
      split
      · exact hupd _ _
      · exact h
    · rw [hpub]; exact hupd _ _
    · rw [hpub]; exact hupd _ _
  cases c with
  | tryGet pid => exact h
  | wait pid =>
      rw [call, wait]
      split
      · exact h
      · exact h
      · have hne : ch ≠ ⟨pid, w.opened⟩ := by
          rintro rfl
          exact Nat.lt_irrefl _ hi
        exact (congrArg Option.isSome (Function.update_of_ne hne none w.cells)).trans h
  | signalExit pid exit =>
      rcases signalExit_cases w pid exit with ⟨e, -, hs⟩ | ⟨hne, ⟨-, hs⟩ | ⟨-, hs⟩⟩
      · rw [call, hs]; exact h
      · rw [call, hs]; exact hpub pid exit hne
      · rw [call, hs]; exact hpub pid exit hne

/-- **One call on a sender.** The sender of a slot stays, or it is dropped and its channel
holds a value. -/
theorem sender_call (hw : w.WF) (hp : w.entries[q]? = some (.pending ch)) (c : WaiterCall) :
    (w.call c).entries[q]? = some (.pending ch) ∨ ((w.call c).cells ch).isSome = true := by
  cases c with
  | tryGet pid => exact .inl hp
  | wait pid =>
      refine .inl ?_
      rw [call, wait]
      split
      · exact hp
      · exact hp
      · next hn =>
          rw [entries_openSlot, if_neg, hp]
          rintro rfl
          exact absurd (hn.symm.trans hp) (by simp)
  | signalExit pid exit =>
      rcases signalExit_cases w pid exit with ⟨e, -, hs⟩ | ⟨hne, ⟨hv, hs⟩ | ⟨hv, hs⟩⟩
      · rw [call, hs]; exact .inl hp
      · rw [call, hs]
        rcases sender_publish hne hp with hk | hk
        · exact (hw.toIndexed.publish_again hne hv).sender_trim hk
        · exact .inr hk
      · rw [call, hs]
        rcases sender_publish hne hp with hk | hk
        · exact (hw.toIndexed.publish_first hne hv).sender_trim hk
        · exact .inr hk

/-- A pending slot after a publication was there before, or its channel is new. -/
theorem pending_publish (h : ∀ e, w.entries[pid]? ≠ some (.completed e))
    (hp : (w.publish pid exit).entries[q]? = some (.pending ch)) :
    w.entries[q]? = some (.pending ch) ∨ ch.index = w.opened := by
  rcases publish_cases w pid exit h with ⟨-, he, -, -⟩ | ⟨-, ⟨ch', -, hpub⟩ | ⟨-, hpub⟩⟩
  · rw [he, ExtTreeMap.getElem?_insert] at hp
    split at hp
    · exact absurd hp (by simp)
    · exact .inl hp
  · rw [hpub] at hp
    exact .inl hp
  · rw [hpub, entries_openSlot] at hp
    split at hp
    · obtain rfl : ⟨pid, w.opened⟩ = ch := by simpa using hp
      exact .inr rfl
    · exact .inl hp

/-- Publishing a verified exit completes the slot. -/
theorem publish_verified (h : ∀ e, w.entries[pid]? ≠ some (.completed e))
    (hv : exit.Verified) : (w.publish pid exit).entries[pid]? = some (.completed exit) := by
  rcases publish_cases w pid exit h with ⟨-, he, -, -⟩ | ⟨hn, -⟩
  · rw [he, ExtTreeMap.getElem?_insert_self]
  · exact absurd hv hn

namespace Sound

variable {calls : List WaiterCall}

/-- What a publication leaves behind, before the queue is updated. -/
theorem publish (hs : w.Sound calls) (h : ∀ e, w.entries[pid]? ≠ some (.completed e)) :
    (∀ (q : ProcessId) (ch : Channel) (e : ProcessExit),
      (w.publish pid exit).entries[q]? = some (.pending ch) →
      (w.publish pid exit).cells ch = some e → ¬ e.Verified) ∧
    (∀ (ch : Channel) (e : ProcessExit), (w.publish pid exit).cells ch = some e →
      ch.index < (w.publish pid exit).opened) := by
  constructor
  · intro q ch e hp hc hv
    rcases cells_publish hs.toIndexed h hc with hc | ⟨hpid, rfl⟩
    · rcases pending_publish h hp with hp | hi
      · exact hs.unverified q ch e hp hc hv
      · exact absurd (hs.opened ch e hc) (by omega)
    · obtain rfl := ((publish_slots hs.toIndexed h q).1 ch hp).1.symm.trans hpid
      rw [publish_verified h hv] at hp
      exact absurd hp (by simp)
  · intro ch e hc
    rcases publish_cases w pid exit h with ⟨-, -, ho, hce⟩ | ⟨-, ⟨ch', hp, hpub⟩ | ⟨-, hpub⟩⟩
    · rw [ho]
      rw [hce, send] at hc
      split at hc
      · next ch' hp =>
          by_cases hcc : ch = ch'
          · exact hcc ▸ (hs.sender pid ch' hp).2
          · exact hs.opened ch e (by simpa [hcc] using hc)
      · exact hs.opened ch e hc
    · rw [hpub] at hc ⊢
      by_cases hcc : ch = ch'
      · exact hcc ▸ (hs.sender pid ch' hp).2
      · exact hs.opened ch e (by simpa [hcc] using hc)
    · rw [hpub] at hc ⊢
      by_cases hcc : ch = ⟨pid, w.opened⟩
      · subst hcc; exact Nat.lt_succ_self _
      · exact Nat.lt_succ_of_lt (hs.opened ch e (by simpa [openSlot, hcc] using hc))

/-- A pending slot of a trimmed table was there before. -/
theorem pending_of_trim (h : w.trim.entries[q]? = some (.pending ch)) :
    w.entries[q]? = some (.pending ch) := by
  rw [entries_trim] at h
  split at h
  · exact absurd h (by simp)
  · exact h

/-- The facts of `Sound` about a table whose senders and values are those of a
publication. -/
theorem of_publish {w' : Slots} (hs : w.Sound calls)
    (h : ∀ e, w.entries[pid]? ≠ some (.completed e)) (hw' : w'.WF)
    (he : ∀ (q : ProcessId) (ch : Channel), w'.entries[q]? = some (.pending ch) →
      (w.publish pid exit).entries[q]? = some (.pending ch))
    (hc : w'.cells = (w.publish pid exit).cells)
    (ho : w'.opened = (w.publish pid exit).opened) :
    w'.Sound (calls ++ [.signalExit pid exit]) where
  toWF := hw'
  unverified q ch e hp hx := (hs.publish h).1 q ch e (he q ch hp) (hc ▸ hx)
  opened ch e hx := ho ▸ (hs.publish h).2 ch e (hc ▸ hx)
  signalled ch e hx := by
    rw [List.mem_append, List.mem_singleton]
    rcases cells_publish hs.toIndexed h (hc ▸ hx) with hx | ⟨hpid, rfl⟩
    · exact .inl (hs.signalled ch e hx)
    · exact .inr (by rw [hpid])

/-- Registering a waiter signals nothing. -/
theorem wait (hs : w.Sound calls) (pid : ProcessId) :
    (w.wait pid).2.Sound (calls ++ [.wait pid]) := by
  have hold : w.Sound (calls ++ [.wait pid]) :=
    ⟨hs.toWF, hs.unverified, hs.opened,
      fun ch e hx => List.mem_append_left _ (hs.signalled ch e hx)⟩
  have hcells : ∀ ch e, (w.wait pid).2.cells ch = some e → w.cells ch = some e :=
    fun ch e hx => cells_wait w pid hx
  refine ⟨hs.toWF.wait pid, fun q ch e hp hx => ?_, fun ch e hx => ?_, fun ch e hx => ?_⟩
  · rw [Slots.wait] at hp
    split at hp
    · exact hs.unverified q ch e hp (hcells ch e hx)
    · exact hs.unverified q ch e hp (hcells ch e hx)
    · rw [entries_openSlot] at hp
      split at hp
      · obtain rfl : ⟨pid, w.opened⟩ = ch := by simpa using hp
        exact absurd (hs.opened _ e (hcells _ e hx)) (Nat.lt_irrefl _)
      · exact hs.unverified q ch e hp (hcells ch e hx)
  · have hi := hs.opened ch e (hcells ch e hx)
    rw [Slots.wait]
    split
    · exact hi
    · exact hi
    · exact Nat.lt_succ_of_lt hi
  · exact hold.signalled ch e (hcells ch e hx)

/-- **The step.** A call keeps what a run has left behind. -/
theorem call (hs : w.Sound calls) (c : WaiterCall) : (w.call c).Sound (calls ++ [c]) := by
  have hold : w.Sound (calls ++ [c]) :=
    ⟨hs.toWF, hs.unverified, hs.opened,
      fun ch e hx => List.mem_append_left _ (hs.signalled ch e hx)⟩
  cases c with
  | tryGet pid => exact hold
  | wait pid => exact hs.wait pid
  | signalExit pid exit =>
      have hw' := hs.toWF.signalExit pid exit
      rw [Slots.call]
      rcases signalExit_cases w pid exit with ⟨e, -, he⟩ | ⟨hne, ⟨-, he⟩ | ⟨-, he⟩⟩
      · rw [he]; exact hold
      · rw [he] at hw' ⊢
        exact hs.of_publish hne hw' (fun q ch hp => pending_of_trim hp) rfl rfl
      · rw [he] at hw' ⊢
        refine hs.of_publish hne hw' (fun q ch hp => ?_) rfl rfl
        have hq := pending_of_trim hp
        exact hq

/-- A verified exit that a lookup returns is in a completed slot. -/
theorem completed_of_verified (hs : w.Sound calls) (hv : e.Verified)
    (h : w.tryGet q = some e) : w.entries[q]? = some (.completed e) := by
  cases hp : w.entries[q]? with
  | none => exact absurd ((tryGet_of_none hp).symm.trans h) (by simp)
  | some slot =>
      cases slot with
      | completed x => rw [tryGet_of_completed hp] at h; rw [Option.some.inj h]
      | pending ch =>
          rw [tryGet_of_pending hp] at h
          exact absurd hv (hs.unverified q ch e hp h)

/-- **One call on a verified exit.** A retained verified exit is returned unchanged, or the
call evicted it. -/
theorem tryGet_call (hs : w.Sound calls) (hv : e.Verified) (h : w.tryGet q = some e)
    (c : WaiterCall) : (w.call c).tryGet q = some e ∨ w.Evicts c q := by
  have hq := hs.completed_of_verified hv h
  have hor : ∀ x, (x = none ∨ x = w.tryGet q) → (w.call c).tryGet q = x →
      (w.call c).tryGet q = some e ∨ w.Evicts c q := by
    rintro x (rfl | rfl) hx
    · exact .inr ⟨by rw [h]; rfl, by rw [hx]; rfl⟩
    · exact .inl (hx.trans h)
  cases c with
  | tryGet pid => exact .inl h
  | wait pid => exact .inl ((tryGet_wait hs.toWF pid q).trans h)
  | signalExit pid exit =>
      rcases signalExit_cases w pid exit with ⟨x, -, he⟩ | ⟨hne, hcases⟩
      · exact .inl (by rw [Slots.call, he]; exact h)
      · have hpq : pid ≠ q := by
          rintro rfl
          exact hne e hq
        have hpub : (w.publish pid exit).tryGet q = w.tryGet q := by
          rw [tryGet_publish hs.toIndexed hne, if_neg hpq]
        rcases hcases with ⟨-, he⟩ | ⟨-, he⟩
        · refine hor _ ?_ ((congrArg (Slots.tryGet · q) he).trans (tryGet_trim _ q))
          split
          · exact .inl rfl
          · exact .inr hpub
        · refine hor _ ?_ ((congrArg (Slots.tryGet · q) he).trans (tryGet_trim _ q))
          split
          · exact .inl rfl
          · exact .inr hpub

end Sound

/-- What is retained of a process after a verified exit was signalled for it: a verified
exit that is already there, else the new one. -/
def standing (w : Slots) (pid : ProcessId) (exit : ProcessExit) : ProcessExit :=
  match w.tryGet pid with
  | some e => if e.outcome.isVerified then e else exit
  | none => exit

/-- A published exit is not evicted by its own publication. -/
theorem WF.isSome_tryGet_signalExit (hw : w.WF) (pid : ProcessId) (exit : ProcessExit) :
    ((w.signalExit pid exit).tryGet pid).isSome = true := by
  rcases signalExit_cases w pid exit with ⟨e, he, hs⟩ | ⟨hne, ⟨hv, hs⟩ | ⟨hv, hs⟩⟩
  · rw [hs, tryGet_of_completed he]; rfl
  · have hm : pid ∈ (w.signalExit pid exit).completed := by
      rw [hs, trim, publish_completed, evict_of_le hw.length_le]
      exact (hw.mem_completed pid).mpr hv
    exact ((hw.signalExit pid exit).mem_completed pid).mp hm
  · have hm : pid ∈ (w.signalExit pid exit).completed := by
      rw [hs, trim, publish_completed]
      exact mem_retain_self (by rw [WAITER_HISTORY_BOUND]; omega)
    exact ((hw.signalExit pid exit).mem_completed pid).mp hm

/-- Signalling an exit leaves the standing one. -/
theorem Sound.tryGet_signalExit {calls : List WaiterCall} (hs : w.Sound calls) :
    (w.signalExit pid exit).tryGet pid = some (w.standing pid exit) := by
  obtain ⟨x, hx⟩ := Option.isSome_iff_exists.mp (hs.toWF.isSome_tryGet_signalExit pid exit)
  rw [hx]
  rcases signalExit_cases w pid exit with ⟨e, he, hcase⟩ | ⟨hne, hcases⟩
  · rw [hcase, tryGet_of_completed he] at hx
    have hve : e.outcome.isVerified = true := hs.verified pid e he
    rw [standing, tryGet_of_completed he]
    dsimp only
    rw [if_pos hve, hx]
  · have hst : w.standing pid exit = exit := by
      rw [standing]
      split
      · next e he =>
          rw [if_neg]
          exact fun hve => hne e (hs.completed_of_verified hve he)
      · rfl
    have htrim : ∀ w' : Slots, w'.tryGet pid = some exit → w'.trim.tryGet pid = some x →
        x = exit := by
      intro w' hw' hx
      rw [tryGet_trim] at hx
      split at hx
      · exact absurd hx (by simp)
      · exact Option.some.inj (hx.symm.trans hw')
    have hpub : (w.publish pid exit).tryGet pid = some exit := by
      rw [tryGet_publish hs.toIndexed hne, if_pos rfl]
    rcases hcases with ⟨-, hcase⟩ | ⟨-, hcase⟩
    · rw [hcase] at hx
      rw [hst, htrim _ hpub hx]
    · rw [hcase] at hx
      rw [hst, htrim _ (by exact hpub) hx]

/-- A registered future is ready with a published exit, or it is the receiver of the
slot's sender. -/
theorem future_of_wait (w : Slots) (pid : ProcessId) :
    (∃ e, (w.wait pid).1 = .ready e ∧ w.tryGet pid = some e) ∨
      ∃ ch : Channel, (w.wait pid).1 = .receiver ch ∧
        (w.wait pid).2.entries[pid]? = some (.pending ch) := by
  rw [wait]
  split
  · next e he => exact .inl ⟨e, rfl, tryGet_of_completed he⟩
  · next ch hp => exact .inr ⟨ch, rfl, hp⟩
  · refine .inr ⟨_, rfl, ?_⟩
    exact (entries_openSlot ..).trans (if_pos rfl)

/-- Signalling a process reaches the channel of its slot. -/
theorem cells_signalExit_sender (h : w.entries[pid]? = some (.pending ch))
    (exit : ProcessExit) : ∃ e, (w.signalExit pid exit).cells ch = some e := by
  have hpub : ∀ hne : ∀ e, w.entries[pid]? ≠ some (.completed e),
      (w.publish pid exit).cells ch = some exit := by
    intro hne
    rcases publish_cases w pid exit hne with ⟨-, -, -, hc⟩ | ⟨-, ⟨ch', hp, hpub⟩ | ⟨hn, -⟩⟩
    · rw [hc, send, h]
      simp
    · obtain rfl : ch = ch' := by simpa [h] using hp
      rw [hpub]
      simp
    · exact absurd (hn.symm.trans h) (by simp)
  rcases signalExit_cases w pid exit with ⟨e, he, -⟩ | ⟨hne, ⟨-, hs⟩ | ⟨-, hs⟩⟩
  · exact absurd (he.symm.trans h) (by simp)
  · exact ⟨exit, by rw [hs]; exact hpub hne⟩
  · exact ⟨exit, by rw [hs]; exact hpub hne⟩

end Slots

namespace InMemoryWaiters

/-- The table after a call. -/
def call (w : InMemoryWaiters) (c : WaiterCall) : InMemoryWaiters :=
  match c with
  | .signalExit pid exit => w.signalExit pid exit
  | .tryGet _ => w
  | .wait pid => (w.wait pid).2

/-- The table after a sequence of calls on a new one, oldest first. -/
def after (calls : List WaiterCall) : InMemoryWaiters :=
  calls.foldl call new

/-- A process is retained by a sequence of calls: none of them evicts it. -/
def Retains (w : InMemoryWaiters) (pid : ProcessId) : List WaiterCall → Prop
  | [] => True
  | c :: calls => ¬ w.slots.Evicts c pid ∧ (w.call c).Retains pid calls

/-- A call on the table is the call on its slots. -/
theorem slots_call (w : InMemoryWaiters) (c : WaiterCall) :
    (w.call c).slots = w.slots.call c := by
  cases c <;> rfl

/-- Two lists of calls, one after the other. -/
theorem after_append (pre post : List WaiterCall) :
    after (pre ++ post) = post.foldl call (after pre) :=
  List.foldl_append

/-- A list of calls, up to the last. -/
theorem after_concat (calls : List WaiterCall) (c : WaiterCall) :
    after (calls ++ [c]) = (after calls).call c :=
  after_append calls [c]

/-- **The run.** Every sequence of calls leaves a sound table. -/
theorem sound_after (calls : List WaiterCall) : (after calls).slots.Sound calls := by
  induction calls using List.reverseRecOn with
  | nil =>
      refine ⟨new.wf, fun pid ch e h => ?_, fun ch e h => ?_, fun ch e h => ?_⟩
      · exact absurd h (by simp [after, new])
      · exact absurd h (by simp [after, new])
      · exact absurd h (by simp [after, new])
  | append_singleton calls c ih =>
      rw [after_concat, slots_call]
      exact ih.call c

/-- A verified exit is returned unchanged over a run that retains its process. -/
theorem tryGet_retained {e : ProcessExit} (hv : e.Verified) {pid : ProcessId} :
    ∀ (post pre : List WaiterCall), (after pre).tryGet pid = some e →
      (after pre).Retains pid post → (after (pre ++ post)).tryGet pid = some e := by
  intro post
  induction post with
  | nil => intro pre h _; rwa [List.append_nil]
  | cons c post ih =>
      rintro pre h ⟨hc, hr⟩
      have hnext : (after (pre ++ [c])).tryGet pid = some e := by
        rw [after_concat, tryGet, slots_call]
        exact ((sound_after pre).tryGet_call hv h c).resolve_right hc
      rw [← after_concat] at hr
      have := ih (pre ++ [c]) hnext hr
      rwa [List.append_assoc] at this

/-- A channel that holds a value holds one after further calls. -/
theorem cells_after {ch : Channel} (pre : List WaiterCall)
    (h : ∃ e, (after pre).slots.cells ch = some e) (post : List WaiterCall) :
    ∃ e, (after (pre ++ post)).slots.cells ch = some e := by
  induction post using List.reverseRecOn with
  | nil => rwa [List.append_nil]
  | append_singleton post c ih =>
      obtain ⟨e, he⟩ := ih
      rw [← List.append_assoc, after_concat, slots_call]
      have hi := (sound_after _).opened ch e he
      exact Option.isSome_iff_exists.mp (Slots.cells_mono hi (by rw [he]; rfl) c)

/-- The sender of a slot is still there after further calls, or its channel holds a
value. -/
theorem sender_after {pid : ProcessId} {ch : Channel} (pre : List WaiterCall)
    (h : (after pre).slots.entries[pid]? = some (.pending ch)) (post : List WaiterCall) :
    (after (pre ++ post)).slots.entries[pid]? = some (.pending ch) ∨
      ∃ e, (after (pre ++ post)).slots.cells ch = some e := by
  induction post using List.reverseRecOn with
  | nil => rw [List.append_nil]; exact .inl h
  | append_singleton post c ih =>
      rw [← List.append_assoc]
      rcases ih with ih | ih
      · rw [after_concat, slots_call]
        exact (Slots.sender_call (after _).wf ih c).imp_right Option.isSome_iff_exists.mp
      · exact .inr (cells_after _ ih [c])

/-- A process that was never signalled has no published exit. -/
theorem tryGet_of_unsignalled {calls : List WaiterCall} {pid : ProcessId}
    (h : ∀ e, .signalExit pid e ∉ calls) : (after calls).tryGet pid = none := by
  induction calls using List.reverseRecOn with
  | nil => simp [after, new, tryGet, Slots.tryGet]
  | append_singleton calls c ih =>
      have hn := ih fun e he => h e (List.mem_append_left _ he)
      rw [after_concat]
      cases c with
      | tryGet q => exact hn
      | wait q => exact (Slots.tryGet_wait (after calls).wf q pid).trans hn
      | signalExit q exit =>
          cases hx : ((after calls).call (.signalExit q exit)).tryGet pid with
          | none => rfl
          | some x =>
              rcases Slots.tryGet_signalExit (after calls).wf hx with ⟨-, hx⟩ | ⟨rfl, -⟩
              · exact absurd (hn.symm.trans hx) (by simp)
              · exact absurd (List.mem_append_right _ (List.mem_singleton_self _)) (h exit)

/-- **A future registered early resolves.** Once its process was signalled, whatever was evicted
since, it shows an exit signalled for that process: the sender was there when it was signalled, or
the channel had a value already. -/
theorem poll_of_signalled {pid : ProcessId} {exit : ProcessExit} {pre mid post : List WaiterCall}
    (hpre : ∀ e, .signalExit pid e ∉ pre) {calls : List WaiterCall}
    (hcalls : calls = pre ++ .wait pid :: mid ++ .signalExit pid exit :: post) :
    ∃ e, (after calls).poll ((after pre).wait pid).1 = some e ∧ .signalExit pid e ∈ calls := by
  subst hcalls
  rcases Slots.future_of_wait (after pre).slots pid with ⟨e, -, he⟩ | ⟨ch, hf, hch⟩
  · exact absurd ((tryGet_of_unsignalled hpre).symm.trans he) (by simp)
  · have hw : (after (pre ++ [.wait pid])).slots.entries[pid]? = some (.pending ch) := by
      rw [after_concat]
      exact hch
    have hpid := (sound_after (pre ++ [.wait pid])).sender pid ch hw
    have hsig : ∃ e, (after (pre ++ [.wait pid] ++ mid ++ [.signalExit pid exit])).slots.cells
        ch = some e := by
      rcases sender_after _ hw mid with hp | hc
      · rw [after_concat]
        exact Slots.cells_signalExit_sender hp exit
      · exact cells_after _ hc _
    obtain ⟨e, he⟩ := cells_after _ hsig post
    have hl : pre ++ [.wait pid] ++ mid ++ [.signalExit pid exit] ++ post =
        pre ++ .wait pid :: mid ++ .signalExit pid exit :: post := by simp
    rw [hl] at he
    refine ⟨e, ?_, ?_⟩
    · rw [wait, hf]
      exact he
    · have hm := (sound_after _).signalled ch e he
      rwa [hpid.1] at hm

/-- **The waiter table is faithful.** After any calls: the queue lists the published slots
once each and respects the bound; the first verified exit of a process stands until the
process is evicted; only the oldest first publication is ever evicted; a dropped sender
left a value in its channel; and a future registered before the first publication of its
process resolves, once there is one, with an exit signalled for it. -/
theorem waiter_table_is_faithful (calls : List WaiterCall) :
    ((after calls).slots.completed.Nodup ∧
      (after calls).slots.completed.length ≤ WAITER_HISTORY_BOUND ∧
      ∀ pid, pid ∈ (after calls).slots.completed ↔
        ∃ slot e, (after calls).slots.entries[pid]? = some slot ∧
          (after calls).slots.value slot = some e) ∧
    (∀ pre pid exit post, calls = pre ++ .signalExit pid exit :: post → exit.Verified →
      (∀ e : ProcessExit, e.Verified → (after pre).tryGet pid ≠ some e) →
      (after (pre ++ [.signalExit pid exit])).Retains pid post →
      (after calls).tryGet pid = some exit) ∧
    (∀ pre pid exit post, calls = pre ++ post → exit.Verified →
      (after pre).tryGet pid = some exit → (after pre).Retains pid post →
      (after calls).tryGet pid = some exit) ∧
    (∀ c pid, (after calls).slots.Evicts c pid →
      (after calls).slots.completed.head? = some pid ∧
        (after calls).slots.completed.length = WAITER_HISTORY_BOUND) ∧
    (∀ c, (after (calls ++ [c])).slots.completed = (after calls).slots.completed ∨
      ∃ pid exit, c = .signalExit pid exit ∧ pid ∉ (after calls).slots.completed ∧
        (after (calls ++ [c])).slots.completed =
          if (after calls).slots.completed.length < WAITER_HISTORY_BOUND then
            (after calls).slots.completed ++ [pid]
          else ((after calls).slots.completed ++ [pid]).tail) ∧
    (∀ (pre post : List WaiterCall) (pid : ProcessId) (ch : Channel), calls = pre ++ post →
      (after pre).slots.entries[pid]? = some (.pending ch) →
      (after calls).slots.entries[pid]? = some (.pending ch) ∨
        ∃ e, (after calls).slots.cells ch = some e) ∧
    (∀ pre pid post ch, calls = pre ++ .wait pid :: post →
      ((after pre).wait pid).1 = .receiver ch →
      (after calls).slots.entries[pid]? = some (.pending ch) ∨
        ∃ e, (after calls).poll (.receiver ch) = some e) ∧
    (∀ pre pid mid exit post, calls = pre ++ .wait pid :: mid ++ .signalExit pid exit :: post →
      (∀ e, .signalExit pid e ∉ pre) →
      ∃ e, (after calls).poll ((after pre).wait pid).1 = some e ∧
        .signalExit pid e ∈ calls) := by
  have hs := sound_after calls
  refine ⟨⟨hs.nodup, hs.length_le, fun pid => ?_⟩, ?_, ?_, ?_, ?_, ?_, ?_, ?_⟩
  · rw [hs.mem_completed, Option.isSome_iff_exists]
    constructor
    · rintro ⟨e, he⟩
      obtain ⟨slot, hp, hv⟩ := Option.bind_eq_some_iff.mp he
      exact ⟨slot, e, hp, hv⟩
    · rintro ⟨slot, e, hp, hv⟩
      exact ⟨e, Option.bind_eq_some_iff.mpr ⟨slot, hp, hv⟩⟩
  · rintro pre pid exit post rfl hv hfirst hr
    have hnew : (after (pre ++ [.signalExit pid exit])).tryGet pid = some exit := by
      rw [after_concat]
      refine ((sound_after pre).tryGet_signalExit).trans ?_
      rw [Slots.standing]
      split
      · next e he =>
          rw [if_neg]
          exact fun hve => hfirst e hve he
      · rfl
    have := tryGet_retained hv post _ hnew hr
    rwa [List.append_assoc] at this
  · rintro pre pid exit post rfl hv h hr
    exact tryGet_retained hv post pre h hr
  · intro c pid h
    exact h.oldest hs.toWF
  · intro c
    rw [after_concat, slots_call]
    exact Slots.completed_call hs.toWF c
  · rintro pre post pid ch rfl h
    exact sender_after pre h post
  · rintro pre pid post ch rfl h
    have hw : (after (pre ++ [.wait pid])).slots.entries[pid]? = some (.pending ch) := by
      rw [after_concat]
      rcases Slots.future_of_wait (after pre).slots pid with ⟨e, hf, -⟩ | ⟨ch', hf, hch⟩
      · exact absurd (hf.symm.trans h) (by simp)
      · obtain rfl : ch' = ch := by simpa using hf.symm.trans h
        exact hch
    have := sender_after _ hw post
    rwa [List.append_assoc] at this
  · rintro pre pid mid exit post hcalls hpre
    exact poll_of_signalled hpre hcalls

/-- An unverified exit of process 1. -/
def reapFailed : ProcessExit :=
  ⟨1, none, none, .cleanupUnverified .reapFailed, false⟩

/-- A verified exit of process 1 with a code. -/
def exitedWith (code : Int) : ProcessExit :=
  ⟨1, some code, none, .exitedNaturally, false⟩

/-- A waiter registered before a failed wait gets the verified correction. -/
theorem correction_reaches_waiter :
    ∃ e, (after [.wait 1, .signalExit 1 reapFailed, .signalExit 1 (exitedWith 0)]).poll
        ((after []).wait 1).1 = some e ∧
      .signalExit 1 e ∈
        [WaiterCall.wait 1, .signalExit 1 reapFailed, .signalExit 1 (exitedWith 0)] :=
  (waiter_table_is_faithful _).2.2.2.2.2.2.2 [] 1 [] reapFailed
    [.signalExit 1 (exitedWith 0)] rfl (by simp)

/-- A second verified exit of a process is signalled, but the first one stands. -/
theorem second_verified_exit_is_ignored :
    ¬ ∀ (pre post : List WaiterCall) (pid : ProcessId) (exit : ProcessExit), exit.Verified →
      (after (pre ++ [.signalExit pid exit])).Retains pid post →
      (after (pre ++ .signalExit pid exit :: post)).tryGet pid = some exit := by
  intro h
  have hx := h [.signalExit 1 (exitedWith 0)] [] 1 (exitedWith 1) rfl trivial
  have hy : (after [.signalExit 1 (exitedWith 0), .signalExit 1 (exitedWith 1)]).tryGet 1 =
      some (exitedWith 0) := by
    decide +kernel
  exact absurd (hy.symm.trans hx) (by decide)

end InMemoryWaiters

end Shepherd
