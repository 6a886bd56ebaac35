import Shepherd.Conc.Retention
import Shepherd.Domain.Types

/-!
# In-Memory Waiters

`InMemoryWaiters` is the adapter of the `Waiters` port in `shepherd-infra`. A slot is
**pending**, with the sender of a watch channel that callers subscribe to, or
**completed**, with a verified exit. Published slots enter a queue; beyond 256 entries the
oldest slot is dropped. A receiver keeps its channel's last value after the slot is gone.

A channel is named by the process it was opened for and a number, and `cells` holds the
value of every channel ever opened, so a receiver is just the name of its channel.

`Slots` is the data behind the mutex, with the three operations as the source computes
them. `Slots.WF` is what the operations keep and the structure `InMemoryWaiters` carries:
the queue lists each published slot exactly once, and completed slots hold verified exits.
-/

open Std

namespace Shepherd

open Conc

/-- The name of a watch channel. -/
structure Channel where
  pid : ProcessId
  index : ℕ
  deriving DecidableEq, Repr

/-- What the table holds for a process. -/
inductive Slot where
  | pending (sender : Channel)
  | completed (exit : ProcessExit)
  deriving DecidableEq, Repr

/-- The future a caller gets: ready at once, or the receiver of a channel. -/
inductive WaitFuture where
  | ready (exit : ProcessExit)
  | receiver (channel : Channel)
  deriving DecidableEq, Repr

/-- How many published slots are retained. -/
@[irreducible] def WAITER_HISTORY_BOUND : ℕ := 256

/-- The waiter table. -/
structure Slots where
  entries : ExtTreeMap ProcessId Slot
  completed : List ProcessId
  cells : Channel → Option ProcessExit
  opened : ℕ

namespace Slots

/-- The value a slot shows. -/
def value (w : Slots) : Slot → Option ProcessExit
  | .completed exit => some exit
  | .pending sender => w.cells sender

/-- The recorded exit, if one was published and is retained. -/
def tryGet (w : Slots) (pid : ProcessId) : Option ProcessExit :=
  (w.entries[pid]?).bind w.value

/-- The value a future resolves to; `none` while it is pending. -/
def poll (w : Slots) : WaitFuture → Option ProcessExit
  | .ready exit => some exit
  | .receiver channel => w.cells channel

/-- Opens a channel with an initial value and stores its sender. -/
def openSlot (w : Slots) (pid : ProcessId) (v : Option ProcessExit) : Slots where
  entries := w.entries.insert pid (.pending ⟨pid, w.opened⟩)
  completed := w.completed
  cells := Function.update w.cells ⟨pid, w.opened⟩ v
  opened := w.opened + 1

/-- Sends a value to the receivers registered for a process. -/
def send (w : Slots) (pid : ProcessId) (exit : ProcessExit) : Slots :=
  match w.entries[pid]? with
  | some (.pending sender) => { w with cells := Function.update w.cells sender (some exit) }
  | _ => w

/-- Stores a published exit: a verified one replaces the slot, an unverified one stays
behind a channel so that a correction can still reach the receivers. -/
def store (w : Slots) (pid : ProcessId) (exit : ProcessExit) : Slots :=
  if exit.outcome.isVerified then
    { w with entries := w.entries.insert pid (.completed exit) }
  else if w.entries.contains pid then w
  else w.openSlot pid (some exit)

/-- Drops the oldest published slots beyond the bound. -/
def trim (w : Slots) : Slots where
  entries := eraseAll w.entries (evict WAITER_HISTORY_BOUND w.completed).2
  completed := (evict WAITER_HISTORY_BOUND w.completed).1
  cells := w.cells
  opened := w.opened

/-- Records the terminal exit of a process and wakes its waiters. -/
def signalExit (w : Slots) (pid : ProcessId) (exit : ProcessExit) : Slots :=
  match w.entries[pid]? with
  | some (.completed _) => w
  | slot =>
      let previouslyPublished := (slot.bind w.value).isSome
      let w' := (w.send pid exit).store pid exit
      if previouslyPublished then w'.trim
      else { w' with completed := w'.completed ++ [pid] }.trim

/-- A future that resolves with the terminal exit. -/
def wait (w : Slots) (pid : ProcessId) : WaitFuture × Slots :=
  match w.entries[pid]? with
  | some (.completed exit) => (.ready exit, w)
  | some (.pending sender) => (.receiver sender, w)
  | none => (.receiver ⟨pid, w.opened⟩, w.openSlot pid none)

/-! ### The representation -/

/-- The queue lists each published slot once, and slots are what they should be. -/
structure Indexed (w : Slots) : Prop where
  nodup : w.completed.Nodup
  mem_completed : ∀ pid : ProcessId, pid ∈ w.completed ↔ (w.tryGet pid).isSome = true
  sender : ∀ (pid : ProcessId) (ch : Channel), w.entries[pid]? = some (.pending ch) →
    ch.pid = pid ∧ ch.index < w.opened
  verified : ∀ (pid : ProcessId) (e : ProcessExit),
    w.entries[pid]? = some (.completed e) → e.Verified

/-- What the operations keep: the queue also respects the bound. -/
structure WF (w : Slots) : Prop extends Indexed w where
  length_le : w.completed.length ≤ WAITER_HISTORY_BOUND

variable {w : Slots} {pid q : ProcessId} {exit e : ProcessExit}

/-- A completed slot shows its exit. -/
theorem tryGet_of_completed (h : w.entries[pid]? = some (.completed e)) :
    w.tryGet pid = some e := by
  simp [tryGet, h, value]

/-- A pending slot shows what its channel has. -/
theorem tryGet_of_pending {ch : Channel} (h : w.entries[pid]? = some (.pending ch)) :
    w.tryGet pid = w.cells ch := by
  simp [tryGet, h, value]

/-- A process without a slot shows nothing. -/
theorem tryGet_of_none (h : w.entries[pid]? = none) : w.tryGet pid = none := by
  simp [tryGet, h]

/-- A lookup sees the entry and, if it is pending, the cell behind it. -/
theorem tryGet_congr {w' : Slots} (he : w'.entries[q]? = w.entries[q]?)
    (hc : ∀ ch, w.entries[q]? = some (.pending ch) → w'.cells ch = w.cells ch) :
    w'.tryGet q = w.tryGet q := by
  rw [tryGet, tryGet, he]
  cases hq : w.entries[q]? with
  | none => rfl
  | some slot =>
      cases slot with
      | completed e => rfl
      | pending ch => exact hc ch hq

/-- The slots after one was opened. -/
theorem entries_openSlot (w : Slots) (pid q : ProcessId) (v : Option ProcessExit) :
    (w.openSlot pid v).entries[q]? =
      if pid = q then some (.pending ⟨pid, w.opened⟩) else w.entries[q]? := by
  simp [openSlot, ExtTreeMap.getElem?_insert]

/-- What is shown after a slot was opened. -/
theorem tryGet_openSlot (hw : w.Indexed) (pid q : ProcessId) (v : Option ProcessExit) :
    (w.openSlot pid v).tryGet q = if pid = q then v else w.tryGet q := by
  split
  · next h => subst h; simp [tryGet, value, openSlot]
  · next h =>
      refine tryGet_congr (by rw [entries_openSlot, if_neg h]) fun ch hch => ?_
      have hne : ch ≠ ⟨pid, w.opened⟩ := by
        rintro rfl
        exact Nat.lt_irrefl _ (hw.sender q _ hch).2
      exact Function.update_of_ne hne v w.cells

/-- Opening a slot keeps what is known about senders and completed slots. -/
theorem openSlot_sender (hw : w.Indexed) (v : Option ProcessExit) {ch : Channel}
    (h : (w.openSlot pid v).entries[q]? = some (.pending ch)) :
    ch.pid = q ∧ ch.index < w.opened + 1 := by
  rw [entries_openSlot] at h
  split at h
  · next hpq =>
      obtain rfl : ⟨pid, w.opened⟩ = ch := by simpa using h
      exact ⟨hpq, Nat.lt_succ_self _⟩
  · obtain ⟨h₁, h₂⟩ := hw.sender q ch h
    exact ⟨h₁, Nat.lt_succ_of_lt h₂⟩

/-- A slot that was opened has completed no unverified exit. -/
theorem openSlot_verified (hw : w.Indexed) (v : Option ProcessExit)
    (h : (w.openSlot pid v).entries[q]? = some (.completed e)) : e.Verified := by
  rw [entries_openSlot] at h
  split at h
  · exact absurd h (by simp)
  · exact hw.verified q e h

/-- Registering for a process without a slot publishes nothing. -/
theorem WF.openSlot (hw : w.WF) (h : w.entries[pid]? = none) : (w.openSlot pid none).WF where
  nodup := hw.nodup
  length_le := hw.length_le
  mem_completed q := by
    have hm : q ∈ (w.openSlot pid none).completed ↔ q ∈ w.completed := Iff.rfl
    rw [hm, hw.mem_completed, tryGet_openSlot hw.toIndexed]
    split
    · next hq => subst hq; rw [tryGet_of_none h]
    · rfl
  sender q ch hq := openSlot_sender hw.toIndexed none hq
  verified q e hq := openSlot_verified hw.toIndexed none hq

/-- A registration keeps the table well formed. -/
theorem WF.wait (hw : w.WF) (pid : ProcessId) : (w.wait pid).2.WF := by
  rw [Slots.wait]
  split
  · exact hw
  · exact hw
  · next h => exact hw.openSlot h

/-! ### Publication -/

/-- Sending and storing an exit, before the queue is updated. -/
def publish (w : Slots) (pid : ProcessId) (exit : ProcessExit) : Slots :=
  (w.send pid exit).store pid exit

/-- A publication completes no slot in the queue. -/
@[simp] theorem publish_completed (w : Slots) (pid : ProcessId) (exit : ProcessExit) :
    (w.publish pid exit).completed = w.completed := by
  have hs : (w.send pid exit).completed = w.completed := by
    rw [send]; split <;> rfl
  rw [publish, store, openSlot]
  split
  · exact hs
  · split <;> exact hs

/-- The two ways a slot that is not completed is published: as a completed slot, or behind
its channel. -/
theorem publish_cases (w : Slots) (pid : ProcessId) (exit : ProcessExit)
    (h : ∀ e, w.entries[pid]? ≠ some (.completed e)) :
    (exit.Verified ∧
      (w.publish pid exit).entries = w.entries.insert pid (.completed exit) ∧
      (w.publish pid exit).opened = w.opened ∧
      (w.publish pid exit).cells = (w.send pid exit).cells) ∨
    (¬ exit.Verified ∧
      ((∃ ch, w.entries[pid]? = some (.pending ch) ∧
          w.publish pid exit = { w with cells := Function.update w.cells ch (some exit) }) ∨
        (w.entries[pid]? = none ∧ w.publish pid exit = w.openSlot pid (some exit)))) := by
  have hse : (w.send pid exit).entries = w.entries := by
    rw [send]; split <;> rfl
  have hso : (w.send pid exit).opened = w.opened := by
    rw [send]; split <;> rfl
  by_cases hv : exit.Verified
  · refine .inl ⟨hv, ?_⟩
    have hp : w.publish pid exit =
        { w.send pid exit with
          entries := (w.send pid exit).entries.insert pid (.completed exit) } :=
      if_pos hv
    rw [hp, hse]
    exact ⟨rfl, hso, rfl⟩
  · refine .inr ⟨hv, ?_⟩
    cases hp : w.entries[pid]? with
    | none =>
        refine .inr ⟨rfl, ?_⟩
        have hm : w.entries.contains pid = false := by
          rw [ExtTreeMap.contains_eq_isSome_getElem?, hp]; rfl
        have hsend : w.send pid exit = w := by rw [send]; rw [hp]
        have hn : exit.outcome.isVerified = false := Bool.eq_false_iff.mpr hv
        rw [publish, hsend, store, hn, hm]
        rfl
    | some slot =>
        cases slot with
        | completed e => exact absurd hp (h e)
        | pending ch =>
            refine .inl ⟨ch, rfl, ?_⟩
            have hm : w.entries.contains pid = true := by
              rw [ExtTreeMap.contains_eq_isSome_getElem?, hp]; rfl
            have hsend : w.send pid exit =
                { w with cells := Function.update w.cells ch (some exit) } := by
              rw [send]; rw [hp]
            have hn : exit.outcome.isVerified = false := Bool.eq_false_iff.mpr hv
            rw [publish, hsend, store, hn]
            dsimp only
            rw [hm]
            rfl

/-- After a publication the process shows the exit, and every other slot is unchanged. -/
theorem tryGet_publish (hw : w.Indexed) (h : ∀ e, w.entries[pid]? ≠ some (.completed e))
    (q : ProcessId) :
    (w.publish pid exit).tryGet q = if pid = q then some exit else w.tryGet q := by
  have hother : ∀ ch ch', w.entries[pid]? = some (.pending ch) →
      w.entries[q]? = some (.pending ch') → pid ≠ q → ch' ≠ ch := by
    rintro ch ch' hp hq hpq rfl
    exact hpq ((hw.sender pid ch' hp).1.symm.trans (hw.sender q ch' hq).1)
  rcases publish_cases w pid exit h with ⟨-, he, -, hc⟩ | ⟨-, ⟨ch, hp, hpub⟩ | ⟨hp, hpub⟩⟩
  · split
    · next hpq =>
        subst hpq
        refine tryGet_of_completed ?_
        rw [he, ExtTreeMap.getElem?_insert_self]
    · next hpq =>
        refine tryGet_congr ?_ fun ch' hq => ?_
        · rw [he, ExtTreeMap.getElem?_insert, if_neg]
          exact fun hc => hpq (Std.compare_eq_iff_eq.mp hc)
        · rw [hc]
          rw [send]
          split
          · next ch hp => exact Function.update_of_ne (hother ch ch' hp hq hpq) _ _
          · rfl
  · rw [hpub]
    split
    · next hpq =>
        subst hpq
        rw [tryGet, hp]
        exact Function.update_self ..
    · next hpq =>
        refine tryGet_congr rfl fun ch' hq => ?_
        exact Function.update_of_ne (hother ch ch' hp hq hpq) _ _
  · rw [hpub, tryGet_openSlot hw]

/-- A channel changes only when its own process is published. -/
theorem cells_publish (hw : w.Indexed) (h : ∀ e, w.entries[pid]? ≠ some (.completed e))
    {ch : Channel} {x : ProcessExit} (hx : (w.publish pid exit).cells ch = some x) :
    w.cells ch = some x ∨ ch.pid = pid ∧ x = exit := by
  have hupd : ∀ ch', ch'.pid = pid →
      Function.update w.cells ch' (some exit) ch = some x →
      w.cells ch = some x ∨ ch.pid = pid ∧ x = exit := by
    intro ch' hpid hx
    by_cases hc : ch = ch'
    · subst hc
      rw [Function.update_self] at hx
      exact .inr ⟨hpid, (Option.some.inj hx).symm⟩
    · rw [Function.update_of_ne hc] at hx
      exact .inl hx
  rcases publish_cases w pid exit h with ⟨-, -, -, hc⟩ | ⟨-, ⟨ch', hp, hpub⟩ | ⟨hp, hpub⟩⟩
  · rw [hc] at hx
    rw [send] at hx
    split at hx
    · next ch' hp => exact hupd ch' (hw.sender pid ch' hp).1 hx
    · exact .inl hx
  · rw [hpub] at hx
    exact hupd ch' (hw.sender pid ch' hp).1 hx
  · rw [hpub] at hx
    exact hupd ⟨pid, w.opened⟩ rfl hx

/-- What a publication leaves in the table: senders of their own processes and verified
completed slots. -/
theorem publish_slots (hw : w.Indexed) (h : ∀ e, w.entries[pid]? ≠ some (.completed e))
    (q : ProcessId) :
    (∀ ch, (w.publish pid exit).entries[q]? = some (.pending ch) →
      ch.pid = q ∧ ch.index < (w.publish pid exit).opened) ∧
    (∀ e, (w.publish pid exit).entries[q]? = some (.completed e) → e.Verified) := by
  rcases publish_cases w pid exit h with ⟨hv, he, ho, -⟩ | ⟨-, ⟨ch, -, hpub⟩ | ⟨-, hpub⟩⟩
  · rw [he, ho, ExtTreeMap.getElem?_insert]
    split
    · refine ⟨fun ch hch => absurd hch (by simp), fun e heq => ?_⟩
      obtain rfl : exit = e := by simpa using heq
      exact hv
    · exact ⟨hw.sender q, hw.verified q⟩
  · rw [hpub]
    exact ⟨hw.sender q, hw.verified q⟩
  · rw [hpub]
    exact ⟨fun ch => openSlot_sender hw _, fun e => openSlot_verified hw _⟩

/-! ### Trimming -/

/-- The slots after the oldest completed ones were evicted. -/
theorem entries_trim (w : Slots) (q : ProcessId) :
    w.trim.entries[q]? = if q ∈ (evict WAITER_HISTORY_BOUND w.completed).2 then none
      else w.entries[q]? := by
  rw [trim, getElem?_eraseAll]

/-- What is shown after the oldest completed slots were evicted. -/
theorem tryGet_trim (w : Slots) (q : ProcessId) :
    w.trim.tryGet q = if q ∈ (evict WAITER_HISTORY_BOUND w.completed).2 then none
      else w.tryGet q := by
  rw [tryGet, entries_trim]
  split
  · rfl
  · rfl

/-- Trimming a queue that lists the published slots gives a well-formed table. -/
theorem Indexed.trim (hw : w.Indexed) : w.trim.WF := by
  have hsplit : (evict WAITER_HISTORY_BOUND w.completed).2 ++
      (evict WAITER_HISTORY_BOUND w.completed).1 = w.completed := by
    rw [evict, List.take_append_drop]
  have hnd := hsplit ▸ hw.nodup
  obtain ⟨-, hnd', hdis⟩ := List.nodup_append.mp hnd
  refine ⟨⟨hnd', fun q => ?_, fun q ch hq => ?_, fun q e hq => ?_⟩, ?_⟩
  · have hm : q ∈ w.trim.completed ↔ q ∈ (evict WAITER_HISTORY_BOUND w.completed).1 := Iff.rfl
    have hmem := hw.mem_completed q
    rw [← hsplit, List.mem_append] at hmem
    rw [hm, tryGet_trim]
    split
    · next hev => exact ⟨fun h => absurd rfl (hdis q hev q h), fun h => absurd h (by simp)⟩
    · next hev => rw [← hmem]; simp [hev]
  · rw [entries_trim] at hq
    split at hq
    · exact absurd hq (by simp)
    · exact hw.sender q ch hq
  · rw [entries_trim] at hq
    split at hq
    · exact absurd hq (by simp)
    · exact hw.verified q e hq
  · have hl : w.trim.completed.length =
        w.completed.length - (w.completed.length - WAITER_HISTORY_BOUND) := by
      simp [Slots.trim, evict]
    omega

/-! ### Signalling an exit -/

/-- A completed slot is final; any other slot is published, and its process enters the
queue unless it was published before. -/
theorem signalExit_cases (w : Slots) (pid : ProcessId) (exit : ProcessExit) :
    (∃ e, w.entries[pid]? = some (.completed e) ∧ w.signalExit pid exit = w) ∨
    ((∀ e, w.entries[pid]? ≠ some (.completed e)) ∧
      (((w.tryGet pid).isSome = true ∧ w.signalExit pid exit = (w.publish pid exit).trim) ∨
        ((w.tryGet pid).isSome = false ∧ w.signalExit pid exit =
          { w.publish pid exit with
            completed := (w.publish pid exit).completed ++ [pid] }.trim))) := by
  rw [signalExit]
  split
  · next e he => exact .inl ⟨e, he, rfl⟩
  · next hne =>
      refine .inr ⟨hne, ?_⟩
      have ht : ((w.entries[pid]?).bind w.value).isSome = (w.tryGet pid).isSome := rfl
      rw [ht]
      cases (w.tryGet pid).isSome with
      | true => exact .inl ⟨rfl, rfl⟩
      | false => exact .inr ⟨rfl, rfl⟩

/-- An exit that replaces one keeps the index of the queue. -/
theorem Indexed.publish_again (hw : w.Indexed) (h : ∀ e, w.entries[pid]? ≠ some (.completed e))
    (hp : (w.tryGet pid).isSome = true) : (w.publish pid exit).Indexed where
  nodup := by rw [publish_completed]; exact hw.nodup
  mem_completed q := by
    rw [publish_completed, tryGet_publish hw h]
    split
    · next hq => subst hq; simp [hw.mem_completed, hp]
    · exact hw.mem_completed q
  sender q := (publish_slots hw h q).1
  verified q := (publish_slots hw h q).2

/-- The first exit of a process enters the queue. -/
theorem Indexed.publish_first (hw : w.Indexed) (h : ∀ e, w.entries[pid]? ≠ some (.completed e))
    (hp : (w.tryGet pid).isSome = false) :
    Indexed { w.publish pid exit with
      completed := (w.publish pid exit).completed ++ [pid] } where
  nodup := by
    rw [publish_completed]
    refine List.nodup_append.mpr ⟨hw.nodup, List.nodup_singleton pid, ?_⟩
    rintro q hq r hr rfl
    obtain rfl := List.mem_singleton.mp hr
    rw [hw.mem_completed, hp] at hq
    exact absurd hq (by decide)
  mem_completed q := by
    have ht : tryGet { w.publish pid exit with
        completed := (w.publish pid exit).completed ++ [pid] } q =
          (w.publish pid exit).tryGet q := rfl
    rw [ht, tryGet_publish hw h, publish_completed, List.mem_append, hw.mem_completed,
      List.mem_singleton]
    by_cases hq : pid = q
    · simp [hq]
    · simp [hq, Ne.symm hq]
  sender q := (publish_slots hw h q).1
  verified q := (publish_slots hw h q).2

/-- Signalling keeps the table well formed. -/
theorem WF.signalExit (hw : w.WF) (pid : ProcessId) (exit : ProcessExit) :
    (w.signalExit pid exit).WF := by
  rcases signalExit_cases w pid exit with ⟨e, -, hs⟩ | ⟨h, ⟨hp, hs⟩ | ⟨hp, hs⟩⟩
  · rw [hs]; exact hw
  · rw [hs]; exact (hw.publish_again h hp).trim
  · rw [hs]; exact (hw.publish_first h hp).trim

/-- What a lookup can see after an exit was signalled: what it saw before, or, for the
process itself, the new exit in place of one that was not final. -/
theorem tryGet_signalExit (hw : w.WF) {x : ProcessExit}
    (h : (w.signalExit pid exit).tryGet q = some x) :
    (q ≠ pid ∧ w.tryGet q = some x) ∨
      (q = pid ∧ (x = exit ∨ x.Verified ∧ w.tryGet q = some x)) := by
  have hpub : ∀ h : ∀ e, w.entries[pid]? ≠ some (.completed e),
      (w.publish pid exit).tryGet q = some x →
      (q ≠ pid ∧ w.tryGet q = some x) ∨
        (q = pid ∧ (x = exit ∨ x.Verified ∧ w.tryGet q = some x)) := by
    intro h hx
    rw [tryGet_publish hw.toIndexed h] at hx
    split at hx
    · next hq => exact .inr ⟨hq.symm, .inl (Option.some.inj hx).symm⟩
    · next hq => exact .inl ⟨Ne.symm hq, hx⟩
  have htrim : ∀ w' : Slots, w'.trim.tryGet q = some x → w'.tryGet q = some x := by
    intro w' hx
    rw [tryGet_trim] at hx
    split at hx
    · exact absurd hx (by simp)
    · exact hx
  rcases signalExit_cases w pid exit with ⟨e, he, hs⟩ | ⟨hne, ⟨-, hs⟩ | ⟨-, hs⟩⟩
  · rw [hs] at h
    by_cases hq : q = pid
    · subst hq
      rw [tryGet_of_completed he] at h
      obtain rfl := Option.some.inj h
      exact .inr ⟨rfl, .inr ⟨hw.verified q e he, tryGet_of_completed he⟩⟩
    · exact .inl ⟨hq, h⟩
  · rw [hs] at h
    exact hpub hne (htrim _ h)
  · rw [hs] at h
    have hx := htrim _ h
    exact hpub hne hx

/-- A channel changes only when its own process is signalled. -/
theorem cells_signalExit (hw : w.WF) {ch : Channel} {x : ProcessExit}
    (h : (w.signalExit pid exit).cells ch = some x) :
    w.cells ch = some x ∨ ch.pid = pid ∧ x = exit := by
  rcases signalExit_cases w pid exit with ⟨e, -, hs⟩ | ⟨hne, ⟨-, hs⟩ | ⟨-, hs⟩⟩
  · rw [hs] at h; exact .inl h
  · rw [hs] at h; exact cells_publish hw.toIndexed hne h
  · rw [hs] at h; exact cells_publish hw.toIndexed hne h

/-- The queue is a bounded history of the processes signalled. -/
theorem retained_signalExit (hw : w.WF) {log : List ProcessId}
    (h : Retained WAITER_HISTORY_BOUND w.completed log) :
    Retained WAITER_HISTORY_BOUND (w.signalExit pid exit).completed (pid :: log) := by
  rcases signalExit_cases w pid exit with ⟨e, he, hs⟩ | ⟨-, ⟨hp, hs⟩ | ⟨hp, hs⟩⟩
  · rw [hs]
    refine h.again ((hw.mem_completed pid).mpr ?_)
    rw [tryGet_of_completed he]; rfl
  · have hc : (w.signalExit pid exit).completed = w.completed := by
      rw [hs, trim, publish_completed, evict_of_le hw.length_le]
    rw [hc]
    exact h.again ((hw.mem_completed pid).mpr hp)
  · have hc : (w.signalExit pid exit).completed =
        (retain WAITER_HISTORY_BOUND w.completed pid).1 := by
      rw [hs, trim, publish_completed, retain]
    rw [hc]
    refine h.push fun hm => ?_
    rw [hw.mem_completed, hp] at hm
    exact absurd hm (by decide)

/-! ### Registering a waiter -/

/-- A registration changes nothing of what is shown. -/
theorem tryGet_wait (hw : w.WF) (pid q : ProcessId) : (w.wait pid).2.tryGet q = w.tryGet q := by
  rw [wait]
  split
  · rfl
  · rfl
  · next h =>
      rw [tryGet_openSlot hw.toIndexed]
      split
      · next hq => subst hq; exact (tryGet_of_none h).symm
      · rfl

/-- A registration sends nothing. -/
theorem cells_wait (w : Slots) (pid : ProcessId) {ch : Channel} {x : ProcessExit}
    (h : (w.wait pid).2.cells ch = some x) : w.cells ch = some x := by
  rw [wait] at h
  split at h
  · exact h
  · exact h
  · by_cases hc : ch = ⟨pid, w.opened⟩
    · subst hc
      exact absurd h (by simp [openSlot])
    · rw [← h]
      exact (Function.update_of_ne hc none w.cells).symm

/-- A registration completes nothing. -/
@[simp] theorem completed_wait (w : Slots) (pid : ProcessId) :
    (w.wait pid).2.completed = w.completed := by
  rw [wait]; split <;> rfl

/-- A future is for the process it was made for. -/
theorem wait_future (hw : w.WF) (pid : ProcessId) :
    (∃ e, (w.wait pid).1 = .ready e ∧ w.tryGet pid = some e) ∨
      ∃ ch : Channel, (w.wait pid).1 = .receiver ch ∧ ch.pid = pid := by
  rw [wait]
  split
  · next e he => exact .inl ⟨e, rfl, tryGet_of_completed he⟩
  · next ch hch => exact .inr ⟨ch, rfl, (hw.sender pid ch hch).1⟩
  · exact .inr ⟨⟨pid, w.opened⟩, rfl, rfl⟩

end Slots

/-- The waiter port's adapter: a well-formed table. -/
structure InMemoryWaiters where
  slots : Slots
  wf : slots.WF

namespace InMemoryWaiters

/-- An empty waiter set. -/
def new : InMemoryWaiters where
  slots := ⟨∅, [], fun _ => none, 0⟩
  wf := by
    refine ⟨⟨List.nodup_nil, fun pid => ?_, fun pid ch h => ?_, fun pid e h => ?_⟩, Nat.zero_le _⟩
    · simp [Slots.tryGet]
    · exact absurd h (by simp)
    · exact absurd h (by simp)

/-- Records the terminal exit of a process and wakes its waiters. -/
def signalExit (w : InMemoryWaiters) (pid : ProcessId) (exit : ProcessExit) :
    InMemoryWaiters :=
  ⟨w.slots.signalExit pid exit, w.wf.signalExit pid exit⟩

/-- The recorded exit, if one was published and is retained. -/
def tryGet (w : InMemoryWaiters) (pid : ProcessId) : Option ProcessExit :=
  w.slots.tryGet pid

/-- A future that resolves with the terminal exit. -/
def wait (w : InMemoryWaiters) (pid : ProcessId) : WaitFuture × InMemoryWaiters :=
  ((w.slots.wait pid).1, ⟨(w.slots.wait pid).2, w.wf.wait pid⟩)

/-- The value a future resolves to; `none` while it is pending. -/
def poll (w : InMemoryWaiters) (f : WaitFuture) : Option ProcessExit :=
  w.slots.poll f

end InMemoryWaiters

end Shepherd
