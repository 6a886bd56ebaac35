import Shepherd.Supervisor.Soundness
import Shepherd.WaiterRuns

/-!
# How the Supervisor Uses its Waiters

The supervisor reaches its waiter table through the calls of the port only. What an
operation does to the table is a list of calls (`exec_calls`), and every exit that the
history says was signalled was one of them. So a channel that a caller got before an exit
of its process was signalled holds an exit once one is (`Awaits`).
-/

open Std

namespace Shepherd

open Conc

variable {t : Tid} {s s' s'' : Inner} {c : ProcessScopeId} {p q : ProcessId}
  {e : ProcessExit} {ch : Channel}

/-! ### Calls of the port -/

namespace Slots

variable {w : Slots}

/-- The number of channels that were opened never falls. -/
theorem opened_call (w : Slots) (c : WaiterCall) : w.opened ≤ (w.call c).opened := by
  have hpub : ∀ q e, (∀ x, w.entries[q]? ≠ some (.completed x)) →
      w.opened ≤ (w.publish q e).opened := fun q e hne => by
    rcases publish_cases w q e hne with ⟨-, -, ho, -⟩ | ⟨-, ⟨ch, -, hp⟩ | ⟨-, hp⟩⟩
    · exact ho.ge
    · exact hp ▸ le_rfl
    · exact hp ▸ Nat.le_succ _
  cases c with
  | tryGet q => exact le_rfl
  | wait q =>
      rw [call, wait]
      split
      · exact le_rfl
      · exact le_rfl
      · exact Nat.le_succ _
  | signalExit q e =>
      rcases signalExit_cases w q e with ⟨_, -, hs⟩ | ⟨hne, ⟨-, hs⟩ | ⟨-, hs⟩⟩
      · rw [call, hs]
      · rw [call, hs]
        exact hpub q e hne
      · rw [call, hs]
        exact hpub q e hne

/-- The channel holds an exit, or it is the pending sender of the process. -/
def Sends (w : Slots) (p : ProcessId) (ch : Channel) : Prop :=
  (w.cells ch).isSome = true ∨ w.entries[p]? = some (.pending ch)

/-- A channel that holds an exit holds one after any calls. -/
theorem cells_calls (hi : ch.index < w.opened) (h : (w.cells ch).isSome = true)
    (cs : List WaiterCall) : ((cs.foldl call w).cells ch).isSome = true := by
  induction cs generalizing w with
  | nil => exact h
  | cons c cs ih => exact ih (hi.trans_le (opened_call w c)) (cells_mono hi h c)

/-- **A list of calls on a sender.** It stays, or its channel holds an exit; it does when an exit of
the process was among the calls, whatever comes after it. By induction on the calls. -/
theorem Sends.calls (hw : w.WF) (hi : ch.index < w.opened) (h : w.Sends p ch)
    (cs : List WaiterCall) : ch.index < (cs.foldl call w).opened ∧ (cs.foldl call w).Sends p ch ∧
      ∀ e, .signalExit p e ∈ cs → ((cs.foldl call w).cells ch).isSome = true := by
  induction cs generalizing w with
  | nil => exact ⟨hi, h, nofun⟩
  | cons c cs ih =>
      have hi' := hi.trans_le (opened_call w c)
      have h' : (w.call c).Sends p ch := by
        rcases h with h | h
        · exact .inl (cells_mono hi h c)
        · exact (sender_call hw h c).symm
      obtain ⟨hi₂, h₂, hc₂⟩ := ih (hw.call c) hi' h'
      refine ⟨hi₂, h₂, fun e hm => ?_⟩
      rcases List.mem_cons.mp hm with rfl | hm
      · refine cells_calls hi' ?_ cs
        rcases h with h | h
        · exact cells_mono hi h _
        · exact Option.isSome_iff_exists.mpr (cells_signalExit_sender h e)
      · exact hc₂ e hm

end Slots

/-- The calls on the table are the calls on its slots. -/
theorem InMemoryWaiters.slots_calls (w : InMemoryWaiters) (cs : List WaiterCall) :
    (cs.foldl call w).slots = cs.foldl Slots.call w.slots := by
  induction cs generalizing w with
  | nil => rfl
  | cons c cs ih => rw [List.foldl_cons, ih, slots_call, List.foldl_cons]

/-- The later state is reached by calls of the waiter port; the exits signalled in between
are among them. -/
def Inner.Calls (s s' : Inner) : Prop :=
  ∃ cs : List WaiterCall, s'.waiters = cs.foldl InMemoryWaiters.call s.waiters ∧
    ∀ p e, Happened s'.history (.exitSignalled p e) →
      Happened s.history (.exitSignalled p e) ∨ .signalExit p e ∈ cs

namespace Inner.Calls

/-- An operation that leaves the table alone and signals no exit makes no call. -/
theorem of_eq (hw : s'.waiters = s.waiters)
    (hh : ∀ p e, Happened s'.history (.exitSignalled p e) →
      Happened s.history (.exitSignalled p e)) : Calls s s' :=
  ⟨[], hw, fun p e h => .inl (hh p e h)⟩

/-- No step, no call. -/
theorem refl (s : Inner) : Calls s s :=
  of_eq rfl fun _ _ h => h

/-- The calls of two steps are made in a row. -/
theorem trans (h₁ : Calls s s') (h₂ : Calls s' s'') : Calls s s'' := by
  obtain ⟨cs₁, hw₁, hh₁⟩ := h₁
  obtain ⟨cs₂, hw₂, hh₂⟩ := h₂
  refine ⟨cs₁ ++ cs₂, by rw [hw₂, hw₁, List.foldl_append], fun p e h => ?_⟩
  rcases hh₂ p e h with h | h
  · exact (hh₁ p e h).imp_right (List.mem_append_left _)
  · exact .inr (List.mem_append_right _ h)

/-- A registration with the waiters is one call. -/
theorem wait (hw : s'.waiters = (s.waiters.wait p).2) (hh : s'.history = s.history) :
    Calls s s' :=
  ⟨[.wait p], hw, fun _ _ h => .inl (hh ▸ h)⟩

/-- The signal of an exit is one call, with the event that the history has of it. -/
theorem signalExit (s : Inner) (t : Tid) (p : ProcessId) (e : ProcessExit) :
    Calls s (s.signalExit t p e) := by
  refine ⟨[.signalExit p e], rfl, fun q x h => ?_⟩
  rcases happened_cons.mp h with heq | h
  · obtain ⟨rfl, rfl⟩ := Event.exitSignalled.inj heq
    exact .inr List.mem_cons_self
  · exact .inl h

end Inner.Calls

/-- A channel that a caller of `wait` got: it holds an exit of the process, or nothing was
signalled and it will. -/
structure Awaits (s : Inner) (p : ProcessId) (ch : Channel) : Prop where
  opened : ch.index < s.waiters.slots.opened
  sends : s.waiters.slots.Sends p ch
  signalled : Signalled s.history p → (s.waiters.slots.cells ch).isSome = true

/-- **A caller of `wait` gets its exit**: whatever is called, its channel has an exit once one of
its process was signalled. -/
theorem Awaits.calls (h : Awaits s p ch) (hc : s.Calls s') : Awaits s' p ch := by
  obtain ⟨cs, hw, hh⟩ := hc
  obtain ⟨hi, hs, hcell⟩ := h.sends.calls s.waiters.wf h.opened cs
  rw [← InMemoryWaiters.slots_calls, ← hw] at hi hs hcell
  refine ⟨hi, hs, fun ⟨e, he⟩ => ?_⟩
  rcases hh p e he with he | he
  · rw [hw, InMemoryWaiters.slots_calls]
    exact Slots.cells_calls h.opened (h.signalled ⟨e, he⟩) cs
  · exact hcell e he

/-- The receiver that a caller of `wait` gets before an exit was signalled. -/
theorem awaits_of_wait (hi : Inv s) (hn : ¬ Signalled s.history p) :
    ∃ ch, (s.waiters.wait p).1 = .receiver ch ∧ ch.pid = p ∧
      ∀ s' : Inner, s'.waiters = (s.waiters.wait p).2 → s'.history = s.history →
        Awaits s' p ch := by
  rcases Slots.future_of_wait s.waiters.slots p with ⟨e, -, hg⟩ | ⟨ch, hf, hp⟩
  · exact absurd ⟨e, hi.signals.shown hg⟩ hn
  · obtain ⟨hpid, hopen⟩ := (s.waiters.wf.wait p).sender p ch hp
    refine ⟨ch, hf, hpid, fun s' hw hh => ?_⟩
    have hslots : s'.waiters.slots = (s.waiters.slots.wait p).2 := congrArg _ hw
    refine ⟨by rwa [hslots], by rw [hslots]; exact .inr hp, fun hsig => absurd ?_ hn⟩
    rwa [hh] at hsig

/-! ### What the operations call -/

section Frame

variable (s)

/-- An attachment leaves the waiters alone. -/
@[simp] theorem Inner.attach_waiters (os : OsIdentity) (spec : ProcessSpec) :
    (s.attach t c os spec).2.waiters = s.waiters := by
  unfold Inner.attach
  dsimp only
  repeat' split
  all_goals rfl

/-- Retaining a capture leaves the waiters alone. -/
@[simp] theorem Inner.retainCompletedOutput_waiters (p : ProcessId) :
    (s.retainCompletedOutput p).waiters = s.waiters := by
  rw [Inner.retainCompletedOutput]
  split <;> rfl

/-- The exit that a monitor records reaches the waiters when it is dispatched, not before. -/
@[simp] theorem Inner.recordMonitored_waiters (p : ProcessId) (r : Option RawExit) :
    (s.recordMonitored t c p r).2.waiters = s.waiters := by
  rw [Inner.recordMonitored]
  repeat' split
  all_goals rfl

/-- The exit that a retry stores does not reach the waiters yet. -/
@[simp] theorem Inner.storeRecovered_waiters (p : ProcessId) (e : ProcessExit) :
    (s.storeRecovered t c p e).2.waiters = s.waiters := by
  obtain ⟨_, _, _, heq⟩ := s.storeRecovered_frame t c p e
  rw [heq]

/-- An entry is pruned from the registry; the waiters keep the exit. -/
@[simp] theorem Inner.prune_waiters (ev : DomainEvent) : (s.prune ev).waiters = s.waiters := by
  simp only [Inner.prune]
  repeat' split
  all_goals rfl

/-- A new scope has no process that anybody waits for. -/
@[simp] theorem Inner.createScope_waiters (b : Bool) :
    (s.createScope t b).2.waiters = s.waiters := by
  rw [Inner.createScope]
  split <;> rfl

/-- A publication goes to a cleanup channel, not to the waiters. -/
@[simp] theorem Inner.publish_waiters (v : CleanupResult) :
    (s.publish t c v).waiters = s.waiters := by
  rw [Inner.publish]
  split <;> rfl

/-- A call that settles has read its exit, and leaves the waiters alone. -/
@[simp] theorem Inner.settleFor_waiters (p : ProcessId) (e : Option ProcessExit) :
    (s.settleFor t p e).waiters = s.waiters := by
  rw [Inner.settleFor]
  split <;> rfl

/-- A sample leaves the waiters alone. -/
@[simp] theorem Inner.storeSample_waiters (p : ProcessId) (x : Sample) :
    (s.storeSample p x).waiters = s.waiters := by
  rw [Inner.storeSample]
  split <;> rfl

end Frame

/-- The operations that call the waiters. -/
def Op.waits : Op → Bool
  | .keepOutput _ _ | .notify _ | .beginTermination _ | .recordRecovered _ _ _
  | .registerWait _ | .drain _ => true
  | .orObserve _ o | .orElapsed o => o.waits
  | _ => false

/-- **Every other operation leaves the waiters alone.** -/
theorem exec_waiters {o : Op} {a : Answer} {r : Res o} (hl : o.waits = false)
    (he : exec t o a s = some (r, s')) : s'.waiters = s.waiters := by
  induction o generalizing a s s' with
  | orObserve f o ih =>
      obtain ⟨_, -, rfl⟩ | ⟨_, -, hrs⟩ := exec_orObserve he
      · rfl
      · exact ih hl hrs
  | orElapsed o ih =>
      obtain ⟨-, rfl⟩ | ⟨_, -, hrs⟩ := exec_orElapsed he
      · rfl
      · exact ih hl hrs
  | _ =>
      simp only [exec] at he
      repeat' split at he
      all_goals first
        | (cases hl; done)
        | (cases he; done)
        | exact of_some (P := fun x => x.waiters = s.waiters) he rfl
        | exact of_some (P := fun x => x.waiters = s.waiters) he (by simp)
        | exact of_map (P := fun x => x.waiters = s.waiters) he fun _ => rfl
        | exact of_map (P := fun x => x.waiters = s.waiters) he fun _ => by simp

/-- Only an operation that uses the waiters signals an exit. -/
theorem Op.Emits.waits {o : Op} (hl : o.waits = false) : ¬ o.Emits (.exitSignalled p e) := by
  induction o with
  | orObserve f o ih => exact ih hl
  | orElapsed o ih => exact ih hl
  | _ => first | (cases hl; done) | simp [Op.Emits]

namespace Inner.Calls

/-- An operation with one event that signals no exit makes no call. -/
theorem log {ev : Event} (hw : s'.waiters = s.waiters) (hh : s'.history = (t, ev) :: s.history)
    (hev : ev.signals = none) : Calls s s' := by
  refine of_eq hw fun p e h => ?_
  rw [hh] at h
  refine (happened_cons.mp h).resolve_left ?_
  rintro rfl
  cases hev

/-- Keeping a capture makes no call. -/
theorem keepOutput (s : Inner) (p : ProcessId) (output : Option ProcessOutput) (b : Bool) :
    Calls s (s.keepOutput p output b) := by
  simp only [Inner.keepOutput]
  split
  · exact wait rfl rfl
  · split
    · exact of_eq rfl fun _ _ h => h
    · exact refl s

/-- The handler of an exit signals it to the waiters, by one call. -/
theorem notify (s : Inner) (t : Tid) (ev : DomainEvent) : Calls s (s.notify t ev) := by
  have hlog : Calls s (s.log t (.dispatched ev)) := log rfl rfl rfl
  simp only [Inner.notify]
  split
  · split
    · exact hlog.trans (signalExit _ t _ _)
    · split
      · exact hlog.trans (signalExit _ t _ _)
      · exact hlog
  · exact hlog

/-- The start of a termination makes the call of a `wait`, or none. -/
theorem beginTermination (s : Inner) (p : ProcessId) : Calls s (s.beginTermination p).2 := by
  rw [Inner.beginTermination]
  repeat' split
  all_goals first
    | exact refl s
    | exact wait rfl rfl

/-- A registration makes the call of a `wait`, or none. -/
theorem registerWait (s : Inner) (p : ProcessId) : Calls s (s.registerWait p).2 := by
  rw [Inner.registerWait]
  repeat' split
  all_goals first
    | exact refl s
    | exact wait rfl rfl

/-- Storing a recovered exit makes no call. -/
theorem storeRecovered (s : Inner) (t : Tid) (c : ProcessScopeId) (p : ProcessId)
    (e : ProcessExit) : Calls s (s.storeRecovered t c p e).2 := by
  rw [Inner.storeRecovered]
  repeat' split
  all_goals first
    | exact refl s
    | exact log rfl rfl rfl

/-- Retaining a capture makes no call. -/
theorem retainCompletedOutput (s : Inner) (p : ProcessId) :
    Calls s (s.retainCompletedOutput p) := by
  refine of_eq (Inner.retainCompletedOutput_waiters s p) fun _ _ h => ?_
  rw [Inner.retainCompletedOutput] at h
  split at h <;> exact h

/-- A recovered exit is signalled at once where the unverified one had been. -/
theorem recordRecovered (s : Inner) (t : Tid) (c : ProcessScopeId) (p : ProcessId)
    (raw : RawExit) : Calls s (s.recordRecovered t c p raw).2 := by
  have hs := storeRecovered s t c p (recoveredExit p raw)
  unfold Inner.recordRecovered
  dsimp only
  split
  · exact hs
  · exact (hs.trans (retainCompletedOutput _ p)).trans (signalExit _ t p _)

/-- The observers of a scope are registered one after the other. -/
theorem observers (sc : ProcessScope) (ps : List ProcessId) (w : InMemoryWaiters) :
    ∃ cs : List WaiterCall, (Inner.observers sc ps w).2 = cs.foldl InMemoryWaiters.call w := by
  induction ps generalizing w with
  | nil => exact ⟨[], rfl⟩
  | cons p ps ih =>
      rw [Inner.observers]
      split
      · exact ih w
      · obtain ⟨cs, hcs⟩ := ih (w.wait p).2
        exact ⟨.wait p :: cs, hcs⟩

/-- Draining takes an observer of each tracked process; by induction on the list. -/
theorem drain (s : Inner) (t : Tid) (c : ProcessScopeId) : Calls s (s.drain t c).2 := by
  rw [Inner.drain]
  split
  · exact refl s
  next sc _ =>
  obtain ⟨cs, hcs⟩ := observers sc.beginScopeTermination.2 sc.beginScopeTermination.2.processIds
    s.waiters
  dsimp only
  split
  · refine ⟨cs, hcs, fun p e h => .inl ?_⟩
    refine (happened_cons.mp h).resolve_left (by rintro ⟨⟩)
  · exact ⟨cs, hcs, fun p e h => .inl h⟩

end Inner.Calls

/-- **Operations reach the waiters through the port.** -/
theorem exec_calls {o : Op} {a : Answer} {r : Res o} (he : exec t o a s = some (r, s')) :
    s.Calls s' := by
  cases hw : o.waits with
  | false =>
      refine .of_eq (exec_waiters hw he) fun p e h => ?_
      obtain ⟨-, evs, hh, hk⟩ := exec_ext he
      rw [hh] at h
      obtain ⟨t', hm⟩ := h
      rcases List.mem_append.mp hm with hm | hm
      · obtain ⟨ev, hev, heq⟩ := List.mem_map.mp hm
        obtain ⟨-, rfl⟩ := Prod.mk.inj heq
        exact absurd (hk _ hev) (Op.Emits.waits hw)
      · exact ⟨t', hm⟩
  | true =>
      induction o generalizing a s s' with
      | orObserve f o ih =>
          obtain ⟨_, -, rfl⟩ | ⟨_, -, hrs⟩ := exec_orObserve he
          · exact .refl s'
          · exact ih hrs hw
      | orElapsed o ih =>
          obtain ⟨-, rfl⟩ | ⟨_, -, hrs⟩ := exec_orElapsed he
          · exact .refl s'
          · exact ih hrs hw
      | keepOutput p b =>
          cases a with
          | output output => exact of_some (P := s.Calls) he (.keepOutput s p output b)
          | _ => cases he
      | notify ev => exact of_some (P := s.Calls) he (.notify s t ev)
      | beginTermination p => exact of_some (P := s.Calls) he (.beginTermination s p)
      | recordRecovered c p raw => exact of_some (P := s.Calls) he (.recordRecovered s t c p raw)
      | registerWait p => exact of_some (P := s.Calls) he (.registerWait s p)
      | drain c => exact of_some (P := s.Calls) he (.drain s t c)
      | _ => cases hw

/-- **A channel stays awaited** in every step of the system. -/
theorem Awaits.step {cfg cfg' : Config Res Ret Inner} {l : Label Answer Call}
    (h : Awaits cfg.shared p ch) (hs : supervisor.step cfg l = some cfg') :
    Awaits cfg'.shared p ch := by
  cases supervisor.step_shared hs with
  | @run t a o k u r s' _ hexec hsh =>
      have h' := h.calls (exec_calls hexec)
      rcases hsh with ⟨_, _, -, hsh, -⟩ | ⟨v, -, hsh, -⟩
      · exact hsh ▸ h'
      · rw [hsh]
        exact h'.calls (.log rfl rfl rfl)
  | drop _ _ hsh => exact hsh ▸ h
  | start hsh =>
      rw [hsh]
      exact h.calls (.of_eq rfl fun _ _ h => h)

end Shepherd
