import Shepherd.Conc.Logic
import Shepherd.Supervisor.Sections
import Shepherd.Supervisor.System

/-!
# The Protocol of the Supervisor

The rely–guarantee protocol of the system. `Since own t s s'` says what task `t` knows of a
later state: the history has grown, `t` itself caused only events that satisfy `own`, no
other task caused an event guarded by an operation lock that `t` holds, and `t` holds the
same locks.

* `Caused` — only the first two of these.
* `Rely` — `t` caused nothing: what the other tasks can do.
* `Calm` — `t` caused events that neither need a lock nor matter to a caller's own record.

Facts about a scope whose lock a task holds are frozen: they change only by the task's own
steps (`Since.frozen`). `wp_step`, `wp_since` and `wp_calm` are the rules for the operations,
`wp_seq`, `wp_within` and `wp_race` those for programs.
-/

open Std

namespace Shepherd

open Conc

variable {t t' : Tid} {s s' s'' : Inner} {c : ProcessScopeId} {ev : Event}

/-! ### Later states -/

/-- A later state; in between, `t` caused only events that satisfy `own`. -/
def Caused (own : Event → Prop) (t : Tid) (s s' : Inner) : Prop :=
  ∃ ext, s'.history = ext ++ s.history ∧ ∀ x ∈ ext, x.1 = t → own x.2

namespace Caused

variable {own own' : Event → Prop}

/-- No step causes nothing. -/
theorem refl (t : Tid) (s : Inner) : Caused own t s s :=
  ⟨[], rfl, by simp⟩

/-- What `t` causes in two stretches, one after the other. -/
theorem trans (h₁ : Caused own t s s') (h₂ : Caused own t s' s'') : Caused own t s s'' := by
  obtain ⟨e₁, he₁, hx₁⟩ := h₁
  obtain ⟨e₂, he₂, hx₂⟩ := h₂
  refine ⟨e₂ ++ e₁, by rw [he₂, he₁, List.append_assoc], fun x hx => ?_⟩
  rcases List.mem_append.mp hx with hx | hx
  · exact hx₂ x hx
  · exact hx₁ x hx

/-- A wider set of events allows the same. -/
theorem mono (hown : ∀ ev, own ev → own' ev) (h : Caused own t s s') : Caused own' t s s' := by
  obtain ⟨ext, he, hx⟩ := h
  exact ⟨ext, he, fun x hm ht => hown _ (hx x hm ht)⟩

/-- One event of `t`. -/
theorem one (hev : own ev) (hh : s'.history = (t, ev) :: s.history) : Caused own t s s' := by
  refine ⟨[(t, ev)], hh, fun x hx _ => ?_⟩
  obtain rfl := List.mem_singleton.mp hx
  exact hev

/-- The history has grown. -/
theorem suffix (h : Caused own t s s') : s.history <:+ s'.history := by
  obtain ⟨ext, he, -⟩ := h
  exact ⟨ext, he.symm⟩

/-- An event of `t` that it cannot have caused since was there. -/
theorem own_mem (h : Caused own t s s') (hn : ¬ own ev) (hm : (t, ev) ∈ s'.history) :
    (t, ev) ∈ s.history := by
  obtain ⟨ext, he, hx⟩ := h
  rw [he] at hm
  rcases List.mem_append.mp hm with hm | hm
  · exact absurd (hx _ hm rfl) hn
  · exact hm

/-- A late entry is an entry. -/
theorem lateEntry (h : Caused own t s s') (h₁ : ¬ own (.lookedUp c)) (h₂ : ¬ own (.acquired c))
    (hl : LateEntry s'.history t c) : LateEntry s.history t c := by
  obtain ⟨ext, he, hx⟩ := h
  rw [he] at hl
  clear he
  induction ext with
  | nil => exact hl
  | cons x ext ih =>
      rcases lateEntry_cons.mp hl with ⟨ht, hev, -⟩ | hl
      · have hown := hx x List.mem_cons_self ht
        rcases hev with hev | hev
        · exact absurd (hev ▸ hown) h₁
        · exact absurd (hev ▸ hown) h₂
      · exact ih hl fun y hy => hx y (List.mem_cons_of_mem x hy)

/-- A lock is not taken late without being taken. -/
theorem lateLock (h : Caused own t s s') (hn : ¬ own (.acquired c))
    (hl : LateLock s'.history t c) : LateLock s.history t c := by
  obtain ⟨ext, he, hx⟩ := h
  rw [he] at hl
  clear he
  induction ext with
  | nil => exact hl
  | cons x ext ih =>
      rcases lateLock_cons.mp hl with ⟨ht, hev, -⟩ | hl
      · exact absurd (hev ▸ hx x List.mem_cons_self ht) hn
      · exact ih hl fun y hy => hx y (List.mem_cons_of_mem x hy)

end Caused

/-- What task `t` knows of a later state. -/
structure Since (own : Event → Prop) (t : Tid) (s s' : Inner) : Prop where
  history : ∃ ext, s'.history = ext ++ s.history ∧ ∀ x ∈ ext, (x.1 = t → own x.2) ∧
    (x.1 ≠ t → ∀ c, x.2.guard = some c → (s.operations c).holder ≠ some t)
  holder : ∀ c, (s'.operations c).holder = some t ↔ (s.operations c).holder = some t

namespace Since

variable {own own' : Event → Prop}

/-- A state is later than itself. -/
theorem refl (t : Tid) (s : Inner) : Since own t s s :=
  ⟨⟨[], rfl, by simp⟩, fun _ => Iff.rfl⟩

/-- Two stretches, one after the other; the locks of `t` are the same in all three states. -/
theorem trans (h₁ : Since own t s s') (h₂ : Since own t s' s'') : Since own t s s'' := by
  obtain ⟨⟨e₁, he₁, hx₁⟩, hh₁⟩ := h₁
  obtain ⟨⟨e₂, he₂, hx₂⟩, hh₂⟩ := h₂
  refine ⟨⟨e₂ ++ e₁, by rw [he₂, he₁, List.append_assoc], fun x hx => ?_⟩,
    fun c => (hh₂ c).trans (hh₁ c)⟩
  rcases List.mem_append.mp hx with hx | hx
  · refine ⟨(hx₂ x hx).1, fun hne c hg hh => ?_⟩
    exact (hx₂ x hx).2 hne c hg ((hh₁ c).mpr hh)
  · exact hx₁ x hx

/-- A wider set of events allows the same. -/
theorem mono (hown : ∀ ev, own ev → own' ev) (h : Since own t s s') : Since own' t s s' := by
  obtain ⟨⟨ext, he, hx⟩, hh⟩ := h
  exact ⟨⟨ext, he, fun x hm => ⟨fun ht => hown _ ((hx x hm).1 ht), (hx x hm).2⟩⟩, hh⟩

/-- What `t` knows of a later state, without the locks. -/
theorem caused (h : Since own t s s') : Caused own t s s' := by
  obtain ⟨⟨ext, he, hx⟩, -⟩ := h
  exact ⟨ext, he, fun x hm => (hx x hm).1⟩

/-- The history has grown. -/
theorem suffix (h : Since own t s s') : s.history <:+ s'.history :=
  h.caused.suffix

/-- An event of `t` that it cannot have caused since was there. -/
theorem own_mem (h : Since own t s s') (hn : ¬ own ev) (hm : (t, ev) ∈ s'.history) :
    (t, ev) ∈ s.history :=
  h.caused.own_mem hn hm

/-- What needs a lock that `t` holds happened before, or `t` caused it. -/
theorem frozen (h : Since own t s s') (hh : (s.operations c).holder = some t)
    (hg : ev.guard = some c) (hn : ¬ own ev) (hp : Happened s'.history ev) :
    Happened s.history ev := by
  obtain ⟨⟨ext, he, hx⟩, -⟩ := h
  obtain ⟨t', hm⟩ := hp
  rw [he] at hm
  rcases List.mem_append.mp hm with hm | hm
  · by_cases ht : t' = t
    · exact absurd ((hx _ hm).1 ht) hn
    · exact absurd hh ((hx _ hm).2 ht c hg)
  · exact ⟨t', hm⟩

/-- A task that neither spawned nor committed anything since may be dropped still. -/
theorem droppable (h : Since own t s s') (h₁ : ∀ c r, ¬ own (.spawnReturned c r))
    (h₂ : ∀ c r, ¬ own (.committed c r)) (hd : Droppable t s) : Droppable t s' where
  spawned c r hm := hd.spawned c r (h.own_mem (h₁ c r) hm)
  commits c hh hc := by
    obtain ⟨r, hr⟩ := hc
    have hh' := (h.holder c).mp hh
    exact (hd.commits c hh' ⟨r, h.frozen hh' rfl (h₂ c r) hr⟩).mono h.suffix

end Since

/-- What the other tasks can do, as seen by `t`. -/
abbrev Rely (t : Tid) : Inner → Inner → Prop :=
  Since (fun _ => False) t

/-- Events that need no lock, and that no caller's own record speaks of. -/
def Event.calm : Event → Bool
  | .shutdownStarted | .ownersDropped | .samplerBusy | .operationMissing | .signalSent _ _
  | .waitCalled _ | .waitReturned _ _ | .hardKilledAll | .hardKilledScope _ | .swept _ _
  | .recovered _ _ _ | .exitSignalled _ _ | .gaveUp _ | .translated _ | .dispatched _
  | .workerStarted _ _ _ | .published _ _ => true
  | _ => false

/-- A later state in which `t` caused only calm events. -/
abbrev Calm (t : Tid) : Inner → Inner → Prop :=
  Since (fun ev => ev.calm = true) t

namespace Calm

/-- What the other tasks do is calm: `t` caused nothing. -/
theorem of_rely (h : Rely t s s') : Calm t s s' :=
  h.mono fun _ hf => hf.elim

/-- An event of `t` that is not calm was there. -/
theorem own (h : Calm t s s') (hev : ev.calm = false) (hm : (t, ev) ∈ s'.history) :
    (t, ev) ∈ s.history :=
  h.own_mem (by simp [hev]) hm

/-- An event that needs a lock of `t` was there. -/
theorem happened (h : Calm t s s') (hh : (s.operations c).holder = some t)
    (hg : ev.guard = some c) (hp : Happened s'.history ev) : Happened s.history ev :=
  h.frozen hh hg (by cases ev <;> first | exact Bool.false_ne_true | cases hg) hp

/-- A scope whose lock `t` holds drains by a step of `t` only, which is not calm. -/
theorem drained (h : Calm t s s') (hh : (s.operations c).holder = some t)
    (hp : Drained s'.history c) : Drained s.history c := by
  obtain ⟨d, hd⟩ := hp
  exact ⟨d, h.happened hh rfl hd⟩

/-- A scope whose lock `t` holds is committed by `t` only. -/
theorem committed (h : Calm t s s') (hh : (s.operations c).holder = some t)
    (hp : Committed s'.history c) : Committed s.history c := by
  obtain ⟨r, hr⟩ := hp
  exact ⟨r, h.happened hh rfl hr⟩

/-- A scope whose lock `t` holds leaves the registry by a step of `t` only. -/
theorem removed (h : Calm t s s') (hh : (s.operations c).holder = some t)
    (hp : Removed s'.history c) : Removed s.history c := by
  obtain ⟨l, hl⟩ := hp
  exact ⟨l, h.happened hh rfl hl⟩

/-- A task that could be dropped before calm steps can be dropped after them. -/
theorem droppable (h : Calm t s s') (hd : Droppable t s) : Droppable t s' :=
  Since.droppable h (by simp [Event.calm]) (by simp [Event.calm]) hd

end Calm

/-! ### Operations and locks -/

section Frame

variable (s)

/-- An attachment moves no operation lock. -/
@[simp] theorem Inner.attach_operations (os : OsIdentity) (spec : ProcessSpec) :
    (s.attach t c os spec).2.operations = s.operations := by
  unfold Inner.attach
  dsimp only
  repeat' split
  all_goals rfl

/-- Keeping a capture moves no operation lock. -/
@[simp] theorem Inner.keepOutput_operations (p : ProcessId) (o : Option ProcessOutput)
    (b : Bool) : (s.keepOutput p o b).operations = s.operations := by
  simp only [Inner.keepOutput]
  repeat' split
  all_goals rfl

/-- Retaining a capture moves no operation lock. -/
@[simp] theorem Inner.retainCompletedOutput_operations (p : ProcessId) :
    (s.retainCompletedOutput p).operations = s.operations := by
  rw [Inner.retainCompletedOutput]
  split <;> rfl

/-- The record of a monitor moves no operation lock. -/
@[simp] theorem Inner.recordMonitored_operations (p : ProcessId) (r : Option RawExit) :
    (s.recordMonitored t c p r).2.operations = s.operations := by
  rw [Inner.recordMonitored]
  repeat' split
  all_goals rfl

/-- The signal of an exit moves no operation lock. -/
@[simp] theorem Inner.signalExit_operations (p : ProcessId) (e : ProcessExit) :
    (s.signalExit t p e).operations = s.operations := rfl

/-- The record of a retry moves no operation lock. -/
@[simp] theorem Inner.recordRecovered_operations (p : ProcessId) (raw : RawExit) :
    (s.recordRecovered t c p raw).2.operations = s.operations := by
  obtain ⟨_, _, _, _, _, _, heq⟩ := s.recordRecovered_frame t c p raw
  rw [heq]

/-- A handler moves no operation lock. -/
@[simp] theorem Inner.notify_operations (ev : DomainEvent) :
    (s.notify t ev).operations = s.operations := by
  simp only [Inner.notify]
  repeat' split
  all_goals rfl

/-- The removal of an entry moves no operation lock. -/
@[simp] theorem Inner.prune_operations (ev : DomainEvent) :
    (s.prune ev).operations = s.operations := by
  simp only [Inner.prune]
  repeat' split
  all_goals rfl

/-- The start of a termination of a process moves no operation lock. -/
@[simp] theorem Inner.beginTermination_operations (p : ProcessId) :
    (s.beginTermination p).2.operations = s.operations := by
  rw [Inner.beginTermination]
  repeat' split
  all_goals rfl

/-- A registration with the waiters moves no operation lock. -/
@[simp] theorem Inner.registerWait_operations (p : ProcessId) :
    (s.registerWait p).2.operations = s.operations := by
  rw [Inner.registerWait]
  repeat' split
  all_goals rfl

/-- Draining needs the operation lock, but does not move it. -/
@[simp] theorem Inner.drain_operations : (s.drain t c).2.operations = s.operations := by
  rw [Inner.drain]
  dsimp only
  repeat' split
  all_goals rfl

/-- A publication moves no operation lock. -/
@[simp] theorem Inner.publish_operations (v : CleanupResult) :
    (s.publish t c v).operations = s.operations := by
  rw [Inner.publish]
  split <;> rfl

/-- A settlement moves no operation lock. -/
@[simp] theorem Inner.settleFor_operations (p : ProcessId) (e : Option ProcessExit) :
    (s.settleFor t p e).operations = s.operations := by
  rw [Inner.settleFor]
  split <;> rfl

/-- A sample moves no operation lock. -/
@[simp] theorem Inner.storeSample_operations (p : ProcessId) (x : Sample) :
    (s.storeSample p x).operations = s.operations := by
  rw [Inner.storeSample]
  split <;> rfl

end Frame

/-- The operations that change an operation lock, or what is behind it. -/
def Op.locks : Op → Bool
  | .createScope _ | .lockOperation _ | .unlockOperation _ | .dropGuards | .setSerial _ _ => true
  | .orObserve _ o | .orElapsed o => o.locks
  | _ => false

/-- **Only the operations on locks move them.** -/
theorem exec_operations {o : Op} {a : Answer} {r : Res o} (hl : o.locks = false)
    (he : exec t o a s = some (r, s')) : s'.operations = s.operations := by
  induction o generalizing a s s' with
  | orObserve f o ih =>
      obtain ⟨_, -, rfl⟩ | ⟨_, -, hrs⟩ := exec_orObserve he
      · rfl
      · exact ih hl hrs
  | orElapsed o ih =>
      obtain ⟨-, rfl⟩ | ⟨_, -, hrs⟩ := exec_orElapsed he
      · rfl
      · exact ih hl hrs
  | _ =>
      simp only [exec] at he
      repeat' split at he
      all_goals first
        | (cases hl; done)
        | (cases he; done)
        | exact of_some (P := fun x => x.operations = s.operations) he rfl
        | exact of_some (P := fun x => x.operations = s.operations) he (by simp)
        | exact of_map (P := fun x => x.operations = s.operations) he fun _ => rfl
        | exact of_map (P := fun x => x.operations = s.operations) he fun _ => by simp

/-- An operation changes the locks of no other task; a new scope has a lock that was free. -/
theorem exec_holder {o : Op} {a : Answer} {r : Res o} (hi : Inv s)
    (hheld : ∀ c, o.guard = some c → (s.operations c).holder = some t)
    (he : exec t o a s = some (r, s')) (hne : t' ≠ t) (c : ProcessScopeId) :
    (s'.operations c).holder = some t' ↔ (s.operations c).holder = some t' := by
  have hsome : ∀ {x : Option Tid}, x = some t → (x = some t' ↔ False) := by
    rintro x rfl
    simpa using Ne.symm hne
  induction o generalizing a s s' with
  | orObserve f o ih =>
      obtain ⟨_, -, rfl⟩ | ⟨_, -, hrs⟩ := exec_orObserve he
      · rfl
      · exact ih hi hheld hrs
  | orElapsed o ih =>
      obtain ⟨-, rfl⟩ | ⟨_, -, hrs⟩ := exec_orElapsed he
      · rfl
      · exact ih hi hheld hrs
  | createScope observed =>
      rw [exec] at he
      split at he
      · next hb =>
          refine of_some (P := fun x => (x.operations c).holder = some t' ↔
            (s.operations c).holder = some t') he ?_
          rw [Inner.createScope]
          split
          · rfl
          · have hfree : (s.operations s.registry.createScope.1).holder = none := by
              cases hh : (s.operations s.registry.createScope.1).holder with
              | none => rfl
              | some t₀ =>
                  obtain ⟨_, l, hs, hc⟩ := hi.lawful.of_happened ⟨t₀, hi.tasks.holder hh⟩
                  have hle := hi.catalogue.scopes_le _ (Created.mono hs hc)
                  rw [ScopeRegistry.createScope_fst hb] at hle
                  exact absurd hle (Nat.not_succ_le_self _)
            by_cases hc : c = s.registry.createScope.1
            · subst hc
              simp [hfree]
            · simp [Function.update_of_ne hc]
      · cases he
  | lockOperation c' =>
      rw [exec] at he
      split at he
      · next hfree =>
          obtain ⟨-, rfl⟩ := Prod.mk.inj (Option.some.inj he)
          by_cases hc : c = c'
          · subst hc
            simp [Inner.lockOperation, hfree, Ne.symm hne]
          · simp [Inner.lockOperation, Function.update_of_ne hc]
      · cases he
  | unlockOperation c' =>
      obtain ⟨-, rfl⟩ := Prod.mk.inj (Option.some.inj he)
      by_cases hc : c = c'
      · subst hc
        rw [hsome (hheld c rfl)]
        simp [Inner.unlockOperation]
      · simp [Inner.unlockOperation, Function.update_of_ne hc]
  | dropGuards =>
      obtain ⟨-, rfl⟩ := Prod.mk.inj (Option.some.inj he)
      by_cases hc : (s.operations c).holder = some t
      · rw [hsome hc]
        simp [Inner.dropGuards, hc]
      · simp [Inner.dropGuards, hc]
  | setSerial c' report =>
      obtain ⟨-, rfl⟩ := Prod.mk.inj (Option.some.inj he)
      by_cases hc : c = c'
      · subst hc
        simp [Inner.setSerial]
      · simp [Inner.setSerial, Function.update_of_ne hc]
  | _ => rw [exec_operations rfl he]

/-- The events of an operation need the lock the operation needs. -/
theorem Op.Emits.guard {o : Op} (h : o.Emits ev) (hg : ev.guard = some c) :
    o.guard = some c := by
  induction o with
  | orObserve f o ih => exact ih h
  | orElapsed o ih => exact ih h
  | attach c' os spec =>
      rcases h with ⟨_, rfl⟩ | rfl
      · exact hg
      · cases hg
  | notify d => rcases h with rfl | ⟨_, _, rfl⟩ <;> cases hg
  | retryWait p os timeout => rcases h with ⟨_, rfl⟩ | rfl <;> cases hg
  | recordRecovered c' p raw => rcases h with ⟨_, rfl | rfl⟩ <;> cases hg
  | createScope observed =>
      obtain ⟨_, _, rfl⟩ := h
      cases hg
  | _ =>
      first
        | exact h.elim
        | (obtain rfl := h; first | exact hg | cases hg)
        | (obtain ⟨_, rfl⟩ := h; exact hg)

/-- **An operation run by its holder is one the other tasks can rely on.** -/
theorem exec_rely {o : Op} {a : Answer} {r : Res o} (hi : Inv s) (ha : o.Allowed t s)
    (he : exec t o a s = some (r, s')) (hne : t' ≠ t) : Rely t' s s' := by
  obtain ⟨-, evs, hh, hem⟩ := exec_ext he
  refine ⟨⟨evs.map (Prod.mk t), hh, fun x hx => ?_⟩, exec_holder hi ha.held he hne⟩
  obtain ⟨ev, hev, rfl⟩ := List.mem_map.mp hx
  refine ⟨fun heq => hne heq.symm, fun _ c hg => ?_⟩
  rw [ha.held c ((hem ev hev).guard hg)]
  simpa using Ne.symm hne

/-- The operations that cause only calm events, and change no lock. -/
def Op.calm : Op → Bool
  | .storeShuttingDown | .storeOwnersDropped | .loadShuttingDown | .loadOwnersDropped
  | .admitsProcesses _ | .insertSpawnTime _
  | .rememberOsPid _ _ | .keepOutput _ _ | .startSampler | .registerSampler | .signal _ _
  | .waitCall _ | .waitReturn _ | .waitOrElapsed _ | .retryWait _ _ _ | .sleep | .hardKillAll
  | .hardKillScope _ | .cleanupScope _ | .removeSample _ | .retainCompletedOutput _
  | .removeSpawnTime _ | .notify _ | .prune _ | .translate _ | .tryGet _ | .beginTermination _
  | .exitOrElapsed _ _ | .escalate _ _ | .exitOrGiveUp _ _ _ | .recordRecovered _ _ _
  | .registerWait _ | .awaitExit _ | .poll _ | .startWorker _ _ _ _ | .joinNext _
  | .readPending _ | .mergePending _ _ | .resultSender _ | .publish _ _ | .verifiedReport _
  | .takeOwner _ | .lockShutdown | .unlockShutdown | .snapshot | .lockSampler | .joinSampler
  | .clearSampler | .unlockSampler | .subscribeCleanup _ | .awaitCleanup _
  | .storeSample _ _ => true
  | .orObserve _ o | .orElapsed o => o.calm
  | _ => false

/-- A calm operation records calm events only. -/
theorem Op.Emits.calm {o : Op} (ho : o.calm = true) (h : o.Emits ev) : ev.calm = true := by
  induction o with
  | orObserve f o ih => exact ih ho h
  | orElapsed o ih => exact ih ho h
  | notify d => rcases h with rfl | ⟨_, _, rfl⟩ <;> rfl
  | retryWait p os timeout => rcases h with ⟨_, rfl⟩ | rfl <;> rfl
  | recordRecovered c' p raw => rcases h with ⟨_, rfl | rfl⟩ <;> rfl
  | _ =>
      first
        | (cases ho; done)
        | exact h.elim
        | (obtain rfl := h; rfl)
        | (obtain ⟨_, rfl⟩ := h; rfl)

/-- A calm operation is none of those on locks. -/
theorem Op.locks_of_calm {o : Op} (ho : o.calm = true) : o.locks = false := by
  induction o with
  | orObserve f o ih => exact ih ho
  | orElapsed o ih => exact ih ho
  | _ => first | rfl | cases ho

/-- An operation that changes no lock, as its own task sees it. -/
theorem exec_since {own : Event → Prop} {o : Op} {a : Answer} {r : Res o}
    (hown : ∀ ev, o.Emits ev → own ev) (hl : o.locks = false)
    (he : exec t o a s = some (r, s')) : Since own t s s' := by
  obtain ⟨-, evs, hh, hem⟩ := exec_ext he
  refine ⟨⟨evs.map (Prod.mk t), hh, fun x hx => ?_⟩, fun c => ?_⟩
  · obtain ⟨ev, hev, rfl⟩ := List.mem_map.mp hx
    exact ⟨fun _ => hown ev (hem ev hev), fun hne => absurd rfl hne⟩
  · rw [exec_operations hl he]

/-- An operation only adds to the history. -/
theorem exec_suffix {o : Op} {a : Answer} {r : Res o} (he : exec t o a s = some (r, s')) :
    s.history <:+ s'.history := by
  obtain ⟨-, evs, hh, -⟩ := exec_ext he
  exact ⟨evs.map (Prod.mk t), hh.symm⟩

/-! ### The protocol -/

/-- What a task may count on when it is started. -/
structure Ready (t : Tid) (role : Role) (s : Inner) : Prop where
  fresh : ∀ ev, (t, ev) ∉ s.history
  role : match role with
    | .call _ => True
    | .monitor c p os =>
        Happened s.history (.monitorStarted c p t) ∧ Happened s.history (.attached c p os)
    | .worker c p observer _ =>
        Happened s.history (.workerStarted c p t) ∧ FutureFor s.history p observer
    | .closing c => Happened s.history (.closedHanded c t)

/-- The protocol of the system. -/
def protocol : Protocol supervisor where
  inv := Inv
  rely := Rely
  ready t task s := ∃ role : Role, task = role.task ∧ Ready t role s
  rely_refl := Since.refl
  rely_trans := Since.trans

/-- The weakest precondition of a supervisor program. -/
abbrev WP {α : Type} (t : Tid) (u : Inner → Prop) (p : Code α) (Q : α → Inner → Prop)
    (s : Inner) : Prop :=
  protocol.wp t u p Q s

/-- An operation and what follows it, as one program. -/
@[simp] theorem act_bind {β : Type} (o : Op) (f : Res o → Code β) : (act o >>= f) = .op o f :=
  rfl

section Rules

variable {α β : Type} {u : Inner → Prop} {Q : α → Inner → Prop}

/-- **The rule for sequencing**, with the assertion in between. -/
theorem wp_seq {p : Code β} {f : β → Code α} (R : β → Inner → Prop) (hp : WP t u p R s)
    (hf : ∀ b s', R b s' → WP t u (f b) Q s') : WP t u (p >>= f) Q s :=
  Protocol.wp_bind (Protocol.wp_mono hf hp)

/-- **The rule for an operation** that may start a task. -/
theorem wp_step {o : Op} {k : Res o → Code α}
    (h : ∀ s₁, Rely t s s₁ → Inv s₁ → t < s₁.nextTask →
      (o.awaits = true → u s₁) ∧ o.Allowed t s₁ ∧
      ∀ a r s₂, exec t o a s₁ = some (r, s₂) → Inv s₂ →
        (∀ role, spawns o r = some role → Ready s₁.nextTask role s₂) ∧ WP t u (k r) Q s₂) :
    WP t u (.op o k) Q s := by
  refine Protocol.wp_op fun s₁ hr hi ht => ?_
  obtain ⟨hu, ha, hk⟩ := h s₁ hr hi ht
  refine ⟨hu, fun a r s₂ he => ?_⟩
  have hi₂ := exec_inv hi ht ha he
  obtain ⟨hsp, hw⟩ := hk a r s₂ he hi₂
  refine ⟨hi₂, fun t' hne => exec_rely hi ha he hne, fun task htask => ?_, hw⟩
  obtain ⟨role, hrole, rfl⟩ := Option.map_eq_some_iff.mp htask
  exact ⟨role, rfl, hsp role hrole⟩

/-- The rule for an operation that starts no task. -/
theorem wp_act {o : Op} {k : Res o → Code α} (hn : ∀ r, spawns o r = none)
    (h : ∀ s₁, Rely t s s₁ → Inv s₁ → t < s₁.nextTask →
      (o.awaits = true → u s₁) ∧ o.Allowed t s₁ ∧
      ∀ a r s₂, exec t o a s₁ = some (r, s₂) → Inv s₂ → WP t u (k r) Q s₂) :
    WP t u (.op o k) Q s := by
  refine wp_step fun s₁ hr hi ht => ?_
  obtain ⟨hu, ha, hk⟩ := h s₁ hr hi ht
  refine ⟨hu, ha, fun a r s₂ he hi₂ => ⟨fun role hrole => ?_, hk a r s₂ he hi₂⟩⟩
  rw [hn] at hrole
  cases hrole

/-- The task may be dropped at any later state. -/
def Await (own : Event → Prop) (t : Tid) (u : Inner → Prop) (s₀ : Inner) : Prop :=
  ∀ s', Since own t s₀ s' → Inv s' → t < s'.nextTask → u s'

/-- A task that may be dropped after its own events may be dropped after some of them. -/
theorem Await.since {own : Event → Prop} {s₀ : Inner} (h : Await own t u s₀)
    (hs : Since own t s₀ s) : Await own t u s :=
  fun s' hs' => h s' (hs.trans hs')

/-- A task that may be dropped after many events may be dropped after fewer. -/
theorem Await.mono {own own' : Event → Prop} {s₀ : Inner} (hown : ∀ ev, own' ev → own ev)
    (h : Await own t u s₀) : Await own' t u s₀ :=
  fun s' hs' => h s' (hs'.mono hown)

/-- **The rule for an operation that changes no lock**, some steps after `s₀`. -/
theorem wp_since {own : Event → Prop} {o : Op} {k : Res o → Code α} {s₀ : Inner}
    (hown : ∀ ev, o.Emits ev → own ev) (hl : o.locks = false) (hn : ∀ r, spawns o r = none)
    (hs : Since own t s₀ s) (hu : Await own t u s₀)
    (h : ∀ s₁, Rely t s s₁ → Since own t s₀ s₁ → Inv s₁ → o.Allowed t s₁ ∧
      ∀ a r s₂, exec t o a s₁ = some (r, s₂) → Inv s₂ → Since own t s₀ s₂ → WP t u (k r) Q s₂) :
    WP t u (.op o k) Q s := by
  refine wp_act hn fun s₁ hr hi ht => ?_
  have hs₁ := hs.trans (hr.mono fun _ hf => hf.elim)
  obtain ⟨ha, hk⟩ := h s₁ hr hs₁ hi
  exact ⟨fun _ => hu s₁ hs₁ hi ht, ha, fun a r s₂ he hi₂ =>
    hk a r s₂ he hi₂ (hs₁.trans (exec_since hown hl he))⟩

/-- **The rule for a calm operation**, some calm steps after `s₀`. -/
theorem wp_calm {o : Op} {k : Res o → Code α} {s₀ : Inner} (ho : o.calm = true)
    (hn : ∀ r, spawns o r = none) (hs : Calm t s₀ s)
    (hu : Await (fun ev => ev.calm = true) t u s₀)
    (h : ∀ s₁, Rely t s s₁ → Calm t s₀ s₁ → Inv s₁ → o.Allowed t s₁ ∧
      ∀ a r s₂, exec t o a s₁ = some (r, s₂) → Inv s₂ → Calm t s₀ s₂ → WP t u (k r) Q s₂) :
    WP t u (.op o k) Q s :=
  wp_since (fun _ hev => hev.calm ho) (Op.locks_of_calm ho) hn hs hu h

/-- The rule for a calm operation without a precondition, whatever it returns. -/
theorem wp_skip {o : Op} {k : Res o → Code α} {s₀ : Inner} (ho : o.calm = true)
    (hn : ∀ r, spawns o r = none) (ha : ∀ s₁, o.Allowed t s₁) (hs : Calm t s₀ s)
    (hu : Await (fun ev => ev.calm = true) t u s₀)
    (h : ∀ r s₂, Calm t s₀ s₂ → s.history <:+ s₂.history → WP t u (k r) Q s₂) :
    WP t u (.op o k) Q s := by
  refine wp_calm ho hn hs hu fun s₁ hr _ _ => ⟨ha s₁, fun a r s₂ he _ hs₂ => ?_⟩
  exact h r s₂ hs₂ (hr.suffix.trans (exec_suffix he))

/-- **The rule for a timeout**: it can fire at every await. -/
theorem wp_within {p : Code α} {Q : Option α → Inner → Prop}
    (h : WP t (fun s => u s ∧ Q none s) p (fun a => Q (some a)) s) :
    WP t u (within p) Q s := by
  induction p generalizing s with
  | pure a => exact h
  | op o k ih =>
      simp only [within]
      split
      · next haw =>
          refine Protocol.wp_op fun s₁ hr hi ht => ?_
          obtain ⟨hu, hk⟩ := h s₁ hr hi ht
          refine ⟨fun _ => (hu haw).1, fun a r s₂ he => ?_⟩
          have he' : exec t (.orElapsed o) a s₁ = some (r, s₂) := he
          simp only [exec] at he'
          split at he'
          · obtain ⟨rfl, rfl⟩ := Prod.mk.inj (Option.some.inj he')
            exact ⟨hi, Protocol.guar_refl t s₁, fun task htask => (by cases htask), (hu haw).2⟩
          · obtain ⟨rs, hrs, heq⟩ := Option.map_eq_some_iff.mp he'
            obtain ⟨rfl, rfl⟩ := Prod.mk.inj heq
            obtain ⟨hi₂, hg, hsp, hw⟩ := hk _ rs.1 rs.2 hrs
            exact ⟨hi₂, hg, hsp, ih rs.1 hw⟩
      · next haw =>
          refine Protocol.wp_op fun s₁ hr hi ht => ?_
          obtain ⟨-, hk⟩ := h s₁ hr hi ht
          refine ⟨fun hx => absurd hx haw, fun a r s₂ he => ?_⟩
          obtain ⟨hi₂, hg, hsp, hw⟩ := hk a r s₂ he
          exact ⟨hi₂, hg, hsp, ih r hw⟩

/-- **The rule for a race** with an exit observer: it can win at every await, and the termination
goes on by itself otherwise. -/
theorem wp_race {p : Code (Except TerminateError ProcessExit)} {f : WaitFuture}
    {Q : Except TerminateError ProcessExit → Inner → Prop}
    (h : WP t (fun s => u s ∧ ∀ e, s.waiters.poll f = some e → e.Verified → Q (.ok e) s) p Q s) :
    WP t u (race f p) Q s := by
  induction p generalizing s with
  | pure a => exact h
  | op o k ih =>
      simp only [race]
      split
      · next haw =>
          refine Protocol.wp_op fun s₁ hr hi ht => ?_
          obtain ⟨hu, hk⟩ := h s₁ hr hi ht
          refine ⟨fun _ => (hu haw).1, fun a r s₂ he => ?_⟩
          have he' : exec t (.orObserve f o) a s₁ = some (r, s₂) := he
          simp only [exec] at he'
          split at he'
          · obtain ⟨e, hpoll, heq⟩ := Option.map_eq_some_iff.mp he'
            obtain ⟨rfl, rfl⟩ := Prod.mk.inj heq
            refine ⟨hi, Protocol.guar_refl t s₁, fun task htask => (by cases htask), ?_⟩
            dsimp only
            split
            · next hv => exact (hu haw).2 e hpoll hv
            · exact Protocol.wp_conseq (fun _ hx => hx.1) (fun _ _ hq => hq)
                (Protocol.wp_of_rely h hr)
          · obtain ⟨rs, hrs, heq⟩ := Option.map_eq_some_iff.mp he'
            obtain ⟨rfl, rfl⟩ := Prod.mk.inj heq
            obtain ⟨hi₂, hg, hsp, hw⟩ := hk _ rs.1 rs.2 hrs
            exact ⟨hi₂, hg, hsp, ih rs.1 hw⟩
      · next haw =>
          refine Protocol.wp_op fun s₁ hr hi ht => ?_
          obtain ⟨-, hk⟩ := h s₁ hr hi ht
          refine ⟨fun hx => absurd hx haw, fun a r s₂ he => ?_⟩
          obtain ⟨hi₂, hg, hsp, hw⟩ := hk a r s₂ he
          exact ⟨hi₂, hg, hsp, ih r hw⟩

end Rules

/-! ### Whole tasks -/

/-- A justified return is one the other tasks can rely on. -/
theorem returns_of {v : Ret} (hi : Inv s) (ht : t < s.nextTask)
    (hj : JustifiedReturn t v s.history) : protocol.returns t v s := by
  refine ⟨hi.finish ht hj, fun t' hne => ?_⟩
  refine ⟨⟨[(t, .returned v)], rfl, fun x hx => ?_⟩, fun c => Iff.rfl⟩
  obtain rfl := List.mem_singleton.mp hx
  exact ⟨fun heq => absurd heq.symm hne, fun _ c hg => by cases hg⟩

/-- **A task is safe** when its program ends in a justified return. -/
theorem safe_of {task : Task Res Ret} (hi : Inv s) (ht : t < s.nextTask)
    (h : WP t (protocol.droppable t task.unwind) task.prog
      (fun v s' => JustifiedReturn t v s'.history) s) : protocol.safe t task s :=
  Protocol.wp_mono (fun _ _ ⟨hj, hi, ht⟩ => returns_of hi ht hj) (Protocol.wp_inv hi ht h)

/-- A program that runs when a task is dropped. -/
theorem droppable_of {p : Code Ret} (hi : Inv s) (ht : t < s.nextTask)
    (h : WP t (fun _ => True) p (fun v s' => JustifiedReturn t v s'.history) s) :
    protocol.droppable t (some p) s :=
  Protocol.wp_mono (fun _ _ ⟨hj, hi, ht⟩ => returns_of hi ht hj) (Protocol.wp_inv hi ht h)

end Shepherd
