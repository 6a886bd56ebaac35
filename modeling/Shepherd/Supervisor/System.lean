import Shepherd.Supervisor.Code

/-!
# The Supervisor as a Concurrent System

The tasks of a supervisor and the machine that runs them. The environment starts any
number of calls, lets the tasks take their steps in any order, chooses the answers of the
backend, and may drop the future of a call at any await.

* A spawn runs in a worker task of its own that no caller can cancel, so its task cannot be
  dropped; monitors and the dispatch of `ScopeClosed` are detached as well.
* Every other call can be dropped at an await; its guards are released. A dropped `finish`
  also runs its cleanup backstop, and when it belonged to a `with_scope` block, the error
  of the failed worker is published after that.
* Termination workers are tasks of their own. A worker that panics or is aborted leaves a
  failed result for the joiner.
* `ObservedScope` is consumed by `finish` or by its drop: both first take the owner.
* A `with_scope` block is a created scope, its spawns, the `finish` of its worker and a wait
  for the result on a receiver that it subscribed at the start.
-/

open Std

namespace Shepherd

open Conc

/-- What the environment can start. -/
inductive Call where
  | createScope (observed : Bool)
  | spawn (scope : ProcessScopeId) (spec : ProcessSpec) (admission : Bool)
  | wait (pid : ProcessId)
  | terminate (pid : ProcessId) (opts : TerminateOptions)
  | terminateScope (scope : ProcessScopeId) (opts : TerminateOptions)
  | finish (scope : ProcessScopeId) (opts : TerminateOptions) (withScope : Bool)
  | dropOwner (scope : ProcessScopeId) (withScope : Bool)
  | waitScopeCleanup (scope : ProcessScopeId)
  | withScopeOptions (scope : ProcessScopeId)
  | shutdown
  | dropSupervisor
  | sample (pid : ProcessId) (value : Sample)
  | takeOutput (pid : ProcessId)

/-- What a dropped future leaves to do: its guards are released. -/
def unwound : Code Ret := do
  act .dropGuards
  return .done

/-- What a dropped `finish` leaves to do. -/
def unwoundFinish (c : ProcessScopeId) (withScope : Bool) : Code Ret := do
  act .dropGuards
  dropBackstop c
  publishWorkerError c withScope
  return .done

/-- The tasks of the system. -/
inductive Role where
  | call (call : Call)
  | monitor (scope : ProcessScopeId) (pid : ProcessId) (os : OsIdentity)
  | worker (scope : ProcessScopeId) (pid : ProcessId) (observer : WaitFuture)
      (opts : TerminateOptions)
  | closing (scope : ProcessScopeId)

/-- The program of a call. -/
def Call.code : Call → Code Ret
  | .createScope observed => do return .created (← act (.createScope observed))
  | .spawn c spec admission => do return .spawned c (← spawnOwned c spec admission)
  | .wait pid => do return .waited pid (← Shepherd.wait pid)
  | .terminate pid opts => do return .terminated pid (← Shepherd.terminate pid opts)
  | .terminateScope c opts => do return .scopeTerminated c (← Shepherd.terminateScope c opts)
  | .finish c opts _ => do
      act (.takeOwner c)
      return .finished c (← finishScopeCleanup c opts)
  | .dropOwner c withScope => do
      act (.takeOwner c)
      dropBackstop c
      publishWorkerError c withScope
      return .done
  | .waitScopeCleanup c => do return .cleanupWaited c (← Shepherd.waitScopeCleanup c)
  | .withScopeOptions c => do return .cleanupWaited c (← act (.awaitCleanup c))
  | .shutdown => Shepherd.shutdown
  | .dropSupervisor => do
      dropCleanupGuard
      return .done
  | .sample pid value => do
      act (.storeSample pid value)
      return .done
  | .takeOutput pid => do return .tookOutput pid (← act (.takeOutput pid))

/-- The program that runs when a call is dropped. -/
def Call.unwind : Call → Option (Code Ret)
  | .wait _ | .terminate _ _ | .terminateScope _ _ | .waitScopeCleanup _ | .withScopeOptions _
  | .shutdown => some unwound
  | .finish c _ withScope => some (unwoundFinish c withScope)
  | _ => none

/-- The task of a role. -/
def Role.task : Role → Task Res Ret
  | .call c => ⟨c.code, c.unwind⟩
  | .monitor c pid os => ⟨do Shepherd.monitor c pid os; return .done, none⟩
  | .worker c pid observer opts =>
      ⟨do return .worker c pid (← Shepherd.worker pid observer opts),
        some do act .dropGuards; return .workerFailed⟩
  | .closing c => ⟨do dispatch [.scopeClosed c]; return .done, none⟩

/-- The task an operation spawns. -/
def spawns : (o : Op) → Res o → Option Role
  | .startMonitor c pid os, _ => some (.monitor c pid os)
  | .startWorker c pid observer opts, _ => some (.worker c pid observer opts)
  | .handScopeClosed c, _ => some (.closing c)
  | .orObserve _ o, .inr r => spawns o r
  | .orElapsed o, some r => spawns o r
  | _, _ => none

/-! ### What every operation does to the history -/

/-- The events an operation can record. -/
def Op.Emits (o : Op) (ev : Event) : Prop :=
  match o with
  | .createScope _ => ∃ c b, ev = .scopeCreated c b
  | .scopeOperation c | .reportOf c => ev = .lookedUp c
  | .lockOperation c => ev = .acquired c
  | .unlockOperation c => ev = .released c
  | .dropGuards => ev = .guardsDropped
  | .storeShuttingDown => ev = .shutdownStarted
  | .storeOwnersDropped => ev = .ownersDropped
  | .spawnCall c _ => ev = .spawnCalled c
  | .spawnReturn c => ∃ r, ev = .spawnReturned c r
  | .attach c os _ => (∃ p, ev = .attached c p os) ∨ ev = .attachFailed c os
  | .startMonitor c p _ => ∃ m, ev = .monitorStarted c p m
  | .registerSampler => ev = .samplerBusy
  | .signal os sig => ev = .signalSent os sig
  | .waitCall os => ev = .waitCalled os
  | .waitReturn os | .waitOrElapsed os => ∃ r, ev = .waitReturned os r
  | .retryWait p os _ => (∃ r, ev = .waitReturned os r) ∨ ev = .gaveUp p
  | .hardKillAll => ev = .hardKilledAll
  | .hardKillScope c => ev = .hardKilledScope c
  | .cleanupScope c => ∃ r, ev = .swept c r
  | .recordMonitored c p _ => ∃ e, ev = .reaped c p e
  | .notify d => ev = .dispatched d ∨ ∃ p e, ev = .exitSignalled p e
  | .translate d => ev = .translated d
  | .exitOrElapsed p _ | .exitOrGiveUp p _ _ => ev = .gaveUp p
  | .recordRecovered c p _ => ∃ e, ev = .recovered c p e ∨ ev = .exitSignalled p e
  | .drain c => ∃ d, ev = .drained c d
  | .startWorker c p _ _ => ∃ w, ev = .workerStarted c p w
  | .pend c p _ => ev = .pended c p
  | .setSerial c r => ev = .committed c r
  | .publish c v => ev = .published c v
  | .retainResult c => ev = .resultRetained c
  | .retainReport c _ => ev = .reportRetained c
  | .removeScope c => ∃ lost, ev = .scopeRemoved c lost
  | .retireOperation c => ev = .operationRetired c
  | .clearPending c => ev = .pendingCleared c
  | .completeScope c => ev = .scopeCompleted c
  | .handScopeClosed c => ∃ w, ev = .closedHanded c w
  | .snapshot => ev = .operationMissing
  | .orObserve _ o | .orElapsed o => o.Emits ev
  | _ => False

/-- No operation records a return. -/
theorem not_emits_returned (o : Op) (v : Ret) : ¬ o.Emits (.returned v) := by
  induction o with
  | orObserve f o ih => exact ih
  | orElapsed o ih => exact ih
  | _ => simp [Op.Emits]

/-- A state after steps of `t` that start no task: `t` may have caused some events. -/
def Inner.Ext (K : Event → Prop) (t : Tid) (s s' : Inner) : Prop :=
  s'.nextTask = s.nextTask ∧
    ∃ evs : List Event, s'.history = evs.map (Prod.mk t) ++ s.history ∧ ∀ ev ∈ evs, K ev

namespace Inner.Ext

variable {K : Event → Prop} {t : Tid} {s s' s'' : Inner}

/-- A step that changes nothing causes no event. -/
theorem refl (s : Inner) : Ext K t s s :=
  ⟨rfl, [], rfl, by simp⟩

/-- A step that adds one event. -/
theorem one {ev : Event} (hn : s'.nextTask = s.nextTask)
    (hh : s'.history = (t, ev) :: s.history) (hk : K ev) : Ext K t s s' :=
  ⟨hn, [ev], hh, by simpa using hk⟩

/-- A step that adds two events. -/
theorem two {ev ev' : Event} (hn : s'.nextTask = s.nextTask)
    (hh : s'.history = (t, ev) :: (t, ev') :: s.history) (hk : K ev) (hk' : K ev') :
    Ext K t s s' :=
  ⟨hn, [ev, ev'], hh, by simp [hk, hk']⟩

/-- Two steps of a task in a row. -/
theorem trans (h₁ : Ext K t s s') (h₂ : Ext K t s' s'') : Ext K t s s'' := by
  obtain ⟨hn₁, evs₁, hh₁, hk₁⟩ := h₁
  obtain ⟨hn₂, evs₂, hh₂, hk₂⟩ := h₂
  refine ⟨hn₂.trans hn₁, evs₂ ++ evs₁, ?_, fun ev hev => ?_⟩
  · rw [hh₂, hh₁, List.map_append, List.append_assoc]
  · rcases List.mem_append.mp hev with hev | hev
    · exact hk₂ ev hev
    · exact hk₁ ev hev

/-- A new scope is logged, unless a shutdown has begun. -/
theorem createScope (observed : Bool) :
    Ext (Op.createScope observed).Emits t s (s.createScope t observed).2 := by
  rw [Inner.createScope]
  split
  · exact refl s
  · exact one rfl rfl ⟨_, _, rfl⟩

/-- An attachment is logged, or the failure of one. -/
theorem attach (c : ProcessScopeId) (os : OsIdentity) (spec : ProcessSpec) :
    Ext (Op.attach c os spec).Emits t s (s.attach t c os spec).2 := by
  unfold Inner.attach
  dsimp only
  split
  · exact one rfl rfl (.inr rfl)
  · split
    · exact one rfl rfl (.inl ⟨_, rfl⟩)
    · exact one rfl rfl (.inr rfl)

/-- Keeping a capture causes no event. -/
theorem keepOutput (pid : ProcessId) (output : Option ProcessOutput) (admission : Bool) :
    Ext K t s (s.keepOutput pid output admission) := by
  simp only [Inner.keepOutput]
  split
  · exact refl s
  · split <;> exact refl s

/-- Retaining a capture behind the exit causes no event. -/
theorem retainCompletedOutput (pid : ProcessId) : Ext K t s (s.retainCompletedOutput pid) := by
  rw [Inner.retainCompletedOutput]
  split <;> exact refl s

/-- A monitor logs the exit it records. -/
theorem recordMonitored (c : ProcessScopeId) (pid : ProcessId) (r : Option RawExit) :
    Ext (Op.recordMonitored c pid r).Emits t s (s.recordMonitored t c pid r).2 := by
  rw [Inner.recordMonitored]
  split
  · exact refl s
  · split
    · exact refl s
    · exact one rfl rfl ⟨_, rfl⟩

/-- A retry logs the exit it stores. -/
theorem storeRecovered (c : ProcessScopeId) (pid : ProcessId) (exit : ProcessExit)
    (raw : RawExit) :
    Ext (Op.recordRecovered c pid raw).Emits t s (s.storeRecovered t c pid exit).2 := by
  rw [Inner.storeRecovered]
  split
  · exact refl s
  · split
    · exact refl s
    · split
      · split
        · exact refl s
        · exact one rfl rfl ⟨_, .inl rfl⟩
      · exact refl s

/-- A retry logs the exit it stores, and the signal of it where the waiters are told. -/
theorem recordRecovered (c : ProcessScopeId) (pid : ProcessId) (raw : RawExit) :
    Ext (Op.recordRecovered c pid raw).Emits t s (s.recordRecovered t c pid raw).2 := by
  have hs : Ext (Op.recordRecovered c pid raw).Emits t s
      (s.storeRecovered t c pid (recoveredExit pid raw)).2 := storeRecovered c pid _ raw
  unfold Inner.recordRecovered
  dsimp only
  split
  · exact hs
  · exact (hs.trans (retainCompletedOutput pid)).trans (one rfl rfl ⟨_, .inr rfl⟩)

/-- The first handler logs what it is told, and the exit it signals to the waiters. -/
theorem notify (ev : DomainEvent) : Ext (Op.notify ev).Emits t s (s.notify t ev) := by
  simp only [Inner.notify]
  split
  · split
    · exact two rfl rfl (.inr ⟨_, _, rfl⟩) (.inl rfl)
    · split
      · exact two rfl rfl (.inr ⟨_, _, rfl⟩) (.inl rfl)
      · exact one rfl rfl (.inl rfl)
  · exact one rfl rfl (.inl rfl)

/-- The removal of an entry causes no event. -/
theorem prune (ev : DomainEvent) : Ext K t s (s.prune ev) := by
  simp only [Inner.prune]
  split
  · split <;> exact refl s
  · exact refl s

/-- The start of a termination causes no event. -/
theorem beginTermination (pid : ProcessId) : Ext K t s (s.beginTermination pid).2 := by
  rw [Inner.beginTermination]
  repeat' split
  all_goals exact refl s

/-- A registration with the waiters causes no event. -/
theorem registerWait (pid : ProcessId) : Ext K t s (s.registerWait pid).2 := by
  rw [Inner.registerWait]
  repeat' split
  all_goals exact refl s

/-- The first draining of a scope is logged. -/
theorem drain (c : ProcessScopeId) : Ext (Op.drain c).Emits t s (s.drain t c).2 := by
  rw [Inner.drain]
  dsimp only
  split
  · exact refl s
  · split
    · exact one rfl rfl ⟨_, rfl⟩
    · exact refl s

/-- A publication is logged if it changes the value of the channel. -/
theorem publish (c : ProcessScopeId) (r : CleanupResult) :
    Ext (Op.publish c r).Emits t s (s.publish t c r) := by
  rw [Inner.publish]
  split
  · exact refl s
  · exact one rfl rfl rfl

/-- A settlement without a verified exit is logged. -/
theorem settleFor (pid : ProcessId) (e : Option ProcessExit) (hk : K (.gaveUp pid)) :
    Ext K t s (s.settleFor t pid e) := by
  rw [Inner.settleFor]
  split
  · exact refl s
  · exact one rfl rfl hk

/-- A sample is stored without an event. -/
theorem storeSample (pid : ProcessId) (x : Sample) : Ext K t s (s.storeSample pid x) := by
  rw [Inner.storeSample]
  split <;> exact refl s

/-- An operation that returned `x` and starts no task. -/
theorem of_some {o : Op} {r : Res o} {x : Res o × Inner} (h : some x = some (r, s'))
    (hx : Ext o.Emits t s x.2) (hn : spawns o r = none) :
    s'.nextTask = s.nextTask + (spawns o r).toList.length ∧
      ∃ evs : List Event, s'.history = evs.map (Prod.mk t) ++ s.history ∧
        ∀ ev ∈ evs, o.Emits ev := by
  obtain rfl := Option.some.inj h
  rw [hn]
  exact hx

/-- An operation that returned some `f y`, and starts no task. -/
theorem of_map {o : Op} {r : Res o} {α : Type} {v : Option α} {f : α → Res o × Inner}
    (h : v.map f = some (r, s')) (hx : ∀ y, Ext o.Emits t s (f y).2)
    (hn : spawns o r = none) :
    s'.nextTask = s.nextTask + (spawns o r).toList.length ∧
      ∃ evs : List Event, s'.history = evs.map (Prod.mk t) ++ s.history ∧
        ∀ ev ∈ evs, o.Emits ev := by
  obtain ⟨y, -, hy⟩ := Option.map_eq_some_iff.mp h
  exact of_some (congrArg some hy) (hx y) hn

end Inner.Ext

open Shepherd.Inner in
/-- An operation starts the task it says, and adds events of its own task. -/
theorem exec_ext {t : Tid} {o : Op} {a : Answer} {s s' : Inner} {r : Res o}
    (h : exec t o a s = some (r, s')) :
    s'.nextTask = s.nextTask + (spawns o r).toList.length ∧
      ∃ evs : List Event, s'.history = evs.map (Prod.mk t) ++ s.history ∧
        ∀ ev ∈ evs, o.Emits ev := by
  induction o generalizing a s s' with
  | orObserve f o ih =>
      obtain ⟨_, rfl, rfl⟩ | ⟨_, rfl, hrs⟩ := exec_orObserve h
      · exact Ext.refl s'
      · exact ih hrs
  | orElapsed o ih =>
      obtain ⟨rfl, rfl⟩ | ⟨_, rfl, hrs⟩ := exec_orElapsed h
      · exact Ext.refl s'
      · exact ih hrs
  | startMonitor c pid os =>
      obtain ⟨rfl, rfl⟩ := Prod.mk.inj (Option.some.inj h)
      exact ⟨rfl, [_], rfl, by simp [Op.Emits]⟩
  | startWorker c pid observer opts =>
      obtain ⟨rfl, rfl⟩ := Prod.mk.inj (Option.some.inj h)
      exact ⟨rfl, [_], rfl, by simp [Op.Emits]⟩
  | handScopeClosed c =>
      obtain ⟨rfl, rfl⟩ := Prod.mk.inj (Option.some.inj h)
      exact ⟨rfl, [_], rfl, by simp [Op.Emits]⟩
  | createScope observed =>
      rw [exec] at h
      split at h
      · exact Ext.of_some h (Ext.createScope _) rfl
      · cases h
  | attach c os spec =>
      rw [exec] at h
      split at h
      · exact Ext.of_some h (Ext.attach _ _ _) rfl
      · cases h
  | keepOutput pid admission =>
      simp only [exec] at h
      split at h
      · exact Ext.of_some h (Ext.keepOutput _ _ _) rfl
      · cases h
  | retainCompletedOutput pid => exact Ext.of_some h (Ext.retainCompletedOutput _) rfl
  | recordMonitored c pid result => exact Ext.of_some h (Ext.recordMonitored _ _ _) rfl
  | recordRecovered c pid raw => exact Ext.of_some h (Ext.recordRecovered _ _ _) rfl
  | notify ev => exact Ext.of_some h (Ext.notify _) rfl
  | prune ev => exact Ext.of_some h (Ext.prune _) rfl
  | beginTermination pid => exact Ext.of_some h (Ext.beginTermination _) rfl
  | registerWait pid => exact Ext.of_some h (Ext.registerWait _) rfl
  | drain c => exact Ext.of_some h (Ext.drain _) rfl
  | publish c result => exact Ext.of_some h (Ext.publish _ _) rfl
  | storeSample pid sample => exact Ext.of_some h (Ext.storeSample _ _) rfl
  | _ =>
      simp only [exec] at h
      repeat' split at h
      all_goals first
        | (cases h; done)
        | exact Ext.of_some h (Ext.refl s) rfl
        | exact Ext.of_some h (Ext.one rfl rfl rfl) rfl
        | exact Ext.of_some h (Ext.one rfl rfl ⟨_, rfl⟩) rfl
        | exact Ext.of_some h (Ext.one rfl rfl (.inr rfl)) rfl
        | exact Ext.of_some h (Ext.one rfl rfl (.inl ⟨_, rfl⟩)) rfl
        | exact Ext.of_some h (Ext.two rfl rfl (.inr rfl) (.inl ⟨_, rfl⟩)) rfl
        | exact Ext.of_map h (fun _ => Ext.refl s) rfl
        | exact Ext.of_map h (fun _ => Ext.settleFor _ _ rfl) rfl

/-- The system. -/
def supervisor : Machine Res Ret Inner Answer Call where
  exec := exec
  spawn o r := (spawns o r).map Role.task
  awaits := Op.awaits
  finish t v s := s.finish t v
  entry call := (Role.call call).task
  enter s := { s with nextTask := s.nextTask + 1 }
  next := Inner.nextTask
  next_exec h := by
    rw [(exec_ext h).1]
    cases spawns _ _ <;> rfl
  next_finish _ _ _ := rfl
  next_enter _ := rfl

/-- A configuration of a run of the system. -/
abbrev Reachable (cfg : Config Res Ret Inner) : Prop :=
  supervisor.Reachable Inner.new cfg

end Shepherd
