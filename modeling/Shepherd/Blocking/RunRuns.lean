import Shepherd.Background.TaskExit
import Shepherd.Blocking.Run

/-!
# Blocking Runs Account for Their Process

What holds in every state of a blocking run, whatever the supervisor, its other callers and the
clock do.

* `Placed` — what the fields of the run hold, place by place of its thread.
* `Calls` — its spawn keeps to its watch, and its `terminate_scope` drains the scope.

A step of the thread is checked place by place (`RunInv.run`); every other step leaves its fields
alone (`Beside`). Once the scope has drained, a process that the spawn attached was handed over
(`Admission.of_drained`), so that a run whose deadline expired finds it.
-/

open Std

namespace Shepherd

open Conc

variable {t : Tid} {c : ProcessScopeId} {p : ProcessId} {os : OsIdentity} {h : History}

/-! ### The scope -/

/-- A scope that a call has created. -/
theorem created_of_createScope {cfg cfg' : Config Res Ret Inner} {observed : Bool}
    (hf : supervisor.follow cfg
      [.start (.createScope observed), .run cfg.shared.nextTask .go] = some cfg')
    (hv : returnOf cfg'.shared.history cfg.shared.nextTask = some (.created (.ok c))) :
    Created cfg'.shared.history c := by
  rw [Machine.follow] at hf
  split at hf
  case h_2 => cases hf
  next cfg₁ hs₁ =>
  rw [Machine.follow] at hf
  split at hf
  case h_2 => cases hf
  next cfg₂ hs₂ =>
  obtain rfl : cfg₂ = cfg' := Option.some.inj hf
  have hentry : cfg₁.tasks cfg.shared.nextTask =
      some ⟨.op (.createScope observed) fun r => .pure (.created r), none⟩ := by
    cases supervisor.step_shared hs₁ with
    | start _ hentry => exact hentry
  simp only [Machine.step, hentry] at hs₂
  split at hs₂
  case h_2 => cases hs₂
  next r s' hexec =>
  obtain rfl := Option.some.inj hs₂
  have hret : returnOf ((cfg.shared.nextTask, .returned (.created r)) :: s'.history)
      cfg.shared.nextTask = some (.created (.ok c)) := hv
  rw [returnOf_returned] at hret
  obtain rfl : r = .ok c := Ret.created.inj (Option.some.inj hret)
  refine Created.mono (List.suffix_cons _ _) (h := s'.history) ⟨observed, ?_⟩
  simp only [supervisor, exec] at hexec
  split at hexec
  case isFalse => cases hexec
  simp only [Inner.createScope, Option.some.injEq] at hexec
  split at hexec
  · cases congrArg Prod.fst hexec
  · obtain ⟨hok, rfl⟩ := Prod.mk.inj hexec
    obtain rfl := Except.ok.inj hok
    exact ⟨_, List.mem_cons_self⟩

/-! ### The cleanup -/

/-- The termination of a scope keeps to its watch: it has drained the scope when it returns. -/
theorem tracks_terminateScopeCall {opts : TerminateOptions} {s : Inner}
    (hc : Created s.history c) :
    protocol.tracked (finishWatch c) t (Call.terminateScope c opts).code
      (fun v _ s => Drained s.history c ∧ ∃ result, v = .scopeTerminated c result) () s :=
  Protocol.tracked_bind (p := terminateScope c opts)
    (Protocol.tracked_mono (fun result _ _ hd => ⟨hd, result, rfl⟩) (tracks_terminateScope hc))

/-- The termination of a configuration keeps to its watch. -/
abbrev TerminateWatched (t : Tid) (c : ProcessScopeId) (cfg : Config Res Ret Inner) : Prop :=
  protocol.Watched (finishWatch c) t (some unwound)
    (fun v _ s => Drained s.history c ∧ ∃ result, v = .scopeTerminated c result)
    (fun _ s => Drained s.history c ∧
      ∃ result, returnOf s.history t = some (.scopeTerminated c result)) cfg ()

/-- A termination that starts keeps its watch. -/
theorem TerminateWatched.start {cfg cfg' : Config Res Ret Inner} {opts : TerminateOptions}
    (hc : Created cfg.shared.history c)
    (hs : supervisor.step cfg (.start (.terminateScope c opts)) = some cfg') :
    TerminateWatched cfg.shared.nextTask c cfg' := by
  cases supervisor.step_shared hs with
  | start hsh hentry =>
      refine Protocol.Watched.start hentry ?_
      rw [hsh]
      exact tracks_terminateScopeCall hc

/-- A termination that is not dropped keeps its watch, whatever happens beside it. -/
theorem TerminateWatched.step {cfg cfg' : Config Res Ret Inner} {l : Label Answer Call}
    (hr : Reachable cfg) (hw : TerminateWatched t c cfg) (hs : supervisor.step cfg l = some cfg')
    (hd : l ≠ .drop t) (hlt : t < cfg.shared.nextTask) : TerminateWatched t c cfg' := by
  refine Protocol.Watched.step (good_of_reachable hr) guar_enter ?_ ?_ hw hs hd
    (Nat.ne_of_lt hlt)
  · rintro _ s s' ⟨hdr, result, hret⟩ hrely
    exact ⟨hdr.mono hrely.suffix, result, (returnOf_rely hrely).trans hret⟩
  · rintro _ _ s ⟨hdr, result, rfl⟩
    exact ⟨hdr.mono (List.suffix_cons _ _), result, returnOf_returned _⟩

/-- A task that has returned runs no more. -/
theorem tasks_of_returnOf {cfg : Config Res Ret Inner} {v : Ret} (hr : Reachable cfg)
    (hv : returnOf cfg.shared.history t = some v) : cfg.tasks t = none := by
  cases ht : cfg.tasks t with
  | none => rfl
  | some task => exact absurd (mem_of_returnOf hv) (not_returned_of_running hr ht v)

/-- A termination that has returned has drained its scope. -/
theorem TerminateWatched.over {cfg : Config Res Ret Inner} {v : Ret} (hr : Reachable cfg)
    (hw : TerminateWatched t c cfg) (hv : returnOf cfg.shared.history t = some v) :
    Drained cfg.shared.history c ∧ ∃ result, v = .scopeTerminated c result := by
  obtain ⟨hdr, result, hret⟩ := Protocol.Watched.over hw (tasks_of_returnOf hr hv)
  exact ⟨hdr, result, Option.some.inj (hv.symm.trans hret)⟩

/-- **A spawn that succeeded has handed its process over.** -/
theorem SpawnWatched.handed {cfg : Config Res Ret Inner} {x : Option SpawnObservation}
    {c' : ProcessScopeId} (hr : Reachable cfg) (hw : SpawnWatched t c cfg x)
    (hv : returnOf cfg.shared.history t = some (.spawned c' (.ok p))) : ∃ o, x = some o := by
  cases Protocol.Watched.over hw (tasks_of_returnOf hr hv) with
  | sent observed _ hx _ => exact ⟨observed, hx⟩
  | none _ own =>
      obtain ⟨_, older, heq, hj, -⟩ := (inv_of_reachable hr).lawful.of_mem (mem_of_returnOf hv)
      obtain ⟨os, hat⟩ := hj p rfl
      refine absurd ?_ (own c' p os)
      rw [heq]
      exact List.mem_append_right _ (List.mem_cons_of_mem _ hat)

namespace RunState

variable {s s' : RunState}

/-! ### What the fields hold -/

/-- No observation was taken. -/
def Free (s : RunState) : Prop :=
  s.taken = false ∧ s.observation = none

/-- The run has the observation that its spawn handed over. -/
def Has (s : RunState) (o : SpawnObservation) : Prop :=
  s.observation = some o ∧ s.sent = some o

/-- The spawn returned this error. -/
def SpawnFailed (s : RunState) (e : SpawnError) : Prop :=
  ∃ t c, s.spawn = some t ∧ (t, .returned (.spawned c (.error e))) ∈ s.cfg.shared.history

/-- The run saw this exit of its process. -/
def Exited (s : RunState) (exit : ProcessExit) : Prop :=
  ∃ o, s.Has o ∧ Happened s.cfg.shared.history (.exitSignalled o.pid exit)

/-- The run has its process, or there is none. -/
def Recovered (s : RunState) : Prop :=
  (∃ o, s.Has o) ∨
    s.observation = none ∧ ∀ t, s.spawn = some t → AttachedNone t s.cfg.shared.history

/-- The scope has drained, and its termination returned this. -/
def Ended (s : RunState) (result : CleanupResult) : Prop :=
  Drained s.cfg.shared.history s.scope ∧ ∃ t, s.cleanup = some t ∧
    (t, .returned (.scopeTerminated s.scope result)) ∈ s.cfg.shared.history

/-- What is known of an attempt that is over. -/
def Tried (s : RunState) : Attempt → Prop
  | .exited exit => s.Exited exit
  | .failed error => ∃ e, error = .spawn e ∧ s.SpawnFailed e
  | .elapsed => s.deadline ≤ s.now ∧ (s.Free ∨ ∃ o, s.Has o)

/-- What is known of a run that comes to its end. -/
def Settles (s : RunState) (exit : Option ProcessExit) : Prop :=
  match exit with
  | some exit => s.Exited exit
  | none => s.deadline ≤ s.now ∧ s.Recovered

/-- Output is returned of a capture that was handed over. -/
def Captured (s : RunState) (output : Option OutputSnapshot) : Prop :=
  output.isSome = (s.observation.bind fun o => o.output).isSome

/-- What a returned result rests on. -/
def Returned (s : RunState) : Except BlockingRunError BlockingRun → Prop
  | .ok (.completed exit output termination) =>
      s.Ended (.ok termination) ∧ s.Exited exit ∧ s.Captured output
  | .ok (.timedOut output termination) =>
      s.Ended (.ok termination) ∧ (s.deadline ≤ s.now ∧ s.Recovered) ∧ s.Captured output
  | .error (.spawn e) =>
      ∃ termination, s.Ended (.ok termination) ∧ termination.allVerified = true ∧ s.SpawnFailed e
  | .error (.unverified (some (.spawn e)) termination) =>
      s.Ended (.ok termination) ∧ termination.allVerified = false ∧ s.SpawnFailed e
  | .error (.terminate e) => s.Ended (.error e)
  | _ => False

/-- What is known at a place of the thread. -/
def Placed (s : RunState) : RunAt → Prop
  | .spawning => s.Free ∧ s.spawn = none ∧ s.cleanup = none
  | .completing => s.Free ∧ s.cleanup = none
  | .waiting => (∃ o, s.Has o) ∧ s.cleanup = none
  | .finishing attempt => s.Tried attempt ∧ s.cleanup = none
  | .cleaning attempt => s.Tried attempt
  | .draining exit termination _ =>
      s.Ended (.ok termination) ∧ s.Settles exit ∧
        (s.observation.bind fun o => o.output).isSome = true
  | .returned result => s.Returned result

/-- The two calls of the run keep to their watches. -/
structure Calls (s : RunState) : Prop where
  reachable : Reachable s.cfg
  created : Created s.cfg.shared.history s.scope
  unsent : s.spawn = none → s.sent = none
  spawn : ∀ t, s.spawn = some t →
    t < s.cfg.shared.nextTask ∧ SpawnWatched t s.scope s.cfg s.sent
  cleanup : ∀ t, s.cleanup = some t →
    t < s.cfg.shared.nextTask ∧ TerminateWatched t s.scope s.cfg
  awaited : TaskState.Awaited s.cfg s.sent

/-- **The invariant of a run.** -/
structure RunInv (s : RunState) : Prop where
  calls : s.Calls
  placed : s.Placed s.caller

/-! ### Steps beside the thread -/

/-- A step that leaves the fields of the thread alone. -/
structure Beside (s s' : RunState) : Prop where
  caller : s'.caller = s.caller
  scope : s'.scope = s.scope
  spawn : s'.spawn = s.spawn
  cleanup : s'.cleanup = s.cleanup
  taken : s'.taken = s.taken
  observation : s'.observation = s.observation
  deadline : s'.deadline = s.deadline
  now : s.now ≤ s'.now
  sent : ∀ o, s.sent = some o → s'.sent = some o
  history : s.cfg.shared.history <:+ s'.cfg.shared.history
  calls : s'.Calls

namespace Beside

/-- A run without an observation has none, whatever others do. -/
theorem free (hb : Beside s s') (h : s.Free) : s'.Free :=
  ⟨hb.taken.trans h.1, hb.observation.trans h.2⟩

/-- The observation of a run stays with it. -/
theorem has {o : SpawnObservation} (hb : Beside s s') (h : s.Has o) : s'.Has o :=
  ⟨hb.observation.trans h.1, hb.sent o h.2⟩

/-- A failed spawn has failed ever after. -/
theorem spawnFailed {e : SpawnError} (hb : Beside s s') (h : s.SpawnFailed e) :
    s'.SpawnFailed e := by
  obtain ⟨t, c, ht, hm⟩ := h
  exact ⟨t, c, hb.spawn.trans ht, hb.history.mem hm⟩

/-- An exit that the run saw stays in the history. -/
theorem exited {exit : ProcessExit} (hb : Beside s s') (h : s.Exited exit) : s'.Exited exit := by
  obtain ⟨o, ho, hsig⟩ := h
  exact ⟨o, hb.has ho, hsig.mono hb.history⟩

/-- A termination that ended has ended ever after. -/
theorem ended {result : CleanupResult} (hb : Beside s s') (h : s.Ended result) :
    s'.Ended result := by
  obtain ⟨hd, t, ht, hm⟩ := h
  rw [Ended, hb.scope]
  exact ⟨hd.mono hb.history, t, hb.cleanup.trans ht, hb.history.mem hm⟩

/-- A deadline that is over stays over. -/
theorem elapsed (hb : Beside s s') (h : s.deadline ≤ s.now) : s'.deadline ≤ s'.now := by
  rw [hb.deadline]
  exact h.trans hb.now

/-- Captured output is that of the observation, which stays. -/
theorem captured {output : Option OutputSnapshot} (hb : Beside s s') (h : s.Captured output) :
    s'.Captured output := by
  rw [Captured, hb.observation]
  exact h

/-- Nothing is attached once the scope has drained. -/
theorem recovered {result : CleanupResult} (hb : Beside s s') (he : s.Ended result)
    (h : s.Recovered) : s'.Recovered := by
  rcases h with ⟨o, ho⟩ | ⟨hnone, hown⟩
  · exact .inl ⟨o, hb.has ho⟩
  · refine .inr ⟨hb.observation.trans hnone, fun t ht c p os hm => ?_⟩
    have hl := (inv_of_reachable hb.calls.reachable).lawful
    have hnot := hown t (hb.spawn.symm.trans ht)
    have hd' : Drained s'.cfg.shared.history s'.scope := (hb.ended he).1
    cases (hb.calls.spawn t ht).2.admission hb.calls.reachable with
    | before _ own => exact own c p os hm
    | attached _ _ _ _ _ hn => exact hn hd'
    | sent observed os' _ own =>
        obtain ⟨rfl, -, -⟩ := (own c p os).mp hm
        refine hnot _ p os (hl.attached_of_drained hb.history (c := s'.scope) ?_ hm)
        rw [hb.scope]
        exact he.1

/-- What is known of an attempt stays known. -/
theorem tried {attempt : Attempt} (hb : Beside s s') (h : s.Tried attempt) :
    s'.Tried attempt := by
  cases attempt with
  | exited exit => exact hb.exited h
  | failed error =>
      obtain ⟨e, he, hf⟩ := h
      exact ⟨e, he, hb.spawnFailed hf⟩
  | elapsed =>
      refine ⟨hb.elapsed h.1, h.2.imp hb.free ?_⟩
      rintro ⟨o, ho⟩
      exact ⟨o, hb.has ho⟩

/-- What is known of a run that comes to its end stays known, once its scope has drained. -/
theorem settles {exit : Option ProcessExit} {result : CleanupResult} (hb : Beside s s')
    (he : s.Ended result) (h : s.Settles exit) : s'.Settles exit := by
  cases exit with
  | some exit => exact hb.exited h
  | none => exact ⟨hb.elapsed h.1, hb.recovered he h.2⟩

/-- What a returned result rests on stays so. -/
theorem returned {result : Except BlockingRunError BlockingRun} (hb : Beside s s')
    (h : s.Returned result) : s'.Returned result := by
  unfold Returned at h ⊢
  split at h
  · exact ⟨hb.ended h.1, hb.exited h.2.1, hb.captured h.2.2⟩
  · exact ⟨hb.ended h.1, ⟨hb.elapsed h.2.1.1, hb.recovered h.1 h.2.1.2⟩, hb.captured h.2.2⟩
  · obtain ⟨termination, he, hv, hf⟩ := h
    exact ⟨termination, hb.ended he, hv, hb.spawnFailed hf⟩
  · exact ⟨hb.ended h.1, h.2.1, hb.spawnFailed h.2.2⟩
  · exact hb.ended h
  · exact h.elim

/-- **Steps beside the thread keep the invariant.** -/
theorem inv (hb : Beside s s') (h : s.RunInv) : s'.RunInv := by
  refine ⟨hb.calls, ?_⟩
  have hp := h.placed
  rw [hb.caller]
  cases hc : s.caller <;> rw [hc] at hp
  case spawning => exact ⟨hb.free hp.1, hb.spawn.trans hp.2.1, hb.cleanup.trans hp.2.2⟩
  case completing => exact ⟨hb.free hp.1, hb.cleanup.trans hp.2⟩
  case waiting =>
    obtain ⟨⟨o, ho⟩, hn⟩ := hp
    exact ⟨⟨o, hb.has ho⟩, hb.cleanup.trans hn⟩
  case finishing => exact ⟨hb.tried hp.1, hb.cleanup.trans hp.2⟩
  case cleaning => exact hb.tried hp
  case draining =>
    refine ⟨hb.ended hp.1, hb.settles hp.1 hp.2.1, ?_⟩
    rw [hb.observation]
    exact hp.2.2
  case returned => exact hb.returned hp

end Beside

/-- A step of the supervisor. -/
theorem beside_supervise {l : Label Answer Call} (hc : s.Calls) (hs : s.supervise l = some s') :
    Beside s s' := by
  rw [supervise, Option.ite_none_right_eq_some] at hs
  obtain ⟨hl, hs⟩ := hs
  obtain ⟨cfg, hstep, rfl⟩ := Option.map_eq_some_iff.mp hs
  have hsuf := step_suffix hstep
  refine ⟨rfl, rfl, rfl, rfl, rfl, rfl, rfl, le_rfl, fun o ho => ?_, hsuf,
    hc.reachable.step hstep, hc.created.mono hsuf, fun hn => ?_, fun t ht => ?_, fun t ht => ?_, ?_⟩
  · cases hspawn : s.spawn with
    | none => exact ho
    | some t =>
        have hw := (hc.spawn t hspawn).2
        rw [ho] at hw
        simp only [ho]
        exact hw.keeps hc.reachable hstep
  · have hn' : s.spawn = none := hn
    simp only [hn']
    exact hc.unsent hn'
  · obtain ⟨hlt, hw⟩ := hc.spawn t ht
    have ht' : s.spawn = some t := ht
    refine ⟨hlt.trans_le (supervisor.step_next hstep), ?_⟩
    simp only [ht']
    exact hw.step hc.reachable hstep hlt
  · obtain ⟨hlt, hw⟩ := hc.cleanup t ht
    refine ⟨hlt.trans_le (supervisor.step_next hstep), hw.step hc.reachable hstep ?_ hlt⟩
    rintro rfl
    have ht' : s.cleanup = some t := ht
    simp [leavesCleanup, ht'] at hl
  · cases hspawn : s.spawn with
    | none =>
        simp only
        exact hc.awaited.kept hstep
    | some t => exact hc.awaited.step hc.reachable (hc.spawn t hspawn).2 hstep

/-! ### Steps of the thread -/

/-- A step of the thread that calls nobody. -/
theorem Calls.frame (hc : s.Calls) (hcfg : s'.cfg = s.cfg) (hscope : s'.scope = s.scope)
    (hspawn : s'.spawn = s.spawn) (hcleanup : s'.cleanup = s.cleanup) (hsent : s'.sent = s.sent) :
    s'.Calls := by
  obtain ⟨h₁, h₂, h₃, h₄, h₅, h₆⟩ := hc
  refine ⟨?_, ?_, ?_, ?_, ?_, ?_⟩ <;> simp only [hcfg, hscope, hspawn, hcleanup, hsent] <;>
    assumption

/-- An exit that the run sees was signalled. -/
theorem Calls.exited {o : SpawnObservation} {exit : ProcessExit} (hc : s.Calls) (ho : s.Has o)
    (he : s.cfg.shared.waiters.poll o.exit = some exit) : s.Exited exit := by
  obtain ⟨ch, hch, hpid, -⟩ := hc.awaited o ho.2
  rw [hch] at he
  refine ⟨o, ho, ?_⟩
  rw [← hpid]
  exact (inv_of_reachable hc.reachable).signals.cell he

/-- The termination of the run has returned. -/
theorem Calls.ended {result : CleanupResult} (hc : s.Calls) (hr : s.cleaned = some result) :
    s.Ended result := by
  rw [cleaned] at hr
  split at hr
  · next c result' hret =>
      obtain rfl := Option.some.inj hr
      obtain ⟨t, ht, hv⟩ := Option.bind_eq_some_iff.mp hret
      obtain ⟨hd, result'', heq⟩ := (hc.cleanup t ht).2.over hc.reachable hv
      obtain ⟨rfl, rfl⟩ := Ret.scopeTerminated.inj heq
      exact ⟨hd, t, ht, mem_of_returnOf hv⟩
  · cases hr

/-- **A run recovers its process** from a scope that has drained. -/
theorem Calls.recovers (hc : s.Calls) (hd : Drained s.cfg.shared.history s.scope)
    (hf : s.Free ∨ ∃ o, s.Has o) : s.recover.Recovered := by
  rcases hf with ⟨ht, hn⟩ | ⟨o, ho⟩
  · have hrec : s.recover =
        { s with observation := s.admission, taken := s.taken || s.admission.isSome } := by
      rw [recover, hn]
    have hadm : s.admission = s.sent := by simp [admission, ht]
    rw [hrec]
    cases hsent : s.sent with
    | some o => exact .inl ⟨o, hadm.trans hsent, rfl⟩
    | none =>
        refine .inr ⟨hadm.trans hsent, fun t ht => ?_⟩
        have hadm' := (hc.spawn t ht).2.admission hc.reachable
        rcases hadm'.of_drained hd with ⟨p, os, -, hmap⟩ | ⟨-, hown⟩
        · rw [hsent] at hmap
          cases hmap
        · exact hown
  · have hrec : s.recover = s := by rw [recover, ho.1]
    rw [hrec]
    exact .inl ⟨o, ho⟩

/-- The recovery of an observation changes nothing else. -/
theorem recover_fields (s : RunState) : s.recover.cfg = s.cfg ∧ s.recover.scope = s.scope ∧
    s.recover.spawn = s.spawn ∧ s.recover.cleanup = s.cleanup ∧ s.recover.sent = s.sent ∧
    s.recover.deadline = s.deadline ∧ s.recover.now = s.now := by
  rw [recover]
  split <;> exact ⟨rfl, rfl, rfl, rfl, rfl, rfl, rfl⟩

/-- The output is drained, or there is none. -/
theorem RunInv.drainOutput {exit : Option ProcessExit} {termination : ScopeTerminationReport}
    (hc : s.Calls) (he : s.Ended (.ok termination)) (hs : s.Settles exit) :
    (s.drainOutput exit termination).RunInv := by
  rw [RunState.drainOutput]
  split
  · next hout =>
      refine ⟨hc.frame rfl rfl rfl rfl rfl, he, hs, ?_⟩
      dsimp only
      rw [hout]
      rfl
  · next hout =>
      refine ⟨hc.frame rfl rfl rfl rfl rfl, ?_⟩
      have hcap : s.Captured none := by
        rw [Captured, hout]
        rfl
      cases exit with
      | some exit => exact ⟨he, hs, hcap⟩
      | none => exact ⟨he, hs, hcap⟩

/-- **The termination has returned.** -/
theorem RunInv.conclude {attempt : Attempt} {result : CleanupResult} (hc : s.Calls)
    (ht : s.Tried attempt) (he : s.Ended result) : (s.conclude attempt result).RunInv := by
  have hreturns : ∀ r, s.Returned r → (s.returns r).RunInv :=
    fun r hr => ⟨hc.frame rfl rfl rfl rfl rfl, hr⟩
  cases result with
  | error e => exact hreturns _ he
  | ok termination =>
      cases attempt with
      | exited exit => exact RunInv.drainOutput hc he ht
      | failed error =>
          obtain ⟨e, rfl, hf⟩ := ht
          rw [RunState.conclude]
          split
          · next hv => exact hreturns _ ⟨termination, he, hv, hf⟩
          · next hv => exact hreturns _ ⟨he, Bool.eq_false_iff.mpr hv, hf⟩
      | elapsed =>
          obtain ⟨hcfg, hscope, hspawn, hcleanup, hsent, hdead, hnow⟩ := recover_fields s
          refine RunInv.drainOutput (hc.frame hcfg hscope hspawn hcleanup hsent) ?_ ⟨?_, ?_⟩
          · rw [Ended, hcfg, hscope, hcleanup]
            exact he
          · rw [hdead, hnow]
            exact ht.1
          · exact hc.recovers he.1 ht.2

/-- The spawn worker has returned. -/
theorem RunInv.complete (hc : s.Calls) (hp : s.Free ∧ s.cleanup = none)
    (hs : s.complete = some s') : s'.RunInv := by
  rw [RunState.complete] at hs
  split at hs
  · next c p hret =>
      obtain ⟨t, ht, hv⟩ := Option.bind_eq_some_iff.mp hret
      obtain ⟨o, ho⟩ := (hc.spawn t ht).2.handed hc.reachable hv
      have hadm : s.admission = some o := by simp [admission, hp.1.1, ho]
      simp only [hadm] at hs
      obtain rfl := Option.some.inj hs
      exact ⟨hc.frame rfl rfl rfl rfl rfl, ⟨o, rfl, ho⟩, hp.2⟩
  · next c e hret =>
      obtain ⟨t, ht, hv⟩ := Option.bind_eq_some_iff.mp hret
      obtain rfl := Option.some.inj hs
      exact ⟨hc.frame rfl rfl rfl rfl rfl, ⟨e, rfl, t, c, ht, mem_of_returnOf hv⟩, hp.2⟩
  · cases hs

/-- A call of the run. -/
theorem Calls.call {call : Call} {cfg : Config Res Ret Inner} (hc : s.Calls)
    (hs : s.call call = some cfg) : Calls { s with cfg } := by
  have hsuf := step_suffix hs
  refine ⟨hc.reachable.step hs, hc.created.mono hsuf, hc.unsent, fun t ht => ?_, fun t ht => ?_,
    hc.awaited.kept hs⟩
  · obtain ⟨hlt, hw⟩ := hc.spawn t ht
    exact ⟨hlt.trans_le (supervisor.step_next hs), hw.step hc.reachable hs hlt⟩
  · obtain ⟨hlt, hw⟩ := hc.cleanup t ht
    exact ⟨hlt.trans_le (supervisor.step_next hs), hw.step hc.reachable hs (by simp) hlt⟩

/-- The task of a call is new. -/
theorem call_next {call : Call} {cfg : Config Res Ret Inner} (hs : s.call call = some cfg) :
    s.cfg.shared.nextTask < cfg.shared.nextTask := by
  cases supervisor.step_shared hs with
  | start hsh =>
      rw [hsh]
      exact Nat.lt_succ_self _

/-- **The steps of the thread.** -/
theorem RunInv.run {effect : Effect} (hi : s.RunInv) (hs : s.run effect = some s') :
    s'.RunInv := by
  have hc := hi.calls
  have hp := hi.placed
  cases hat : s.caller <;> rw [hat] at hp
  case spawning =>
    cases effect <;> simp only [RunState.run, hat, reduceCtorEq] at hs
    obtain ⟨cfg, hcall, rfl⟩ := Option.map_eq_some_iff.mp hs
    obtain ⟨h₁, h₂, -, -, h₅, h₆⟩ := hc.call hcall
    have hsent := hc.unsent hp.2.1
    refine ⟨⟨h₁, h₂, fun _ => hsent, fun t ht => ?_, h₅, h₆⟩, hp.1, hp.2.2⟩
    obtain rfl := Option.some.inj ht
    refine ⟨call_next hcall, ?_⟩
    have hw := SpawnWatched.start (inv_of_reachable hc.reachable) hcall
    dsimp only
    rw [hsent]
    exact hw
  case completing =>
    cases effect <;> simp only [RunState.run, hat, reduceCtorEq] at hs
    case completed => exact RunInv.complete hc hp hs
    case elapsed =>
      rw [Option.ite_none_right_eq_some] at hs
      obtain ⟨hle, hs⟩ := hs
      obtain rfl := Option.some.inj hs
      exact ⟨hc.frame rfl rfl rfl rfl rfl, ⟨hle, .inl hp.1⟩, hp.2⟩
  case waiting =>
    cases effect <;> simp only [RunState.run, hat, reduceCtorEq] at hs
    case ended =>
      obtain ⟨exit, he, rfl⟩ := Option.map_eq_some_iff.mp hs
      obtain ⟨o, ho, he⟩ := Option.bind_eq_some_iff.mp he
      obtain ⟨⟨o', hhas⟩, hn⟩ := hp
      obtain rfl := Option.some.inj (ho.symm.trans hhas.1)
      exact ⟨hc.frame rfl rfl rfl rfl rfl, hc.exited hhas he, hn⟩
    case elapsed =>
      rw [Option.ite_none_right_eq_some] at hs
      obtain ⟨hle, hs⟩ := hs
      obtain rfl := Option.some.inj hs
      exact ⟨hc.frame rfl rfl rfl rfl rfl, ⟨hle, .inr hp.1⟩, hp.2⟩
  case finishing attempt =>
    cases effect <;> simp only [RunState.run, hat, reduceCtorEq] at hs
    obtain ⟨cfg, hcall, rfl⟩ := Option.map_eq_some_iff.mp hs
    obtain ⟨h₁, h₂, h₃, h₄, -, h₆⟩ := hc.call hcall
    have hb : Beside s { s with cfg } :=
      ⟨rfl, rfl, rfl, rfl, rfl, rfl, rfl, le_rfl, fun _ ho => ho, step_suffix hcall,
        hc.call hcall⟩
    refine ⟨⟨h₁, h₂, h₃, h₄, fun t ht => ?_, h₆⟩, ?_⟩
    · obtain rfl := Option.some.inj ht
      exact ⟨call_next hcall, TerminateWatched.start hc.created hcall⟩
    · have htried := hb.tried hp.1
      cases attempt <;> exact htried
  case cleaning attempt =>
    cases effect <;> simp only [RunState.run, hat, reduceCtorEq] at hs
    obtain ⟨result, hr, rfl⟩ := Option.map_eq_some_iff.mp hs
    exact RunInv.conclude hc hp (hc.ended hr)
  case draining exit termination at' =>
    have hstay : ∀ at'', RunInv { s with caller := .draining exit termination at'' } :=
      fun _ => ⟨hc.frame rfl rfl rfl rfl rfl, hp⟩
    cases at' with
    | reading chunks =>
        cases effect <;> simp only [RunState.run, hat, reduceCtorEq] at hs
        obtain rfl := Option.some.inj hs
        exact hstay _
    | checking chunks snapshot =>
        cases effect <;> simp only [RunState.run, hat, reduceCtorEq] at hs
        obtain rfl := Option.some.inj hs
        exact hstay _
    | sleeping chunks =>
        cases effect <;> simp only [RunState.run, hat, reduceCtorEq] at hs
        obtain rfl := Option.some.inj hs
        exact hstay _
    | returned snapshot =>
        cases effect <;> simp only [RunState.run, hat, reduceCtorEq] at hs
        obtain rfl := Option.some.inj hs
        obtain ⟨he, hset, hout⟩ := hp
        have hcap : s.Captured (some snapshot) := hout.symm
        refine ⟨hc.frame rfl rfl rfl rfl rfl, ?_⟩
        cases exit with
        | some exit => exact ⟨he, hset, hcap⟩
        | none => exact ⟨he, hset, hcap⟩
    | unstarted =>
        cases effect <;> simp only [RunState.run, hat, reduceCtorEq] at hs
  case returned result =>
    cases effect <;> simp only [RunState.run, hat, reduceCtorEq] at hs

/-! ### Runs -/

/-- A run begins with a scope of its own. -/
theorem runInv_start {cfg : Config Res Ret Inner} {now : Instant} {spec : ProcessSpec}
    {options : RunOptions} (hr : Reachable cfg) (h₀ : start cfg now spec options = some (.ok s)) :
    s.RunInv := by
  rw [start] at h₀
  split at h₀
  case h_1 => cases h₀
  next cfg' hf =>
  have hr' : Reachable cfg' := hr.follow hf
  split at h₀
  · next scope hret =>
      obtain rfl := Except.ok.inj (Option.some.inj h₀)
      refine ⟨⟨hr', created_of_createScope hf hret, fun _ => rfl, ?_, ?_, ?_⟩, ⟨rfl, rfl⟩, rfl, rfl⟩
      · rintro t ⟨⟩
      · rintro t ⟨⟩
      · rintro o ⟨⟩
  · cases Option.some.inj h₀
  · cases h₀

/-- **The invariant holds in every state of a run.** -/
theorem runInv_of_reaches {cfg : Config Res Ret Inner} {now : Instant} {spec : ProcessSpec}
    {options : RunOptions} {s₀ : RunState} (hr : Reachable cfg)
    (h₀ : start cfg now spec options = some (.ok s₀)) (h : Reaches step s₀ s) : s.RunInv := by
  refine h.invariant (runInv_start hr h₀) fun s a s' hi hs => ?_
  cases a with
  | supervisor l => exact (beside_supervise hi.calls hs).inv hi
  | caller effect => exact hi.run hs
  | tick duration =>
      obtain rfl := Option.some.inj hs
      have hb : Beside s { s with now := s.now + duration } :=
        ⟨rfl, rfl, rfl, rfl, rfl, rfl, rfl, Nat.le_add_right _ _, fun _ ho => ho,
          List.suffix_refl _, hi.calls.frame rfl rfl rfl rfl rfl⟩
      exact hb.inv hi

/-! ### Results -/

/-- A verified termination leaves nothing behind. -/
theorem RunInv.swept {termination : ScopeTerminationReport} (hi : s.RunInv)
    (he : s.Ended (.ok termination)) (hv : termination.allVerified = true) :
    ExactReport s.cfg.shared.history s.scope termination ∧
      ∀ p os, Happened s.cfg.shared.history (.attached s.scope p os) →
        HasEvidence s.cfg.shared.history p := by
  obtain ⟨-, t, -, hm⟩ := he
  have hl := (inv_of_reachable hi.calls.reachable).lawful
  obtain ⟨_, older, hsuf, hj⟩ := hl.of_happened ⟨t, hm⟩
  have hc : Happened older (.committed s.scope termination) := (hj.1.1 termination rfl).2 hv
  exact ⟨hl.exactReport (hc.mono hsuf),
    fun p os hat => hl.evidence_of_committed ⟨termination, hc.mono hsuf⟩ hat⟩

/-- The process that the spawn attached is the one that the run has. -/
theorem RunInv.process {o : SpawnObservation} {t : Tid} (hi : s.RunInv) (ho : s.Has o)
    (ht : s.spawn = some t) (hm : (t, .attached c p os) ∈ s.cfg.shared.history) :
    c = s.scope ∧ o.pid = p := by
  have hadm := (hi.calls.spawn t ht).2.admission hi.calls.reachable
  rw [ho.2] at hadm
  cases hadm with
  | before hx => cases hx
  | attached _ _ hx => cases hx
  | sent observed os' hx own =>
      obtain rfl := Option.some.inj hx
      obtain ⟨rfl, rfl, -⟩ := (own _ _ _).mp hm
      exact ⟨rfl, rfl⟩

/-- What the result of a run accounts for. -/
structure Accounts (s : RunState) (result : Except BlockingRunError BlockingRun) : Prop where
  /-- The scope has drained: nothing is attached to it any more. -/
  closed : Drained s.cfg.shared.history s.scope
  /-- The result says what happened. -/
  happened : s.Returned result
  /-- A run that is verified, exit and report, leaves no process of the scope behind. -/
  verified : ∀ run r, result = .ok run → run.intoVerified = .ok r →
    ExactReport s.cfg.shared.history s.scope run.termination ∧
      ∀ p os, Happened s.cfg.shared.history (.attached s.scope p os) →
        HasEvidence s.cfg.shared.history p
  /-- Neither does a run that reports the error of its spawn: a verified report of the scope
  stands behind the error. -/
  failed : ∀ e, result = .error (.spawn e) →
    ∃ termination, s.Ended (.ok termination) ∧ termination.allVerified = true ∧
      ExactReport s.cfg.shared.history s.scope termination ∧
      ∀ p os, Happened s.cfg.shared.history (.attached s.scope p os) →
        HasEvidence s.cfg.shared.history p
  /-- The process that the spawn attached is not lost, completed or timed out: the run has its
  observation, whose capture it drained. -/
  process : ∀ run, result = .ok run → ∀ t c p os, s.spawn = some t →
    (t, .attached c p os) ∈ s.cfg.shared.history → c = s.scope ∧ ∃ o, s.Has o ∧ o.pid = p
  /-- A completed run reports an exit of that process. -/
  exit : ∀ exit output termination, result = .ok (.completed exit output termination) →
    ∃ o, s.Has o ∧ exit.pid = o.pid

/-- **A blocking run accounts for its process**, whatever happens beside it, and whichever of the
deadline, the spawn and the exit comes first. -/
theorem blocking_run_accounts {cfg : Config Res Ret Inner} {now : Instant} {spec : ProcessSpec}
    {options : RunOptions} {s₀ : RunState} (hr : Reachable cfg)
    (h₀ : start cfg now spec options = some (.ok s₀)) (h : Reaches step s₀ s)
    (result : Except BlockingRunError BlockingRun) (hret : s.caller = .returned result) :
    s.Accounts result := by
  have hi := runInv_of_reaches hr h₀ h
  have hres : s.Returned result := by
    have hp := hi.placed
    rw [hret] at hp
    exact hp
  have hl := (inv_of_reachable hi.calls.reachable).lawful
  refine ⟨?_, hres, fun run r hok hver => ?_, fun e he => ?_, fun run hok t c p os ht hm => ?_,
    fun exit output termination hok => ?_⟩
  · unfold Returned at hres
    split at hres
    · exact hres.1.1
    · exact hres.1.1
    · obtain ⟨_, he, -⟩ := hres
      exact he.1
    · exact hres.1.1
    · exact hres.1
    · exact hres.elim
  · subst hok
    have hall : run.allVerified = true := by
      by_contra hn
      rw [BlockingRun.intoVerified, if_neg hn] at hver
      cases hver
    cases run with
    | completed exit output termination =>
        exact hi.swept hres.1 (Bool.and_eq_true_iff.mp hall).2
    | timedOut output termination => exact hi.swept hres.1 hall
  · subst he
    obtain ⟨termination, hended, hv, -⟩ := hres
    exact ⟨termination, hended, hv, hi.swept hended hv⟩
  · subst hok
    cases run with
    | completed exit output termination =>
        obtain ⟨o, ho, -⟩ := hres.2.1
        obtain ⟨hc, hp⟩ := hi.process ho ht hm
        exact ⟨hc, o, ho, hp⟩
    | timedOut output termination =>
        rcases hres.2.1.2 with ⟨o, ho⟩ | ⟨-, hown⟩
        · obtain ⟨hc, hp⟩ := hi.process ho ht hm
          exact ⟨hc, o, ho, hp⟩
        · exact absurd hm (hown t ht c p os)
  · subst hok
    obtain ⟨o, ho, hsig⟩ := hres.2.1
    exact ⟨o, ho, hl.pid_of_signalled hsig⟩

/-! ### A deadline that expires too early -/

/-- Steps of the supervisor. -/
def supervised (ls : List (Label Answer Call)) : List RunAction :=
  ls.map .supervisor

/-- Steps of the thread. -/
def driven (effects : List Effect) : List RunAction :=
  effects.map .caller

/-- The deadline expires while the backend creates the process, and the termination of the scope
waits for the spawn. -/
def expire : List RunAction :=
  driven [.go] ++ supervised (steps 1 6) ++ [.tick 100] ++ driven [.elapsed, .go] ++
  supervised (steps 2 2)

/-- The spawn attaches the process, and returns; the process exits, and its exit is signalled. -/
def attachLate : List RunAction :=
  supervised ([.run 1 (.spawned (.ok ⟨100, .unavailable⟩))] ++ steps 1 2 ++
    [.run 1 (.instant 0)] ++ steps 1 1 ++ [.run 1 (.output (some 7))] ++ steps 1 7 ++ steps 3 1 ++
    [.run 3 (.waited (some ⟨some 0, none, false⟩))] ++ steps 3 10)

/-- The scope is committed; the run drains the output of the process. -/
def commitLate : List RunAction :=
  supervised (steps 2 3 ++ [.run 2 (.cleaned (.ok ())), .run 2 (.order []), .run 2 (.order [])] ++
    steps 2 9) ++
  driven [.go, .read ⟨[], [], 0, true, true, []⟩, .go, .go]

/-- A run in a new supervisor. -/
def freshRun : Option (Except BlockingRunError RunState) :=
  start (Machine.initial Inner.new) 0 (.new []) ⟨100, .default, 10⟩

/-- The run has timed out, with the output of a process. -/
def timedOutWithOutput (s : RunState) : Bool :=
  match s.caller with
  | .returned (.ok (.timedOut output termination)) => output.isSome && termination.allVerified
  | _ => false

set_option maxRecDepth 10000 in
/-- The schedule of a run whose deadline expires during the spawn: it returns with the output. -/
theorem commitLate_returns : freshRun.any (fun r => match r with
    | .ok s₀ => (follow step s₀ (expire ++ attachLate ++ commitLate)).any timedOutWithOutput
    | .error _ => false) = true := by
  decide +kernel

/-- That run accounts for its process. -/
theorem expired_run_has_its_process : ∃ s₀ s result, freshRun = some (.ok s₀) ∧
    Reaches step s₀ s ∧ s.caller = .returned result ∧ timedOutWithOutput s = true ∧
    s.Accounts result := by
  obtain ⟨r, h₀, hP⟩ := (Option.any_eq_true _ _).mp commitLate_returns
  cases r with
  | error e => cases hP
  | ok s₀ =>
      obtain ⟨s, hf, hP⟩ := (Option.any_eq_true _ _).mp hP
      have h : Reaches step s₀ s := .of_follow hf
      cases hat : s.caller with
      | returned result =>
          exact ⟨s₀, s, result, h₀, h, hat, hP, blocking_run_accounts .initial h₀ h result hat⟩
      | _ =>
          rw [timedOutWithOutput, hat] at hP
          cases hP

end RunState

end Shepherd
