import Shepherd.Backend.JobReaderRuns
import Shepherd.Backend.Jobs

/-!
# Moves of the Windows Backend

What a step of the Windows backend can do, said once: `Move` has a constructor for each kind of
step, with its condition and its result, and `move_of_act` finds the one of a step. The first
invariant is that the mutex excludes: a call in one of the stages that need it has it
(`Exclusive`).
-/

namespace Shepherd

open Conc

/-- The stages of a spawn with the mutex. -/
def JobSpawn.locked : JobSpawn → Bool
  | .entering _ | .assigning _ | .resuming _ | .inserting _ => true
  | _ => false

/-- The stages of a spawn that has inserted no slot. -/
def JobSpawn.isSetup : JobSpawn → Bool
  | .starting | .returned _ | .dropped => false
  | _ => true

/-- The stages of a spawn before its slot is inserted. -/
def JobSpawn.isPending : JobSpawn → Bool
  | .created _ | .opened _ | .entering _ | .assigning _ | .resuming _ | .inserting _ => true
  | _ => false

/-- The stages of a kill with the mutex. -/
def JobKill.locked : JobKill → Bool
  | .terminating | .queueing _ | .removing => true
  | _ => false

/-- The stages of a signal with the mutex. -/
def JobSignal.locked : JobSignal → Bool
  | .flagging | .terminating => true
  | _ => false

/-- The call of `wait` that an action moves. -/
def ReaderAction.call : ReaderAction → Option ℕ
  | .start n | .run n | .drop n => some n
  | _ => none

namespace JobReader

variable {r r' : JobReader} {n : ℕ}

/-- A call that goes on without the mutex does not need it later. -/
theorem run_section {c : JobWaitCall} (h : (some c).bind (r.runCall n) = some r') :
    ∃ c', r'.calls n = some c' ∧ (c.inSection = false → c'.inSection = false) := by
  have hmoved : ∀ d : JobWaitCall, d.inSection = false →
      ∃ c', (r.move n d).calls n = some c' ∧ (c.inSection = false → c'.inSection = false) :=
    fun d hd => ⟨d, Function.update_self .., fun _ => hd⟩
  have hchanged : ∀ seen, r.changed n seen = some r' →
      ∃ c', r'.calls n = some c' ∧ (c.inSection = false → c'.inSection = false) := by
    intro seen h
    rw [changed] at h
    split at h
    · obtain rfl := Option.some.inj h
      exact hmoved _ rfl
    · split at h
      · obtain rfl := Option.some.inj h
        exact hmoved _ rfl
      · cases h
  rw [Option.bind_some] at h
  cases c with
  | awaitingRetry seen => exact hchanged seen h
  | awaiting seen => exact hchanged seen h
  | reading =>
      rw [runCall] at h
      split at h <;> obtain rfl := Option.some.inj h <;> exact hmoved _ rfl
  | removing exit =>
      obtain rfl := Option.some.inj h
      exact ⟨_, Function.update_self .., fun _ => rfl⟩
  | returned result => exact absurd h (by simp [runCall])
  | dropped => exact absurd h (by simp [runCall])
  | _ =>
      rw [runCall] at h
      split at h <;> obtain rfl := Option.some.inj h <;>
        exact ⟨_, Function.update_self .., by rintro ⟨⟩⟩

/-- A call moves itself only. -/
theorem calls_other {a : ReaderAction} (ha : a.call = some n) (hs : r.step a = some r') {m : ℕ}
    (hm : m ≠ n) : r'.calls m = r.calls m := by
  cases a with
  | start n' =>
      obtain rfl := Option.some.inj ha
      rw [step, Option.ite_none_right_eq_some] at hs
      obtain ⟨-, ⟨⟩⟩ := hs
      exact Function.update_of_ne hm ..
  | run n' =>
      obtain rfl := Option.some.inj ha
      obtain ⟨c, -, hr⟩ := Option.bind_eq_some_iff.mp hs
      exact calls_runCall hr hm
  | drop n' =>
      obtain rfl := Option.some.inj ha
      rw [step] at hs
      split at hs
      · rw [Option.ite_none_right_eq_some] at hs
        obtain ⟨-, ⟨⟩⟩ := hs
        exact Function.update_of_ne hm ..
      · cases hs
  | _ => cases ha

/-- A call that starts is there. -/
theorem start_calls (h : r.step (.start n) = some r') : ∃ c, r'.calls n = some c := by
  rw [step, Option.ite_none_right_eq_some] at h
  obtain ⟨-, ⟨⟩⟩ := h
  exact ⟨_, Function.update_self ..⟩

/-- A call that is dropped is recorded as such. -/
theorem drop_calls (h : r.step (.drop n) = some r') : r'.calls n = some .dropped := by
  rw [step] at h
  split at h
  · rw [Option.ite_none_right_eq_some] at h
    obtain ⟨-, ⟨⟩⟩ := h
    exact Function.update_self ..
  · cases h

end JobReader

namespace JobState

/-- What a step can do. -/
inductive Move (s : JobState) : JobState → Prop where
  | forks {parent : ℕ} {procs : OsProcs JobObject JobExit} (h : s.procs.fork parent = some procs) :
      Move s { s with procs }
  | exits (p : ℕ) (code : UInt32) : Move s { s with procs := s.procs.finish p ⟨code, .own⟩ }
  | creates (scope : ProcessScopeId) :
      Move s ({ s with procs := s.procs.create }.setSpawn s.procs.length (.created scope))
  /-- A spawn goes on without the mutex. -/
  | spawnGoesOn {p : ℕ} {old stage : JobSpawn} (h : s.spawns p = some old)
      (hs : stage.locked = false) (hf : ∀ scope, stage = .created scope → False)
      (ho : ∀ scope, stage = .opened scope → old = .created scope)
      (hi : stage.isSetup = true → old.isSetup = true) : Move s (s.setSpawn p stage)
  | spawnLocks {p : ℕ} {scope : ProcessScopeId} (h : s.spawns p = some (.opened scope))
      (hl : s.lock = none) :
      Move s ((s.take (.spawn p)).setSpawn p (.entering scope))
  | spawnEnters {p : ℕ} {scope : ProcessScopeId} (h : s.spawns p = some (.entering scope))
      (hj : (s.jobs scope).isSome) :
      Move s (s.setSpawn p (.assigning scope))
  | spawnMints {p : ℕ} {scope : ProcessScopeId} (h : s.spawns p = some (.entering scope))
      (hj : s.jobs scope = none) :
      Move s ({ s with
        jobs := Function.update s.jobs scope (some ⟨scope, s.minted⟩)
        minted := s.minted + 1 }.setSpawn p (.assigning scope))
  | spawnAborts {p : ℕ} {stage : JobSpawn} (h : s.spawns p = some stage)
      (hs : stage.locked = true) : Move s (s.abort p)
  | spawnAssigns {p : ℕ} {scope : ProcessScopeId} {job : JobObject}
      (h : s.spawns p = some (.assigning scope)) (hj : s.jobs scope = some job) :
      Move s ({ s with procs := s.procs.assign p job }.setSpawn p (.resuming scope))
  | spawnResumes {p : ℕ} {scope : ProcessScopeId} (h : s.spawns p = some (.resuming scope)) :
      Move s ({ s with procs := s.procs.resume p }.setSpawn p (.inserting scope))
  | spawnInserts {p : ℕ} {scope : ProcessScopeId} (h : s.spawns p = some (.inserting scope)) :
      Move s ((s.setReader p (.new scope)).release.setSpawn p .starting)
  | spawnKills {p : ℕ} (h : s.spawns p = some .failing) :
      Move s ({ s with procs := s.procs.doom p ⟨1, .setup⟩ }.setSpawn p .reaping)
  /-- A kill starts, or a cleanup goes on without the mutex. -/
  | killGoesOn {n : ℕ} {op : KillOp} {stage : JobKill}
      (h : ∀ c, s.kills n = some c → c.1 = op ∧ c.2.locked = false) (hs : stage.locked = false)
      (hj : ∀ scope, op = .cleanupScope scope → stage = .returned true → s.jobs scope = none) :
      Move s (s.setKill n op stage)
  | killFlags {n : ℕ} {op : KillOp} (h : s.kills n = some (op, .locking)) (hl : s.lock = none) :
      Move s (((s.take (.kill n)).forSlots op .flag).setKill n op .terminating)
  | killTerminates {n : ℕ} {op : KillOp} (h : s.kills n = some (op, .terminating))
      (failed : List ProcessScopeId) :
      Move s ({ s with procs := s.procs.terminate (s.victim op failed) ⟨KILLED, .job⟩ }.setKill n
        op (.queueing (s.killed op failed)))
  | killQueues {n : ℕ} {op : KillOp} {ok : Bool} (h : s.kills n = some (op, .queueing ok)) :
      Move s ((s.forSlots op offer).release.setKill n op (afterKill ok op))
  | killFinds {n : ℕ} {scope : ProcessScopeId} {left : ℕ} {job : JobObject}
      (h : s.kills n = some (.cleanupScope scope, .polling left)) (hl : s.lock = none)
      (hj : s.jobs scope = some job) (ha : s.procs.active (· == job) = 0) :
      Move s ((s.take (.kill n)).setKill n (.cleanupScope scope) .removing)
  | killRemoves {n : ℕ} {scope : ProcessScopeId}
      (h : s.kills n = some (.cleanupScope scope, .removing)) :
      Move s ((s.closeJob scope).release.setKill n (.cleanupScope scope) (.returned true))
  /-- A signal starts, or returns without the mutex. -/
  | signalGoesOn {p n : ℕ} {stage : JobSignal}
      (h : ∀ c, s.signals n = some c → c.1 = p ∧ c.2.locked = false) (hs : stage.locked = false) :
      Move s (s.setSignal n p stage)
  | signalLocks {p n : ℕ} (h : s.signals n = some (p, .locking)) (hl : s.lock = none) :
      Move s ((s.take (.signal n)).setSignal n p .flagging)
  | signalFlags {p n : ℕ} {r : JobReader} (h : s.signals n = some (p, .flagging))
      (hr : s.readers p = some r) : Move s ((s.setReader p r.flag).setSignal n p .terminating)
  | signalTerminates {p n : ℕ} (h : s.signals n = some (p, .terminating)) :
      Move s ({ s with procs := s.procs.doom p ⟨KILLED, .process⟩ }.release.setSignal n p
        (.returned true))
  | signalFails {p n : ℕ} (h : s.signals n = some (p, .terminating)) :
      Move s (s.release.setSignal n p (.returned false))
  | works {p : ℕ} {r r' : JobReader} {status : Except String UInt32} (hr : s.readers p = some r)
      (ha : s.Allows p status r.worker) (hs : r.step (.work status) = some r') :
      Move s (s.setReader p r')
  /-- A call of `wait` goes on with the mutex. -/
  | waitsInside {p n : ℕ} {r r' : JobReader} {a : ReaderAction} {c : JobWaitCall}
      (hl : s.lock = none ∨ ∃ d, r.calls n = some d ∧ d.inSection = true)
      (hr : s.readers p = some r) (ha : a.call = some n) (hs : r.step a = some r')
      (hc : r'.calls n = some c) :
      Move s (if c.inSection then (s.setReader p r').take (.wait p n)
        else (s.setReader p r').release)
  /-- A call of `wait` goes on without the mutex. -/
  | waits {p n : ℕ} {r r' : JobReader} {a : ReaderAction} {c : JobWaitCall}
      (hr : s.readers p = some r) (ha : a.call = some n) (hs : r.step a = some r')
      (hc : r'.calls n = some c) (hsec : c.inSection = false) : Move s (s.setReader p r')

variable {s s' : JobState} {p q n m : ℕ} {scope : ProcessScopeId} {op : KillOp}

/-! ### The move of a step -/

/-- A step of a spawn is a move, place by place. -/
theorem move_of_runSpawn {stage : JobSpawn} {ok : Bool} (h : s.spawns p = some stage)
    (hs : s.runSpawn p ok stage = some s') : Move s s' := by
  cases stage with
  | created scope =>
      obtain rfl := Option.some.inj hs
      cases ok with
      | true => exact .spawnGoesOn h rfl nofun (by rintro _ ⟨⟩; rfl) fun _ => rfl
      | false => exact .spawnGoesOn h rfl nofun nofun fun _ => rfl
  | opened scope =>
      rw [runSpawn, Option.ite_none_right_eq_some] at hs
      obtain ⟨hl, ⟨⟩⟩ := hs
      exact .spawnLocks h (Option.isNone_iff_eq_none.mp hl)
  | entering scope =>
      rw [runSpawn] at hs
      split at hs
      · next hj =>
          obtain rfl := Option.some.inj hs
          exact .spawnEnters h hj
      · next hj =>
          split at hs
          · obtain rfl := Option.some.inj hs
            exact .spawnMints h (by simpa using hj)
          · obtain rfl := Option.some.inj hs
            exact .spawnAborts h rfl
  | assigning scope =>
      obtain ⟨job, hj, rfl⟩ := Option.map_eq_some_iff.mp hs
      split
      · exact .spawnAssigns h hj
      · exact .spawnAborts h rfl
  | resuming scope =>
      rw [runSpawn] at hs
      split at hs
      · obtain rfl := Option.some.inj hs
        exact .spawnResumes h
      · obtain rfl := Option.some.inj hs
        exact .spawnAborts h rfl
  | inserting scope =>
      obtain rfl := Option.some.inj hs
      exact .spawnInserts h
  | starting =>
      obtain rfl := Option.some.inj hs
      exact .spawnGoesOn h rfl nofun nofun nofun
  | failing =>
      obtain rfl := Option.some.inj hs
      cases ok with
      | true => exact .spawnKills h
      | false => exact .spawnGoesOn h rfl nofun nofun fun _ => rfl
  | reaping =>
      rw [runSpawn, Option.ite_none_right_eq_some] at hs
      obtain ⟨-, ⟨⟩⟩ := hs
      exact .spawnGoesOn h rfl nofun nofun nofun
  | returned ok => cases hs
  | dropped => cases hs

/-- A round of polling is a move: the job is empty, or the budget goes down. -/
theorem move_of_poll {left : ℕ} {failed : List ProcessScopeId}
    (h : s.kills n = some (.cleanupScope scope, .polling left))
    (hs : s.poll n (.cleanupScope scope) scope failed left = some s') : Move s s' := by
  have hopen : ∀ c, s.kills n = some c → c.1 = .cleanupScope scope ∧ c.2.locked = false := by
    rintro c hc
    obtain rfl := Option.some.inj (h.symm.trans hc)
    exact ⟨rfl, rfl⟩
  cases left with
  | zero =>
      obtain rfl := Option.some.inj hs
      exact .killGoesOn hopen rfl nofun
  | succ left =>
      rw [poll, Option.ite_none_right_eq_some] at hs
      obtain ⟨hl, hs⟩ := hs
      split at hs
      · next hj =>
          obtain rfl := Option.some.inj hs
          refine .killGoesOn hopen rfl fun sc hsc _ => ?_
          obtain rfl : scope = sc := by simpa using hsc
          exact hj
      · next job hj =>
          split at hs
          · obtain rfl := Option.some.inj hs
            exact .killGoesOn hopen rfl nofun
          · split at hs
            · next ha =>
                obtain rfl := Option.some.inj hs
                exact .killFinds h (Option.isNone_iff_eq_none.mp hl) hj ha
            · obtain rfl := Option.some.inj hs
              exact .killGoesOn hopen rfl nofun

/-- A step of a kill is a move, place by place. -/
theorem move_of_runKill {stage : JobKill} {failed : List ProcessScopeId}
    (h : s.kills n = some (op, stage)) (hs : s.runKill n failed op stage = some s') :
    Move s s' := by
  cases stage with
  | locking =>
      rw [runKill, Option.ite_none_right_eq_some] at hs
      obtain ⟨hl, ⟨⟩⟩ := hs
      exact .killFlags h (Option.isNone_iff_eq_none.mp hl)
  | terminating =>
      obtain rfl := Option.some.inj hs
      exact .killTerminates h failed
  | queueing ok =>
      obtain rfl := Option.some.inj hs
      exact .killQueues h
  | polling left =>
      cases op with
      | cleanupScope scope => exact move_of_poll h hs
      | _ => cases hs
  | removing =>
      cases op with
      | cleanupScope scope =>
          obtain rfl := Option.some.inj hs
          exact .killRemoves h
      | _ => cases hs
  | returned ok => cases hs
  | dropped => cases hs

/-- A step of a signal is a move, place by place. -/
theorem move_of_runSignal {stage : JobSignal} {ok : Bool} (h : s.signals n = some (p, stage))
    (hs : s.runSignal n p ok stage = some s') : Move s s' := by
  have hmoves : ∀ ok', stage.locked = false → Move s (s.setSignal n p (.returned ok')) :=
    fun _ hl => .signalGoesOn (fun c hc => by
      obtain rfl := Option.some.inj (h.symm.trans hc)
      exact ⟨rfl, hl⟩) rfl
  cases stage with
  | locking =>
      rw [runSignal, Option.ite_none_right_eq_some] at hs
      obtain ⟨hl, hs⟩ := hs
      split at hs
      · split at hs
        · obtain rfl := Option.some.inj hs
          exact hmoves _ rfl
        · split at hs
          · obtain rfl := Option.some.inj hs
            exact .signalLocks h (Option.isNone_iff_eq_none.mp hl)
          · obtain rfl := Option.some.inj hs
            exact hmoves _ rfl
      · obtain rfl := Option.some.inj hs
        exact hmoves _ rfl
  | flagging =>
      obtain ⟨r, hr, rfl⟩ := Option.map_eq_some_iff.mp hs
      exact .signalFlags h hr
  | terminating =>
      rw [runSignal] at hs
      split at hs
      · obtain rfl := Option.some.inj hs
        exact .signalTerminates h
      · obtain rfl := Option.some.inj hs
        exact .signalFails h
  | returned ok => cases hs

/-- A step of a wait is a move, inside the mutex or outside. -/
theorem move_of_runWait {r : JobReader} {c : JobWaitCall} (hr : s.readers p = some r)
    (hc : r.calls n = some c) (hs : s.runWait p n r c = some s') : Move s s' := by
  have hstep : ∀ r', r.step (.run n) = some r' → ∃ c', r'.calls n = some c' ∧
      (c.inSection = false → c'.inSection = false) := by
    intro r' hr'
    rw [JobReader.step, hc] at hr'
    exact JobReader.run_section hr'
  have hout : ∀ r', r.step (.run n) = some r' → c.inSection = false →
      Move s (s.setReader p r') := by
    intro r' hr' hsec
    obtain ⟨c', hc', hsec'⟩ := hstep r' hr'
    exact .waits hr rfl hr' hc' (hsec' hsec)
  have hgen : (r.step (.run n)).map (fun r' =>
      if c.inSection then (s.setReader p r').afterWait p n r' else s.setReader p r') = some s' →
      Move s s' := by
    intro hs
    obtain ⟨r', hr', rfl⟩ := Option.map_eq_some_iff.mp hs
    obtain ⟨c', hc', -⟩ := hstep r' hr'
    split
    · next hsec =>
        rw [afterWait, hc']
        exact .waitsInside (.inr ⟨c, hc, hsec⟩) hr rfl hr' hc'
    · next hsec => exact hout r' hr' (by simpa using hsec)
  cases c with
  | removing exit =>
      rw [runWait, Option.ite_none_right_eq_some] at hs
      obtain ⟨-, hs⟩ := hs
      obtain ⟨r', hr', rfl⟩ := Option.map_eq_some_iff.mp hs
      exact hout r' hr' rfl
  | _ => exact hgen hs

/-- **Every step is a move.** -/
theorem move_of_act {a : JobAction} (hs : s.act a = some s') : Move s s' := by
  cases a with
  | fork parent =>
      obtain ⟨procs, h, rfl⟩ := Option.map_eq_some_iff.mp hs
      exact .forks h
  | exit p code =>
      obtain rfl := Option.some.inj hs
      exact .exits p code
  | spawn scope =>
      obtain rfl := Option.some.inj hs
      exact .creates scope
  | setup p ok =>
      obtain ⟨stage, h, hs⟩ := Option.bind_eq_some_iff.mp hs
      exact move_of_runSpawn h hs
  | dropSpawn p =>
      rw [act, Option.ite_none_right_eq_some] at hs
      obtain ⟨h, ⟨⟩⟩ := hs
      exact .spawnGoesOn h rfl nofun nofun nofun
  | kill n op =>
      rw [act, Option.ite_none_right_eq_some, Option.isNone_iff_eq_none] at hs
      obtain ⟨hn, ⟨⟩⟩ := hs
      exact .killGoesOn (fun c hc => by cases hn.symm.trans hc) rfl nofun
  | runKill n failed =>
      obtain ⟨⟨op, stage⟩, h, hs⟩ := Option.bind_eq_some_iff.mp hs
      exact move_of_runKill h hs
  | dropKill n =>
      rw [act] at hs
      split at hs
      · next op left h =>
          obtain rfl := Option.some.inj hs
          refine .killGoesOn (fun c hc => ?_) rfl nofun
          obtain rfl := Option.some.inj (h.symm.trans hc)
          exact ⟨rfl, rfl⟩
      · cases hs
  | signal n p =>
      rw [act, Option.ite_none_right_eq_some, Option.isNone_iff_eq_none] at hs
      obtain ⟨hn, ⟨⟩⟩ := hs
      exact .signalGoesOn (fun c hc => by cases hn.symm.trans hc) rfl
  | runSignal n ok =>
      obtain ⟨⟨p, stage⟩, h, hs⟩ := Option.bind_eq_some_iff.mp hs
      exact move_of_runSignal h hs
  | work p status =>
      obtain ⟨r, hr, hs⟩ := Option.bind_eq_some_iff.mp hs
      rw [Option.ite_none_right_eq_some] at hs
      obtain ⟨ha, hs⟩ := hs
      obtain ⟨r', hr', rfl⟩ := Option.map_eq_some_iff.mp hs
      exact .works hr ha hr'
  | startWait p n =>
      rw [act, Option.ite_none_right_eq_some, Option.isNone_iff_eq_none] at hs
      obtain ⟨hl, hs⟩ := hs
      obtain ⟨r, hr, hs⟩ := Option.bind_eq_some_iff.mp hs
      obtain ⟨r', hr', rfl⟩ := Option.map_eq_some_iff.mp hs
      obtain ⟨c, hc⟩ := JobReader.start_calls hr'
      rw [afterWait, hc]
      exact .waitsInside (.inl hl) hr rfl hr' hc
  | runWait p n =>
      obtain ⟨r, hr, hs⟩ := Option.bind_eq_some_iff.mp hs
      obtain ⟨c, hc, hs⟩ := Option.bind_eq_some_iff.mp hs
      exact move_of_runWait hr hc hs
  | dropWait p n =>
      obtain ⟨r, hr, hs⟩ := Option.bind_eq_some_iff.mp hs
      obtain ⟨r', hr', rfl⟩ := Option.map_eq_some_iff.mp hs
      exact .waits hr rfl hr' (JobReader.drop_calls hr') rfl

/-! ### One call of a state -/

/-- A spawn after one was set. -/
theorem of_setSpawn {stage stage' : JobSpawn} (h : (s.setSpawn p stage).spawns q = some stage') :
    (q = p ∧ stage' = stage) ∨ (q ≠ p ∧ s.spawns q = some stage') := by
  by_cases hq : q = p
  · subst hq
    exact .inl ⟨rfl, by simpa [setSpawn] using h.symm⟩
  · exact .inr ⟨hq, by simpa [setSpawn, hq] using h⟩

/-- A kill after one was set. -/
theorem of_setKill {op' : KillOp} {stage stage' : JobKill}
    (h : (s.setKill n op stage).kills m = some (op', stage')) :
    (m = n ∧ op' = op ∧ stage' = stage) ∨ (m ≠ n ∧ s.kills m = some (op', stage')) := by
  by_cases hm : m = n
  · subst hm
    obtain ⟨rfl, rfl⟩ : op = op' ∧ stage = stage' := by simpa [setKill] using h
    exact .inl ⟨rfl, rfl, rfl⟩
  · exact .inr ⟨hm, by simpa [setKill, hm] using h⟩

/-- A signal after one was set. -/
theorem of_setSignal {stage stage' : JobSignal}
    (h : (s.setSignal n p stage).signals m = some (q, stage')) :
    (m = n ∧ q = p ∧ stage' = stage) ∨ (m ≠ n ∧ s.signals m = some (q, stage')) := by
  by_cases hm : m = n
  · subst hm
    obtain ⟨rfl, rfl⟩ : p = q ∧ stage = stage' := by simpa [setSignal] using h
    exact .inl ⟨rfl, rfl, rfl⟩
  · exact .inr ⟨hm, by simpa [setSignal, hm] using h⟩

/-- A reader after one was set. -/
theorem of_setReader {r r' : JobReader} (h : (s.setReader p r).readers q = some r') :
    (q = p ∧ r' = r) ∨ (q ≠ p ∧ s.readers q = some r') := by
  by_cases hq : q = p
  · subst hq
    exact .inl ⟨rfl, by simpa [setReader] using h.symm⟩
  · exact .inr ⟨hq, by simpa [setReader, hq] using h⟩

/-- A loop over the slots leaves the calls of `wait` alone. -/
theorem of_forSlots {f : JobReader → JobReader} {r : JobReader}
    (h : (s.forSlots op f).readers q = some r) :
    ∃ r₀, s.readers q = some r₀ ∧ r = visit op f r₀ := by
  obtain ⟨r₀, hr₀, rfl⟩ := Option.map_eq_some_iff.mp h
  exact ⟨r₀, hr₀, rfl⟩

/-! ### The mutex -/

/-- A call is in one of the stages that need the mutex. -/
def Inside (s : JobState) : JobHolder → Prop
  | .spawn p => ∃ stage, s.spawns p = some stage ∧ stage.locked = true
  | .kill n => ∃ op stage, s.kills n = some (op, stage) ∧ stage.locked = true
  | .signal n => ∃ p stage, s.signals n = some (p, stage) ∧ stage.locked = true
  | .wait p n => ∃ r c, s.readers p = some r ∧ r.calls n = some c ∧ c.inSection = true

/-- A spawn at a locked place is inside the mutex. -/
theorem inside_spawn {stage : JobSpawn} (h : s.spawns p = some stage)
    (hl : stage.locked = true) : s.Inside (.spawn p) :=
  ⟨stage, h, hl⟩

/-- A kill at a locked place is inside the mutex. -/
theorem inside_kill {stage : JobKill} (h : s.kills n = some (op, stage))
    (hl : stage.locked = true) : s.Inside (.kill n) :=
  ⟨op, stage, h, hl⟩

/-- A signal at a locked place is inside the mutex. -/
theorem inside_signal {stage : JobSignal} (h : s.signals n = some (p, stage))
    (hl : stage.locked = true) : s.Inside (.signal n) :=
  ⟨p, stage, h, hl⟩

/-- **The mutex excludes**: who is in one of these stages has it. -/
def Exclusive (s : JobState) : Prop :=
  ∀ holder, s.Inside holder → s.lock = some holder

/-- Who is inside after a spawn was set. -/
theorem inside_setSpawn {stage : JobSpawn} {holder : JobHolder}
    (h : (s.setSpawn p stage).Inside holder) :
    (s.Inside holder ∧ holder ≠ .spawn p) ∨ (holder = .spawn p ∧ stage.locked = true) := by
  cases holder with
  | spawn q =>
      obtain ⟨stage', hq, hl⟩ := h
      rcases of_setSpawn hq with ⟨rfl, rfl⟩ | ⟨hne, hq⟩
      · exact .inr ⟨rfl, hl⟩
      · exact .inl ⟨⟨stage', hq, hl⟩, by simpa using hne⟩
  | kill n => exact .inl ⟨h, nofun⟩
  | signal n => exact .inl ⟨h, nofun⟩
  | wait q n => exact .inl ⟨h, nofun⟩

/-- Who is inside after a kill was set. -/
theorem inside_setKill {stage : JobKill} {holder : JobHolder}
    (h : (s.setKill n op stage).Inside holder) :
    (s.Inside holder ∧ holder ≠ .kill n) ∨ (holder = .kill n ∧ stage.locked = true) := by
  cases holder with
  | kill m =>
      obtain ⟨op', stage', hm, hl⟩ := h
      rcases of_setKill hm with ⟨rfl, rfl, rfl⟩ | ⟨hne, hm⟩
      · exact .inr ⟨rfl, hl⟩
      · exact .inl ⟨⟨op', stage', hm, hl⟩, by simpa using hne⟩
  | spawn q => exact .inl ⟨h, nofun⟩
  | signal m => exact .inl ⟨h, nofun⟩
  | wait q m => exact .inl ⟨h, nofun⟩

/-- Who is inside after a signal was set. -/
theorem inside_setSignal {stage : JobSignal} {holder : JobHolder}
    (h : (s.setSignal n p stage).Inside holder) :
    (s.Inside holder ∧ holder ≠ .signal n) ∨ (holder = .signal n ∧ stage.locked = true) := by
  cases holder with
  | signal m =>
      obtain ⟨q, stage', hm, hl⟩ := h
      rcases of_setSignal hm with ⟨rfl, rfl, rfl⟩ | ⟨hne, hm⟩
      · exact .inr ⟨rfl, hl⟩
      · exact .inl ⟨⟨q, stage', hm, hl⟩, by simpa using hne⟩
  | spawn q => exact .inl ⟨h, nofun⟩
  | kill m => exact .inl ⟨h, nofun⟩
  | wait q m => exact .inl ⟨h, nofun⟩

/-- Who is inside after a reader was set: as before, or one of its calls. -/
theorem inside_setReader {r : JobReader} {holder : JobHolder}
    (h : (s.setReader p r).Inside holder) : s.Inside holder ∨
      ∃ n c, holder = .wait p n ∧ r.calls n = some c ∧ c.inSection = true := by
  cases holder with
  | wait q m =>
      obtain ⟨r', c, hq, hc, hsec⟩ := h
      rcases of_setReader hq with ⟨rfl, rfl⟩ | ⟨-, hq⟩
      · exact .inr ⟨m, c, rfl, hc, hsec⟩
      · exact .inl ⟨r', c, hq, hc, hsec⟩
  | spawn q => exact .inl h
  | kill m => exact .inl h
  | signal m => exact .inl h

/-- Changing a reader but for its calls. -/
theorem inside_of_calls {r r' : JobReader} (hr : s.readers p = some r) (hc : r'.calls = r.calls)
    {holder : JobHolder} (h : (s.setReader p r').Inside holder) : s.Inside holder := by
  rcases inside_setReader h with h | ⟨n, c, rfl, hn, hsec⟩
  · exact h
  · exact ⟨r, c, hr, hc ▸ hn, hsec⟩

/-- Moving a call of `wait`. -/
theorem inside_of_call {r r' : JobReader} {a : ReaderAction} {c : JobWaitCall}
    (hr : s.readers p = some r) (ha : a.call = some n) (hs : r.step a = some r')
    (hc : r'.calls n = some c) {holder : JobHolder} (h : (s.setReader p r').Inside holder) :
    (s.Inside holder ∧ holder ≠ .wait p n) ∨ (holder = .wait p n ∧ c.inSection = true) := by
  cases holder with
  | wait q m =>
      obtain ⟨r₁, d, hq, hd, hsec⟩ := h
      rcases of_setReader hq with ⟨rfl, rfl⟩ | ⟨hne, hq⟩
      · by_cases hm : m = n
        · subst hm
          obtain rfl := Option.some.inj (hc.symm.trans hd)
          exact .inr ⟨rfl, hsec⟩
        · refine .inl ⟨⟨r, d, hr, ?_, hsec⟩, by simpa using hm⟩
          rw [← JobReader.calls_other ha hs hm, hd]
      · exact .inl ⟨⟨r₁, d, hq, hd, hsec⟩, by simp [hne]⟩
  | spawn q => exact .inl ⟨h, nofun⟩
  | kill m => exact .inl ⟨h, nofun⟩
  | signal m => exact .inl ⟨h, nofun⟩

/-- A pass over the readers that leaves their calls alone moves nobody inside. -/
theorem inside_forSlots {f : JobReader → JobReader} (hf : ∀ r, (f r).calls = r.calls)
    {holder : JobHolder} (h : (s.forSlots op f).Inside holder) : s.Inside holder := by
  cases holder with
  | wait q m =>
      obtain ⟨r', c, hq, hc, hsec⟩ := h
      obtain ⟨r, hr, rfl⟩ := of_forSlots hq
      refine ⟨r, c, hr, ?_, hsec⟩
      rw [visit] at hc
      split at hc
      · rwa [hf] at hc
      · exact hc
  | spawn q => exact h
  | kill m => exact h
  | signal m => exact h

/-- A kill that has ended its loop is about to give the mutex back. -/
theorem locked_afterKill (ok : Bool) (op : KillOp) : (afterKill ok op).locked = false := by
  cases op <;> cases ok <;> rfl

/-- The offer of a token leaves the calls alone. -/
theorem calls_offer (r : JobReader) : (offer r).calls = r.calls := by
  rw [offer]
  split <;> rfl

/-- Two calls that need the mutex are one. -/
theorem Exclusive.eq (h : s.Exclusive) {a b : JobHolder} (ha : s.Inside a) (hb : s.Inside b) :
    a = b :=
  Option.some.inj ((h a ha).symm.trans (h b hb))

/-- Nobody enters, and the mutex is as before. -/
theorem Exclusive.stay (h : s.Exclusive) (hi : ∀ holder, s'.Inside holder → s.Inside holder)
    (hl : s'.lock = s.lock) : s'.Exclusive :=
  fun holder hin => hl.trans (h holder (hi holder hin))

/-- The mutex is free, and one party takes it. -/
theorem Exclusive.take (h : s.Exclusive) {mover : JobHolder} (hfree : s.lock = none)
    (hi : ∀ holder, s'.Inside holder → s.Inside holder ∨ holder = mover)
    (hl : s'.lock = some mover) : s'.Exclusive := by
  intro holder hin
  rcases hi holder hin with hold | rfl
  · cases hfree.symm.trans (h holder hold)
  · exact hl

/-- The party that has the mutex leaves. -/
theorem Exclusive.leave (h : s.Exclusive) {mover : JobHolder} (hm : s.Inside mover)
    (hi : ∀ holder, s'.Inside holder → s.Inside holder ∧ holder ≠ mover) : s'.Exclusive := by
  intro holder hin
  obtain ⟨hold, hne⟩ := hi holder hin
  exact absurd (Option.some.inj ((h holder hold).symm.trans (h mover hm))) hne

/-- **Every move keeps the mutual exclusion.** -/
theorem Exclusive.move (h : s.Exclusive) (hm : s.Move s') : s'.Exclusive := by
  cases hm with
  | forks => exact h.stay (fun _ hin => hin) rfl
  | exits => exact h.stay (fun _ hin => hin) rfl
  | creates =>
      refine h.stay (fun holder hin => ?_) rfl
      rcases inside_setSpawn hin with hold | ⟨-, hl⟩
      · exact hold.1
      · cases hl
  | spawnGoesOn _ hl =>
      refine h.stay (fun holder hin => ?_) rfl
      rcases inside_setSpawn hin with hold | ⟨-, hl'⟩
      · exact hold.1
      · cases hl.symm.trans hl'
  | spawnLocks hp hl =>
      exact h.take hl (fun holder hin => (inside_setSpawn hin).imp And.left And.left) rfl
  | spawnEnters hp =>
      refine h.stay (fun holder hin => ?_) rfl
      rcases inside_setSpawn hin with hold | ⟨rfl, -⟩
      · exact hold.1
      · exact ⟨_, hp, rfl⟩
  | spawnMints hp =>
      refine h.stay (fun holder hin => ?_) rfl
      rcases inside_setSpawn hin with hold | ⟨rfl, -⟩
      · exact hold.1
      · exact ⟨_, hp, rfl⟩
  | spawnAborts hp hl =>
      refine h.leave (inside_spawn hp hl) fun holder hin => ?_
      rcases inside_setSpawn hin with hold | ⟨-, hl'⟩
      · exact hold
      · cases hl'
  | spawnAssigns hp =>
      refine h.stay (fun holder hin => ?_) rfl
      rcases inside_setSpawn hin with hold | ⟨rfl, -⟩
      · exact hold.1
      · exact ⟨_, hp, rfl⟩
  | spawnResumes hp =>
      refine h.stay (fun holder hin => ?_) rfl
      rcases inside_setSpawn hin with hold | ⟨rfl, -⟩
      · exact hold.1
      · exact ⟨_, hp, rfl⟩
  | @spawnInserts p scope hp =>
      refine h.leave (inside_spawn hp rfl) fun holder hin => ?_
      rcases inside_setSpawn hin with ⟨hold, hne⟩ | ⟨-, hl'⟩
      · have hold : (s.setReader p (.new scope)).Inside holder := hold
        rcases inside_setReader hold with hold | ⟨n, c, -, hc, -⟩
        · exact ⟨hold, hne⟩
        · cases hc
      · cases hl'
  | spawnKills =>
      refine h.stay (fun holder hin => ?_) rfl
      rcases inside_setSpawn hin with hold | ⟨-, hl⟩
      · exact hold.1
      · cases hl
  | killGoesOn _ hs =>
      refine h.stay (fun holder hin => ?_) rfl
      rcases inside_setKill hin with hold | ⟨-, hl⟩
      · exact hold.1
      · cases hs.symm.trans hl
  | killFlags _ hl =>
      refine h.take hl (fun holder hin => ?_) rfl
      rcases inside_setKill hin with hold | ⟨heq, -⟩
      · exact .inl (inside_forSlots (f := JobReader.flag) (fun _ => rfl) hold.1)
      · exact .inr heq
  | killTerminates hn =>
      refine h.stay (fun holder hin => ?_) rfl
      rcases inside_setKill hin with hold | ⟨rfl, -⟩
      · exact hold.1
      · exact ⟨_, _, hn, rfl⟩
  | killQueues hn =>
      refine h.leave (inside_kill hn rfl) fun holder hin => ?_
      rcases inside_setKill hin with ⟨hold, hne⟩ | ⟨-, hl'⟩
      · exact ⟨inside_forSlots calls_offer hold, hne⟩
      · exact absurd hl' (by simp [locked_afterKill])
  | killFinds _ hl =>
      exact h.take hl (fun holder hin => (inside_setKill hin).imp And.left And.left) rfl
  | killRemoves hn =>
      refine h.leave (inside_kill hn rfl) fun holder hin => ?_
      rcases inside_setKill hin with hold | ⟨-, hl'⟩
      · exact hold
      · cases hl'
  | signalGoesOn _ hs =>
      refine h.stay (fun holder hin => ?_) rfl
      rcases inside_setSignal hin with hold | ⟨-, hl⟩
      · exact hold.1
      · cases hs.symm.trans hl
  | signalLocks _ hl =>
      exact h.take hl (fun holder hin => (inside_setSignal hin).imp And.left And.left) rfl
  | @signalFlags p n r hn hr =>
      have hcalls : r.flag.calls = r.calls := rfl
      refine h.stay (fun holder hin => ?_) rfl
      rcases inside_setSignal hin with hold | ⟨rfl, -⟩
      · exact inside_of_calls hr hcalls hold.1
      · exact ⟨_, _, hn, rfl⟩
  | signalTerminates hn =>
      refine h.leave (inside_signal hn rfl) fun holder hin => ?_
      rcases inside_setSignal hin with hold | ⟨-, hl'⟩
      · exact hold
      · cases hl'
  | signalFails hn =>
      refine h.leave (inside_signal hn rfl) fun holder hin => ?_
      rcases inside_setSignal hin with hold | ⟨-, hl'⟩
      · exact hold
      · cases hl'
  | works hr _ hs =>
      exact h.stay (fun holder hin => inside_of_calls hr (JobReader.work_frame hs).1 hin) rfl
  | @waitsInside p n r r' a c hl hr ha hs hc =>
      have hentered : s.lock = none ∨ s.Inside (.wait p n) :=
        hl.imp id fun ⟨d, hd, hsec⟩ => ⟨r, d, hr, hd, hsec⟩
      have hmoved : ∀ holder, (s.setReader p r').Inside holder →
          (s.Inside holder ∧ holder ≠ .wait p n) ∨ (holder = .wait p n ∧ c.inSection = true) :=
        fun _ hin => inside_of_call hr ha hs hc hin
      split
      · next hsec =>
          rcases hentered with hfree | hinside
          · exact h.take hfree (fun holder hin => (hmoved holder hin).imp And.left And.left) rfl
          · refine h.stay (fun holder hin => ?_) (h _ hinside).symm
            rcases hmoved holder hin with hold | ⟨rfl, -⟩
            · exact hold.1
            · exact hinside
      · next hsec =>
          have hleft : ∀ holder, (s.setReader p r').Inside holder →
              s.Inside holder ∧ holder ≠ .wait p n := by
            intro holder hin
            rcases hmoved holder hin with hold | ⟨-, hsec'⟩
            · exact hold
            · exact absurd hsec' hsec
          rcases hentered with hfree | hinside
          · exact h.stay (fun holder hin => (hleft holder hin).1) hfree.symm
          · exact h.leave hinside hleft
  | waits hr ha hs hc hsec =>
      refine h.stay (fun holder hin => ?_) rfl
      rcases inside_of_call hr ha hs hc hin with hold | ⟨-, hsec'⟩
      · exact hold.1
      · cases hsec.symm.trans hsec'

end JobState

end Shepherd
