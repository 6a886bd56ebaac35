import Shepherd.Backend.JobReader
import Shepherd.Conc.Containers

/-!
# The Windows Backend

A Job Object holds the processes of a scope. A root is created suspended, assigned to the job of
its scope and resumed, so that none of its instructions runs outside the job; what it forks is in
the job as well, and the job is terminated as a whole. The last handle of a job that is closed
terminates it too. All these calls begin the termination only: a process is active, and has no exit
code, until it has ended.

* `JobState` — the processes and the job handles, the slots of the roots with their workers, the
  mutex over both, and the calls that are under way. A call of `spawn` goes by the index of the
  process that it created.
* `step` — one operation of a call, a worker or a process. The loops of a kill over the slots
  are one step each, as the mutex is held and every slot has a flag and a channel of its own.
* `dispose` — the drop of the last handle of the backend.

What the system calls return is chosen by the environment, but for a native wait, which returns
the exit code of a process that has ended, and for a query of active processes.
-/

namespace Shepherd

open Conc

/-- A Job Object: the scope that it was created for, and a number of its own. -/
structure JobObject where
  scope : ProcessScopeId
  serial : ℕ
  deriving DecidableEq, Repr

/-- Who ended a process. -/
inductive ExitCause where
  /-- The process itself, or somebody else on the machine. -/
  | own
  /-- `TerminateJobObject`. -/
  | job
  /-- `TerminateProcess` in `signal`. -/
  | process
  /-- `start_kill` after a failed setup. -/
  | setup
  /-- The close of the last handle of a job. -/
  | closed
  deriving DecidableEq, Repr

/-- How a process ended. -/
structure JobExit where
  code : UInt32
  cause : ExitCause
  deriving DecidableEq, Repr

/-- Where a call of `spawn` is. -/
inductive JobSpawn where
  /-- Created its process, before the handle is opened. -/
  | created (scope : ProcessScopeId)
  /-- Before the mutex is taken. -/
  | opened (scope : ProcessScopeId)
  /-- With the mutex, before the entry of the scope. -/
  | entering (scope : ProcessScopeId)
  /-- With the mutex, before `AssignProcessToJobObject`. -/
  | assigning (scope : ProcessScopeId)
  /-- With the mutex, before `resume`. -/
  | resuming (scope : ProcessScopeId)
  /-- With the mutex, before the slot is inserted. -/
  | inserting (scope : ProcessScopeId)
  /-- Before the worker is spawned. -/
  | starting
  /-- The setup failed, before `start_kill`. -/
  | failing
  /-- In `child.wait()` after a failed setup. -/
  | reaping
  | returned (ok : Bool)
  | dropped
  deriving DecidableEq, Repr

/-- The operations that kill what is in jobs. -/
inductive KillOp where
  | hardKillAll
  | hardKillScope (scope : ProcessScopeId)
  | signalScope (scope : ProcessScopeId)
  | cleanupScope (scope : ProcessScopeId)
  deriving DecidableEq, Repr

/-- The operation is about the scope. -/
def KillOp.covers : KillOp → ProcessScopeId → Bool
  | .hardKillAll, _ => true
  | .hardKillScope s, scope | .signalScope s, scope | .cleanupScope s, scope => s == scope

/-- Where a kill is. -/
inductive JobKill where
  /-- Before the mutex is taken. -/
  | locking
  /-- With the mutex and the flags set, before `TerminateJobObject`. -/
  | terminating
  /-- With the mutex, before the retry tokens are offered. -/
  | queueing (ok : Bool)
  /-- A cleanup, before one of its polls. -/
  | polling (left : ℕ)
  /-- A cleanup with the mutex that found no active process. -/
  | removing
  | returned (ok : Bool)
  | dropped
  deriving DecidableEq, Repr

/-- Where a call of `signal` with `Signal::Kill` is. -/
inductive JobSignal where
  /-- Before the mutex is taken. -/
  | locking
  /-- With the mutex, before the flag is set. -/
  | flagging
  /-- With the mutex, before `TerminateProcess`. -/
  | terminating
  | returned (ok : Bool)
  deriving DecidableEq, Repr

/-- Who has the mutex. -/
inductive JobHolder where
  | spawn (process : ℕ)
  | kill (call : ℕ)
  | signal (call : ℕ)
  | wait (process call : ℕ)
  deriving DecidableEq, Repr

/-- The stages of a call of `wait` with the mutex. -/
def JobWaitCall.inSection : JobWaitCall → Bool
  | .subscribed | .retrying _ | .closed => true
  | _ => false

/-- A backend and the machine that it runs on. -/
structure JobState where
  procs : OsProcs JobObject JobExit
  jobs : ProcessScopeId → Option JobObject
  minted : ℕ
  readers : ℕ → Option JobReader
  lock : Option JobHolder
  spawns : ℕ → Option JobSpawn
  kills : ℕ → Option (KillOp × JobKill)
  signals : ℕ → Option (ℕ × JobSignal)
  disposed : Bool

/-- What can happen next. -/
inductive JobAction where
  /-- A process forks. -/
  | fork (parent : ℕ)
  /-- A process ends: as it was terminated, or by itself or somebody else. -/
  | exit (process : ℕ) (code : UInt32)
  /-- A call of `spawn` creates its process. -/
  | spawn (scope : ProcessScopeId)
  /-- A call of `spawn` takes its next step. -/
  | setup (process : ℕ) (ok : Bool)
  /-- A call of `spawn` is dropped at its await. -/
  | dropSpawn (process : ℕ)
  | kill (call : ℕ) (op : KillOp)
  /-- A kill takes its next step; the system calls for these scopes fail. -/
  | runKill (call : ℕ) (failed : List ProcessScopeId)
  /-- A cleanup is dropped between two polls. -/
  | dropKill (call : ℕ)
  | signal (call process : ℕ)
  | runSignal (call : ℕ) (ok : Bool)
  /-- A worker takes its next step; the argument is the result of a native wait. -/
  | work (process : ℕ) (status : Except String UInt32)
  | startWait (process call : ℕ)
  | runWait (process call : ℕ)
  /-- A call of `wait` is dropped at an await. -/
  | dropWait (process call : ℕ)
  deriving DecidableEq

namespace JobAction

/-- The action is one of a handle of the backend. -/
def usesBackend : JobAction → Bool
  | .fork _ | .exit _ _ | .work _ _ => false
  | _ => true

end JobAction

namespace JobState

/-- A new backend. -/
def new : JobState where
  procs := []
  jobs := fun _ => none
  minted := 0
  readers := fun _ => none
  lock := none
  spawns := fun _ => none
  kills := fun _ => none
  signals := fun _ => none
  disposed := false

/-- The handle of the job is in the registry. -/
def Held (s : JobState) (job : JobObject) : Prop :=
  s.jobs job.scope = some job

instance (s : JobState) : DecidablePred s.Held :=
  fun job => inferInstanceAs (Decidable (s.jobs job.scope = some job))

def setSpawn (s : JobState) (p : ℕ) (stage : JobSpawn) : JobState :=
  { s with spawns := Function.update s.spawns p (some stage) }

def setKill (s : JobState) (n : ℕ) (op : KillOp) (stage : JobKill) : JobState :=
  { s with kills := Function.update s.kills n (some (op, stage)) }

def setSignal (s : JobState) (n p : ℕ) (stage : JobSignal) : JobState :=
  { s with signals := Function.update s.signals n (some (p, stage)) }

def setReader (s : JobState) (p : ℕ) (r : JobReader) : JobState :=
  { s with readers := Function.update s.readers p (some r) }

/-- The mutex is taken. -/
def take (s : JobState) (holder : JobHolder) : JobState :=
  { s with lock := some holder }

/-- The mutex is given back. -/
def release (s : JobState) : JobState :=
  { s with lock := none }

/-- What a loop over the slots in `state.children` does to a root. -/
def visit (op : KillOp) (f : JobReader → JobReader) (r : JobReader) : JobReader :=
  if r.registered && op.covers r.scope then f r else r

/-- A loop over the slots of the scopes of a kill. -/
def forSlots (s : JobState) (op : KillOp) (f : JobReader → JobReader) : JobState :=
  { s with readers := fun p => (s.readers p).map (visit op f) }

/-- The send of a token into a retry channel that may be closed. -/
def offer (r : JobReader) : JobReader :=
  if r.worker = .stopped then r else r.trySend

/-- The setup failed: the guard of the mutex is dropped. -/
def abort (s : JobState) (p : ℕ) : JobState :=
  s.release.setSpawn p .failing

/-- The next step of a call of `spawn`. -/
def runSpawn (s : JobState) (p : ℕ) (ok : Bool) : JobSpawn → Option JobState
  | .created scope => some (s.setSpawn p (if ok then .opened scope else .failing))
  | .opened scope =>
      if s.lock.isNone then some ((s.take (.spawn p)).setSpawn p (.entering scope)) else none
  | .entering scope =>
      if (s.jobs scope).isSome then some (s.setSpawn p (.assigning scope))
      else if ok then
        some ({ s with
          jobs := Function.update s.jobs scope (some ⟨scope, s.minted⟩)
          minted := s.minted + 1 }.setSpawn p (.assigning scope))
      else some (s.abort p)
  | .assigning scope =>
      (s.jobs scope).map fun job =>
        if ok then { s with procs := s.procs.assign p job }.setSpawn p (.resuming scope)
        else s.abort p
  | .resuming scope =>
      if ok then some ({ s with procs := s.procs.resume p }.setSpawn p (.inserting scope))
      else some (s.abort p)
  | .inserting scope =>
      some ((s.setReader p (.new scope)).release.setSpawn p .starting)
  | .starting => some (s.setSpawn p (.returned true))
  | .failing =>
      some ({ s with
        procs := if ok then s.procs.doom p ⟨1, .setup⟩ else s.procs }.setSpawn p .reaping)
  | .reaping =>
      -- a wait that fails is over, too
      if !ok || s.procs[p]?.any (fun x => !x.phase.isLive) then
        some (s.setSpawn p (.returned false))
      else none
  | .returned _ | .dropped => none

/-- The jobs that a kill terminates: those of its scopes, but for the failed ones. -/
def victim (s : JobState) (op : KillOp) (failed : List ProcessScopeId) (job : JobObject) : Bool :=
  decide (s.Held job) && op.covers job.scope && !failed.contains job.scope

/-- No job of the kill was spared. -/
def killed (s : JobState) (op : KillOp) (failed : List ProcessScopeId) : Bool :=
  failed.all fun scope => !op.covers scope || (s.jobs scope).isNone

/-- What follows when the tokens were offered. -/
def afterKill (ok : Bool) : KillOp → JobKill
  | .hardKillAll | .hardKillScope _ => .returned true
  | .signalScope _ => .returned ok
  | .cleanupScope _ => if ok then .polling 500 else .returned false

/-- One poll of a cleanup: the count of active processes is read with the mutex. -/
def poll (s : JobState) (n : ℕ) (op : KillOp) (scope : ProcessScopeId)
    (failed : List ProcessScopeId) : ℕ → Option JobState
  | 0 => some (s.setKill n op (.returned false))
  | left + 1 =>
      if s.lock.isNone then
        match s.jobs scope with
        | none => some (s.setKill n op (.returned true))
        | some job =>
            if failed.contains scope then some (s.setKill n op (.returned false))
            else if s.procs.active (· == job) = 0 then
              some ((s.take (.kill n)).setKill n op .removing)
            else some (s.setKill n op (.polling left))
      else none

/-- The handle of the job of a scope is dropped, and with it the job. -/
def closeJob (s : JobState) (scope : ProcessScopeId) : JobState :=
  { s with
    jobs := Function.update s.jobs scope none
    procs := s.procs.terminate (fun job => s.jobs scope = some job) ⟨0, .closed⟩ }

/-- The next step of a kill. -/
def runKill (s : JobState) (n : ℕ) (failed : List ProcessScopeId) (op : KillOp) :
    JobKill → Option JobState
  | .locking =>
      if s.lock.isNone then
        some (((s.take (.kill n)).forSlots op .flag).setKill n op .terminating)
      else none
  | .terminating =>
      some ({ s with procs := s.procs.terminate (s.victim op failed) ⟨KILLED, .job⟩ }.setKill n op
        (.queueing (s.killed op failed)))
  | .queueing ok => some ((s.forSlots op offer).release.setKill n op (afterKill ok op))
  | .polling left =>
      match op with
      | .cleanupScope scope => s.poll n op scope failed left
      | _ => none
  | .removing =>
      match op with
      | .cleanupScope scope => some ((s.closeJob scope).release.setKill n op (.returned true))
      | _ => none
  | .returned _ | .dropped => none

/-- `GetExitCodeProcess`. -/
def exitCode (x : OsProc JobObject JobExit) : UInt32 :=
  match x.phase with
  | .ended e => e.code
  | _ => STILL_ACTIVE

/-- The next step of a call of `signal`. -/
def runSignal (s : JobState) (n p : ℕ) (ok : Bool) : JobSignal → Option JobState
  | .locking =>
      if s.lock.isNone then
        if (s.readers p).any JobReader.registered then
          if !ok then some (s.setSignal n p (.returned false))
          else if s.procs[p]?.any (fun x => exitCode x == STILL_ACTIVE) then
            some ((s.take (.signal n)).setSignal n p .flagging)
          else some (s.setSignal n p (.returned true))
        else some (s.setSignal n p (.returned true))
      else none
  | .flagging =>
      (s.readers p).map fun r => (s.setReader p r.flag).setSignal n p .terminating
  | .terminating =>
      -- a process that has ended cannot be terminated
      if ok && s.procs[p]?.any (fun x => x.phase.isLive) then
        some ({ s with procs := s.procs.doom p ⟨KILLED, .process⟩ }.release.setSignal n p
          (.returned true))
      else some (s.release.setSignal n p (.returned false))
  | .returned _ => none

/-- A native wait returns the exit code of a process that has ended, or an error; a worker is
spawned when the setup is complete. -/
def Allows (s : JobState) (p : ℕ) (status : Except String UInt32) (w : JobWorker) : Prop :=
  (w = .idle → s.spawns p = some (.returned true)) ∧
    (w = .waiting → ∀ code, status = .ok code →
      s.procs[p]?.any (fun x => !x.phase.isLive && exitCode x == code) = true)

instance (s : JobState) (p : ℕ) (status : Except String UInt32) (w : JobWorker) :
    Decidable (s.Allows p status w) :=
  match status with
  | .ok code =>
      decidable_of_iff ((w = .idle → s.spawns p = some (.returned true)) ∧
        (w = .waiting → s.procs[p]?.any (fun x => !x.phase.isLive && exitCode x == code) = true))
        (by simp [Allows])
  | .error _ =>
      decidable_of_iff (w = .idle → s.spawns p = some (.returned true)) (by simp [Allows])

/-- The mutex after a step of a call of `wait`. -/
def afterWait (s : JobState) (p n : ℕ) (r : JobReader) : JobState :=
  match r.calls n with
  | some c => if c.inSection then s.take (.wait p n) else s.release
  | none => s

/-- The next step of a call of `wait`. -/
def runWait (s : JobState) (p n : ℕ) (r : JobReader) (c : JobWaitCall) : Option JobState :=
  match c with
  | .removing _ => if s.lock.isNone then (r.step (.run n)).map (s.setReader p) else none
  | c =>
      (r.step (.run n)).map fun r' =>
        if c.inSection then (s.setReader p r').afterWait p n r' else s.setReader p r'

/-- One step, of a backend that was not disposed of. -/
def act (s : JobState) : JobAction → Option JobState
  | .fork parent => (s.procs.fork parent).map fun procs => { s with procs }
  | .exit p code => some { s with procs := s.procs.finish p ⟨code, .own⟩ }
  | .spawn scope =>
      some ({ s with procs := s.procs.create }.setSpawn s.procs.length (.created scope))
  | .setup p ok => (s.spawns p).bind (s.runSpawn p ok)
  | .dropSpawn p =>
      if s.spawns p = some .reaping then some (s.setSpawn p .dropped) else none
  | .kill n op => if (s.kills n).isNone then some (s.setKill n op .locking) else none
  | .runKill n failed => (s.kills n).bind fun call => s.runKill n failed call.1 call.2
  | .dropKill n =>
      match s.kills n with
      | some (op, .polling _) => some (s.setKill n op .dropped)
      | _ => none
  | .signal n p => if (s.signals n).isNone then some (s.setSignal n p .locking) else none
  | .runSignal n ok => (s.signals n).bind fun call => s.runSignal n call.1 ok call.2
  | .work p status =>
      (s.readers p).bind fun r =>
        if s.Allows p status r.worker then (r.step (.work status)).map (s.setReader p) else none
  | .startWait p n =>
      if s.lock.isNone then
        (s.readers p).bind fun r =>
          (r.step (.start n)).map fun r' => (s.setReader p r').afterWait p n r'
      else none
  | .runWait p n =>
      (s.readers p).bind fun r => (r.calls n).bind fun c => s.runWait p n r c
  | .dropWait p n =>
      (s.readers p).bind fun r => (r.step (.drop n)).map (s.setReader p)

/-- One step. -/
def step (s : JobState) (a : JobAction) : Option JobState :=
  if s.disposed && a.usesBackend then none else s.act a

/-- The slots are dropped, and with them the senders of the retry channels. -/
def dropSlot (r : JobReader) : JobReader :=
  { r with registered := false }

/-- The last handle of the backend is dropped; a call that is under way has one. What is in a job
ends with a code that Windows does not promise. -/
def dispose (s : JobState) (code : UInt32) : JobState :=
  { s with
    procs := s.procs.terminate (fun job => decide (s.Held job)) ⟨code, .closed⟩
    jobs := fun _ => none
    readers := fun p => (s.readers p).map dropSlot
    disposed := true }

end JobState

end Shepherd
