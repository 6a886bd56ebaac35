import Shepherd.Conc.Numbers
import Shepherd.Conc.Steps
import Shepherd.Domain.Types
import Mathlib.Data.List.AList

/-!
# Signals to Roots

A root is signalled through its pidfd, if it has one, and else by its number, after the start time
of whoever has the number was compared with the one that was read when the root was spawned.
`signal` looks for the slot of the root, looks again with the mutex, and goes on without it where
there is no pidfd; `hard_kill_scope` and `hard_kill_all` have the mutex while they go through the
slots. Neither keeps a root from being reaped meanwhile, by its worker or by somebody else, or its
number from being used again.

A step is one critical section or one system call; `ok` is what the system says to it. `root` is
the process that a call or a slot is about; it is not in the code. Who was signalled for whom is in
the log.
-/

namespace Shepherd

open Conc

/-- The key of a slot in `children`. -/
abbrev ChildKey :=
  ℕ × ℕ

/-- `child_key`. -/
def childKey (os : OsIdentity) : ChildKey :=
  match os.reuseToken with
  | .startTime t => (os.pid, t)
  | .unavailable => (os.pid, 0)

/-- A slot of `children`, as far as signals are concerned. -/
structure RootSlot where
  scope : ProcessScopeId
  root : ℕ
  pidfd : Option ℕ
  deriving DecidableEq, Repr

/-- Where a call of `spawn` is that has forked its program. -/
inductive RootSpawn where
  /-- Before `read_start_time`. -/
  | forked
  /-- Before `open_pidfd`. -/
  | identified (os : OsIdentity)
  /-- Before `register_child`, or the kill of a child whose pipes cannot be converted. -/
  | opened (os : OsIdentity) (pidfd : Option ℕ)
  | registered (os : OsIdentity) (pidfd : Option ℕ)
  | failed
  deriving DecidableEq, Repr

/-- The root is not registered yet. -/
def RootSpawn.isSetup : RootSpawn → Bool
  | .forked | .identified _ | .opened _ _ => true
  | .registered _ _ | .failed => false

/-- Where a call of `signal` is. -/
inductive RootSignal where
  /-- Before the slot is looked for. -/
  | looking
  /-- Before the mutex is taken again. -/
  | locking
  /-- Before `identity_still_matches`. -/
  | identifying
  /-- Before `kill`. -/
  | killing
  | returned (ok : Bool)
  deriving DecidableEq, Repr

/-- Where a hard kill is in `kill_registered_roots`. -/
inductive HardKill where
  /-- With the slots that are left. -/
  | sweeping (todo : List ChildKey)
  /-- Before `kill`, with the start time as it was. -/
  | killing (root : ℕ) (key : ChildKey) (todo : List ChildKey)
  | returned
  deriving DecidableEq, Repr

/-- The root that is about to be killed by its number. -/
def HardKill.aim : HardKill → Option ℕ
  | .killing root _ _ => some root
  | _ => none

/-- Who sends a signal. -/
inductive SignalCaller where
  | spawn (call : ℕ)
  | signal (call : ℕ)
  | hardKill (call : ℕ)
  deriving DecidableEq, Repr

/-- What the log records. -/
inductive SignalEvent where
  /-- A signal for the root was sent to the process. -/
  | hit (caller : SignalCaller) (root process : ℕ)
  /-- The number of the root was signalled, whoever has it. -/
  | numeric (caller : SignalCaller) (root : ℕ)
  /-- The start time of the number of the root could not be read. -/
  | unread (caller : SignalCaller) (root : ℕ)
  /-- The system refused a signal for the root. -/
  | refused (caller : SignalCaller) (root : ℕ)
  deriving DecidableEq, Repr

/-- The roots of a backend, and the processes of the machine. -/
structure SignalState where
  procs : NumberTable
  children : AList fun _ : ChildKey => RootSlot
  /-- The hard kill that has the mutex. -/
  lock : Option ℕ
  spawns : List (ProcessScopeId × ℕ × RootSpawn)
  signals : List (ℕ × OsIdentity × RootSignal)
  kills : List (Option ProcessScopeId × HardKill)
  log : List SignalEvent

/-- What can happen next. -/
inductive SignalAction where
  /-- Some process is created. -/
  | create (number start : ℕ)
  | finish (process : ℕ)
  | reap (process : ℕ)
  /-- A call of `spawn` forks its program. -/
  | spawn (scope : ProcessScopeId) (number start : ℕ)
  /-- A call of `spawn` takes its next step. -/
  | runSpawn (call : ℕ) (ok : Bool)
  /-- A call of `wait` for a root that was reaped removes its slot. -/
  | forget (call : ℕ)
  /-- A signal to what a call of `spawn` has returned. -/
  | signal (spawn : ℕ)
  | runSignal (call : ℕ) (ok : Bool)
  /-- A hard kill takes the mutex; the slots come in this order. -/
  | hardKill (scope : Option ProcessScopeId) (order : List ChildKey)
  | runKill (call : ℕ) (ok : Bool)
  deriving DecidableEq

namespace SignalState

/-- A new backend, on a machine that has no process yet. -/
def new : SignalState where
  procs := []
  children := ∅
  lock := none
  spawns := []
  signals := []
  kills := []
  log := []

/-- `read_start_time`. -/
def readStartTime (s : SignalState) (number : ℕ) (ok : Bool) : Option ℕ :=
  if ok then s.procs.startOf number else none

/-- A signal for the root is sent to a process, if there is one. -/
def send (s : SignalState) (caller : SignalCaller) (root : ℕ) (process : Option ℕ) : SignalState :=
  { s with log := (process.map (SignalEvent.hit caller root)).toList ++ s.log }

/-- `kill`: a signal for the root is sent to who has the number. -/
def kill (s : SignalState) (caller : SignalCaller) (root number : ℕ) : SignalState :=
  { s with log := .numeric caller root :: (s.send caller root (s.procs.holder number)).log }

/-- The process of a pidfd, until it is reaped. -/
def ofPidfd (s : SignalState) (p : ℕ) : Option ℕ :=
  if s.procs.isReaped p then none else some p

/-- A slot that a hard kill of the scope, or of all scopes, is about. -/
def isKilled (scope : Option ProcessScopeId) (slot : RootSlot) : Bool :=
  scope.all (· = slot.scope)

def setSpawn (s : SignalState) (n : ℕ) (c : ProcessScopeId) (root : ℕ) (call : RootSpawn) :
    SignalState :=
  { s with spawns := s.spawns.set n (c, root, call) }

def setSignal (s : SignalState) (n root : ℕ) (os : OsIdentity) (call : RootSignal) : SignalState :=
  { s with signals := s.signals.set n (root, os, call) }

def setKill (s : SignalState) (n : ℕ) (scope : Option ProcessScopeId) (call : HardKill) :
    SignalState :=
  { s with kills := s.kills.set n (scope, call) }

/-- The next step of a call of `spawn`. -/
def runSpawn (s : SignalState) (n : ℕ) (ok : Bool) (c : ProcessScopeId) (root : ℕ) :
    RootSpawn → Option SignalState
  | .forked =>
      s.procs[root]?.map fun x =>
        let token := match s.readStartTime x.number ok with
          | some t => .startTime t
          | none => .unavailable
        s.setSpawn n c root (.identified ⟨x.number, token⟩)
  | .identified os =>
      some (s.setSpawn n c root (.opened os (if ok then s.procs.holder os.pid else none)))
  | .opened os pidfd =>
      if ok then
        if s.lock.isNone then
          some ({ s with children := s.children.insert (childKey os) ⟨c, root, pidfd⟩ }.setSpawn n
            c root (.registered os pidfd))
        else none
      else some ((s.kill (.spawn n) root os.pid).setSpawn n c root .failed)
  | .registered _ _ | .failed => none

/-- The next step of a call of `signal`. -/
def runSignal (s : SignalState) (n : ℕ) (ok : Bool) (root : ℕ) (os : OsIdentity) :
    RootSignal → Option SignalState
  | .looking =>
      if s.lock.isNone then
        if (s.children.lookup (childKey os)).isSome then some (s.setSignal n root os .locking)
        else some (s.setSignal n root os (.returned true))
      else none
  | .locking =>
      if s.lock.isNone then
        match (s.children.lookup (childKey os)).bind RootSlot.pidfd with
        | some p =>
            if ok then
              some ((s.send (.signal n) root (s.ofPidfd p)).setSignal n root os (.returned true))
            else some (s.setSignal n root os (.returned false))
        | none => some (s.setSignal n root os .identifying)
      else none
  | .identifying =>
      match os.reuseToken with
      | .unavailable => some (s.setSignal n root os (.returned false))
      | .startTime t =>
          if !ok then
            some ({ s with log := .unread (.signal n) root :: s.log }.setSignal n root os
              (.returned true))
          else if s.readStartTime os.pid ok = some t then some (s.setSignal n root os .killing)
          else some (s.setSignal n root os (.returned true))
  | .killing =>
      if ok then
        some ((s.kill (.signal n) root os.pid).setSignal n root os (.returned true))
      else some (s.setSignal n root os (.returned false))
  | .returned _ => none

/-- The next step of a hard kill. -/
def runKill (s : SignalState) (n : ℕ) (ok : Bool) (scope : Option ProcessScopeId) :
    HardKill → Option SignalState
  | .sweeping [] => some ({ s with lock := none }.setKill n scope .returned)
  | .sweeping (key :: todo) =>
      match s.children.lookup key with
      | none => some (s.setKill n scope (.sweeping todo))
      | some slot =>
          match slot.pidfd with
          | some p =>
              if ok then
                some ((s.send (.hardKill n) slot.root (s.ofPidfd p)).setKill n scope
                  (.sweeping todo))
              else
                some ({ s with log := .refused (.hardKill n) slot.root :: s.log }.setKill n scope
                  (.sweeping todo))
          | none =>
              if key.2 = 0 then some (s.setKill n scope (.sweeping todo))
              else if !ok then
                some ({ s with log := .unread (.hardKill n) slot.root :: s.log }.setKill n scope
                  (.sweeping todo))
              else if s.readStartTime key.1 ok = some key.2 then
                some (s.setKill n scope (.killing slot.root key todo))
              else some (s.setKill n scope (.sweeping todo))
  | .killing root key todo =>
      if ok then
        some ((s.kill (.hardKill n) root key.1).setKill n scope (.sweeping todo))
      else
        some ({ s with log := .refused (.hardKill n) root :: s.log }.setKill n scope
          (.sweeping todo))
  | .returned => none

/-- One step. A process starts some time after the machine. -/
def step (s : SignalState) : SignalAction → Option SignalState
  | .create number start =>
      if start = 0 then none else (s.procs.create number start).map fun procs => { s with procs }
  | .finish p => some { s with procs := s.procs.finish p }
  | .reap p => (s.procs.reap p).map fun procs => { s with procs }
  | .spawn c number start =>
      if start = 0 then none
      else (s.procs.create number start).map fun procs =>
        { s with procs, spawns := s.spawns ++ [(c, s.procs.length, .forked)] }
  | .runSpawn n ok => s.spawns[n]?.bind fun (c, root, call) => s.runSpawn n ok c root call
  | .forget n =>
      match s.spawns[n]? with
      | some (_, root, .registered os _) =>
          if s.procs.isReaped root && s.lock.isNone then
            some { s with children := s.children.erase (childKey os) }
          else none
      | _ => none
  | .signal n =>
      match s.spawns[n]? with
      | some (_, root, .registered os _) =>
          some { s with signals := s.signals ++ [(root, os, .looking)] }
      | _ => none
  | .runSignal n ok => s.signals[n]?.bind fun (root, os, call) => s.runSignal n ok root os call
  | .hardKill scope order =>
      if s.lock.isNone && order.isPerm (s.children.keys.filter fun key =>
          (s.children.lookup key).any (isKilled scope)) then
        some { s with
          lock := some s.kills.length, kills := s.kills ++ [(scope, .sweeping order)] }
      else none
  | .runKill n ok => s.kills[n]?.bind fun (scope, call) => s.runKill n ok scope call

/-! ### Bad times -/

/-- The process is a root that is set up, or about to be signalled by its number. -/
def isExposed (s : SignalState) (p : ℕ) : Bool :=
  s.spawns.any (fun (_, root, call) => root = p && call.isSetup) ||
    s.signals.any (fun (root, _, call) => root = p && call = .killing) ||
    s.kills.any fun (_, call) => call.aim = some p

/-- The step reaps no such process, and gives no process the number and the start time of an
earlier one. -/
def isTimely (s : SignalState) : SignalAction → Bool
  | .reap p => !s.isExposed p
  | .create number start | .spawn _ number start => s.procs.isFresh number start
  | _ => true

end SignalState

end Shepherd
