import Shepherd.Conc.Chronicle
import Shepherd.Domain.Types
import Shepherd.Kept.Gate

/-!
# Watching a Kept Process

One process at one number, and everything that looks at it there. A **registration** is a
`Watched`; `attach` finds the one in the registry, or checks the process and makes one. The
calls are the end of a launch, `attach`, and the `signal` and `exited` of a target; a watcher
task notices the exit, reaps a child, sweeps its group and publishes the exit. A watcher can be
dropped before it is polled first, and at its awaits.

A step is one access to something shared: the registry, a flag, the lock of `ended`, the
process. The holder of the lock keeps it across its steps. What the operating system says is
an argument of the action, limited by what it can say of a process that runs, of one that has
exited, and of a number that is free or used again.

`log` is history, newest first: what happened, with the number of the call or the watcher.
-/

namespace Shepherd

open Conc

/-- Who has to reap the process. -/
inductive KeptOwner where
  | child
  | foreign
  deriving DecidableEq, Repr

/-- How a kept process ended. -/
structure KeptExit where
  code : Option Int
  signal : Option Signal
  stragglers : Bool
  deriving DecidableEq, Repr

/-- `KeptExit::default`. -/
def KeptExit.default : KeptExit := ⟨none, none, false⟩

/-- The process at the number. -/
inductive LeaderPhase where
  | running
  | zombie
  /-- Reaped: the number is free, or somebody else's. -/
  | gone
  deriving DecidableEq, Repr

/-- A registration, by number. -/
abbrev RegId := ℕ

/-- Who holds the lock of `ended`. -/
inductive LockHolder where
  | watcher (w : ℕ)
  | call (n : ℕ)
  deriving DecidableEq, Repr

/-- A `Watched`. -/
structure Registration where
  owner : KeptOwner
  /-- A pidfd was opened for it. -/
  pidfd : Bool
  launching : Bool
  started : Bool
  holder : Option LockHolder
  ended : Option KeptExit
  exit : Option KeptExit
  deriving DecidableEq, Repr

/-- `Watched::new`. -/
def Registration.new (owner : KeptOwner) (pidfd : Bool) : Registration where
  owner := owner
  pidfd := pidfd
  launching := false
  started := false
  holder := none
  ended := none
  exit := none

/-- Where a watcher task is. -/
inductive WatcherAt where
  /-- Spawned, and never polled. -/
  | unpolled
  /-- In `wait_for_exit`. -/
  | waiting
  /-- Before the lock of `finish`. -/
  | finishing
  /-- With the lock: before the group is killed, and before the leader is reaped. -/
  | killing
  | reaping (pinned : Bool)
  /-- `group_empties`: before the group is killed, before it is listed, asleep. -/
  | sweeping (exit : KeptExit)
  | listing (exit : KeptExit)
  | pausing (exit : KeptExit)
  /-- An unpinned group: before the number is probed, and before the group is listed. -/
  | probing (exit : KeptExit)
  | membering (exit : KeptExit)
  | publishing (exit : KeptExit)
  /-- Before the entry of the registry is removed. -/
  | forgetting
  /-- `Rearm::drop`: before the exit is looked at, and before `started` is cleared. -/
  | rearming
  | resetting
  deriving DecidableEq, Repr

/-- A watcher task. -/
structure WatcherTask where
  reg : RegId
  point : WatcherAt
  deriving DecidableEq, Repr

/-- Where a `signal` is. -/
inductive SignalAt where
  | locking
  /-- With the lock: before `confirmed_alive`, `killpg` and `kill`. -/
  | confirming
  | groupKilling
  | killing
  deriving DecidableEq, Repr

/-- Where a call is. -/
inductive KeptCall where
  /-- `gated_spawn` has succeeded: before `launching` is cleared, and in `watch`. -/
  | clearing (reg : RegId)
  | launched (reg : RegId) (call : WatchCall)
  /-- `attach`: before the registry is looked up. -/
  | looking
  /-- Before `ended` is looked at. -/
  | found (reg : RegId)
  /-- Before the identity of the process is checked, its parent, and whether it is a zombie. -/
  | observing
  | parenting
  | zombieing (ours : Bool)
  /-- It is a zombie of ours: before its group is killed, and before it is reaped. -/
  | killing
  | reaping
  | registering (owner : KeptOwner)
  | attaching (reg : RegId) (call : WatchCall)
  | signalling (reg : RegId) (point : SignalAt)
  /-- `exited`: in `watch`, and in `wait_for`. -/
  | rewatching (reg : RegId) (call : WatchCall)
  | awaiting (reg : RegId)
  | returned
  deriving DecidableEq, Repr

/-- Where a signal to the number or its group is sent. -/
inductive SignalSource where
  /-- `attach`, which reaps a zombie itself. -/
  | attach
  /-- `finish`, before the leader is reaped. -/
  | finish (reg : RegId)
  /-- `group_empties`. -/
  | sweep (reg : RegId)
  /-- The `signal` of a target. -/
  | target (reg : RegId)
  deriving DecidableEq, Repr

/-- Where the leader is reaped. -/
inductive LeaderReaper where
  | attach
  | watcher (reg : RegId)
  deriving DecidableEq, Repr

/-- What the history records of the calls and the watchers. -/
inductive WatchEvent where
  /-- A signal was sent, with how the leader was. -/
  | sent (source : SignalSource) (leader : LeaderPhase)
  /-- `waitpid` returned the leader. -/
  | reaped (reaper : LeaderReaper)
  /-- An `attach` found no registration, found the recorded instance at the number, made a
  registration; `late` says that the leader was reaped before. -/
  | unfound
  | identified
  | registered (reg : RegId) (owner : KeptOwner) (late : Bool)
  /-- `attach` returned, or failed. -/
  | attached (result : Option RegId)
  | attachFailed
  /-- A watcher set `ended`; it saw no group, or only zombies in it; it published. -/
  | ended (reg : RegId)
  | emptied (reg : RegId)
  | published (reg : RegId) (exit : KeptExit)
  /-- A watcher was dropped before its first poll, or at an await. -/
  | lost (reg : RegId)
  | dropped (reg : RegId)
  /-- `exited` returned. -/
  | exited (reg : RegId) (exit : KeptExit)
  deriving DecidableEq, Repr

/-- What the operating system answers: yes or no, whether time is up or nothing could be
read, and what `waitpid` says. -/
structure WatchAnswer where
  yes : Bool
  other : Bool
  code : Option Int
  signal : Option Signal
  deriving DecidableEq, Repr

/-- The calls anybody can start. -/
inductive KeptRequest where
  | attach
  | signal (reg : RegId)
  | exited (reg : RegId)
  deriving DecidableEq, Repr

/-- What happens next. -/
inductive WatchAction where
  /-- The process exits. -/
  | exits
  /-- Its parent, who is somebody else, reaps it. -/
  | parentReaps
  | start (n : ℕ) (request : KeptRequest)
  | call (n : ℕ) (answer : WatchAnswer)
  | watcher (w : ℕ) (answer : WatchAnswer)
  | drop (w : ℕ)
  deriving DecidableEq, Repr

/-- The process, and all that looks at it. -/
structure WatchState where
  /-- It is a child of this process. -/
  ours : Bool
  leader : LeaderPhase
  registry : Option RegId
  regs : RegId → Option Registration
  nextReg : RegId
  watchers : ℕ → Option WatcherTask
  nextWatcher : ℕ
  calls : ℕ → Option KeptCall
  log : List (Tid × WatchEvent)

namespace WatchState

/-- A process that is not registered: inherited across `execve`, or somebody else's. -/
def unregistered (ours : Bool) : WatchState where
  ours := ours
  leader := .running
  registry := none
  regs := fun _ => none
  nextReg := 0
  watchers := fun _ => none
  nextWatcher := 0
  calls := fun _ => none
  log := []

/-- A process that `gated_spawn` has launched and registered. -/
def launched : WatchState where
  ours := true
  leader := .running
  registry := some 0
  regs := Function.update (fun _ => none) 0 (some { Registration.new .child true with
    launching := true })
  nextReg := 1
  watchers := fun _ => none
  nextWatcher := 0
  calls := Function.update (fun _ => none) 0 (some (.clearing 0))
  log := []

def record (s : WatchState) (t : Tid) (ev : WatchEvent) : WatchState :=
  { s with log := (t, ev) :: s.log }

def setReg (s : WatchState) (id : RegId) (g : Registration) : WatchState :=
  { s with regs := Function.update s.regs id (some g) }

def setTask (s : WatchState) (w : ℕ) (t : Option WatcherTask) : WatchState :=
  { s with watchers := Function.update s.watchers w t }

def setCall (s : WatchState) (n : ℕ) (call : KeptCall) : WatchState :=
  { s with calls := Function.update s.calls n (some call) }

/-- The watcher goes on. -/
def goto (s : WatchState) (w : ℕ) (id : RegId) (point : WatcherAt) : WatchState :=
  s.setTask w (some ⟨id, point⟩)

section Fields

variable (s : WatchState) {id id' : RegId} {g : Registration} {w w' : ℕ} {t : Option WatcherTask}
  {point : WatcherAt} {n n' : ℕ} {c : KeptCall}

/-- The registration that is set. -/
@[simp] theorem regs_setReg_self : (s.setReg id g).regs id = some g :=
  Function.update_self _ _ _

/-- The other registrations stay as they are. -/
theorem regs_setReg_of_ne (h : id' ≠ id) : (s.setReg id g).regs id' = s.regs id' :=
  Function.update_of_ne h _ _

/-- The watcher that is set. -/
@[simp] theorem watchers_setTask_self : (s.setTask w t).watchers w = t :=
  Function.update_self _ _ _

/-- The other watchers stay as they are. -/
theorem watchers_setTask_of_ne (h : w' ≠ w) : (s.setTask w t).watchers w' = s.watchers w' :=
  Function.update_of_ne h _ _

/-- A watcher that goes on is where it goes. -/
@[simp] theorem watchers_goto_self : (s.goto w id point).watchers w = some ⟨id, point⟩ :=
  Function.update_self _ _ _

/-- The other watchers stay where they are. -/
theorem watchers_goto_of_ne (h : w' ≠ w) : (s.goto w id point).watchers w' = s.watchers w' :=
  Function.update_of_ne h _ _

/-- The call that is set. -/
@[simp] theorem calls_setCall_self : (s.setCall n c).calls n = some c :=
  Function.update_self _ _ _

/-- The other calls stay as they are. -/
theorem calls_setCall_of_ne (h : n' ≠ n) : (s.setCall n c).calls n' = s.calls n' :=
  Function.update_of_ne h _ _

end Fields

/-- `tokio::spawn` of a watcher. -/
def spawn (s : WatchState) (id : RegId) : WatchState :=
  { s.setTask s.nextWatcher (some ⟨id, .unpolled⟩) with nextWatcher := s.nextWatcher + 1 }

/-- A step of `watch`; `none` when it has returned. The task is spawned in the step that sets
`started`: nobody can tell the moments apart. -/
def watch (s : WatchState) (id : RegId) (g : Registration) :
    WatchCall → WatchState × Option WatchCall
  | .loading => (s, if g.launching then none else some .exiting)
  | .exiting => (s, if g.exit.isSome then none else some .swapping)
  | .swapping => (if g.started then s else (s.setReg id { g with started := true }).spawn id, none)

/-- A registration is put into the registry. -/
def register (s : WatchState) (n : ℕ) (g : Registration) : WatchState :=
  let late := s.leader == LeaderPhase.gone
  { (s.record n (.registered s.nextReg g.owner late)).setReg s.nextReg g with
    registry := some s.nextReg
    nextReg := s.nextReg + 1 }

/-! ### What the operating system can say -/

/-- The number has the recorded identity only as long as the process is not reaped. -/
def canIdentify (s : WatchState) (yes : Bool) : Bool :=
  !yes || s.leader != .gone

/-- The parent of the process does not change while it is not reaped. -/
def canParent (s : WatchState) (yes : Bool) : Bool :=
  !yes || s.leader == .gone || s.ours

/-- A running process is no zombie. -/
def canZombie (s : WatchState) (yes : Bool) : Bool :=
  !yes || s.leader != .running

/-- `ESRCH` for the number. -/
def canBeFree (s : WatchState) (yes : Bool) : Bool :=
  !yes || s.leader == .gone

/-- `reap`: it blocks while a child runs, and it gets the leader if that is an exited child.
Otherwise it fails, or gets somebody else who has the number now. -/
def reap (s : WatchState) (t : Tid) (reaper : LeaderReaper) (answer : WatchAnswer) :
    Option (WatchState × KeptExit) :=
  let exit : KeptExit := ⟨answer.code, answer.signal, false⟩
  if s.ours && s.leader == .running then none
  else if s.ours && s.leader == .zombie then
    some ({ s with leader := .gone }.record t (.reaped reaper), exit)
  else some (s, if answer.yes && s.leader == .gone then exit else .default)

/-- What `finish` does with the leader: only a child is reaped. -/
def reapAs (s : WatchState) (owner : KeptOwner) (t : Tid) (reaper : LeaderReaper)
    (answer : WatchAnswer) : Option (WatchState × KeptExit) :=
  match owner with
  | .child => s.reap t reaper answer
  | .foreign => some (s, .default)

/-! ### The steps -/

/-- The next step of an `attach`, up to the registration. -/
def attachStep (s : WatchState) (n : ℕ) (answer : WatchAnswer) : KeptCall → Option WatchState
  | .looking =>
      some (match s.registry with
        | some id => s.setCall n (.found id)
        | none => (s.record n .unfound).setCall n .observing)
  | .found id =>
      (s.regs id).bind fun g =>
        if g.holder ≠ none then none
        else if g.ended.isSome then some ((s.record n (.attached none)).setCall n .returned)
        else some (s.setCall n (.attaching id .loading))
  | .observing =>
      if s.canIdentify answer.yes then
        some (if answer.yes then (s.record n .identified).setCall n .parenting
          else if answer.other then (s.record n .attachFailed).setCall n .returned
          else (s.record n (.attached none)).setCall n .returned)
      else none
  | .parenting =>
      if s.canParent answer.yes then some (s.setCall n (.zombieing answer.yes)) else none
  | .zombieing ours =>
      if s.canZombie answer.yes then
        some (match answer.yes, ours with
          | true, true => s.setCall n .killing
          | true, false => (s.record n (.attached none)).setCall n .returned
          | false, true => s.setCall n (.registering .child)
          | false, false => s.setCall n (.registering .foreign))
      else none
  | .killing => some ((s.record n (.sent .attach s.leader)).setCall n .reaping)
  | .reaping =>
      (s.reap n .attach answer).map fun (s, _) => (s.record n (.attached none)).setCall n .returned
  | .registering owner =>
      some (match s.registry with
        | some id => s.setCall n (.attaching id .loading)
        | none => (s.register n (.new owner answer.yes)).setCall n
            (.attaching s.nextReg .loading))
  | _ => none

/-- The next step of a `signal`. A child is pinned until it is reaped under the lock; somebody
else's process is identified first, unless a pidfd does that. -/
def signalStep (s : WatchState) (n : ℕ) (answer : WatchAnswer) (id : RegId) (g : Registration) :
    SignalAt → Option WatchState
  | .locking =>
      if g.holder ≠ none then none
      else if g.ended.isSome then some (s.setCall n .returned)
      else some ((s.setReg id { g with holder := some (.call n) }).setCall n
        (.signalling id (if g.owner = .foreign then .confirming else .groupKilling)))
  | .confirming =>
      -- `confirmed_alive`: the recorded instance, and no zombie
      if s.canIdentify answer.yes then
        some (if answer.yes then s.setCall n (.signalling id .groupKilling)
          else (s.setReg id { g with holder := none }).setCall n .returned)
      else none
  | .groupKilling =>
      let s := s.record n (.sent (.target id) s.leader)
      some (if (g.owner = .foreign ∧ g.pidfd) ∨ answer.other then
          (s.setReg id { g with holder := none }).setCall n .returned
        else s.setCall n (.signalling id .killing))
  | .killing =>
      some (((s.record n (.sent (.target id) s.leader)).setReg id
        { g with holder := none }).setCall n .returned)

/-- The next step of a call. -/
def callStep (s : WatchState) (n : ℕ) (answer : WatchAnswer) (call : KeptCall) :
    Option WatchState :=
  match call with
  | .clearing id =>
      (s.regs id).map fun g =>
        (s.setReg id { g with launching := false }).setCall n (.launched id .loading)
  | .launched id call =>
      (s.regs id).map fun g => match s.watch id g call with
        | (s, some call) => s.setCall n (.launched id call)
        | (s, none) => s.setCall n .returned
  | .attaching id call =>
      (s.regs id).map fun g => match s.watch id g call with
        | (s, some call) => s.setCall n (.attaching id call)
        | (s, none) => (s.record n (.attached (some id))).setCall n .returned
  | .signalling id point => (s.regs id).bind fun g => s.signalStep n answer id g point
  | .rewatching id call =>
      (s.regs id).map fun g => match s.watch id g call with
        | (s, some call) => s.setCall n (.rewatching id call)
        | (s, none) => s.setCall n (.awaiting id)
  | .awaiting id =>
      (s.regs id).bind fun g => g.exit.map fun exit =>
        (s.record n (.exited id exit)).setCall n .returned
  | call => s.attachStep n answer call

/-- The next step of a watcher. -/
def watcherStep (s : WatchState) (w : ℕ) (answer : WatchAnswer) (id : RegId)
    (g : Registration) : WatcherAt → Option WatchState
  | .unpolled => some (s.goto w id .waiting)
  | .waiting => if s.leader = .running then none else some (s.goto w id .finishing)
  | .finishing =>
      if g.holder ≠ none then none
      else match g.ended with
        | some exit => some (s.goto w id (.publishing { exit with stragglers := true }))
        | none =>
            some ((s.setReg id { g with holder := some (.watcher w) }).goto w id .killing)
  | .killing =>
      -- a child is pinned; somebody else's only while it is a zombie of the same instance
      if g.owner = .child ∨ (answer.yes ∧ s.leader = .zombie) then
        some ((s.record w (.sent (.finish id) s.leader)).goto w id (.reaping true))
      else some (s.goto w id (.reaping false))
  | .reaping pinned =>
      (s.reapAs g.owner w (.watcher id) answer).map fun (s, exit) =>
        ((s.record w (.ended id)).setReg id { g with holder := none, ended := some exit }).goto w id
          (if pinned then .sweeping exit else .probing exit)
  | .sweeping exit =>
      let s := s.record w (.sent (.sweep id) s.leader)
      some (if answer.yes then
          (s.record w (.emptied id)).goto w id (.publishing { exit with stragglers := false })
        else s.goto w id (.listing exit))
  | .listing exit =>
      some (if answer.yes then
          (s.record w (.emptied id)).goto w id (.publishing { exit with stragglers := false })
        else if answer.other then s.goto w id (.publishing { exit with stragglers := true })
        else s.goto w id (.pausing exit))
  | .pausing exit => some (s.goto w id (.sweeping exit))
  | .probing exit =>
      if s.canBeFree answer.yes then
        some (if answer.yes then s.goto w id (.membering exit)
          else s.goto w id (.publishing { exit with stragglers := true }))
      else none
  | .membering exit =>
      some (if answer.yes then
          (s.record w (.emptied id)).goto w id (.publishing { exit with stragglers := false })
        else if answer.other then s.goto w id (.publishing { exit with stragglers := true })
        else s.goto w id (.sweeping exit))
  | .publishing exit =>
      some (((s.record w (.published id exit)).setReg id { g with exit := some exit }).goto w id
        .forgetting)
  | .forgetting =>
      some ({ s with registry := if s.registry = some id then none else s.registry }.goto w id
        .rearming)
  | .rearming => some (if g.exit.isSome then s.setTask w none else s.goto w id .resetting)
  | .resetting => some ((s.setReg id { g with started := false }).setTask w none)

/-- A watcher is dropped by its runtime: at an await the guard is dropped with it; before its
first poll there is no guard yet. -/
def dropStep (s : WatchState) (w : ℕ) (t : WatcherTask) : Option WatchState :=
  match t.point with
  | .unpolled => some ((s.record w (.lost t.reg)).setTask w none)
  | .waiting | .pausing _ => some ((s.record w (.dropped t.reg)).goto w t.reg .rearming)
  | _ => none

/-- One step. -/
def step (s : WatchState) : WatchAction → Option WatchState
  | .exits => if s.leader = .running then some { s with leader := .zombie } else none
  | .parentReaps =>
      if s.leader = .zombie ∧ s.ours = false then some { s with leader := .gone } else none
  | .start n request =>
      if (s.calls n).isSome then none
      else match request with
        | .attach => some (s.setCall n .looking)
        | .signal id => (s.regs id).map fun _ => s.setCall n (.signalling id .locking)
        | .exited id => (s.regs id).map fun _ => s.setCall n (.rewatching id .loading)
  | .call n answer => (s.calls n).bind (s.callStep n answer)
  | .watcher w answer =>
      (s.watchers w).bind fun t => (s.regs t.reg).bind fun g =>
        s.watcherStep w answer t.reg g t.point
  | .drop w => (s.watchers w).bind (s.dropStep w)

end WatchState

end Shepherd
