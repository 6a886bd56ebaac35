import Mathlib.Algebra.Order.Ring.Nat
import Mathlib.Logic.Function.Basic
import Shepherd.Conc.Steps

/-!
# The Launch Gate of Kept Processes

`gated_spawn` forks a child and holds it before `exec` until its record is durable. Owner
and child talk over a socket pair: the child reports its pid and then reads one byte, and
runs the program only if that byte is `GO`. The parties are

* the owner's thread, which can fail at every step and, with its whole process, die at any
  time;
* its spawn thread, in `std`'s `spawn`, which returns when the child has exec'd, has failed
  (it is reaped then) or is dead;
* the child, whose `setsid`, pid report and `exec` can fail;
* any number of `attach` calls with the record of this launch, from the moment the commit
  has begun, and the targets they return, which can kill the child or start its watcher;
* the watcher task, which reaps the child and can be dropped at its awaits.

The answers of the operating system are arguments of the actions. `log` is history, newest
first.
-/

namespace Shepherd

/-- The byte that lets a gated child run its program. -/
def GO : ℕ := 71

/-- The byte that tells a gated child to exit without running it. -/
def ABORT : ℕ := 65

/-- The four bytes in which a child reports its pid. -/
def toNeBytes (pid : ℕ) : List ℕ :=
  [pid % 256, pid / 256 % 256, pid / 65536 % 256, pid / 16777216 % 256]

def fromNeBytes : List ℕ → ℕ
  | [] => 0
  | b :: bytes => b + 256 * fromNeBytes bytes

/-- A pid survives its report. -/
theorem fromNeBytes_toNeBytes {pid : ℕ} (h : pid < 2 ^ 31) :
    fromNeBytes (toNeBytes pid) = pid := by
  simp only [toNeBytes, fromNeBytes]
  omega

/-- Where the child is. -/
inductive GateChild where
  | unborn
  /-- Before `setsid`. -/
  | forked
  /-- Before it closes its copy of the owner's end. -/
  | closing
  /-- Before it writes its pid. -/
  | reporting
  /-- In `read`. -/
  | gated
  /-- Before `exec`. -/
  | released
  /-- A step failed: it reports the error to `std` and exits. -/
  | failed
  /-- The program runs. -/
  | running
  /-- Exited, not reaped. -/
  | dead
  | reaped
  deriving DecidableEq, Repr

/-- The child exists and has not exited. -/
def GateChild.alive : GateChild → Bool
  | .unborn | .dead | .reaped => false
  | _ => true

/-- The spawn thread. -/
inductive Spawner where
  | unstarted
  /-- Before `fork`. -/
  | forking
  /-- `spawn` waits for the child to exec, to fail or to die. -/
  | waiting
  /-- `spawn` has returned; the child's end is still open here. -/
  | closing (ok : Bool)
  | done (ok : Bool)
  deriving DecidableEq, Repr

/-- Where a call of `Watched::watch` is. -/
inductive WatchCall where
  /-- Before `launching.load`. -/
  | loading
  /-- Before `has_exited`. -/
  | exiting
  /-- Before `started.swap(true)`. -/
  | swapping
  deriving DecidableEq, Repr

/-- Where `gated_spawn` is. -/
inductive GateOwner where
  /-- Before the spawn thread is started: socket pair, log file, command. -/
  | preparing
  /-- In `read_exact`. -/
  | reading
  /-- Before `read_start_time`. -/
  | tokenizing (pid : ℕ)
  /-- Before the registration is stored. -/
  | registering (pid token : ℕ)
  /-- In `commit`. -/
  | committing (pid token : ℕ)
  /-- Before `GO` is sent. -/
  | opening (pid token : ℕ)
  /-- In `join`, with whether the gate was opened. -/
  | joining (pid token : ℕ) (opened : Bool)
  /-- Before the owner's end is dropped, with whether the launch succeeded. -/
  | ending (pid token : ℕ) (ok : Bool)
  /-- `abort`: before `ABORT` is sent; the flag says whether the child is registered. -/
  | aborting (registered : Bool)
  /-- `abort`: before the owner's end is dropped. -/
  | dropping (registered : Bool)
  /-- In the `join` after an `abort`. -/
  | joiningAborted (registered : Bool)
  /-- `abandon`: before `ended` is set, the exit is sent, the entry is removed. -/
  | abandoning
  | publishing
  | forgetting
  /-- Before `launching` is cleared. -/
  | clearing (pid token : ℕ)
  /-- In `watch`. -/
  | watching (pid token : ℕ) (call : WatchCall)
  /-- Returned a launch, or an error. -/
  | returned (launch : Option (ℕ × ℕ))
  /-- The owner's process died. -/
  | died
  deriving DecidableEq, Repr

/-- Where an `attach` with the record of the launch, or the target it returned, is. -/
inductive AttachCall where
  /-- Before the registry is looked up. -/
  | looking
  /-- Before `ended` is checked. -/
  | found
  /-- The entry is not there: before the process is observed. -/
  | observing
  | watching (call : WatchCall)
  /-- A target was returned. -/
  | attached
  /-- `None` was returned. -/
  | refused
  deriving DecidableEq, Repr

/-- The watcher task. -/
inductive Watcher where
  | absent
  /-- In `wait_for_exit`. -/
  | waiting
  /-- Before the critical section of `finish`. -/
  | finishing
  /-- Waits for the group to empty. -/
  | sweeping
  /-- `publish`: before the entry is removed. -/
  | forgetting
  deriving DecidableEq, Repr

/-- What the history records. -/
inductive GateEvent where
  /-- The owner read a start token, with where the child was then. -/
  | tokenRead (pid token : ℕ) (child : GateChild)
  /-- The child was registered, and the commit began. -/
  | registered
  /-- `commit` returned `Ok`. -/
  | committed (pid token : ℕ)
  | goSent
  | goRead
  | execed
  | returnedErr
  | returnedOk (pid token : ℕ)
  | ownerDied
  /-- The watcher reaped the child, with the value of `launching` then. -/
  | reaped (launching : Bool)
  deriving DecidableEq, Repr

/-- The parties of one launch. `pid` and `token` are those of the child. -/
structure Gate where
  owner : GateOwner
  spawner : Spawner
  child : GateChild
  pid : ℕ
  token : ℕ
  /-- Bytes on the way to the child, and to the owner. -/
  toChild : List ℕ
  toOwner : List ℕ
  /-- The copies of the owner's end: in the owner, and in the child. -/
  ownerEnd : Bool
  childOwnerEnd : Bool
  /-- The entry of `WATCHED`, and what it points to. -/
  inRegistry : Bool
  launching : Bool
  ended : Bool
  published : Bool
  started : Bool
  watcher : Watcher
  attaches : ℕ → Option AttachCall
  /-- An `attach` has made a registration of its own for this child. -/
  stray : Bool
  log : List GateEvent

/-- What the operating system and the commit answer to a step of the owner. -/
structure OwnerAnswer where
  ok : Bool
  token : Option ℕ
  deriving DecidableEq, Repr

inductive GateAction where
  | owner (os : OwnerAnswer)
  | ownerDies
  | spawner (pid token : ℕ) (ok : Bool)
  /-- With the bytes that a failed report has delivered. -/
  | child (ok : Bool) (sent : ℕ)
  | programExits
  | startAttach (n : ℕ)
  | attach (n : ℕ)
  /-- A target kills the child. -/
  | kill (n : ℕ)
  | watcher
  | dropWatcher

namespace Gate

def start : Gate where
  owner := .preparing
  spawner := .unstarted
  child := .unborn
  pid := 0
  token := 0
  toChild := []
  toOwner := []
  ownerEnd := true
  childOwnerEnd := false
  inRegistry := false
  launching := false
  ended := false
  published := false
  started := false
  watcher := .absent
  attaches := fun _ => none
  stray := false
  log := []

def record (s : Gate) (e : GateEvent) : Gate :=
  { s with log := e :: s.log }

/-- `gated_spawn` returns an error. -/
def fail (s : Gate) : Gate :=
  { s with owner := .returned none }.record .returnedErr

/-- `read_start_time`: while the child is unreaped its number has its token, if any. -/
def readStartTime (s : Gate) (pid : ℕ) (answer : Option ℕ) : Bool :=
  s.child == .unborn || s.child == .reaped || pid != s.pid || answer == none ||
    answer == some s.token

/-- A step of `watch`; `none` when it has returned. -/
def watch (s : Gate) : WatchCall → Gate × Option WatchCall
  | .loading => (s, if s.launching then none else some .exiting)
  | .exiting => (s, if s.published then none else some .swapping)
  | .swapping =>
      (if s.started then s else { s with started := true, watcher := .waiting }, none)

/-- The next step of `gated_spawn`. -/
def ownerStep (s : Gate) (os : OwnerAnswer) : GateOwner → Option Gate
  | .preparing =>
      some (if os.ok then { s with owner := .reading, spawner := .forking }
        else { s with ownerEnd := false }.fail)
  | .reading =>
      if os.ok then
        if 4 ≤ s.toOwner.length then
          some { s with
            owner := .tokenizing (fromNeBytes (s.toOwner.take 4))
            toOwner := s.toOwner.drop 4 }
        else none
      else some { s with owner := .aborting false }
  | .tokenizing pid =>
      if s.readStartTime pid os.token then
        some (match os.token with
          | some token =>
              { s with owner := .registering pid token }.record (.tokenRead pid token s.child)
          | none => { s with owner := .aborting false })
      else none
  | .registering pid token =>
      some ({ s with
        owner := .committing pid token
        launching := true
        inRegistry := true }.record .registered)
  | .committing pid token =>
      some (if os.ok then { s with owner := .opening pid token }.record (.committed pid token)
        else { s with owner := .aborting true })
  | .opening pid token =>
      some (if os.ok then
        { s with
          owner := .joining pid token true
          toChild := s.toChild ++ [GO] }.record .goSent
        else { s with owner := .joining pid token false })
  | .joining pid token opened =>
      match s.spawner with
      | .done ok => some { s with owner := .ending pid token (opened && ok) }
      | _ => none
  | .ending pid token ok =>
      some { s with
        owner := if ok then .clearing pid token else .abandoning
        ownerEnd := false }
  | .aborting registered =>
      some { s with
        owner := .dropping registered
        toChild := if os.ok then s.toChild ++ [ABORT] else s.toChild }
  | .dropping registered => some { s with owner := .joiningAborted registered, ownerEnd := false }
  | .joiningAborted registered =>
      match s.spawner with
      | .done _ => some (if registered then { s with owner := .abandoning } else s.fail)
      | _ => none
  | .abandoning => some { s with owner := .publishing, ended := true }
  | .publishing => some { s with owner := .forgetting, published := true }
  | .forgetting => some { s with inRegistry := false }.fail
  | .clearing pid token => some { s with owner := .watching pid token .loading, launching := false }
  | .watching pid token call =>
      some (match s.watch call with
        | (s, some call) => { s with owner := .watching pid token call }
        | (s, none) =>
            { s with owner := .returned (some (pid, token)) }.record (.returnedOk pid token))
  | .returned _ => none
  | .died => none

/-- The next step of the spawn thread; `fork` gives the child its pid and start token, and
copies of both ends. -/
def spawnerStep (s : Gate) (pid token : ℕ) (ok : Bool) : Option Gate :=
  match s.spawner with
  | .unstarted => none
  | .forking =>
      if !ok then some { s with spawner := .closing false }
      else if pid < 2 ^ 31 then
        some { s with
          spawner := .waiting
          child := .forked
          pid := pid
          token := token
          childOwnerEnd := true }
      else none
  | .waiting =>
      match s.child with
      | .running => some { s with spawner := .closing true }
      | .dead => some { s with spawner := .closing true }
      | .failed => some { s with spawner := .closing false, child := .reaped }
      | _ => none
  | .closing ok => some { s with spawner := .done ok }
  | .done _ => none

/-- The next step of the child. An interrupted `read` is made again. -/
def childStep (s : Gate) (ok : Bool) (sent : ℕ) : Option Gate :=
  match s.child with
  | .forked => some (if ok then { s with child := .closing } else { s with child := .failed })
  | .closing => some { s with child := .reporting, childOwnerEnd := false }
  | .reporting =>
      some (if ok then { s with child := .gated, toOwner := s.toOwner ++ toNeBytes s.pid }
        else
          { s with
            child := .failed
            toOwner := s.toOwner ++ (toNeBytes s.pid).take (min sent 3) })
  | .gated =>
      match s.toChild with
      | b :: bytes =>
          some (if b = GO then { s with child := .released, toChild := bytes }.record .goRead
            else { s with child := .failed, toChild := bytes })
      | [] => if s.ownerEnd || s.childOwnerEnd then none else some { s with child := .failed }
  | .released =>
      some (if ok then { s with child := .running }.record .execed
        else { s with child := .failed })
  | _ => none

/-- Moves an `attach`. -/
def toAttach (s : Gate) (n : ℕ) (call : AttachCall) : Gate :=
  { s with attaches := Function.update s.attaches n (some call) }

/-- The next step of an `attach`; a target waits for the exit by calling `watch` again. -/
def attachStep (s : Gate) (n : ℕ) : AttachCall → Option Gate
  | .looking => some (s.toAttach n (if s.inRegistry then .found else .observing))
  | .found => some (s.toAttach n (if s.ended then .refused else .watching .loading))
  | .observing =>
      some (match s.child with
        | .unborn | .reaped => s.toAttach n .refused
        | .dead => { s with child := .reaped }.toAttach n .refused
        | _ => { s with stray := true }.toAttach n .attached)
  | .watching call =>
      some (match s.watch call with
        | (s, some call) => s.toAttach n (.watching call)
        | (s, none) => s.toAttach n .attached)
  | .attached => some (s.toAttach n (.watching .loading))
  | .refused => none

/-- The next step of the watcher. -/
def watcherStep (s : Gate) : Option Gate :=
  match s.watcher with
  | .absent => none
  | .waiting => if s.child.alive then none else some { s with watcher := .finishing }
  | .finishing =>
      some (if s.ended then { s with watcher := .forgetting, published := true }
        else if s.child = .dead then
          { s with watcher := .sweeping, ended := true, child := .reaped }.record
            (.reaped s.launching)
        else { s with watcher := .sweeping, ended := true })
  | .sweeping => some { s with watcher := .forgetting, published := true }
  | .forgetting => some { s with watcher := .absent, inRegistry := false }

/-- One step. With the owner's process its threads, calls and tasks are gone. -/
def step (s : Gate) : GateAction → Option Gate
  | .owner os => s.ownerStep os s.owner
  | .ownerDies =>
      if s.owner = .died then none
      else some ({ s with owner := .died, ownerEnd := false }.record .ownerDied)
  | .spawner pid token ok => if s.owner = .died then none else s.spawnerStep pid token ok
  | .child ok sent => s.childStep ok sent
  | .programExits => if s.child = .running then some { s with child := .dead } else none
  | .startAttach n =>
      if s.owner ≠ .died ∧ (s.attaches n).isNone ∧ .registered ∈ s.log then
        some (s.toAttach n .looking)
      else none
  | .attach n => if s.owner = .died then none else (s.attaches n).bind (s.attachStep n)
  | .kill n =>
      if s.owner ≠ .died ∧ s.attaches n = some .attached then
        some (if s.ended then s else if s.child.alive then { s with child := .dead } else s)
      else none
  | .watcher => if s.owner = .died then none else s.watcherStep
  | .dropWatcher =>
      if s.owner ≠ .died ∧ (s.watcher = .waiting ∨ s.watcher = .sweeping) then
        some { s with watcher := .absent, started := s.published }
      else none

end Gate

end Shepherd
