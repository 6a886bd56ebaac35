import Mathlib.Logic.Function.Basic
import Shepherd.Conc.Steps
import Shepherd.Domain.Types
import Std.Data.ExtTreeMap

/-!
# Process Groups of the Unix Backend

The Unix backend gives each scope a process group. In process-group containment the group
is led by an **anchor**, a child that does nothing but pin the number of the group; in
cgroup containment the first root leads it. The maps `scope_groups`, `anchors` and
`children` live behind one mutex, so a step below is one critical section, one system call
between two of them, or one await.

The parties are the spawn calls, the cleanup calls, the two synchronous kills, a worker
for each anchor child, which reaps it and can be dropped at any time, and the waiters of
the roots. The operating system's answers are arguments of the actions. It gives a new
child no number that an unreaped anchor child still has.

`log` is history, newest first: the group signals and joins with whether the number was
pinned at that moment, what the calls did, and the wait results of the roots.
-/

open Std

namespace Shepherd

/-- A signal of the operating system, by its number. -/
abbrev NixSignal := ℤ

namespace NixSignal

def SIGINT : NixSignal := 2

def SIGKILL : NixSignal := 9

def SIGTERM : NixSignal := 15

end NixSignal

/-- `to_nix`: the system has the number of a custom signal, or refuses it. -/
def toNix (known : Bool) : Signal → Option NixSignal
  | .term => some .SIGTERM
  | .kill => some .SIGKILL
  | .interrupt => some .SIGINT
  | .custom raw => if known then some raw else none

/-- How a backend contains the processes of a scope. -/
inductive Containment where
  | cgroupV2
  | processGroup
  deriving DecidableEq, Repr

/-- An entry of `scope_groups`. -/
structure ScopeGroup where
  pgid : ℕ
  live : ℕ
  waitFailed : Bool
  deriving DecidableEq, Repr

/-- An entry of `anchors`; the exit channel is that of the anchor child. -/
structure Anchor where
  child : ℕ
  killIssued : Bool
  deriving DecidableEq, Repr

/-- A child that was spawned as an anchor, with what its worker owns: its exit channel, and
whether the worker is still armed. It is unreaped until the worker or, once the worker is
gone, the orphan reaper has waited for it. -/
structure AnchorChild where
  scope : ProcessScopeId
  pgid : ℕ
  exit : Option (Except String Unit)
  armed : Bool
  reaped : Bool
  deriving DecidableEq, Repr

/-- An anchor child whose armed worker was dropped. -/
def AnchorChild.interrupt (a : AnchorChild) : AnchorChild :=
  { a with
    exit := some (.error
      "anchor waiter interrupted; synchronous group kill issued, reap unverified")
    armed := false }

/-- Where a call of `spawn` is. -/
inductive SpawnCall where
  /-- In `scope_lock.lock()`. -/
  | locking (scope : ProcessScopeId)
  /-- Before the check of `ensure_anchor`. -/
  | ensuring (scope : ProcessScopeId)
  /-- Before an anchor is spawned. -/
  | anchoring (scope : ProcessScopeId)
  /-- Before the new anchor is stored. -/
  | storing (scope : ProcessScopeId) (child : ℕ)
  /-- Before the critical section that spawns the root. -/
  | joining (scope : ProcessScopeId)
  /-- Before `register_child`. -/
  | registering (scope : ProcessScopeId) (root : ℕ) (newGroup : Bool)
  /-- Returned, or dropped while it waited for the lock. -/
  | returned
  deriving DecidableEq, Repr

/-- The scope a call works on. -/
def SpawnCall.scope? : SpawnCall → Option ProcessScopeId
  | .locking c | .ensuring c | .anchoring c | .storing c _ | .joining c
  | .registering c _ _ => some c
  | .returned => none

/-- The scope whose lock a call holds. -/
def SpawnCall.held : SpawnCall → Option ProcessScopeId
  | .ensuring c | .anchoring c | .storing c _ | .joining c | .registering c _ _ => some c
  | _ => none

/-- Where a call of `cleanup_scope` is. -/
inductive CleanupCall where
  /-- Before the kill of the group. -/
  | killing (scope : ProcessScopeId)
  /-- Before it looks up the anchor. -/
  | observing (scope : ProcessScopeId)
  /-- Awaits the exit of the anchor. -/
  | waiting (scope : ProcessScopeId) (child : ℕ)
  /-- Before the entries of the scope are removed. -/
  | removing (scope : ProcessScopeId)
  /-- Returned, or dropped. -/
  | returned
  deriving DecidableEq, Repr

def CleanupCall.scope? : CleanupCall → Option ProcessScopeId
  | .killing c | .observing c | .waiting c _ | .removing c => some c
  | .returned => none

/-- What the history records. -/
inductive GroupEvent where
  /-- `killpg` with a real signal. -/
  | signalled (scope : ProcessScopeId) (pgid : ℕ) (pinned : Bool)
  /-- `setpgid` of a new root to a group that exists. -/
  | joined (scope : ProcessScopeId) (pgid : ℕ) (pinned : Bool)
  /-- A `SIGKILL` to the group of a scope was issued. -/
  | killed (scope : ProcessScopeId)
  /-- A root was spawned. -/
  | forked (call : ℕ) (scope : ProcessScopeId) (root : ℕ)
  /-- A spawn call returned its root, or an error. -/
  | spawned (call : ℕ) (scope : ProcessScopeId) (root : ℕ)
  | refused (call : ℕ) (scope : ProcessScopeId)
  /-- A root was registered; its OS wait failed or returned its exit. -/
  | registered (scope : ProcessScopeId) (root : ℕ)
  | waitFailed (scope : ProcessScopeId) (root : ℕ)
  | exited (scope : ProcessScopeId) (root : ℕ)
  /-- A cleanup began, and removed the entries of the scope. -/
  | cleaning (scope : ProcessScopeId)
  | cleaned (scope : ProcessScopeId)
  deriving DecidableEq, Repr

/-- A registered root: its scope, and whether its exit was published. -/
structure Root where
  scope : ProcessScopeId
  exited : Bool
  deriving DecidableEq, Repr

/-- The state of the backend and of its parties. -/
structure UnixState where
  mode : Containment
  groups : ExtTreeMap ProcessScopeId ScopeGroup
  anchors : ExtTreeMap ProcessScopeId Anchor
  children : ℕ → Option Root
  locks : ProcessScopeId → Option ℕ
  anchorChildren : ℕ → Option AnchorChild
  nextAnchor : ℕ
  nextRoot : ℕ
  spawns : ℕ → Option SpawnCall
  cleanups : ℕ → Option CleanupCall
  spawning : ProcessScopeId → List ℕ
  cleaning : ProcessScopeId → List ℕ
  log : List GroupEvent

/-- The result of `killpg`. -/
inductive KillAnswer where
  | delivered
  | noSuchGroup
  | failed
  deriving DecidableEq, Repr

/-- What the operating system answers to a step of `spawn`: whether the cgroup of the scope
is there, whether the old group is absent, the number of a new anchor, whether the root
could be spawned into the group and into a group of its own, the number of that group, and
whether its pipes could be converted. -/
structure SpawnAnswer where
  membership : Bool
  absent : Bool
  anchor : Option ℕ
  join : Bool
  fresh : Bool
  pid : ℕ
  pipes : Bool
  deriving DecidableEq, Repr

/-- What it answers to a step of `cleanup_scope`: the result of the kill, whether the
cgroup could be finished, and whether the wait for the anchor timed out. -/
structure CleanupAnswer where
  kill : KillAnswer
  cgroup : Bool
  timedOut : Bool
  deriving DecidableEq, Repr

namespace UnixState

/-- A new backend. -/
def new (mode : Containment) : UnixState where
  mode := mode
  groups := ∅
  anchors := ∅
  children := fun _ => none
  locks := fun _ => none
  anchorChildren := fun _ => none
  nextAnchor := 0
  nextRoot := 0
  spawns := fun _ => none
  cleanups := fun _ => none
  spawning := fun _ => []
  cleaning := fun _ => []
  log := []

/-- What a map has after an insertion. -/
theorem getElem?_insert {β : Type} (m : ExtTreeMap ℕ β) (k a : ℕ) (v : β) :
    (m.insert k v)[a]? = if k = a then some v else m[a]? := by
  simp [ExtTreeMap.getElem?_insert]

/-- What a map has after an erasure. -/
theorem getElem?_erase {β : Type} (m : ExtTreeMap ℕ β) (k a : ℕ) :
    (m.erase k)[a]? = if k = a then none else m[a]? := by
  simp [ExtTreeMap.getElem?_erase]

/-- Records an event. -/
def record (s : UnixState) (e : GroupEvent) : UnixState :=
  { s with log := e :: s.log }

/-- The value of the exit channel of an anchor child. -/
def exitOf (s : UnixState) (child : ℕ) : Option (Except String Unit) :=
  (s.anchorChildren child).bind AnchorChild.exit

/-- A number is pinned for a scope: an unreaped anchor child of the scope has it. -/
def pins (s : UnixState) (scope : ProcessScopeId) (pgid : ℕ) : Bool :=
  (List.range s.nextAnchor).any fun child =>
    match s.anchorChildren child with
    | some a => a.scope == scope && a.pgid == pgid && !a.reaped
    | none => false

/-- A number that no unreaped anchor child has. -/
def unused (s : UnixState) (pid : ℕ) : Bool :=
  (List.range s.nextAnchor).all fun child =>
    match s.anchorChildren child with
    | some a => a.reaped || a.pgid != pid
    | none => true

/-! ### Signals -/

/-- `killpg` with a real signal, and the bookkeeping of `signal_group` after it. A custom signal
can have the number of `SIGKILL`. -/
def killGroup (s : UnixState) (scope : ProcessScopeId) (group : ScopeGroup) (signal : NixSignal)
    (answer : KillAnswer) : UnixState × Bool :=
  let s := s.record (.signalled scope group.pgid (s.pins scope group.pgid))
  if answer = .failed then (s, false)
  else if signal = .SIGKILL then
    ({ s with
      anchors := match s.anchors[scope]? with
        | some anchor => s.anchors.insert scope { anchor with killIssued := true }
        | none => s.anchors }.record (.killed scope), true)
  else (s, true)

/-- `signal_group`; the flag says whether it returned `Ok`. -/
def signalGroup (s : UnixState) (scope : ProcessScopeId) (signal : NixSignal)
    (answer : KillAnswer) : UnixState × Bool :=
  match s.groups[scope]? with
  | none => (s, true)
  | some group =>
      match s.anchors[scope]? with
      | none =>
          if group.waitFailed then (s, false)
          else s.killGroup scope group signal answer
      | some anchor =>
          if anchor.killIssued then (s, true)
          else if (s.exitOf anchor.child).isSome then (s, answer == .noSuchGroup)
          else s.killGroup scope group signal answer

/-- `signal_scope`: a kill in cgroup containment goes through the cgroup, and a number that is no
signal of the system is refused. -/
def signalScope (s : UnixState) (scope : ProcessScopeId) (signal : Signal) (known : Bool)
    (answer : KillAnswer) : UnixState × Bool :=
  if s.mode = .cgroupV2 ∧ signal = .kill then (s, answer == .delivered)
  else
    match toNix known signal with
    | none => (s, false)
    | some signal => s.signalGroup scope signal answer

/-- `hard_kill_scope`, as far as groups are concerned. -/
def hardKillScope (s : UnixState) (scope : ProcessScopeId) (answer : KillAnswer) : UnixState :=
  if s.mode = .cgroupV2 then s else (s.signalGroup scope .SIGKILL answer).1

/-- `hard_kill_all`: every scope of `scope_groups`, in the order of the map. -/
def hardKillAll (s : UnixState) (answers : List (ProcessScopeId × KillAnswer)) : UnixState :=
  if s.mode = .cgroupV2 then s
  else answers.foldl (fun s a => (s.signalGroup a.1 .SIGKILL a.2).1) s

/-! ### Spawning -/

/-- Moves a spawn call. -/
def toSpawn (s : UnixState) (n : ℕ) (c : SpawnCall) : UnixState :=
  { s with spawns := Function.update s.spawns n (some c) }

/-- A spawn call ends and releases the lock of its scope. -/
def endSpawn (s : UnixState) (n : ℕ) (scope : ProcessScopeId) : UnixState :=
  { s with
    spawns := Function.update s.spawns n (some .returned)
    locks := Function.update s.locks scope none
    spawning := Function.update s.spawning scope ((s.spawning scope).erase n) }

/-- A spawn call returns an error. -/
def refuse (s : UnixState) (n : ℕ) (scope : ProcessScopeId) : UnixState :=
  (s.endSpawn n scope).record (.refused n scope)

/-- The check of `ensure_anchor`; in cgroup containment there are no anchors, and a spawn
needs its cgroup instead. An anchor that exited is given up with its group once the group
has no live root and its number is absent. -/
def ensureAnchor (s : UnixState) (n : ℕ) (scope : ProcessScopeId) (os : SpawnAnswer) :
    Option UnixState :=
  if s.mode = .cgroupV2 then
    some (if os.membership then s.toSpawn n (.joining scope) else s.refuse n scope)
  else
    match s.anchors[scope]? with
    | none => some (s.toSpawn n (.anchoring scope))
    | some anchor =>
        if anchor.killIssued then some (s.refuse n scope)
        else
          match s.exitOf anchor.child with
          | none => some (s.toSpawn n (.joining scope))
          | some (.error _) => some (s.refuse n scope)
          | some (.ok ()) =>
              match s.groups[scope]? with
              | none => none
              | some group =>
                  if group.live ≠ 0 || !os.absent then some (s.refuse n scope)
                  else
                    some ({ s with
                      anchors := s.anchors.erase scope
                      groups := s.groups.erase scope }.toSpawn n (.anchoring scope))

/-- Spawns the anchor child and its worker. -/
def spawnAnchor (s : UnixState) (n : ℕ) (scope : ProcessScopeId) (os : SpawnAnswer) :
    Option UnixState :=
  match os.anchor with
  | none => some (s.refuse n scope)
  | some pid =>
      if 0 < pid && s.unused pid then
        some ({ s with
          anchorChildren := Function.update s.anchorChildren s.nextAnchor
            (some ⟨scope, pid, none, true, false⟩)
          nextAnchor := s.nextAnchor + 1 }.toSpawn n (.storing scope s.nextAnchor))
      else none

/-- Stores the anchor and its group. -/
def storeAnchor (s : UnixState) (n : ℕ) (scope : ProcessScopeId) (child : ℕ) :
    Option UnixState :=
  (s.anchorChildren child).map fun a =>
    { s with
      anchors := s.anchors.insert scope ⟨child, false⟩
      groups := s.groups.insert scope ⟨a.pgid, 0, false⟩ }.toSpawn n (.joining scope)

/-- A root was spawned. -/
def fork (s : UnixState) (n : ℕ) (scope : ProcessScopeId) (newGroup : Bool) : UnixState :=
  ({ s with nextRoot := s.nextRoot + 1 }.toSpawn n
    (.registering scope s.nextRoot newGroup)).record (.forked n scope s.nextRoot)

/-- The group a new root joins. -/
def existing (s : UnixState) (scope : ProcessScopeId) : Option ℕ :=
  (s.groups[scope]?).bind fun group =>
    if 0 < group.live || s.anchors.contains scope then some group.pgid else none

/-- The anchor of a scope was killed or has exited. -/
def anchorGone (s : UnixState) (scope : ProcessScopeId) : Bool :=
  match s.anchors[scope]? with
  | some anchor => anchor.killIssued || (s.exitOf anchor.child).isSome
  | none => false

/-- The critical section of `spawn`. -/
def spawnRoot (s : UnixState) (n : ℕ) (scope : ProcessScopeId) (os : SpawnAnswer) :
    UnixState :=
  if ((s.groups[scope]?).any ScopeGroup.waitFailed) then s.refuse n scope
  else if s.anchorGone scope then s.toSpawn n (.ensuring scope)
  else
    match s.existing scope with
    | none => if os.join then s.fork n scope true else s.refuse n scope
    | some pgid =>
        let s := s.record (.joined scope pgid (s.pins scope pgid))
        if os.join then s.fork n scope false
        else if s.anchors.contains scope then s.refuse n scope
        else
          let s := { s with groups := s.groups.erase scope }
          if os.fresh then s.fork n scope true else s.refuse n scope

/-- `register_child`, unless the pipes could not be converted. -/
def registerChild (s : UnixState) (n : ℕ) (scope : ProcessScopeId) (root : ℕ)
    (newGroup : Bool) (os : SpawnAnswer) : UnixState :=
  if !os.pipes then s.refuse n scope
  else
    let group : ScopeGroup := match newGroup, s.groups[scope]? with
      | false, some group => { group with live := group.live + 1 }
      | _, _ => ⟨os.pid, 1, false⟩
    (({ s with
      children := Function.update s.children root (some ⟨scope, false⟩)
      groups := s.groups.insert scope group }.record (.registered scope root)).endSpawn n
        scope).record (.spawned n scope root)

/-- The next step of a spawn call. -/
def spawn (s : UnixState) (n : ℕ) (os : SpawnAnswer) : SpawnCall → Option UnixState
  | .locking scope =>
      match s.locks scope with
      | some _ => none
      | none =>
          some ({ s with locks := Function.update s.locks scope (some n) }.toSpawn n
            (.ensuring scope))
  | .ensuring scope => s.ensureAnchor n scope os
  | .anchoring scope => s.spawnAnchor n scope os
  | .storing scope child => s.storeAnchor n scope child
  | .joining scope => some (s.spawnRoot n scope os)
  | .registering scope root newGroup => some (s.registerChild n scope root newGroup os)
  | .returned => none

/-! ### The worker of an anchor -/

/-- Changes what is known about an anchor child. -/
def setAnchorChild (s : UnixState) (child : ℕ) (a : AnchorChild) : UnixState :=
  { s with anchorChildren := Function.update s.anchorChildren child (some a) }

/-- `poll_exit` with a result: the child was reaped, or waiting for it failed. -/
def pollExit (s : UnixState) (child : ℕ) (a : AnchorChild) (result : Except String Unit) :
    UnixState :=
  s.setAnchorChild child
    { a with
      exit := some result
      armed := false
      reaped := match result with
        | .ok () => true
        | .error _ => false }

/-- `Drop` of an armed worker: the group is killed, and its anchor is marked if it is the
one stored. -/
def dropWorker (s : UnixState) (child : ℕ) (a : AnchorChild) : UnixState :=
  let s := (s.record (.signalled a.scope a.pgid (s.pins a.scope a.pgid))).record
    (.killed a.scope)
  let s := match s.groups[a.scope]?, s.anchors[a.scope]? with
    | some group, some anchor =>
        if group.pgid = a.pgid then
          { s with anchors := s.anchors.insert a.scope { anchor with killIssued := true } }
        else s
    | _, _ => s
  s.setAnchorChild child a.interrupt

/-! ### The waiters of the roots -/

/-- `publish_wait_result`, as far as the group of the scope is concerned. -/
def publishWaitResult (s : UnixState) (root : ℕ) (r : Root) (ok : Bool) : UnixState :=
  let groups := match s.groups[r.scope]? with
    | some group =>
        s.groups.insert r.scope
          (if ok then { group with live := group.live - 1 }
          else { group with waitFailed := true })
    | none => s.groups
  { s with
    groups := groups
    children := Function.update s.children root (some { r with exited := ok }) }.record
      (if ok then .exited r.scope root else .waitFailed r.scope root)

/-! ### Cleaning up -/

/-- Moves a cleanup call. -/
def toCleanup (s : UnixState) (m : ℕ) (c : CleanupCall) : UnixState :=
  { s with cleanups := Function.update s.cleanups m (some c) }

/-- A cleanup call ends. -/
def endCleanup (s : UnixState) (m : ℕ) (scope : ProcessScopeId) : UnixState :=
  { s with
    cleanups := Function.update s.cleanups m (some .returned)
    cleaning := Function.update s.cleaning scope ((s.cleaning scope).erase m) }

/-- The next step of a cleanup call. -/
def cleanup (s : UnixState) (m : ℕ) (os : CleanupAnswer) : CleanupCall → Option UnixState
  | .killing scope =>
      let (s, ok) := s.signalScope scope .kill true os.kill
      some (if ok && (s.mode = .processGroup || os.cgroup) then s.toCleanup m (.observing scope)
        else s.endCleanup m scope)
  | .observing scope =>
      some (s.toCleanup m (match s.anchors[scope]? with
        | some anchor => .waiting scope anchor.child
        | none => .removing scope))
  | .waiting scope child =>
      match s.exitOf child with
      | some (.ok ()) => some (s.toCleanup m (.removing scope))
      | some (.error _) => some (s.endCleanup m scope)
      | none => if os.timedOut then some (s.endCleanup m scope) else none
  | .removing scope =>
      some (({ s with
        anchors := s.anchors.erase scope
        groups := s.groups.erase scope }.record (.cleaned scope)).endCleanup m scope)
  | .returned => none

/-! ### Steps -/

/-- What can happen next. -/
inductive Action where
  | startSpawn (n : ℕ) (scope : ProcessScopeId)
  | spawn (n : ℕ) (os : SpawnAnswer)
  | dropSpawn (n : ℕ)
  | poll (child : ℕ) (result : Except String Unit)
  | dropWorker (child : ℕ)
  | reapOrphan (child : ℕ)
  | publish (root : ℕ) (ok : Bool)
  /-- A call of `signal_scope`; `known` says whether the system has a custom number. -/
  | signal (scope : ProcessScopeId) (signal : Signal) (known : Bool) (answer : KillAnswer)
  | hardKillScope (scope : ProcessScopeId) (answer : KillAnswer)
  | hardKillAll (answers : List (ProcessScopeId × KillAnswer))
  | startCleanup (m : ℕ) (scope : ProcessScopeId)
  | cleanup (m : ℕ) (os : CleanupAnswer)
  | dropCleanup (m : ℕ)

/-- One step. A spawn does not start while its scope is cleaned up, nor a cleanup while a
spawn is under way: the supervisor holds the operation lock of the scope around both. -/
def step (s : UnixState) : Action → Option UnixState
  | .startSpawn n scope =>
      if (s.spawns n).isNone && (s.cleaning scope).isEmpty then
        some ({ s with
          spawning := Function.update s.spawning scope (n :: s.spawning scope) }.toSpawn n
            (.locking scope))
      else none
  | .spawn n os => (s.spawns n).bind (s.spawn n os)
  | .dropSpawn n =>
      match s.spawns n with
      | some (.locking scope) =>
          some ({ s with
            spawning := Function.update s.spawning scope ((s.spawning scope).erase n) }.toSpawn
              n .returned)
      | _ => none
  | .poll child result =>
      match s.anchorChildren child with
      | some a => if a.armed then some (s.pollExit child a result) else none
      | none => none
  | .dropWorker child =>
      match s.anchorChildren child with
      | some a => if a.armed then some (s.dropWorker child a) else none
      | none => none
  | .reapOrphan child =>
      match s.anchorChildren child with
      | some a =>
          if a.armed then none else some (s.setAnchorChild child { a with reaped := true })
      | none => none
  | .publish root ok =>
      match s.children root with
      | some r => if r.exited then none else some (s.publishWaitResult root r ok)
      | none => none
  | .signal scope signal known answer => some (s.signalScope scope signal known answer).1
  | .hardKillScope scope answer => some (s.hardKillScope scope answer)
  | .hardKillAll answers =>
      if (answers.map Prod.fst).isPerm s.groups.keys then some (s.hardKillAll answers) else none
  | .startCleanup m scope =>
      if (s.cleanups m).isNone && (s.spawning scope).isEmpty then
        some (({ s with
          cleaning := Function.update s.cleaning scope (m :: s.cleaning scope) }.toCleanup m
            (.killing scope)).record (.cleaning scope))
      else none
  | .cleanup m os => (s.cleanups m).bind (s.cleanup m os)
  | .dropCleanup m =>
      match s.cleanups m with
      | some (.waiting scope _) => some (s.endCleanup m scope)
      | _ => none

end UnixState

end Shepherd
