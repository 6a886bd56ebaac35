import Shepherd.Conc.Containers
import Shepherd.Conc.Hierarchy
import Shepherd.Conc.Steps
import Shepherd.Domain.Types
import Mathlib.Logic.Function.Basic

/-!
# Control Groups of the Unix Backend

In cgroup containment a scope has a directory of the cgroup file system, which `membership`
creates, and an open `cgroup.kill`. A spawn opens `cgroup.procs` of the directory; its child writes
itself there before it executes the program, so that what the program forks is in the directory or
in one that it creates below. A write to `cgroup.kill` kills the whole tree. `finish` polls until
the tree is not populated, and removes it from the leaves up; it has the mutex of `groups` while it
does, but the children of spawns that are under way do not ask for it.

A step is one critical section, one system call of a removal or of a child, or one await. A process
that was killed runs no more, but populates its directory until it has ended. What a process does
with directories it does in the tree that it is in. Removed directories stay in the table, since
files of theirs may be open.
-/

open Function

namespace Shepherd

open Conc

/-- What `remove_empty_tree` has still to do: to open and list the directory of a name, or, once
what was in it is removed, to remove it. -/
inductive Removal where
  | visit (parent : Option ℕ) (name : ℕ)
  | remove (parent : Option ℕ) (name : ℕ)
  deriving DecidableEq, Repr

/-- The parent of the name. -/
def Removal.parent : Removal → Option ℕ
  | .visit parent _ | .remove parent _ => parent

/-- Where a call of `spawn` is with the cgroup of its scope. -/
inductive CgroupSpawn where
  /-- With an open `cgroup.procs`, before the fork. -/
  | holding (scope : ProcessScopeId) (group : ℕ)
  /-- The child has not written itself yet. -/
  | forked (scope : ProcessScopeId) (group process : ℕ)
  /-- The child has not executed the program yet. -/
  | joined (scope : ProcessScopeId) (group process : ℕ)
  | returned (process : Option ℕ)
  deriving DecidableEq, Repr

/-- The directory whose `cgroup.procs` a call has open. -/
def CgroupSpawn.membership : CgroupSpawn → Option (ProcessScopeId × ℕ)
  | .holding scope group | .forked scope group _ | .joined scope group _ => some (scope, group)
  | .returned _ => none

/-- Where a call of `finish` is. -/
inductive CgroupFinish where
  /-- Before one of its polls. -/
  | polling (left : ℕ)
  /-- With the mutex, in the removal of the tree. -/
  | removing (group : ℕ) (todo : List Removal)
  | returned (ok : Bool)
  | dropped
  deriving DecidableEq, Repr

/-- The control groups of a backend, and the machine that they are on. -/
structure CgroupState where
  dirs : Dirs ℕ
  procs : OsProcs ℕ Unit
  /-- The processes with a pending kill. -/
  doomed : ℕ → Bool
  groups : ProcessScopeId → Option ℕ
  lock : Option ℕ
  spawns : ℕ → Option CgroupSpawn
  finishes : ℕ → Option (ProcessScopeId × CgroupFinish)

/-- What the system answers to `membership`: whether the directory can be created, its
`cgroup.kill` opened, a directory without one removed again, and its `cgroup.procs` opened. -/
structure MembershipAnswer where
  create : Bool
  openKill : Bool
  remove : Bool
  openProcs : Bool
  deriving DecidableEq, Repr

/-- What can happen next. -/
inductive CgroupAction where
  /-- A process forks. -/
  | fork (parent : ℕ)
  /-- A process ends. -/
  | exit (process : ℕ)
  /-- A process creates a directory in one of its tree, removes one, or moves to one. -/
  | mkdir (process dir name : ℕ)
  | rmdir (process dir : ℕ)
  | move (process dir : ℕ)
  | spawn (call : ℕ) (scope : ProcessScopeId) (answer : MembershipAnswer)
  /-- A call of `spawn` takes its next step. -/
  | runSpawn (call : ℕ) (ok : Bool)
  | kill (scope : ProcessScopeId) (ok : Bool)
  | killAll (failed : List ProcessScopeId)
  | finish (call : ℕ) (scope : ProcessScopeId)
  /-- A call of `finish` takes its next step; the entries of a directory come in this order. -/
  | runFinish (call : ℕ) (ok : Bool) (listing : List ℕ)
  /-- A call of `finish` is dropped between two polls. -/
  | dropFinish (call : ℕ)
  deriving DecidableEq

namespace CgroupState

/-- A new backend; what is in the root directory is not in the table. -/
def new : CgroupState where
  dirs := []
  procs := []
  doomed := fun _ => false
  groups := fun _ => none
  lock := none
  spawns := fun _ => none
  finishes := fun _ => none

def setSpawn (s : CgroupState) (n : ℕ) (call : CgroupSpawn) : CgroupState :=
  { s with spawns := update s.spawns n (some call) }

def setFinish (s : CgroupState) (n : ℕ) (scope : ProcessScopeId) (call : CgroupFinish) :
    CgroupState :=
  { s with finishes := update s.finishes n (some (scope, call)) }

/-! ### The system -/

/-- A live process is in the directory itself. -/
def busy (s : CgroupState) (d : ℕ) : Bool :=
  s.procs.active (· == d) != 0

/-- A live process is in the tree: `cgroup.events` says so. -/
def populated (s : CgroupState) (g : ℕ) : Bool :=
  s.procs.active (s.dirs.isBelow g) != 0

/-- The directory is there. -/
def isPresent (s : CgroupState) (d : ℕ) : Bool :=
  s.dirs[d]?.any Dir.present

/-- A running process without a pending kill that is in the tree of the directory. -/
def mayUse (s : CgroupState) (p d : ℕ) : Bool :=
  !s.doomed p && s.procs[p]?.any fun x =>
    x.phase = .running && x.container.any fun k =>
      s.dirs[d]?.any fun y => s.dirs.isBelow y.top k

/-- The processes of some directories are killed. -/
def doom (s : CgroupState) (P : ℕ → Bool) : CgroupState :=
  { s with doomed := fun p => s.doomed p || s.procs[p]?.any fun x => x.isIn P && x.phase.isLive }

/-- A step of a process. -/
def runProcess (s : CgroupState) : CgroupAction → Option CgroupState
  | .fork parent =>
      if s.doomed parent then none
      else (s.procs.fork parent).map fun procs => { s with procs }
  | .exit p => some { s with procs := s.procs.finish p () }
  | .mkdir p d name =>
      if s.mayUse p d then (s.dirs.mkdir (some d) name).map fun dirs => { s with dirs } else none
  | .rmdir p d =>
      if s.mayUse p d && s.dirs[d]?.any (fun x => x.parent.isSome) && !s.busy d then
        (s.dirs.rmdir d).map fun dirs => { s with dirs }
      else none
  | .move p d =>
      if s.mayUse p d && s.isPresent d then some { s with procs := s.procs.assign p d } else none
  | _ => none

/-! ### The backend -/

/-- `Group::create`, for a scope without a group. -/
def create (s : CgroupState) (scope : ProcessScopeId) (a : MembershipAnswer) : CgroupState :=
  match if a.create then s.dirs.mkdir none scope else none with
  | none => s
  | some dirs =>
      if a.openKill then { s with dirs, groups := update s.groups scope (some s.dirs.length) }
      else if a.remove then { s with dirs := (dirs.rmdir s.dirs.length).getD dirs }
      else { s with dirs }

/-- `membership`: a scope gets its group, and `cgroup.procs` of its path is opened. -/
def membership (s : CgroupState) (n : ℕ) (scope : ProcessScopeId) (a : MembershipAnswer) :
    CgroupState :=
  let s := if (s.groups scope).isSome then s else s.create scope a
  match if (s.groups scope).isSome && a.openProcs then s.dirs.lookup none scope else none with
  | some g => s.setSpawn n (.holding scope g)
  | none => s.setSpawn n (.returned none)

/-- The next step of a call of `spawn`; one that has failed may try again. -/
def runSpawn (s : CgroupState) (n : ℕ) (ok : Bool) : CgroupSpawn → Option CgroupState
  | .holding scope g =>
      if ok then
        some ({ s with procs := s.procs.create }.setSpawn n (.forked scope g s.procs.length))
      else some (s.setSpawn n (.returned none))
  | .forked scope g p =>
      if ok && s.isPresent g then
        some ({ s with procs := s.procs.assign p g }.setSpawn n (.joined scope g p))
      else some ({ s with procs := s.procs.finish p () }.setSpawn n (.holding scope g))
  | .joined scope g p =>
      if ok then
        -- a child that was killed before the program does not fail the spawn
        some ({ s with procs := if s.doomed p then s.procs else s.procs.resume p }.setSpawn n
          (.returned (some p)))
      else some ({ s with procs := s.procs.finish p () }.setSpawn n (.holding scope g))
  | .returned _ => none

/-- The directory is in the tree of a group of `groups`, of a scope that `P` admits. -/
def isRegistered (s : CgroupState) (P : ProcessScopeId → Bool) (d : ℕ) : Bool :=
  s.dirs[d]?.any fun x => s.dirs[x.top]?.any fun y => P y.name && s.groups y.name = some x.top

/-- `remove_empty_tree`, one system call after the other. A listing that is not one of the
directory stands for an error. -/
def walk (s : CgroupState) (listing : List ℕ) : List Removal → Option (Dirs ℕ × List Removal)
  | [] => none
  | .visit parent name :: rest =>
      (s.dirs.lookup parent name).bind fun d =>
        if listing.isPerm (s.dirs.names d) then
          some (s.dirs, listing.map (.visit (some d)) ++ .remove parent name :: rest)
        else none
  | .remove parent name :: rest =>
      (s.dirs.lookup parent name).bind fun d =>
        if s.busy d then none else (s.dirs.rmdir d).map fun dirs => (dirs, rest)

/-- The next step of a call of `finish`. -/
def runFinish (s : CgroupState) (n : ℕ) (ok : Bool) (listing : List ℕ) (scope : ProcessScopeId) :
    CgroupFinish → Option CgroupState
  | .polling 0 => some (s.setFinish n scope (.returned false))
  | .polling (left + 1) =>
      if s.lock.isNone then
        match s.groups scope with
        | none => some (s.setFinish n scope (.returned true))
        | some g =>
            if !ok then some (s.setFinish n scope (.returned false))
            else if s.populated g then some (s.setFinish n scope (.polling left))
            else some ({ s with lock := some n }.setFinish n scope
              (.removing g [.visit none scope]))
      else none
  | .removing _ [] =>
      some ({ s with groups := update s.groups scope none, lock := none }.setFinish n scope
        (.returned true))
  | .removing g todo =>
      match if ok then s.walk listing todo else none with
      | some (dirs, todo) => some ({ s with dirs }.setFinish n scope (.removing g todo))
      | none => some ({ s with lock := none }.setFinish n scope (.returned false))
  | .returned _ | .dropped => none

/-- One step. -/
def step (s : CgroupState) : CgroupAction → Option CgroupState
  | .spawn n scope a =>
      if s.lock.isNone && (s.spawns n).isNone then some (s.membership n scope a) else none
  | .runSpawn n ok => (s.spawns n).bind (s.runSpawn n ok)
  | .kill scope ok =>
      if s.lock.isNone then
        match s.groups scope with
        | none => some s
        | some g => some (if ok then s.doom (s.dirs.isBelow g) else s)
      else none
  | .killAll failed =>
      if s.lock.isNone then some (s.doom (s.isRegistered fun scope => !failed.contains scope))
      else none
  | .finish n scope =>
      if (s.finishes n).isNone then some (s.setFinish n scope (.polling 500)) else none
  | .runFinish n ok listing =>
      (s.finishes n).bind fun call => s.runFinish n ok listing call.1 call.2
  | .dropFinish n =>
      match s.finishes n with
      | some (scope, .polling _) => some (s.setFinish n scope .dropped)
      | _ => none
  | a => s.runProcess a

end CgroupState

end Shepherd
