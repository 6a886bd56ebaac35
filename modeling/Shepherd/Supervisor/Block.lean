import Shepherd.Background.Task
import Shepherd.Supervisor.OwnerRuns

/-!
# Blocks

`with_scope_options` runs a body in a fresh scope. It creates an observed scope, hands the owner
to a worker that waits until the block has ended, spawns the processes of its specifications one
after the other, and runs the body with them; the first failed spawn ends the block instead. The
guard of the block tells the worker however the block ends: with a value, with a failed spawn, by
a panic or a cancellation. The worker finishes the scope, and a block that was not dropped returns
the report of its channel.

The state of a block sits on top of a configuration of the supervisor, where its spawns and the
`finish` of its worker are tasks beside everybody else's. What the body does with its handle are
calls of the supervisor. The runtime may drop the worker at any time. Two fields are history: the
spawns of the block, and the processes that the body was given.
-/

namespace Shepherd

open Conc

variable {β : Type}

/-- Where the future of a block is. -/
inductive BlockAt (β : Type) where
  /-- Before the next spawn, or before the body. -/
  | spawning (processes : List ProcessId) (specs : List ProcessSpec)
  | admitting (processes : List ProcessId) (specs : List ProcessSpec) (spawn : Tid)
  | running
  /-- Awaits the report of the cleanup. -/
  | awaiting (result : Except SpawnError β)
  | returned (result : Except SpawnError β) (termination : CleanupResult)
  /-- Dropped, or unwound by a panic. -/
  | gone

/-- A block on top of the supervisor it runs in. -/
structure BlockState (β : Type) where
  cfg : Config Res Ret Inner
  scope : ProcessScopeId
  options : TerminateOptions
  caller : BlockAt β
  /-- The guard was dropped. -/
  told : Bool
  /-- What the worker does with its owner, once it does not wait any more. -/
  worker : Option Tid
  /-- The spawns of the block, in their order. -/
  spawns : List (ProcessSpec × Tid)
  /-- What the body was given. -/
  given : Option (List ProcessId)

/-- What can happen next. -/
inductive BlockAction (β : Type) where
  | supervisor (label : Label Answer Call)
  /-- The future of the block goes on. -/
  | go
  /-- The body returns. -/
  | body (value : β)
  /-- The block finds its channel closed. -/
  | closed
  /-- The future of the block is dropped, or panics. -/
  | drop
  /-- The worker was told, and finishes the scope. -/
  | finish
  /-- The runtime drops the worker while it waits. -/
  | loseWorker

namespace BlockState

/-- The beginning of `with_scope_options`, which panics when no scope is admitted. -/
def start (cfg : Config Res Ret Inner) (specs : List ProcessSpec) (options : TerminateOptions) :
    Option (BlockState β) :=
  match supervisor.follow cfg [.start (.createScope true), .run cfg.shared.nextTask .go] with
  | none => none
  | some cfg' =>
      match returnOf cfg'.shared.history cfg.shared.nextTask with
      | some (.created (.ok scope)) =>
          some { cfg := cfg', scope, options, caller := .spawning [] specs, told := false
                 worker := none, spawns := [], given := none }
      | _ => none

/-- A supervisor call of the block. -/
def call (s : BlockState β) (call : Call) : Option (Config Res Ret Inner) :=
  supervisor.step s.cfg (.start call)

/-- The guard is dropped, and the report awaited. -/
def leave (s : BlockState β) (result : Except SpawnError β) : BlockState β :=
  { s with caller := .awaiting result, told := true }

/-- The future of the block goes on. -/
def go (s : BlockState β) : Option (BlockState β) :=
  match s.caller with
  | .spawning processes (spec :: specs) =>
      (s.call (.spawn s.scope spec false)).map fun cfg =>
        { s with
          cfg
          spawns := s.spawns ++ [(spec, s.cfg.shared.nextTask)]
          caller := .admitting processes specs s.cfg.shared.nextTask }
  | .spawning processes [] => some { s with given := some processes, caller := .running }
  | .admitting processes specs t =>
      match returnOf s.cfg.shared.history t with
      | some (.spawned _ (.ok pid)) =>
          some { s with caller := .spawning (processes ++ [pid]) specs }
      | some (.spawned _ (.error e)) => some (s.leave (.error e))
      | _ => none
  | .awaiting result =>
      (s.cfg.shared.cleanup s.scope).map fun termination =>
        { s with caller := .returned result termination }
  | _ => none

/-- The body returns. -/
def body (s : BlockState β) (value : β) : Option (BlockState β) :=
  match s.caller with
  | .running => some (s.leave (.ok value))
  | _ => none

/-- The worker is over, so that its senders are gone. -/
def workerOver (s : BlockState β) : Bool :=
  s.worker.any fun t => (s.cfg.tasks t).isNone

/-- The channel is closed, and shows nothing. -/
def closed (s : BlockState β) : Option (BlockState β) :=
  match s.caller with
  | .awaiting result =>
      if s.workerOver && (s.cfg.shared.cleanup s.scope).isNone then
        some { s with
          caller := .returned result (.error (.signal "scope cleanup worker stopped")) }
      else none
  | _ => none

/-- The future is dropped, and its guard with it. -/
def drop (s : BlockState β) : Option (BlockState β) :=
  match s.caller with
  | .returned _ _ | .gone => none
  | _ => some { s with caller := .gone, told := true }

/-- The worker takes its owner: to finish the scope, or because it is dropped. -/
def takeOwner (s : BlockState β) (call : Call) : Option (BlockState β) :=
  if s.worker.isNone then
    (s.call call).map fun cfg => { s with cfg, worker := some s.cfg.shared.nextTask }
  else none

/-- The owner of the scope is with the worker: nobody else can take it. -/
def leavesOwner (s : BlockState β) (l : Label Answer Call) : Bool :=
  match l with
  | .run t _ =>
      match s.cfg.tasks t with
      | some ⟨.op (.takeOwner c) _, _⟩ => c ≠ s.scope || s.worker == some t
      | _ => true
  | _ => true

/-- One step. -/
def step (s : BlockState β) : BlockAction β → Option (BlockState β)
  | .supervisor l =>
      if s.leavesOwner l then (supervisor.step s.cfg l).map fun cfg => { s with cfg } else none
  | .go => s.go
  | .body value => s.body value
  | .closed => s.closed
  | .drop => s.drop
  | .finish => if s.told then s.takeOwner (.finish s.scope s.options true) else none
  | .loseWorker => s.takeOwner (.dropOwner s.scope true)

end BlockState

end Shepherd
