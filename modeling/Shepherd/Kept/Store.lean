import Mathlib.Logic.Function.Basic
import Shepherd.Conc.Steps

/-!
# Kept Processes

A kept process outlives its owner and is owned by a durable record instead, one for each
name. `KeptProcesses` starts, adopts and lists them over a store that many owners share. A
name is claimed with the lock of the store, which is exclusive and lasts as long as the
last clone of it: a call holds one, and so does each blocking store closure it has
submitted, which runs to its end even when the call is cancelled.

A **job** is a call, a handle, or a closure or launch that runs on a blocking thread.
`holders` are the jobs that hold a clone of the claim of a name. Calls can be cancelled at
every await, handles dropped at any time, and an owner can crash with all its jobs.

The launcher and the operating system are the environment. An **instance** is a launched
child; the launcher releases it only after its commit has returned `Ok`, and an owner that
crashes before that takes the child with it. `attach` gives `None` only for an instance
that has ended, and `exited` resolves only then.

`phase` is history: what the holders of a claim are at.
-/

namespace Shepherd

/-- The name of a kept process. -/
abbrev KeptName := String

/-- What identifies a process instance. -/
structure KeptLaunch where
  osPid : ℕ
  startToken : ℕ
  deriving DecidableEq, Repr

/-- A record: the instance that owns the name, and the rest, of which the executable is
known only once the process runs. -/
structure KeptRecord where
  launch : KeptLaunch
  exe : Option String
  detail : String
  deriving DecidableEq, Repr

/-- How far a launched child is. -/
inductive InstancePhase where
  /-- Held before `exec`; its commit has not returned. -/
  | gated
  /-- Held before `exec`; its commit has returned `Ok`. -/
  | committed
  /-- Let go. -/
  | released
  /-- The program runs. -/
  | running
  | ended
  deriving DecidableEq, Repr

/-- A launched child, under the name and by the launch it was started with. -/
structure Instance where
  name : KeptName
  launch : KeptLaunch
  task : ℕ
  phase : InstancePhase
  deriving DecidableEq, Repr

/-- Where a launch is. -/
inductive LaunchStage where
  /-- Before the child is forked. -/
  | forking
  /-- In the commit, which holds a clone of the claim. -/
  | committing (id : ℕ) (launch : KeptLaunch)
  /-- The commit has returned `Ok`, and its clone is dropped. -/
  | committed (id : ℕ) (launch : KeptLaunch)
  /-- The child was let go. -/
  | opened (id : ℕ) (launch : KeptLaunch)
  | returned (launch : Option KeptLaunch)
  deriving DecidableEq, Repr

/-- The jobs. Where a call awaits a closure, it names it. -/
inductive Job where
  /-- `start`: in `claim`. -/
  | startLocking (name : KeptName) (detail : String)
  /-- `start`: before the previous record is read. -/
  | startReading (name : KeptName) (detail : String)
  /-- `start`: before the previous process is attached. -/
  | startAttaching (name : KeptName) (detail : String) (previous : KeptRecord)
  /-- `start`: before the launch is submitted. -/
  | startPreparing (name : KeptName) (detail : String)
  | startLaunching (name : KeptName) (detail : String) (task : ℕ)
  /-- `start`: the launch failed; a record written before is removed. -/
  | startRemoving (name : KeptName) (task : ℕ)
  /-- `start`: the executable is added to the record. -/
  | startRewriting (name : KeptName) (record : KeptRecord) (task : ℕ)
  | adoptLocking (name : KeptName)
  | adoptReading (name : KeptName)
  | adoptAttaching (name : KeptName) (record : KeptRecord)
  /-- `adopt`: the claim has moved into the closure. -/
  | adoptRemoving (task : ℕ)
  | listNaming
  /-- `list`: the names that are left. -/
  | listNext (names : List KeptName)
  | listAttaching (name : KeptName) (record : KeptRecord) (names : List KeptName)
  | listLocking (name : KeptName) (record : KeptRecord) (alive : Bool) (names : List KeptName)
  /-- `list`: has the claim of a live process, for the moment. -/
  | listDropping (name : KeptName) (names : List KeptName)
  | listRereading (name : KeptName) (record : KeptRecord) (names : List KeptName)
  | listRechecking (name : KeptName) (current : KeptRecord) (names : List KeptName)
  | listRemoving (task : ℕ) (names : List KeptName)
  /-- A `KeptProcess`. -/
  | handle (name : KeptName) (record : KeptRecord)
  /-- `terminate`: waits for the exit, and then for the removal. -/
  | terminating (name : KeptName) (record : KeptRecord)
  | forgetting (name : KeptName) (record : KeptRecord) (task : ℕ)
  /-- A launch on a blocking thread, for a call of `start`. -/
  | launch (name : KeptName) (detail : String) (frame : ℕ) (stage : LaunchStage)
  /-- Store closures on blocking threads. -/
  | remove (name : KeptName)
  | write (name : KeptName) (record : KeptRecord)
  /-- A lock closure whose call was cancelled, before and after it has the claim. -/
  | probe (name : KeptName)
  | probed (name : KeptName)
  /-- Done, cancelled, dropped or crashed. -/
  | finished
  deriving DecidableEq, Repr

/-- The claim a job holds. -/
def Job.holds : Job → Option KeptName
  | .startReading name _ | .startAttaching name _ _ | .startPreparing name _
  | .startLaunching name _ _ | .startRemoving name _ | .startRewriting name _ _
  | .adoptReading name | .adoptAttaching name _ | .listDropping name _
  | .listRereading name _ _ | .listRechecking name _ _ | .handle name _ | .terminating name _
  | .forgetting name _ _ | .remove name | .write name _ | .probed name => some name
  | .launch name _ _ .forking | .launch name _ _ (.committing _ _) => some name
  | _ => none

/-- A call that can be cancelled at its await, or a handle that can be dropped. -/
def Job.cancellable : Job → Bool
  | .launch .. | .remove _ | .write .. | .probe _ | .probed _ | .finished => false
  | _ => true

/-- What the holders of a claim are at: one call inspects the name; a call and its launch
are at a new process; or what is under the name is settled. -/
inductive ClaimPhase where
  | inspecting (job : ℕ)
  | launching (frame task : ℕ)
  | settled
  deriving DecidableEq, Repr

structure KeptState where
  records : KeptName → Option KeptRecord
  holders : KeptName → List ℕ
  jobs : ℕ → Option Job
  owners : ℕ → ℕ
  nextJob : ℕ
  instances : ℕ → Option Instance
  nextInstance : ℕ
  phase : KeptName → ClaimPhase

/-- What the store, the launcher and the operating system answer to a step of a job: whether
it succeeds, whether a write or removal has its effect though it fails, whether an instance
is attached to, the identity of a forked child, the executable, and the names of the store. -/
structure KeptAnswer where
  ok : Bool
  stored : Bool
  attached : Bool
  launch : KeptLaunch
  exe : Option String
  names : List KeptName
  deriving DecidableEq, Repr

inductive KeptAction where
  | start (owner : ℕ) (name : KeptName) (detail : String)
  | adopt (owner : ℕ) (name : KeptName)
  | list (owner : ℕ)
  | run (job : ℕ) (os : KeptAnswer)
  /-- A call is cancelled, or a handle is dropped or released. -/
  | cancel (job : ℕ)
  /-- `exited` of a handle has seen the exit and submits the removal. -/
  | exited (job : ℕ)
  | terminate (job : ℕ)
  | crash (owner : ℕ)
  /-- A released child runs its program, or fails to; a process exits. -/
  | exec (id : ℕ) (ok : Bool)
  | exit (id : ℕ)

namespace KeptState

/-- An empty store and no owners. -/
def new : KeptState where
  records := fun _ => none
  holders := fun _ => []
  jobs := fun _ => none
  owners := fun _ => 0
  nextJob := 0
  instances := fun _ => none
  nextInstance := 0
  phase := fun _ => .settled

/-- Some instance with this identity has not ended. -/
def aliveAs (s : KeptState) (launch : KeptLaunch) : Bool :=
  (List.range s.nextInstance).any fun i =>
    match s.instances i with
    | some inst => inst.launch == launch && inst.phase != .ended
    | none => false

/-- An identity no instance has had. -/
def freshLaunch (s : KeptState) (launch : KeptLaunch) : Bool :=
  (List.range s.nextInstance).all fun i =>
    match s.instances i with
    | some inst => inst.launch != launch
    | none => true

/-- Moves a job. -/
def move (s : KeptState) (p : ℕ) (job : Job) : KeptState :=
  { s with jobs := Function.update s.jobs p (some job) }

/-- Puts a new job beside the others. -/
def spawn (s : KeptState) (owner : ℕ) (job : Job) : KeptState :=
  { s with
    jobs := Function.update s.jobs s.nextJob (some job)
    owners := Function.update s.owners s.nextJob owner
    nextJob := s.nextJob + 1 }

/-- A clone of the claim for a job. -/
def clone (s : KeptState) (name : KeptName) (p : ℕ) : KeptState :=
  { s with holders := Function.update s.holders name (p :: s.holders name) }

/-- A job drops its clone. -/
def dropClaim (s : KeptState) (name : KeptName) (p : ℕ) : KeptState :=
  { s with holders := Function.update s.holders name ((s.holders name).erase p) }

/-- The history of a claim moves on. -/
def enter (s : KeptState) (name : KeptName) (phase : ClaimPhase) : KeptState :=
  { s with phase := Function.update s.phase name phase }

/-- `store.lock`, when nobody holds the name. -/
def acquire (s : KeptState) (name : KeptName) (p : ℕ) : KeptState :=
  (s.clone name p).enter name (.inspecting p)

/-- A job drops its clone and moves on without it. -/
def leave (s : KeptState) (name : KeptName) (p : ℕ) (job : Job) : KeptState :=
  (s.dropClaim name p).move p job

/-- `store.write` and `store.remove`. -/
def store (s : KeptState) (name : KeptName) (record : Option KeptRecord) : KeptState :=
  { s with records := Function.update s.records name record }

/-- A child is forked. -/
def fork (s : KeptState) (child : Instance) : KeptState :=
  { s with
    instances := Function.update s.instances s.nextInstance (some child)
    nextInstance := s.nextInstance + 1 }

/-- An instance moves on, unless it has ended. -/
def setPhase (s : KeptState) (i : ℕ) (phase : InstancePhase) : KeptState :=
  { s with
    instances := Function.update s.instances i
      ((s.instances i).map fun inst =>
        if inst.phase = .ended then inst else { inst with phase := phase }) }

/-- Submits a closure that holds a clone of the claim, and awaits it. -/
def submit (s : KeptState) (p : ℕ) (name : KeptName) (closure : Job) (await : ℕ → Job) :
    KeptState :=
  ((s.spawn (s.owners p) closure).clone name s.nextJob).move p (await s.nextJob)

/-- Submits a closure that the claim moves into, and awaits it. -/
def submitLast (s : KeptState) (p : ℕ) (name : KeptName) (closure : Job) (await : ℕ → Job) :
    KeptState :=
  ((s.submit p name closure await).enter name .settled).dropClaim name p

/-- A closure is done. -/
def isFinished (s : KeptState) (p : ℕ) : Bool :=
  s.jobs p == some .finished

/-- The next step of a launch. -/
def launchStep (s : KeptState) (p : ℕ) (os : KeptAnswer) (name : KeptName) (detail : String)
    (frame : ℕ) : LaunchStage → Option KeptState
  | .forking =>
      if !os.ok then some (s.leave name p (.launch name detail frame (.returned none)))
      else if s.freshLaunch os.launch then
        some ((s.fork ⟨name, os.launch, p, .gated⟩).move p
          (.launch name detail frame (.committing s.nextInstance os.launch)))
      else none
  | .committing i launch =>
      let written := s.store name (some ⟨launch, none, detail⟩)
      some (if os.ok then
        (written.setPhase i .committed).leave name p
          (.launch name detail frame (.committed i launch))
        else
          (if os.stored then written else s).setPhase i .ended |>.leave name p
            (.launch name detail frame (.returned none)))
  | .committed i launch =>
      some (if os.ok then
        (s.setPhase i .released).move p (.launch name detail frame (.opened i launch))
        else (s.setPhase i .ended).move p (.launch name detail frame (.returned none)))
  | .opened i launch =>
      match (s.instances i).map Instance.phase with
      | some .running => some (s.move p (.launch name detail frame (.returned (some launch))))
      | some .ended =>
          some (s.move p (.launch name detail frame
            (.returned (if os.ok then some launch else none))))
      | _ => none
  | .returned _ => none

/-- The next step of a job. -/
def runJob (s : KeptState) (p : ℕ) (os : KeptAnswer) : Job → Option KeptState
  | .startLocking name detail =>
      some (if os.ok ∧ s.holders name = [] then
        (s.acquire name p).move p (.startReading name detail)
        else if os.ok then s else s.move p .finished)
  | .startReading name detail =>
      some (if os.ok then
        s.move p (match s.records name with
          | some previous => .startAttaching name detail previous
          | none => .startPreparing name detail)
        else s.leave name p .finished)
  | .startAttaching name detail previous =>
      if os.ok ∧ !os.attached then
        if s.aliveAs previous.launch then none
        else some (s.move p (.startPreparing name detail))
      else some (s.leave name p .finished)
  | .startPreparing name detail =>
      some ((s.submit p name (.launch name detail p .forking)
        (.startLaunching name detail)).enter name (.launching p s.nextJob))
  | .startLaunching name detail task =>
      match s.jobs task with
      | some (.launch _ _ _ (.returned (some launch))) =>
          let record : KeptRecord := ⟨launch, os.exe, detail⟩
          some ((s.submit p name (.write name record) (.startRewriting name record)).enter name
            .settled)
      | some (.launch _ _ _ (.returned none)) =>
          some ((s.submit p name (.remove name) (.startRemoving name)).enter name .settled)
      | _ => none
  | .startRemoving name task =>
      if s.isFinished task then some (s.leave name p .finished) else none
  | .startRewriting name record task =>
      if s.isFinished task then some (s.move p (.handle name record)) else none
  | .adoptLocking name =>
      some (if os.ok ∧ s.holders name = [] then (s.acquire name p).move p (.adoptReading name)
        else if os.ok then s else s.move p .finished)
  | .adoptReading name =>
      some (match os.ok, s.records name with
        | true, some record => s.move p (.adoptAttaching name record)
        | _, _ => s.leave name p .finished)
  | .adoptAttaching name record =>
      if !os.ok then some (s.leave name p .finished)
      else if os.attached then some ((s.move p (.handle name record)).enter name .settled)
      else if s.aliveAs record.launch then none
      else some (s.submitLast p name (.remove name) .adoptRemoving)
  | .adoptRemoving task => if s.isFinished task then some (s.move p .finished) else none
  | .listNaming => some (s.move p (if os.ok then .listNext os.names else .finished))
  | .listNext [] => some (s.move p .finished)
  | .listNext (name :: names) =>
      some (s.move p (match os.ok, s.records name with
        | true, some record => .listAttaching name record names
        | true, none => .listNext names
        | false, _ => .finished))
  | .listAttaching name record names =>
      if !os.ok then some (s.move p .finished)
      else if !os.attached && s.aliveAs record.launch then none
      else some (s.move p (.listLocking name record os.attached names))
  | .listLocking name record alive names =>
      some (if !os.ok then s.move p .finished
        else if s.holders name ≠ [] then s.move p (.listNext names)
        else
          (s.acquire name p).move p
            (if alive then .listDropping name names else .listRereading name record names))
  | .listDropping name names => some (s.leave name p (.listNext names))
  | .listRereading name record names =>
      some (if !os.ok then s.leave name p .finished
        else
          match s.records name with
          | some current =>
              if current = record then
                s.submitLast p name (.remove name) (.listRemoving · names)
              else s.move p (.listRechecking name current names)
          | none => s.leave name p (.listNext names))
  | .listRechecking name _ names =>
      some (s.leave name p (if os.ok then .listNext names else .finished))
  | .listRemoving task names =>
      if s.isFinished task then some (s.move p (if os.ok then .listNext names else .finished))
      else none
  | .handle _ _ => none
  | .terminating name record =>
      if os.ok then
        if s.aliveAs record.launch then none
        else some (s.submit p name (.remove name) (.forgetting name record))
      else some (s.leave name p .finished)
  | .forgetting name _ task =>
      if s.isFinished task then some (s.leave name p .finished) else none
  | .launch name detail frame stage => s.launchStep p os name detail frame stage
  | .remove name =>
      some ((if os.ok || os.stored then s.store name none else s).leave name p .finished)
  | .write name record =>
      some ((if os.ok || os.stored then s.store name (some record) else s).leave name p .finished)
  | .probe name =>
      some (if os.ok ∧ s.holders name = [] then (s.acquire name p).move p (.probed name)
        else s.move p .finished)
  | .probed name => some (s.leave name p .finished)
  | .finished => none

/-- A call is cancelled, or a handle dropped. A lock closure that was submitted goes on
alone; so do the other closures. -/
def cancel (s : KeptState) (p : ℕ) (job : Job) : Option KeptState :=
  match job with
  | .startLocking name _ | .adoptLocking name | .listLocking name _ _ _ =>
      some (s.move p (.probe name))
  | job =>
      if job.cancellable then
        some (match job.holds with
          | some name => s.leave name p .finished
          | none => s.move p .finished)
      else none

/-- An owner crashes: its jobs are gone with their claims, and so are the children it has
not let go. -/
def crash (s : KeptState) (owner : ℕ) : KeptState :=
  { s with
    jobs := fun p => if s.owners p = owner then (s.jobs p).map fun _ => .finished else s.jobs p
    holders := fun name => (s.holders name).filter fun p => s.owners p ≠ owner
    instances := fun i => (s.instances i).map fun inst =>
      if s.owners inst.task = owner ∧ (inst.phase = .gated ∨ inst.phase = .committed) then
        { inst with phase := .ended }
      else inst }

/-- One step. -/
def step (s : KeptState) : KeptAction → Option KeptState
  | .start owner name detail => some (s.spawn owner (.startLocking name detail))
  | .adopt owner name => some (s.spawn owner (.adoptLocking name))
  | .list owner => some (s.spawn owner .listNaming)
  | .run p os => (s.jobs p).bind (s.runJob p os)
  | .cancel p => (s.jobs p).bind (s.cancel p)
  | .exited p =>
      match s.jobs p with
      | some (.handle name record) =>
          if s.aliveAs record.launch then none
          else some ((s.spawn (s.owners p) (.remove name)).clone name s.nextJob)
      | _ => none
  | .terminate p =>
      match s.jobs p with
      | some (.handle name record) => some (s.move p (.terminating name record))
      | _ => none
  | .crash owner => some (s.crash owner)
  | .exec i ok =>
      match (s.instances i).map Instance.phase with
      | some .released => some (s.setPhase i (if ok then .running else .ended))
      | _ => none
  | .exit i => some (s.setPhase i .ended)

end KeptState

end Shepherd
