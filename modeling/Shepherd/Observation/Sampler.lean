import Shepherd.Conc.Beside
import Shepherd.Conc.Numbers
import Shepherd.Proc.Status

/-!
# The Usage Sampler

`sample` measures a process by its number, with several reads. Meanwhile the process can end,
and its number can go to another one. The start time tells: it is read first and last, and
`sample` gives up when it has changed.

* `ProcWorld` — the processes of a machine with what they have used, and what can happen to them.
* `sample` — the program, whose reads return what the kernel writes at that time, or fail.
* `collect` — samples of several members, and `measureTree` of those of a tree.
-/

namespace Shepherd.Observation

open Conc Keyed Proc

/-- What a process has used: processor time, and memory in kilobytes. -/
structure Meter where
  ticks : ℕ
  rss : ℕ
  deriving DecidableEq, Repr

/-- The processes of a machine, what each has used, the time of the boot, the ticks of a second,
and the clock. -/
structure ProcWorld where
  procs : NumberTable
  meters : List Meter
  btime : ℕ
  hz : Int
  now : Instant
  deriving DecidableEq, Repr

/-- What can happen to it. -/
inductive ProcStep where
  | create (number start : ℕ)
  | finish (p : ℕ)
  | reap (p : ℕ)
  | work (p : ℕ) (m : Meter)
  | setTime (btime : ℕ)
  | elapse (d : Duration)

namespace ProcWorld

/-- A machine without processes. -/
def new (btime : ℕ) (hz : Int) : ProcWorld :=
  ⟨[], [], btime, hz, 0⟩

/-- One step. -/
def step (w : ProcWorld) : ProcStep → Option ProcWorld
  | .create number start =>
      (w.procs.create number start).map fun procs =>
        { w with procs, meters := w.meters ++ [⟨0, 0⟩] }
  | .finish p => some { w with procs := w.procs.finish p }
  | .reap p => (w.procs.reap p).map fun procs => { w with procs }
  | .work p m =>
      -- processor time is never given back
      if w.meters[p]?.any (·.ticks ≤ m.ticks) then some { w with meters := w.meters.set p m }
      else none
  | .setTime btime => some { w with btime }
  | .elapse d => some { w with now := w.now + d }

/-- The start time and the meter of the process with a number. -/
def shown (w : ProcWorld) (pid : ℕ) : Option (ℕ × Meter) := do
  let p ← w.procs.holder pid
  let x ← w.procs[p]?
  let m ← w.meters[p]?
  return (x.start, m)

end ProcWorld

/-! ### The program -/

/-- What a sample asks the system. -/
inductive SampleOp where
  | stat (pid : ℕ)
  | status (pid : ℕ)
  | bootStat
  | clockTicks
  | now

/-- What it gets. -/
@[reducible] def SampleOp.Result : SampleOp → Type
  | .stat _ | .status _ | .bootStat => FileContent
  | .clockTicks => Except String (Option Int)
  | .now => Instant

/-- What the system answers. A file is what the kernel writes, or cannot be read. -/
inductive SampleAnswer where
  | fails (message : String)
  | stat (st : KernelStat)
  | status (st : KernelStatus)
  | boot (b : KernelBoot)
  | known
  | unknown

/-- The answers that are right. -/
def sampleExec : Prog.Exec SampleOp.Result SampleAnswer ProcWorld
  | .stat _, .fails message, w => some (.error message, w)
  | .stat pid, .stat st, w =>
      (w.shown pid).bind fun (start, m) =>
        if st.pid = pid ∧ st.starttime = start ∧ st.utime + st.stime = m.ticks then
          some (.ok st.line, w)
        else none
  | .status _, .fails message, w => some (.error message, w)
  | .status pid, .status st, w =>
      (w.shown pid).bind fun (_, m) =>
        if st.rss.all (· = m.rss) then some (.ok st.file, w) else none
  | .bootStat, .fails message, w => some (.error message, w)
  | .bootStat, .boot b, w => if b.btime = w.btime then some (.ok b.file, w) else none
  | .clockTicks, .fails message, w => some (.error message, w)
  | .clockTicks, .known, w => some (.ok (some w.hz), w)
  | .clockTicks, .unknown, w => some (.ok none, w)
  | .now, .known, w => some (w.now, w)
  | _, _, _ => none

/-- A part of a sample. -/
abbrev SampleCode (α : Type) :=
  Prog SampleOp.Result α

/-- Asks the system. -/
def ask (o : SampleOp) : SampleCode o.Result :=
  Prog.call o

/-- The runs of a sample. -/
abbrev Observes {α : Type} (p : SampleCode α) (w : ProcWorld) (v : α) (w' : ProcWorld) : Prop :=
  p.Beside ProcWorld.step sampleExec w v w'

open Prog (onOk)

variable (seconds : ℕ → ℕ → Duration)

/-- `sample`; `seconds` is `Duration::from_secs_f64(ticks as f64 / hz as f64)`. -/
def sample (identity : ObservedProcessIdentity) :
    SampleCode (Except UsageFailure ProcessUsage) := do
  let pid := identity.osPid
  onOk (usageStat (← ask (.stat pid))) fun (start, ticks) => do
  onOk (residentBytes (← ask (.status pid))) fun rss => do
  onOk (bootTime (← ask .bootStat)) fun boot => do
  onOk (clockHz (← ask .clockTicks)) fun hz => do
  if identity.startTimeUnixSeconds.any (· ≠ startSeconds boot start hz) then
    return .error .identityChanged
  else
    onOk (usageStat (← ask (.stat pid))) fun (again, _) => do
    if again ≠ start then return .error .identityChanged
    else
      let now ← ask .now
      return .ok
        { identity
          nativeStart := start
          sampledAt := now
          cpuTime := seconds ticks hz
          residentBytes := rss
          physicalFootprintBytes := none
          peakPhysicalFootprintBytes := none
          diskReadBytes := none
          diskWriteBytes := none }

/-- The samples of some members. -/
def sampleAll : List ObservedProcessIdentity → SampleCode (List UsageEntry)
  | [] => return []
  | identity :: members => do
      let measurement ← sample seconds identity
      let entries ← sampleAll members
      return ⟨identity, measurement⟩ :: entries

/-- `collect`: a pid is measured once. -/
def collect (members : List ObservedProcessIdentity) (selection : UsageSelection) :
    SampleCode UsageSnapshot := do
  let startedAt ← ask .now
  let entries ← sampleAll seconds (firsts ObservedProcessIdentity.osPid [] members)
  let finishedAt ← ask .now
  return ⟨selection, startedAt, finishedAt, entries⟩

/-- A tree with the usage of its processes. -/
structure TreeUsage where
  tree : ProcessTree
  usage : UsageSnapshot

/-- `measure_tree`, with the `usage` of the platform. -/
def measureTree (tree : ProcessTree) : SampleCode TreeUsage := do
  let usage ← collect seconds (tree.processes.map ObservedProcess.identity) .tree
  return ⟨tree, usage⟩

end Shepherd.Observation
