import Shepherd.Conc.Steps
import Shepherd.Output
import Shepherd.Supervisor.State

/-!
# Captured Pipes

How the output of a process gets from its two pipes to the caller of a blocking run. A reader
task for each stream moves what it reads into the capture buffer, and closes the stream when
the pipe ends or fails (`drain`). A descendant can hold a pipe open after the root is reaped,
so `finish_readers` gives each reader some time then, and stops it otherwise. `drain_output`
reads the buffer until both streams are closed or its budget is used up.

One step is one poll of a task: a reader that is stopped has pushed all that it read. What
happens to the pipes, how long a timeout takes, and what a failed read says, is up to the
environment. The log of the buffer, what was written to a pipe, and how a stream was closed first
are history.
-/

namespace Shepherd

open Conc

/-- A pipe: what was written and not read yet, and whether somebody can still write. -/
structure Pipe where
  pending : List UInt8
  held : Bool
  /-- Everything that was written. -/
  written : List UInt8

/-- Where the reader task of a stream is. -/
inductive StreamReader where
  | reading
  | returned
  | panicked (error : String)
  | stopped
  deriving DecidableEq, Repr

/-- Where `finish_readers` is. -/
inductive Finisher where
  | unstarted
  /-- Waiting for the first of these readers. -/
  | joining (rest : List OutputStream)
  /-- This reader was aborted, and is waited for. -/
  | stopping (stream : OutputStream) (rest : List OutputStream)
  deriving DecidableEq, Repr

/-- Where `drain_output` is, with the chunks that it has read. -/
inductive DrainAt where
  | unstarted
  | reading (chunks : List OutputChunk)
  | checking (chunks : List OutputChunk) (snapshot : OutputSnapshot)
  | sleeping (chunks : List OutputChunk)
  | returned (snapshot : OutputSnapshot)
  deriving DecidableEq, Repr

/-- A captured process. -/
structure PipesState where
  pipes : OutputStream → Pipe
  readers : OutputStream → StreamReader
  finisher : Finisher
  buffer : Buffer
  now : Instant
  budget : Duration
  deadline : Instant
  drain : DrainAt
  log : ByteLog
  /-- The error of the first close of a stream, if there was one. -/
  closes : OutputStream → Option (Option String)

/-- What can happen. -/
inductive PipesAction where
  | write (stream : OutputStream) (bytes : List UInt8)
  | release (stream : OutputStream)
  | read (stream : OutputStream) (n : ℕ)
  | readEnds (stream : OutputStream)
  | readFails (stream : OutputStream) (error : String)
  | readPanics (stream : OutputStream) (error : String)
  | rootReaped
  | join
  | elapse
  | stop (stream : OutputStream)
  | tick (duration : Duration)
  | callDrain
  | drain
  deriving DecidableEq, Repr

/-- A read of `drain_output`: the chunks are collected. -/
def DrainAt.read (chunks : List OutputChunk) (snapshot : OutputSnapshot) : DrainAt :=
  .checking (chunks ++ snapshot.chunks) { snapshot with chunks := [] }

/-- The condition of its loop. -/
def DrainAt.check (now deadline : Instant) (chunks : List OutputChunk)
    (snapshot : OutputSnapshot) : DrainAt :=
  if !(snapshot.stdoutClosed && snapshot.stderrClosed) && now < deadline then .sleeping chunks
  else .returned { snapshot with chunks }

/-- A snapshot says that a stream is closed. -/
def OutputSnapshot.closed (s : OutputSnapshot) : OutputStream → Bool
  | .stdout => s.stdoutClosed
  | .stderr => s.stderrClosed

/-- The size of the array that `drain` reads into. -/
def READ_CHUNK : ℕ := 8192

namespace PipesState

/-- A process whose output is captured. -/
def start (capacity tailCapacity : ℕ) (budget : Duration) : PipesState where
  pipes _ := ⟨[], true, []⟩
  readers _ := .reading
  finisher := .unstarted
  buffer := capture capacity tailCapacity
  now := 0
  budget := budget
  deadline := 0
  drain := .unstarted
  log := .empty
  closes _ := none

/-! ### The pipes and their readers -/

/-- The pipe of a stream is changed. -/
def setPipe (s : PipesState) (stream : OutputStream) (f : Pipe → Pipe) : PipesState :=
  { s with pipes := Function.update s.pipes stream (f (s.pipes stream)) }

/-- The reader of a stream goes on. -/
def setReader (s : PipesState) (stream : OutputStream) (r : StreamReader) : PipesState :=
  { s with readers := Function.update s.readers stream r }

/-- The stream is closed in the buffer. -/
def close (s : PipesState) (stream : OutputStream) (error : Option String) : PipesState :=
  { s with
    buffer := s.buffer.close stream error
    log := s.log.call (.close stream error)
    closes := Function.update s.closes stream ((s.closes stream).or (some error)) }

/-- `drain`: a read returned some bytes, and they are pushed. -/
def readSome (s : PipesState) (stream : OutputStream) (n : ℕ) : Option PipesState :=
  let bytes := (s.pipes stream).pending.take n
  (s.buffer.push stream bytes).map fun buffer =>
    { s.setPipe stream fun p => { p with pending := p.pending.drop n } with
      buffer
      log := s.log.call (.push stream bytes) }

/-! ### The end of the root -/

/-- `finish_readers`: a reader was joined. -/
def joinReader (s : PipesState) : Option PipesState :=
  match s.finisher with
  | .joining (stream :: rest) =>
      match s.readers stream with
      | .returned => some { s with finisher := .joining rest }
      | .panicked error =>
          some { s.close stream (some ("output reader failed: " ++ error)) with
            finisher := .joining rest }
      | _ => none
  | .stopping stream rest =>
      match s.readers stream with
      | .reading => none
      | _ =>
          some { s.close stream (some "pipe remained open after root reap; reader stopped") with
            finisher := .joining rest }
  | _ => none

/-! ### The caller -/

/-- `drain_output` when it is called, and its loop. -/
def drainOutput (s : PipesState) : Option PipesState :=
  match s.drain with
  | .reading chunks =>
      let (snapshot, buffer) := s.buffer.read
      some { s with
        buffer
        log := s.log.call .read
        drain := .read chunks snapshot }
  | .checking chunks snapshot =>
      some { s with drain := .check s.now s.deadline chunks snapshot }
  | .sleeping chunks => some { s with drain := .reading chunks }
  | _ => none

/-! ### Steps -/

/-- One step. A pipe whose reader is gone takes no bytes. -/
def step (s : PipesState) : PipesAction → Option PipesState
  | .write stream bytes =>
      if (s.pipes stream).held && s.readers stream == .reading then
        some (s.setPipe stream fun p =>
          { p with pending := p.pending ++ bytes, written := p.written ++ bytes })
      else none
  | .release stream => some (s.setPipe stream fun p => { p with held := false })
  | .read stream n =>
      if s.readers stream = .reading ∧ 0 < n ∧ n ≤ READ_CHUNK ∧
          n ≤ (s.pipes stream).pending.length then
        s.readSome stream n
      else none
  | .readEnds stream =>
      if s.readers stream = .reading ∧ (s.pipes stream).pending = [] ∧
          (s.pipes stream).held = false then
        some ((s.close stream none).setReader stream .returned)
      else none
  | .readFails stream error =>
      if s.readers stream = .reading then
        some ((s.close stream (some error)).setReader stream .returned)
      else none
  | .readPanics stream error =>
      if s.readers stream = .reading then some (s.setReader stream (.panicked error)) else none
  | .rootReaped =>
      if s.finisher = .unstarted then
        some { s with finisher := .joining [.stdout, .stderr] }
      else none
  | .join => s.joinReader
  | .elapse =>
      match s.finisher with
      | .joining (stream :: rest) => some { s with finisher := .stopping stream rest }
      | _ => none
  | .stop stream =>
      match s.finisher with
      | .stopping aborted _ =>
          if aborted = stream ∧ s.readers stream = .reading then
            some (s.setReader stream .stopped)
          else none
      | _ => none
  | .tick duration => some { s with now := s.now + duration }
  | .callDrain =>
      if s.drain = .unstarted then
        some { s with drain := .reading [], deadline := s.now + s.budget }
      else none
  | .drain => s.drainOutput

end PipesState

end Shepherd
