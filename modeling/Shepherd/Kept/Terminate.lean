import Shepherd.Kept.Directory
import Shepherd.Kept.Watch
import Shepherd.Service.Status

/-!
# Terminating a Kept Process

`KeptProcess::terminate` sends the graceful signal, waits for the grace period, forces and
waits again. It is a program over a target, a clock and a store, any of which may answer
anything at any time: signals succeed or fail, the target resolves its exit at any poll or
never, a sleep ends first, the removal of the record fails and may have removed it all the same.

A `World` has the record of the process, if there is one, and the history of the call, oldest
first. `Truthful` is what the result says about the two (`termination_is_truthful`): the exit
was observed once and the record removed, or the outcome is unverified.
-/

namespace Shepherd.Records

open Conc

/-- `Duration::saturating_add`. -/
def saturatingAdd (d e : Duration) : Duration := min (d + e) DURATION_MAX

/-- Reported as the wait when a swept group did not empty. -/
def GROUP_REPORT : Duration := secs 2

/-- The result of terminating a kept process. -/
structure KeptTermination where
  outcome : TerminationOutcome
  exit : Option KeptExit
  deriving DecidableEq, Repr

/-- A kept process held by this owner, by its record. -/
structure KeptProcess where
  record : KeptRecord

/-! ### Target, clock and store -/

/-- What the program asks for. -/
inductive TerminateOp where
  /-- `now_or_never` on `exited` -/
  | pollExited
  | signal (signal : Signal)
  /-- `select!` of `exited` and a sleep -/
  | exitedOrSleep (duration : Duration)
  | exited
  /-- `store.remove`, through `blocking` -/
  | remove

/-- What it gets. -/
@[reducible] def TerminateOp.Result : TerminateOp → Type
  | .pollExited | .exitedOrSleep _ => Option KeptExit
  | .signal _ | .remove => Except KeptError Unit
  | .exited => KeptExit

/-- What the environment decides. A removal that fails may have removed the record. -/
inductive TerminateAnswer where
  | pending
  | exits (exit : KeptExit)
  | signals (result : Except KeptError Unit)
  | removes
  | fails (error : KeptError) (removed : Bool)

/-- What happened in a call. -/
inductive TerminateEvent where
  | exited (exit : KeptExit)
  | signalled (signal : Signal) (result : Except KeptError Unit)
  | slept (duration : Duration)
  | removed (result : Except KeptError Unit)

/-- The stored record and the history of the call. -/
structure World where
  record : Option KeptRecord
  log : List TerminateEvent

namespace World

/-- A call begins. -/
def start (record : Option KeptRecord) : World := ⟨record, []⟩

/-- Something happened. -/
def add (w : World) (event : TerminateEvent) : World :=
  { w with log := w.log ++ [event] }

/-- A removal returned and left this record. -/
def removed (w : World) (result : Except KeptError Unit) (record : Option KeptRecord) : World :=
  { w.add (.removed result) with record := record }

end World

/-- What the operations do. -/
def terminateExec : Prog.Exec TerminateOp.Result TerminateAnswer World
  | .pollExited, .exits exit, w => some (some exit, w.add (.exited exit))
  | .pollExited, .pending, w => some (none, w)
  | .signal s, .signals result, w => some (result, w.add (.signalled s result))
  | .exitedOrSleep _, .exits exit, w => some (some exit, w.add (.exited exit))
  | .exitedOrSleep d, .pending, w => some (none, w.add (.slept d))
  | .exited, .exits exit, w => some (exit, w.add (.exited exit))
  | .remove, .removes, w => some (.ok (), w.removed (.ok ()) none)
  | .remove, .fails error gone, w =>
      some (.error error, w.removed (.error error) (if gone then none else w.record))
  | _, _, _ => none

/-- **The directory store answers like this**: what it makes of the map at the name of the
claim is what a removal makes of the record. -/
theorem remove_answered {J : Json} {failed : Bool} {m m' : RecordMap} {lock : KeptLock}
    {result : Except StoreError Unit} (h : Spec J failed m (.remove lock) (.removed result) m')
    (error : StoreError → KeptError) (log : List TerminateEvent) :
    ∃ a, terminateExec .remove a ⟨m lock.name, log⟩ =
      some (result.mapError error,
        ⟨m' lock.name, log ++ [.removed (result.mapError error)]⟩) := by
  cases h with
  | remove => exact ⟨.removes, by rw [Function.update_self]; rfl⟩
  | removeFailed hf hm =>
      next e =>
      rcases hm with rfl | rfl
      · exact ⟨.fails (error e) false, rfl⟩
      · exact ⟨.fails (error e) true, by rw [Function.update_self]; rfl⟩

/-! ### The program -/

/-- A part of `terminate`. -/
abbrev TerminateCode (α : Type) := Prog TerminateOp.Result α

/-- Asks for something. -/
def ask (o : TerminateOp) : TerminateCode o.Result :=
  Prog.call o

/-- `forget`. -/
def forget : TerminateCode (Except KeptError Unit) :=
  ask .remove

/-- `finish`: the leader is gone, so the record can no longer reach members that outlived the
sweep. It is dropped, but that is never called verified. -/
def finish (outcome : TerminationOutcome) (exit : Option KeptExit) :
    TerminateCode KeptTermination := do
  let outcome :=
    if exit.any (·.stragglers) then .cleanupUnverified (.waitTimedOut GROUP_REPORT) else outcome
  match ← forget with
  | .ok () => return ⟨outcome, exit⟩
  | .error _ => return ⟨.cleanupUnverified .reapFailed, exit⟩

/-- `terminate` from the force step on. A force signal that fails is only logged. -/
def force (options : TerminateOptions) : TerminateCode KeptTermination := do
  let _ ← ask (.signal .kill)
  let exit ← match options.forceTimeout with
    | none => pure (some (← ask .exited))
    | some timeout => ask (.exitedOrSleep timeout)
  match exit with
  | some exit => finish .forcedRequired (some exit)
  | none =>
      return ⟨.cleanupUnverified (.waitTimedOut
        (saturatingAdd options.grace (options.forceTimeout.getD 0))), none⟩

/-- `terminate`. -/
def KeptProcess.terminate (process : KeptProcess) (options : TerminateOptions) :
    TerminateCode KeptTermination := do
  match ← ask .pollExited with
  | some exit => finish .exitedNaturally (some exit)
  | none =>
      match ← ask (.signal process.record.gracefulSignal) with
      | .ok () =>
          match ← ask (.exitedOrSleep options.grace) with
          | some exit => finish .gracefulSuccess (some exit)
          | none => force options
      | .error _ => force options

/-! ### Histories -/

/-- The exits that `exited` resolved with. -/
def exitsIn (log : List TerminateEvent) : List KeptExit :=
  log.filterMap fun
    | .exited exit => some exit
    | _ => none

/-- The signals, in order. -/
def signalsIn (log : List TerminateEvent) : List Signal :=
  log.filterMap fun
    | .signalled signal _ => some signal
    | _ => none

/-- What the store operations returned. -/
def removalsIn (log : List TerminateEvent) : List (Except KeptError Unit) :=
  log.filterMap fun
    | .removed result => some result
    | _ => none

/-- All signals a call may send: the graceful one, and the one of the force step. -/
def KeptProcess.signalSteps (process : KeptProcess) : List Signal :=
  [process.record.gracefulSignal, .kill]

/-- **What a termination says** about the record before and the world after the call. -/
structure Truthful (process : KeptProcess) (record : Option KeptRecord) (t : KeptTermination)
    (w : World) : Prop where
  /-- A verified exit left no straggler, and its record was removed. -/
  verified : t.outcome.isVerified = true →
    ∃ exit, exitsIn w.log = [exit] ∧ exit.stragglers = false ∧
      removalsIn w.log = [.ok ()] ∧ w.record = none
  /-- Without an exit nothing is verified, and the record stays. -/
  unobserved : exitsIn w.log = [] →
    t.outcome.isVerified = false ∧ t.exit = none ∧ removalsIn w.log = [] ∧ w.record = record
  /-- An exit is returned, and the removal is attempted once. -/
  observed : ∀ exit ∈ exitsIn w.log, t.exit = some exit ∧ ∃ result, removalsIn w.log = [result]
  /-- The force step is the second signal. -/
  signals : signalsIn w.log <+: process.signalSteps
  unforced : t.outcome = .gracefulSuccess ∨ t.outcome = .exitedNaturally →
    signalsIn w.log ≠ process.signalSteps
  natural : t.outcome = .exitedNaturally → signalsIn w.log = []

/-- The exit was observed, so that this is the outcome if the cleanup succeeds. -/
structure ExitSeen (process : KeptProcess) (outcome : TerminationOutcome) (exit : KeptExit)
    (w : World) : Prop where
  observed : exitsIn w.log = [exit]
  removals : removalsIn w.log = []
  signals : signalsIn w.log <+: process.signalSteps
  unforced : outcome = .gracefulSuccess ∨ outcome = .exitedNaturally →
    signalsIn w.log ≠ process.signalSteps
  natural : outcome = .exitedNaturally → signalsIn w.log = []

/-- The exit was not observed, and these signals were sent. -/
structure Waiting (sent : List Signal) (record : Option KeptRecord) (w : World) : Prop where
  observed : exitsIn w.log = []
  removals : removalsIn w.log = []
  signals : signalsIn w.log = sent
  record : w.record = record

variable {process : KeptProcess} {record : Option KeptRecord} {w : World} {exit : KeptExit}
  {outcome : TerminationOutcome} {sent : List Signal} {α : Type} {Q : α → World → Prop}

/-- The exits in two logs, one after the other. -/
theorem exitsIn_append (log log' : List TerminateEvent) :
    exitsIn (log ++ log') = exitsIn log ++ exitsIn log' :=
  List.filterMap_append

/-- The signals in two logs, one after the other. -/
theorem signalsIn_append (log log' : List TerminateEvent) :
    signalsIn (log ++ log') = signalsIn log ++ signalsIn log' :=
  List.filterMap_append

/-- The removals in two logs, one after the other. -/
theorem removalsIn_append (log log' : List TerminateEvent) :
    removalsIn (log ++ log') = removalsIn log ++ removalsIn log' :=
  List.filterMap_append

/-- At the start, nothing was sent and the record is there. -/
theorem Waiting.start (record : Option KeptRecord) : Waiting [] record (.start record) :=
  ⟨rfl, rfl, rfl, rfl⟩

/-- Sleeping sends nothing. -/
theorem Waiting.slept (h : Waiting sent record w) (d : Duration) :
    Waiting sent record (w.add (.slept d)) where
  observed := by rw [World.add, exitsIn_append, h.observed]; rfl
  removals := by rw [World.add, removalsIn_append, h.removals]; rfl
  signals := by rw [World.add, signalsIn_append, h.signals]; exact List.append_nil _
  record := h.record

/-- A signal is sent, whatever it returns. -/
theorem Waiting.signalled (h : Waiting sent record w) (s : Signal)
    (result : Except KeptError Unit) :
    Waiting (sent ++ [s]) record (w.add (.signalled s result)) where
  observed := by rw [World.add, exitsIn_append, h.observed]; rfl
  removals := by rw [World.add, removalsIn_append, h.removals]; rfl
  signals := by rw [World.add, signalsIn_append, h.signals]; rfl
  record := h.record

/-- The exit is observed, and the signals that were sent decide the outcome. -/
theorem Waiting.exited (h : Waiting sent record w) (hsent : sent <+: process.signalSteps)
    (hunforced : outcome = .gracefulSuccess ∨ outcome = .exitedNaturally →
      sent ≠ process.signalSteps)
    (hnatural : outcome = .exitedNaturally → sent = []) (exit : KeptExit) :
    ExitSeen process outcome exit (w.add (.exited exit)) := by
  have hsignals : signalsIn (w.add (.exited exit)).log = sent := by
    rw [World.add, signalsIn_append, h.signals]
    exact List.append_nil _
  constructor
  · rw [World.add, exitsIn_append, h.observed]
    rfl
  · rw [World.add, removalsIn_append, h.removals]
    rfl
  · rwa [hsignals]
  · rwa [hsignals]
  · rwa [hsignals]

/-- The call gives up. -/
theorem Waiting.truthful (h : Waiting sent record w) (hsent : sent <+: process.signalSteps)
    (waited : Duration) :
    Truthful process record ⟨.cleanupUnverified (.waitTimedOut waited), none⟩ w where
  verified hv := by cases hv
  unobserved _ := ⟨rfl, rfl, h.removals, h.record⟩
  observed exit hm := by rw [h.observed] at hm; cases hm
  signals := by rw [h.signals]; exact hsent
  unforced hu := by rcases hu with hu | hu <;> cases hu
  natural hn := by cases hn

/-- The removal returned: the outcome is the one of the exit only if nothing was left. -/
theorem ExitSeen.truthful (h : ExitSeen process outcome exit w) {result : Except KeptError Unit}
    {left : Option KeptRecord} {o : TerminationOutcome}
    (ho : o = outcome ∧ exit.stragglers = false ∧ result = .ok () ∧ left = none ∨
      ∃ reason, o = .cleanupUnverified reason) :
    Truthful process record ⟨o, some exit⟩ (w.removed result left) := by
  have hobserved : exitsIn (w.removed result left).log = [exit] := by
    rw [World.removed, World.add, exitsIn_append, h.observed]
    rfl
  have hremovals : removalsIn (w.removed result left).log = [result] := by
    rw [World.removed, World.add, removalsIn_append, h.removals]
    rfl
  have hsignals : signalsIn (w.removed result left).log = signalsIn w.log := by
    rw [World.removed, World.add, signalsIn_append]
    exact List.append_nil _
  constructor
  · intro hv
    rcases ho with ⟨rfl, hs, rfl, rfl⟩ | ⟨reason, rfl⟩
    · exact ⟨exit, hobserved, hs, hremovals, rfl⟩
    · cases hv
  · intro hn
    rw [hobserved] at hn
    cases hn
  · intro e hm
    rw [hobserved, List.mem_singleton] at hm
    exact ⟨congrArg some hm.symm, result, hremovals⟩
  · rw [hsignals]
    exact h.signals
  · intro hu
    rw [hsignals]
    rcases ho with ⟨rfl, -⟩ | ⟨reason, rfl⟩
    · exact h.unforced hu
    · rcases hu with hu | hu <;> cases hu
  · intro hn
    rw [hsignals]
    rcases ho with ⟨rfl, -⟩ | ⟨reason, rfl⟩
    · exact h.natural hn
    · cases hn

/-! ### The rules -/

/-- **The rule for a look at the exit.** -/
theorem wp_pollExited {k : Option KeptExit → TerminateCode α}
    (hexit : ∀ exit, (k (some exit)).wp terminateExec Q (w.add (.exited exit)))
    (hpending : (k none).wp terminateExec Q w) :
    ((ask .pollExited).bind k).wp terminateExec Q w := by
  intro a r w' he
  cases a with
  | exits exit =>
      obtain ⟨rfl, rfl⟩ := Prod.mk.inj (Option.some.inj he)
      exact hexit exit
  | pending =>
      obtain ⟨rfl, rfl⟩ := Prod.mk.inj (Option.some.inj he)
      exact hpending
  | signals | removes | fails => cases he

/-- **The rule for a sleep that an exit interrupts.** -/
theorem wp_exitedOrSleep {d : Duration} {k : Option KeptExit → TerminateCode α}
    (hexit : ∀ exit, (k (some exit)).wp terminateExec Q (w.add (.exited exit)))
    (hslept : (k none).wp terminateExec Q (w.add (.slept d))) :
    ((ask (.exitedOrSleep d)).bind k).wp terminateExec Q w := by
  intro a r w' he
  cases a with
  | exits exit =>
      obtain ⟨rfl, rfl⟩ := Prod.mk.inj (Option.some.inj he)
      exact hexit exit
  | pending =>
      obtain ⟨rfl, rfl⟩ := Prod.mk.inj (Option.some.inj he)
      exact hslept
  | signals | removes | fails => cases he

/-- **The rule for waiting for the exit.** -/
theorem wp_exited {k : KeptExit → TerminateCode α}
    (hexit : ∀ exit, (k exit).wp terminateExec Q (w.add (.exited exit))) :
    ((ask .exited).bind k).wp terminateExec Q w := by
  intro a r w' he
  cases a with
  | exits exit =>
      obtain ⟨rfl, rfl⟩ := Prod.mk.inj (Option.some.inj he)
      exact hexit exit
  | pending | signals | removes | fails => cases he

/-- **The rule for a signal**, which may fail. -/
theorem wp_signal {s : Signal} {k : Except KeptError Unit → TerminateCode α}
    (h : ∀ result, (k result).wp terminateExec Q (w.add (.signalled s result))) :
    ((ask (.signal s)).bind k).wp terminateExec Q w := by
  intro a r w' he
  cases a with
  | signals result =>
      obtain ⟨rfl, rfl⟩ := Prod.mk.inj (Option.some.inj he)
      exact h result
  | pending | exits | removes | fails => cases he

/-- **The rule for the removal of the record**, which may fail. -/
theorem wp_forget {k : Except KeptError Unit → TerminateCode α}
    (hok : (k (.ok ())).wp terminateExec Q (w.removed (.ok ()) none))
    (hfail : ∀ e left, (k (.error e)).wp terminateExec Q (w.removed (.error e) left)) :
    (forget.bind k).wp terminateExec Q w := by
  intro a r w' he
  cases a with
  | removes =>
      obtain ⟨rfl, rfl⟩ := Prod.mk.inj (Option.some.inj he)
      exact hok
  | fails e gone =>
      obtain ⟨rfl, rfl⟩ := Prod.mk.inj (Option.some.inj he)
      exact hfail e _
  | pending | exits | signals => cases he

/-! ### The program is truthful -/

/-- With an exit seen, the end of a termination is truthful. -/
theorem finish_truthful (h : ExitSeen process outcome exit w) :
    (finish outcome (some exit)).wp terminateExec (Truthful process record) w := by
  refine wp_forget ?_ fun e left => ?_
  · refine h.truthful ?_
    cases hs : exit.stragglers with
    | false => exact .inl ⟨by simp [hs], rfl, rfl, rfl⟩
    | true => exact .inr ⟨.waitTimedOut GROUP_REPORT, by simp [hs]⟩
  · exact h.truthful (.inr ⟨.reapFailed, rfl⟩)

/-- The force phase is truthful: it sends `SIGKILL` once, after the graceful signal. -/
theorem force_truthful {options : TerminateOptions} (h : Waiting [s] record w)
    (hs : s = process.record.gracefulSignal) :
    (force options).wp terminateExec (Truthful process record) w := by
  subst hs
  refine wp_signal fun result => ?_
  have hw := h.signalled .kill result
  have hexit (w' : World) (h' : Waiting process.signalSteps record w') (exit : KeptExit) :
      (finish .forcedRequired (some exit)).wp terminateExec (Truthful process record)
        (w'.add (.exited exit)) :=
    finish_truthful (h'.exited (List.prefix_refl _)
      (fun hu => by rcases hu with hu | hu <;> cases hu) (fun hn => by cases hn) exit)
  cases options.forceTimeout with
  | none => exact wp_exited (hexit _ hw)
  | some timeout =>
      refine wp_exitedOrSleep (hexit _ hw) ?_
      exact (hw.slept timeout).truthful (List.prefix_refl _) _

/-- **A termination is truthful**, for every target, clock and store. -/
theorem terminate_truthful (process : KeptProcess) (options : TerminateOptions)
    (record : Option KeptRecord) :
    (process.terminate options).wp terminateExec (Truthful process record) (.start record) := by
  have h := Waiting.start record
  refine wp_pollExited (fun exit => ?_) (wp_signal fun result => ?_)
  · exact finish_truthful (h.exited List.nil_prefix (fun _ hn => by cases hn) (fun _ => rfl) exit)
  · have hw := h.signalled process.record.gracefulSignal result
    cases result with
    | error e => exact force_truthful hw rfl
    | ok =>
        refine wp_exitedOrSleep (fun exit => ?_) (force_truthful (hw.slept options.grace) rfl)
        exact finish_truthful (hw.exited ⟨[.kill], rfl⟩ (fun _ hn => by cases hn)
          (fun hn => by cases hn) exit)

/-- **Termination tells the truth about the record**, whatever the target, the clock and the
store do. -/
theorem termination_is_truthful {process : KeptProcess} {options : TerminateOptions}
    {record : Option KeptRecord} {answers : List TerminateAnswer} {t : KeptTermination}
    {w : World}
    (h : (process.terminate options).run terminateExec answers (.start record) = some (t, w)) :
    Truthful process record t w :=
  Prog.wp_iff_run.mp (terminate_truthful process options record) answers t w h

/-- A process that exits in its grace period. -/
theorem graceful_termination_is_truthful :
    let record : KeptRecord := {
      name := ⟨"db", by decide +kernel⟩, osPid := 7, startToken := 1, bootId := none, exe := none
      program := "db", args := [], fingerprint := ⟨0⟩, revision := none, gracefulSignal := .term
      log := none, owner := "app", startedAtUnixMs := 0 }
    let world : World := ⟨none, [.signalled .term (.ok ()), .exited ⟨some 0, none, false⟩,
      .removed (.ok ())]⟩
    Truthful ⟨record⟩ (some record) ⟨.gracefulSuccess, some ⟨some 0, none, false⟩⟩ world := by
  intro record world
  have h : (KeptProcess.terminate ⟨record⟩ .default).run terminateExec
      [.pending, .signals (.ok ()), .exits ⟨some 0, none, false⟩, .removes]
      (.start (some record)) = some (⟨.gracefulSuccess, some ⟨some 0, none, false⟩⟩, world) := rfl
  exact termination_is_truthful h

end Shepherd.Records
