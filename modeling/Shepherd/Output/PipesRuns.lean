import Shepherd.Output.Pipes

/-!
# Captured Output Arrives

What a captured process writes arrives at the caller of `drain_output`, whatever the timing of
the writers, the readers and the caller. The bytes of a stream that were pushed, and those that
wait in its pipe, are what was written to it (`moved`); a stream that is closed without an error
is used up for good (`complete`). What the caller has read so far is what fits of each interval
between two of its reads (`Drained`).
-/

namespace Shepherd

open Conc

/-! ### Streams -/

/-- The bytes of a stream. -/
def bytesOf (stream : OutputStream) (l : List Labelled) : List UInt8 :=
  l.filterMap fun x => if x.1 = stream then some x.2 else none

/-- There are no bytes in an empty log. -/
@[simp] theorem bytesOf_nil (stream : OutputStream) : bytesOf stream [] = [] := rfl

/-- The bytes of a stream in two logs, one after the other. -/
@[simp] theorem bytesOf_append (stream : OutputStream) (l l' : List Labelled) :
    bytesOf stream (l ++ l') = bytesOf stream l ++ bytesOf stream l' :=
  List.filterMap_append

/-- The bytes of a stream in what was read of it. -/
@[simp] theorem bytesOf_labelled (stream : OutputStream) (bytes : List UInt8) :
    bytesOf stream (labelled stream bytes) = bytes := by
  simp [bytesOf, labelled, List.filterMap_map]

/-- The bytes of a stream in what was read of the other. -/
theorem bytesOf_labelled_of_ne {stream other : OutputStream} (h : other ≠ stream)
    (bytes : List UInt8) : bytesOf stream (labelled other bytes) = [] := by
  simp [bytesOf, labelled, List.filterMap_map, h]

/-- The bytes that reads have gone over. -/
def ByteLog.read (l : ByteLog) : List Labelled :=
  l.intervals.flatten

/-- What reads have got of them. -/
def ByteLog.kept (l : ByteLog) (capacity : ℕ) : List Labelled :=
  (l.intervals.map (·.rtake capacity)).flatten

/-- How many of them the buffer had dropped. -/
def ByteLog.lost (l : ByteLog) (capacity : ℕ) : ℕ :=
  (l.intervals.map fun i => i.length - capacity).sum

namespace ByteLog

variable {l : ByteLog} {capacity : ℕ}

/-- What was pushed has been read, or not yet. -/
theorem pushed_eq (l : ByteLog) : l.pushed = l.read ++ l.unread := rfl

/-- A read goes over all that was pushed. -/
theorem read_read (l : ByteLog) : (l.call .read).read = l.pushed := by
  simp [read, call, pushed]

/-- A read keeps the last bytes that were unread, up to the capacity. -/
theorem kept_read (l : ByteLog) (capacity : ℕ) :
    (l.call .read).kept capacity = l.kept capacity ++ l.unread.rtake capacity := by
  simp [kept, call]

/-- After a read, what is beyond the capacity is lost. -/
theorem lost_read (l : ByteLog) (capacity : ℕ) :
    (l.call .read).lost capacity = l.beyond capacity := by
  simp [lost, call, beyond]

/-- What was got is a part of what was gone over. -/
theorem kept_sublist (l : ByteLog) (capacity : ℕ) : (l.kept capacity).Sublist l.read := by
  rw [kept, read]
  induction l.intervals with
  | nil => exact List.Sublist.refl _
  | cons i is ih => exact (List.drop_sublist _ i).append ih

/-- The rest was dropped. -/
theorem length_kept_add_lost (l : ByteLog) (capacity : ℕ) :
    (l.kept capacity).length + l.lost capacity = l.read.length := by
  have h := (⟨l.intervals, []⟩ : ByteLog).beyond_add_kept capacity
  rw [beyond_eq] at h
  simp only [List.rtake, List.length_nil, List.drop_nil, Nat.zero_sub, Nat.add_zero, pushed,
    List.append_nil] at h
  rw [read, ← h, kept, lost, List.length_flatten, List.map_map]
  rfl

/-- Nothing was dropped, so everything was got. -/
theorem kept_eq_read (h : l.lost capacity = 0) : l.kept capacity = l.read := by
  refine (l.kept_sublist capacity).eq_of_length ?_
  have := l.length_kept_add_lost capacity
  omega

end ByteLog

namespace Buffer

variable {b : Buffer} {stream other : OutputStream} {error : Option String}

/-- The streams that are closed after one is. -/
theorem closed_close : (b.close stream error).state.closed other = true ↔
    b.state.closed other = true ∨ other = stream := by
  rw [close]
  split
  · next h =>
      constructor
      · exact .inl
      · rintro (hc | rfl)
        · exact hc
        · exact h
  · by_cases ho : other = stream <;> simp [ho]

/-- The error of the close that counts is added. -/
theorem mem_errors_close {e : String} : e ∈ (b.close stream error).state.errors ↔
    e ∈ b.state.errors ∨ (b.state.closed stream = false ∧ error = some e) := by
  rw [close]
  split
  · next h => simp [h]
  · next h => simp [Bool.eq_false_iff.mpr h]

/-- A push closes no stream and reports no error. -/
theorem push_closed {b' : Buffer} {bytes : List UInt8} (h : b.push stream bytes = some b') :
    b'.state.closed = b.state.closed ∧ b'.state.errors = b.state.errors := by
  rw [push] at h
  simp only [Option.bind_eq_bind, Option.bind_eq_some_iff, pure, Option.some.injEq] at h
  obtain ⟨_, -, _, -, rfl⟩ := h
  exact ⟨rfl, rfl⟩

end Buffer

/-- The steps of `finish_readers`, of a reader that it stops, and of `drain_output`. -/
def PipesAction.own : PipesAction → Bool
  | .join | .elapse | .stop _ | .drain => true
  | _ => false

namespace PipesState

variable {s s' : PipesState} {a : PipesAction} {stream other : OutputStream}
  {capacity tailCapacity : ℕ} {r : OutputSnapshot}

/-! ### The invariant -/

/-- Nothing more comes through the pipe of a stream. -/
def Exhausted (s : PipesState) (stream : OutputStream) : Prop :=
  (s.pipes stream).pending = [] ∧ (s.pipes stream).held = false ∧ s.readers stream ≠ .reading

/-- Nothing more is read of a stream. -/
def Settled (s : PipesState) (stream : OutputStream) : Prop :=
  s.Exhausted stream ∧ bytesOf stream s.log.unread = []

/-- A stream was closed at the end of its pipe, and then `P`, or with one of the errors. -/
def EndedWith (s : PipesState) (stream : OutputStream) (errors : List String) (P : Prop) : Prop :=
  (s.closes stream = some none ∧ P) ∨ ∃ e ∈ errors, s.closes stream = some (some e)

/-- What a snapshot says of the reads up to it. -/
structure Reports (capacity tailCapacity : ℕ) (s : PipesState) (r : OutputSnapshot) : Prop where
  dropped : r.droppedBytes = s.log.lost capacity
  tail : r.retained = s.log.read.rtake tailCapacity
  settled : ∀ stream, r.closed stream = true → s.EndedWith stream r.errors (s.Settled stream)
  errors : ∀ e ∈ r.errors, ∃ stream, r.closed stream = true ∧ s.closes stream = some (some e)

/-- What is known of a drain. -/
def Drained (capacity tailCapacity : ℕ) (s : PipesState) : DrainAt → Prop
  | .unstarted => s.log.intervals = []
  | .reading chunks | .sleeping chunks =>
      chunks.flatMap OutputChunk.content = s.log.kept capacity
  | .checking chunks snapshot =>
      chunks.flatMap OutputChunk.content = s.log.kept capacity ∧
        s.Reports capacity tailCapacity snapshot
  | .returned snapshot =>
      snapshot.drained = s.log.kept capacity ∧ s.Reports capacity tailCapacity snapshot ∧
        ((∀ stream, snapshot.closed stream = true) ∨ s.deadline ≤ s.now)

/-- `finish_readers` has been through with a stream. -/
def Finisher.passed (stream : OutputStream) : Finisher → Prop
  | .unstarted => False
  | .joining rest => stream ∉ rest
  | .stopping aborted rest => stream ≠ aborted ∧ stream ∉ rest

/-- **The invariant.** -/
structure Inv (capacity tailCapacity : ℕ) (s : PipesState) : Prop where
  queueSize : s.buffer.capacity = capacity
  tailSize : s.buffer.tailCapacity = tailCapacity
  represents : s.buffer.Represents s.log
  moved : ∀ stream,
    bytesOf stream s.log.pushed ++ (s.pipes stream).pending = (s.pipes stream).written
  unclosed : ∀ stream, s.readers stream = .reading → s.buffer.state.closed stream = false
  returned : ∀ stream, s.readers stream = .returned → s.buffer.state.closed stream = true
  unset : ∀ stream, s.buffer.state.closed stream = false → s.closes stream = none
  complete : ∀ stream, s.buffer.state.closed stream = true →
    s.EndedWith stream s.buffer.state.errors (s.Exhausted stream)
  errors : ∀ e ∈ s.buffer.state.errors,
    ∃ stream, s.buffer.state.closed stream = true ∧ s.closes stream = some (some e)
  passed : ∀ stream, Finisher.passed stream s.finisher → s.buffer.state.closed stream = true
  drained : s.Drained capacity tailCapacity s.drain

/-- Nothing was written or read at the start. -/
theorem inv_start (capacity tailCapacity : ℕ) (budget : Duration) :
    (start capacity tailCapacity budget).Inv capacity tailCapacity where
  queueSize := rfl
  tailSize := rfl
  represents := Buffer.represents_capture capacity tailCapacity
  moved _ := rfl
  unclosed _ _ := rfl
  returned _ h := by cases h
  unset _ _ := rfl
  complete _ h := by cases h
  errors _ h := by cases h
  passed _ h := h.elim
  drained := rfl

/-! ### What stays -/

/-- The other pipe stays as it is. -/
theorem setPipe_of_ne {f : Pipe → Pipe} (h : other ≠ stream) :
    (s.setPipe stream f).pipes other = s.pipes other :=
  Function.update_of_ne h _ _

/-- The pipe that is set. -/
@[simp] theorem setPipe_self {f : Pipe → Pipe} :
    (s.setPipe stream f).pipes stream = f (s.pipes stream) :=
  Function.update_self _ _ _

/-- The other reader stays as it is. -/
theorem setReader_of_ne {x : StreamReader} (h : other ≠ stream) :
    (s.setReader stream x).readers other = s.readers other :=
  Function.update_of_ne h _ _

/-- The reader that is set. -/
@[simp] theorem setReader_self {x : StreamReader} :
    (s.setReader stream x).readers stream = x :=
  Function.update_self _ _ _

/-- A reader that stopped reading does not start again. -/
theorem setReader_reading {x : StreamReader} (hx : x ≠ .reading)
    (h : (s.setReader stream x).readers other = .reading) : s.readers other = .reading := by
  by_cases ho : other = stream
  · subst ho
    exact absurd (setReader_self.symm.trans h) hx
  · exact (setReader_of_ne ho).symm.trans h

/-- An exhausted stream stays so, when its pipe gets nothing and its reader does not read. -/
theorem Exhausted.frame (h : s.Exhausted stream)
    (hp : (s'.pipes stream).pending = [] ∧ (s'.pipes stream).held = false)
    (hr : s'.readers stream = .reading → s.readers stream = .reading) : s'.Exhausted stream :=
  ⟨hp.1, hp.2, fun hx => h.2.2 (hr hx)⟩

/-- What is known of a stream that was closed stays known. -/
theorem EndedWith.mono {errors errors' : List String} {P Q : Prop}
    (h : s.EndedWith stream errors P)
    (hc : ∀ x, s.closes stream = some x → s'.closes stream = some x)
    (he : ∀ e ∈ errors, e ∈ errors') (hp : P → Q) : s'.EndedWith stream errors' Q :=
  h.imp (fun ⟨hn, hP⟩ => ⟨hc _ hn, hp hP⟩) fun ⟨e, hm, hs⟩ => ⟨e, he e hm, hc _ hs⟩

/-- A close is one of a single stream. -/
theorem closes_close_of_ne {error : Option String} (h : other ≠ stream) :
    (s.close stream error).closes other = s.closes other :=
  Function.update_of_ne h _ _

/-- The first close of a stream counts. -/
theorem closes_close {error x : Option String} (h : s.closes other = some x) :
    (s.close stream error).closes other = some x := by
  by_cases ho : other = stream
  · subst ho
    simp [close, h]
  · rw [closes_close_of_ne ho, h]

/-- **A drain is only moved by its caller.** -/
theorem Drained.frame {d : DrainAt} (h : s.Drained capacity tailCapacity d)
    (hi : s'.log.intervals = s.log.intervals)
    (hc : ∀ stream x, s.closes stream = some x → s'.closes stream = some x)
    (hs : ∀ stream, s.Settled stream → s'.Settled stream)
    (hd : s'.deadline = s.deadline) (hn : s.now ≤ s'.now) :
    s'.Drained capacity tailCapacity d := by
  have hkept : s'.log.kept capacity = s.log.kept capacity := by rw [ByteLog.kept, hi]; rfl
  have hrep : ∀ r, s.Reports capacity tailCapacity r → s'.Reports capacity tailCapacity r :=
    fun r hr => ⟨by rw [hr.dropped, ByteLog.lost, ByteLog.lost, hi],
      by rw [hr.tail, ByteLog.read, ByteLog.read, hi],
      fun stream hr' => (hr.settled stream hr').mono (hc stream) (fun _ => id) (hs stream),
      fun e he => (hr.errors e he).imp fun stream hr' => ⟨hr'.1, hc stream _ hr'.2⟩⟩
  cases d with
  | unstarted => exact hi.trans h
  | reading chunks => exact h.trans hkept.symm
  | sleeping chunks => exact h.trans hkept.symm
  | checking chunks snapshot => exact ⟨h.1.trans hkept.symm, hrep _ h.2⟩
  | returned snapshot =>
      refine ⟨h.1.trans hkept.symm, hrep _ h.2.1, h.2.2.imp_right fun hle => ?_⟩
      rw [hd]
      exact hle.trans hn

/-! ### Steps of the process and of its readers -/

/-- A change of a pipe that still has its reader, or only loses its writer. -/
theorem Inv.setPipe {f : Pipe → Pipe} (h : s.Inv capacity tailCapacity)
    (hmoved : bytesOf stream s.log.pushed ++ (f (s.pipes stream)).pending =
      (f (s.pipes stream)).written)
    (hused : s.Exhausted stream → (f (s.pipes stream)).pending = [] ∧
      (f (s.pipes stream)).held = false) : (s.setPipe stream f).Inv capacity tailCapacity := by
  have hex : ∀ other, s.Exhausted other → (s.setPipe stream f).Exhausted other := by
    intro other ho
    by_cases heq : other = stream
    · subst heq
      exact ho.frame (by rw [setPipe_self]; exact hused ho) id
    · exact ho.frame (by rw [setPipe_of_ne heq]; exact ⟨ho.1, ho.2.1⟩) id
  refine { h with moved := fun other => ?_, complete := fun other hc => ?_, drained := ?_ }
  · by_cases heq : other = stream
    · subst heq
      rw [setPipe_self]
      exact hmoved
    · rw [setPipe_of_ne heq]
      exact h.moved other
  · exact (h.complete other hc).mono (fun _ => id) (fun _ => id) (hex other)
  · exact h.drained.frame rfl (fun _ _ => id) (fun other ho => ⟨hex other ho.1, ho.2⟩) rfl le_rfl

/-- **A read.** The bytes leave the pipe and are pushed. -/
theorem Inv.readSome {n : ℕ} (h : s.Inv capacity tailCapacity)
    (hr : s.readers stream = .reading) (hs : s.readSome stream n = some s')
    (hb : s'.log.pushed.length ≤ MAX) : s'.Inv capacity tailCapacity := by
  obtain ⟨buffer, hp, rfl⟩ := Option.map_eq_some_iff.mp hs
  dsimp only at hb
  have hlen := hb
  rw [ByteLog.pushed_push] at hlen
  obtain ⟨buffer', hp', hc, ht, hrep⟩ := h.represents.push stream hlen
  obtain rfl := Option.some.inj (hp.symm.trans hp')
  obtain ⟨hclosed, herrors⟩ := Buffer.push_closed hp
  have hex : ∀ other, s.Exhausted other → other ≠ stream := by
    rintro other ho rfl
    exact ho.2.2 hr
  refine ⟨hc.trans h.queueSize, ht.trans h.tailSize, hrep, fun other => ?_, fun other ho => ?_,
    fun other ho => ?_, fun other ho => ?_, fun other ho => ?_, fun e he => ?_,
    fun other ho => ?_, ?_⟩
  · have hmoved := h.moved other
    by_cases heq : other = stream
    · subst heq
      simp only [ByteLog.pushed_push, bytesOf_append, bytesOf_labelled, setPipe_self,
        List.append_assoc, List.take_append_drop]
      exact hmoved
    · simp only [ByteLog.pushed_push, bytesOf_append, setPipe_of_ne heq,
        bytesOf_labelled_of_ne (Ne.symm heq), List.append_nil]
      exact hmoved
  · rw [hclosed]
    exact h.unclosed other ho
  · rw [hclosed]
    exact h.returned other ho
  · exact h.unset other (hclosed ▸ ho)
  · rw [hclosed] at ho
    refine (h.complete other ho).mono (fun _ => id) (fun e he => herrors.symm ▸ he) fun hx => ?_
    have hne := hex other hx
    exact hx.frame (by simp only [setPipe_of_ne hne]; exact ⟨hx.1, hx.2.1⟩) id
  · rw [hclosed]
    exact h.errors e (herrors ▸ he)
  · rw [hclosed]
    exact h.passed other ho
  · refine h.drained.frame rfl (fun _ _ => id) (fun other ho => ?_) rfl le_rfl
    have hne := hex other ho.1
    refine ⟨ho.1.frame (by simp only [setPipe_of_ne hne]; exact ⟨ho.1.1, ho.1.2.1⟩) id, ?_⟩
    simp only [ByteLog.call, bytesOf_append, ho.2, bytesOf_labelled_of_ne (Ne.symm hne),
      List.append_nil]

/-- **A stream is closed**: by its reader, when it is used up or with an error, or later. -/
theorem Inv.close {error : Option String} (h : s.Inv capacity tailCapacity)
    (hr : s.readers stream ≠ .reading)
    (hused : s.buffer.state.closed stream = false → error = none → s.Exhausted stream) :
    (s.close stream error).Inv capacity tailCapacity := by
  refine ⟨by simpa [PipesState.close] using h.queueSize,
    by simpa [PipesState.close] using h.tailSize, h.represents.close stream error, h.moved,
    fun other ho => ?_, fun other ho => ?_, fun other ho => ?_, fun other ho => ?_, fun e he => ?_,
    fun other ho => ?_, ?_⟩
  · have hn : ¬ (s.buffer.close stream error).state.closed other = true := by
      rw [Buffer.closed_close]
      rintro (hc | rfl)
      · rw [h.unclosed other ho] at hc
        cases hc
      · exact hr ho
    exact Bool.eq_false_iff.mpr hn
  · exact Buffer.closed_close.mpr (.inl (h.returned other ho))
  · have hn := mt Buffer.closed_close.mpr (Bool.eq_false_iff.mp ho)
    rw [not_or] at hn
    rw [closes_close_of_ne hn.2]
    exact h.unset other (Bool.eq_false_iff.mpr hn.1)
  · by_cases hc : s.buffer.state.closed other = true
    · exact (h.complete other hc).mono (fun _ => closes_close)
        (fun e he => Buffer.mem_errors_close.mpr (.inl he)) id
    · obtain rfl := (Buffer.closed_close.mp ho).resolve_left hc
      rw [Bool.not_eq_true] at hc
      have hfirst : (s.close other error).closes other = some error := by
        simp [PipesState.close, h.unset other hc]
      cases error with
      | none => exact .inl ⟨hfirst, hused hc rfl⟩
      | some e => exact .inr ⟨e, Buffer.mem_errors_close.mpr (.inr ⟨hc, rfl⟩), hfirst⟩
  · rcases Buffer.mem_errors_close.mp he with he | ⟨hc, rfl⟩
    · obtain ⟨other, ho, hs⟩ := h.errors e he
      exact ⟨other, Buffer.closed_close.mpr (.inl ho), closes_close hs⟩
    · exact ⟨stream, Buffer.closed_close.mpr (.inr rfl), by
        simp [PipesState.close, h.unset stream hc]⟩
  · exact Buffer.closed_close.mpr (.inl (h.passed other ho))
  · exact h.drained.frame rfl (fun _ _ => closes_close) (fun other ho => ho) rfl le_rfl

/-- A reader is over. -/
theorem Inv.setReader {x : StreamReader} (h : s.Inv capacity tailCapacity) (hx : x ≠ .reading)
    (hret : x = .returned → s.buffer.state.closed stream = true) :
    (s.setReader stream x).Inv capacity tailCapacity := by
  have hex : ∀ other, s.Exhausted other → (s.setReader stream x).Exhausted other :=
    fun other ho => ho.frame ⟨ho.1, ho.2.1⟩ (setReader_reading hx)
  refine { h with
    unclosed := fun other ho => h.unclosed other (setReader_reading hx ho)
    returned := fun other ho => ?_
    complete := fun other hc =>
      (h.complete other hc).mono (fun _ => id) (fun _ => id) (hex other)
    drained := h.drained.frame rfl (fun _ _ => id) (fun other ho => ⟨hex other ho.1, ho.2⟩) rfl
      le_rfl }
  by_cases heq : other = stream
  · subst heq
    exact hret (setReader_self.symm.trans ho)
  · exact h.returned other ((setReader_of_ne heq).symm.trans ho)

/-- A reader that closes its stream is over. -/
theorem Inv.endReader {error : Option String} (h : s.Inv capacity tailCapacity)
    (hused : error = none → (s.pipes stream).pending = [] ∧ (s.pipes stream).held = false) :
    ((s.close stream error).setReader stream .returned).Inv capacity tailCapacity := by
  have hover : ((s.setReader stream .stopped).close stream error).setReader stream .returned =
      (s.close stream error).setReader stream .returned := by
    simp [PipesState.setReader, PipesState.close]
  rw [← hover]
  have hstopped : (s.setReader stream .stopped).Inv capacity tailCapacity :=
    h.setReader (by simp) (by simp)
  refine (hstopped.close ?_ fun _ he => ?_).setReader (by simp) fun _ => ?_
  · rw [setReader_self]
    simp
  · obtain ⟨hp, hh⟩ := hused he
    refine ⟨hp, hh, ?_⟩
    rw [setReader_self]
    simp
  · exact Buffer.closed_close.mpr (.inr rfl)

/-! ### Steps of `finish_readers` -/

/-- The finisher goes on to readers that it has not passed more of. -/
theorem Inv.setFinisher {f : Finisher} (h : s.Inv capacity tailCapacity)
    (hf : ∀ other, Finisher.passed other f → s.buffer.state.closed other = true) :
    Inv capacity tailCapacity { s with finisher := f } :=
  { h with
    passed := hf
    drained := h.drained.frame rfl (fun _ _ => id) (fun _ => id) rfl le_rfl }

/-- A reader that is joined does not read, and its stream was closed or is closed now. -/
theorem joinReader_cases (hs : s.joinReader = some s') : ∃ stream rest,
    (∀ other, other ∉ rest → other = stream ∨ Finisher.passed other s.finisher) ∧
    s.readers stream ≠ .reading ∧
    ((s.readers stream = .returned ∧ s' = { s with finisher := .joining rest }) ∨
      ∃ error, s' = { s.close stream (some error) with finisher := .joining rest }) := by
  rw [PipesState.joinReader] at hs
  split at hs
  · next stream rest hf =>
      have hpassed : ∀ other, other ∉ rest → other = stream ∨ Finisher.passed other s.finisher := by
        intro other ho
        by_cases heq : other = stream
        · exact .inl heq
        · refine .inr ?_
          rw [hf]
          simp [Finisher.passed, heq, ho]
      split at hs
      · next hr =>
          exact ⟨stream, rest, hpassed, by simp [hr], .inl ⟨hr, (Option.some.inj hs).symm⟩⟩
      · next error hr =>
          exact ⟨stream, rest, hpassed, by simp [hr], .inr ⟨_, (Option.some.inj hs).symm⟩⟩
      · cases hs
  · next stream rest hf =>
      split at hs
      · cases hs
      · next hr =>
          refine ⟨stream, rest, fun other ho => ?_, hr, .inr ⟨_, (Option.some.inj hs).symm⟩⟩
          by_cases heq : other = stream
          · exact .inl heq
          · refine .inr ?_
            rw [hf]
            exact ⟨heq, ho⟩
  · cases hs

/-- **A reader is joined.** -/
theorem Inv.joinReader (h : s.Inv capacity tailCapacity) (hs : s.joinReader = some s') :
    s'.Inv capacity tailCapacity := by
  obtain ⟨stream, rest, hpassed, hr, ⟨hret, rfl⟩ | ⟨error, rfl⟩⟩ := joinReader_cases hs
  · refine h.setFinisher fun other ho => ?_
    rcases hpassed other ho with rfl | hp
    · exact h.returned _ hret
    · exact h.passed other hp
  · refine (h.close hr (by simp)).setFinisher fun other ho => Buffer.closed_close.mpr ?_
    exact (hpassed other ho).symm.imp_left (h.passed other)

/-! ### Steps of the caller -/

/-- A read reports the streams that are closed. -/
theorem closed_read (b : Buffer) (stream : OutputStream) :
    b.read.1.closed stream = b.state.closed stream := by
  cases stream <;> rfl

/-- **A step of `drain_output`.** -/
theorem Inv.drainOutput (h : s.Inv capacity tailCapacity) (hs : s.drainOutput = some s') :
    s'.Inv capacity tailCapacity := by
  have hd := h.drained
  rw [PipesState.drainOutput] at hs
  split at hs
  · next chunks hat =>
      rw [hat] at hd
      obtain rfl := Option.some.inj hs
      refine ⟨h.queueSize, h.tailSize, h.represents.read, fun other => ?_, h.unclosed, h.returned,
        h.unset, h.complete, h.errors, h.passed, ?_, ?_, ?_, fun other hc => ?_, fun e he => ?_⟩
      · rw [ByteLog.pushed_read]
        exact h.moved other
      · rw [ByteLog.kept_read, List.flatMap_append]
        have hgot := Buffer.drained_read s.buffer
        rw [h.represents.queue_content, h.queueSize] at hgot
        rw [← hgot]
        exact congrArg (· ++ _) hd
      · rw [ByteLog.lost_read]
        exact h.represents.dropped_bytes.trans (by rw [h.queueSize])
      · rw [ByteLog.read_read]
        exact (Buffer.retained_read s.buffer).trans
          (by rw [h.represents.tail_content, h.tailSize])
      · have hc' : s.buffer.read.1.closed other = true := by
          cases other <;> exact hc
        rw [closed_read] at hc'
        exact (h.complete other hc').mono (fun _ => id) (fun _ => id) fun hx => ⟨hx, rfl⟩
      · obtain ⟨other, hc, hs⟩ := h.errors e he
        refine ⟨other, ?_, hs⟩
        rw [← closed_read] at hc
        cases other <;> exact hc
  · next chunks snapshot hat =>
      rw [hat] at hd
      obtain rfl := Option.some.inj hs
      refine { h with drained := ?_ }
      dsimp only [DrainAt.check]
      split
      · exact hd.1
      · next hgo =>
          refine ⟨hd.1, ?_, ?_⟩
          · have hsame : ∀ other,
                OutputSnapshot.closed { snapshot with chunks } other = snapshot.closed other := by
              intro other
              cases other <;> rfl
            refine ⟨hd.2.dropped, hd.2.tail, fun other hc => hd.2.settled other (hsame other ▸ hc),
              fun e he => (hd.2.errors e he).imp fun other hc => ⟨?_, hc.2⟩⟩
            rw [hsame]
            exact hc.1
          · simp only [Bool.and_eq_true, Bool.not_eq_true', Bool.and_eq_false_iff,
              decide_eq_true_eq, not_and, not_lt] at hgo
            by_cases hle : s.deadline ≤ s.now
            · exact .inr hle
            · refine .inl fun other => ?_
              have hopen := mt hgo (by omega)
              rw [not_or, Bool.not_eq_false, Bool.not_eq_false] at hopen
              cases other
              · exact hopen.1
              · exact hopen.2
  · next chunks hat =>
      rw [hat] at hd
      obtain rfl := Option.some.inj hs
      exact { h with drained := hd }
  · cases hs

/-! ### Runs -/

/-- Steps only add to the log. -/
theorem step_pushed (hs : s.step a = some s') :
    s.log.pushed.length ≤ s'.log.pushed.length ∧
      ((∀ stream n, a ≠ .read stream n) → s'.log.pushed = s.log.pushed) := by
  have hsame : s'.log.pushed = s.log.pushed → s.log.pushed.length ≤ s'.log.pushed.length ∧
      ((∀ stream n, a ≠ .read stream n) → s'.log.pushed = s.log.pushed) :=
    fun h => ⟨by rw [h], fun _ => h⟩
  cases a with
  | read stream n =>
      rw [step, Option.ite_none_right_eq_some] at hs
      obtain ⟨buffer, -, rfl⟩ := Option.map_eq_some_iff.mp hs.2
      exact ⟨s.log.length_pushed_le _, fun h => absurd rfl (h stream n)⟩
  | write stream bytes | readEnds stream | readFails stream error | readPanics stream error
  | rootReaped | callDrain =>
      rw [step, Option.ite_none_right_eq_some] at hs
      obtain ⟨-, hs⟩ := hs
      obtain rfl := Option.some.inj hs
      exact hsame rfl
  | release stream | tick duration =>
      obtain rfl := Option.some.inj hs
      exact hsame rfl
  | join =>
      obtain ⟨stream, rest, -, -, ⟨-, rfl⟩ | ⟨error, rfl⟩⟩ := joinReader_cases hs
      · exact hsame rfl
      · exact hsame rfl
  | elapse =>
      rw [step] at hs
      split at hs
      · obtain rfl := Option.some.inj hs
        exact hsame rfl
      · cases hs
  | stop stream =>
      rw [step] at hs
      split at hs
      · rw [Option.ite_none_right_eq_some] at hs
        obtain ⟨-, hs⟩ := hs
        obtain rfl := Option.some.inj hs
        exact hsame rfl
      · cases hs
  | drain =>
      rw [step, PipesState.drainOutput] at hs
      split at hs
      · obtain rfl := Option.some.inj hs
        exact hsame (ByteLog.pushed_read _)
      · obtain rfl := Option.some.inj hs
        exact hsame rfl
      · obtain rfl := Option.some.inj hs
        exact hsame rfl
      · cases hs

/-- **The step.** While the bytes fit in 64 bits, every step keeps the invariant. -/
theorem Inv.step (h : s.Inv capacity tailCapacity) (hs : s.step a = some s')
    (hb : s'.log.pushed.length ≤ MAX) : s'.Inv capacity tailCapacity := by
  cases a with
  | write stream bytes =>
      rw [PipesState.step, Option.ite_none_right_eq_some] at hs
      obtain ⟨hg, hs⟩ := hs
      obtain rfl := Option.some.inj hs
      rw [Bool.and_eq_true, beq_iff_eq] at hg
      refine h.setPipe ?_ fun hx => absurd hg.2 hx.2.2
      rw [← List.append_assoc, h.moved stream]
  | release stream =>
      obtain rfl := Option.some.inj hs
      exact h.setPipe (h.moved stream) fun hx => ⟨hx.1, rfl⟩
  | read stream n =>
      rw [PipesState.step, Option.ite_none_right_eq_some] at hs
      exact h.readSome hs.1.1 hs.2 hb
  | readEnds stream =>
      rw [PipesState.step, Option.ite_none_right_eq_some] at hs
      obtain ⟨hg, hs⟩ := hs
      obtain rfl := Option.some.inj hs
      exact h.endReader fun _ => hg.2
  | readFails stream error =>
      rw [PipesState.step, Option.ite_none_right_eq_some] at hs
      obtain ⟨-, hs⟩ := hs
      obtain rfl := Option.some.inj hs
      exact h.endReader (by simp)
  | readPanics stream error =>
      rw [PipesState.step, Option.ite_none_right_eq_some] at hs
      obtain ⟨-, hs⟩ := hs
      obtain rfl := Option.some.inj hs
      exact h.setReader (by simp) (by simp)
  | rootReaped =>
      rw [PipesState.step, Option.ite_none_right_eq_some] at hs
      obtain ⟨-, hs⟩ := hs
      obtain rfl := Option.some.inj hs
      refine h.setFinisher fun other ho => absurd ?_ ho
      cases other <;> simp
  | join => exact h.joinReader hs
  | elapse =>
      rw [PipesState.step] at hs
      split at hs
      · next stream rest hf =>
          obtain rfl := Option.some.inj hs
          refine h.setFinisher fun other ho => h.passed other ?_
          rw [hf]
          simpa [Finisher.passed] using ho
      · cases hs
  | stop stream =>
      rw [PipesState.step] at hs
      split at hs
      · rw [Option.ite_none_right_eq_some] at hs
        obtain ⟨-, hs⟩ := hs
        obtain rfl := Option.some.inj hs
        exact h.setReader (by simp) (by simp)
      · cases hs
  | tick duration =>
      obtain rfl := Option.some.inj hs
      exact { h with
        drained := h.drained.frame rfl (fun _ _ => id) (fun _ => id) rfl (Nat.le_add_right _ _) }
  | callDrain =>
      rw [PipesState.step, Option.ite_none_right_eq_some] at hs
      obtain ⟨hat, hs⟩ := hs
      obtain rfl := Option.some.inj hs
      have hd := h.drained
      rw [hat] at hd
      refine { h with drained := ?_ }
      simp only [Drained, ByteLog.kept] at hd ⊢
      rw [hd]
      rfl
  | drain => exact h.drainOutput hs

/-- **The run.** -/
theorem inv_of_reaches {budget : Duration}
    (h : Reaches step (start capacity tailCapacity budget) s) (hb : s.log.pushed.length ≤ MAX) :
    s.Inv capacity tailCapacity := by
  refine h.invariant (I := fun s => s.log.pushed.length ≤ MAX → s.Inv capacity tailCapacity)
    (fun _ => inv_start capacity tailCapacity budget) (fun s a s' ih hs hb => ?_) hb
  exact (ih ((step_pushed hs).1.trans hb)).step hs hb

/-! ### What arrives -/

/-- What the caller of `drain_output` gets. -/
structure Delivers (tailCapacity : ℕ) (s : PipesState) (r : OutputSnapshot) : Prop where
  /-- The chunks are bytes that the reads went over, in order. -/
  part : r.drained.Sublist s.log.read
  /-- The others were dropped, and are counted. -/
  counted : r.drained.length + r.droppedBytes = s.log.read.length
  whole : r.droppedBytes = 0 → r.drained = s.log.read
  tail : r.retained = s.log.read.rtake tailCapacity
  /-- The reads went over the first bytes written to each pipe. -/
  written : ∀ stream, bytesOf stream s.log.read <+: (s.pipes stream).written
  /-- A stream that is closed without an error was read to its end, for good; otherwise the error
  is reported. -/
  ended : ∀ stream, r.closed stream = true → s.EndedWith stream r.errors
    (bytesOf stream s.log.read = (s.pipes stream).written ∧ (s.pipes stream).held = false)
  /-- The errors are those of closed streams. -/
  errors : ∀ e ∈ r.errors, ∃ stream, r.closed stream = true ∧ s.closes stream = some (some e)
  /-- A drain that returns in time has both streams closed. -/
  closed : (∀ stream, r.closed stream = true) ∨ s.deadline ≤ s.now

/-- **Captured output arrives**: in every run whose bytes fit in 64 bits, what `drain_output`
returns are the bytes of the pipes in their order, without those that it counts as dropped; and
each stream that it reports as closed was read to its end, unless it was closed with an error,
which is reported too. -/
theorem captured_output_arrives (capacity tailCapacity : ℕ) (budget : Duration) (s : PipesState)
    (h : Reaches step (start capacity tailCapacity budget) s)
    (hb : s.log.pushed.length < 2 ^ 64) (r : OutputSnapshot) (hr : s.drain = .returned r) :
    s.Delivers tailCapacity r := by
  have hi := inv_of_reaches h (by rw [MAX]; omega)
  have hd := hi.drained
  rw [hr] at hd
  obtain ⟨hkept, hrep, hclosed⟩ := hd
  refine ⟨?_, ?_, fun h₀ => ?_, hrep.tail, fun stream => ?_, fun stream hc => ?_, hrep.errors,
    hclosed⟩
  · rw [hkept]
    exact s.log.kept_sublist capacity
  · rw [hkept, hrep.dropped]
    exact s.log.length_kept_add_lost capacity
  · rw [hkept]
    exact ByteLog.kept_eq_read (hrep.dropped.symm.trans h₀)
  · rw [← hi.moved stream, ByteLog.pushed_eq, bytesOf_append, List.append_assoc]
    exact List.prefix_append _ _
  · refine (hrep.settled stream hc).mono (fun _ => id) (fun _ => id) ?_
    rintro ⟨⟨hp, hh, -⟩, hu⟩
    have hmoved := hi.moved stream
    rw [ByteLog.pushed_eq, bytesOf_append, hu, hp, List.append_nil, List.append_nil] at hmoved
    exact ⟨hmoved, hh⟩

/-- A descendant holds the pipe of stderr open, so that its reader is stopped; the drain sees
one stream end and one stream fail. -/
theorem inherited_pipe_is_reported : ∃ s r, Reaches step (start 4 4 10) s ∧
    s.drain = .returned r ∧ s.closes .stdout = some none ∧
    s.closes .stderr = some (some "pipe remained open after root reap; reader stopped") ∧
    r.closed .stdout = true ∧ s.Delivers 4 r := by
  obtain ⟨s, hs, hp⟩ := Reaches.exists_of_follow step (start 4 4 10)
    [.write .stdout [1, 2, 3], .read .stdout 2, .callDrain, .drain, .drain, .release .stdout,
      .rootReaped, .read .stdout 1, .readEnds .stdout, .join, .write .stderr [4], .elapse,
      .stop .stderr, .join, .drain, .drain, .drain]
    (fun s => decide (s.log.pushed.length < 2 ^ 64) && match s.drain with
      | .returned r => r.closed .stdout && s.closes .stdout == some none &&
          s.closes .stderr ==
            some (some "pipe remained open after root reap; reader stopped")
      | _ => false) (by decide +kernel)
  obtain ⟨hb, hp⟩ := Bool.and_eq_true_iff.mp hp
  split at hp
  · next r hr =>
      simp only [Bool.and_eq_true, beq_iff_eq] at hp
      obtain ⟨⟨hc, hout⟩, herr⟩ := hp
      exact ⟨s, r, hs, hr, hout, herr, hc,
        captured_output_arrives 4 4 10 s hs (of_decide_eq_true hb) r hr⟩
  · cases hp

/-! ### The end -/

/-- A run of steps that `finish_readers`, a stopped reader and `drain_output` take on their own. -/
abbrev Goes : PipesState → PipesState → Prop :=
  ReachesUnder step fun _ a => a.own = true

/-- The two parties do not wait for the pipes: nothing is written or read in such a run. -/
theorem pushed_of_goes (h : s.Goes s') : s'.log.pushed = s.log.pushed := by
  refine h.invariant (I := fun x => x.log.pushed = s.log.pushed) rfl fun x a x' ih ha hs => ?_
  refine ((step_pushed hs).2 fun stream n heq => ?_).trans ih
  rw [heq] at ha
  cases ha

/-- A reader that is being stopped is joined. -/
theorem goes_stop {s₀ : PipesState} {rest : List OutputStream} (h : s₀.Goes s)
    (hf : s.finisher = .stopping stream rest) : ∃ s', s₀.Goes s' ∧ s'.finisher = .joining rest ∧
      s'.drain = s.drain ∧ s'.now = s.now ∧ s'.deadline = s.deadline := by
  have hjoin : ∀ x, s₀.Goes x → x.finisher = .stopping stream rest →
      x.readers stream ≠ .reading → ∃ s', s₀.Goes s' ∧ s'.finisher = .joining rest ∧
        s'.drain = x.drain ∧ s'.now = x.now ∧ s'.deadline = x.deadline := by
    intro x hx hfx hr
    have hstep : x.step .join = some { x.close stream
        (some "pipe remained open after root reap; reader stopped") with
          finisher := .joining rest } := by
      simp only [step, joinReader, hfx]
    exact ⟨_, hx.step _ rfl hstep, rfl, rfl, rfl, rfl⟩
  by_cases hr : s.readers stream = .reading
  · have hstop : s.step (.stop stream) = some (s.setReader stream .stopped) := by
      simp [step, hf, hr]
    exact hjoin (s.setReader stream .stopped) (h.step _ rfl hstop) hf
      (by rw [setReader_self]; simp)
  · exact hjoin s h hf hr

/-- **`finish_readers` ends**, whoever holds the pipes. -/
theorem goes_finish {s₀ : PipesState} {rest : List OutputStream} (h : s₀.Goes s)
    (hf : s.finisher = .joining rest) : ∃ s', s₀.Goes s' ∧ s'.finisher = .joining [] ∧
      s'.drain = s.drain ∧ s'.now = s.now ∧ s'.deadline = s.deadline := by
  induction rest generalizing s with
  | nil => exact ⟨s, h, hf, rfl, rfl, rfl⟩
  | cons stream rest ih =>
      have helapse : s.step .elapse = some { s with finisher := .stopping stream rest } := by
        simp [step, hf]
      obtain ⟨s₁, h₁, hf₁, hd₁, hn₁, hl₁⟩ := goes_stop (h.step _ rfl helapse) rfl
      obtain ⟨s₂, h₂, hf₂, hd₂, hn₂, hl₂⟩ := ih h₁ hf₁
      exact ⟨s₂, h₂, hf₂, hd₂.trans hd₁, hn₂.trans hn₁, hl₂.trans hl₁⟩

/-- A drain that reads when both streams are closed returns. -/
theorem goes_read {s₀ : PipesState} {chunks : List OutputChunk} (h : s₀.Goes s)
    (hd : s.drain = .reading chunks) (hc : ∀ stream, s.buffer.state.closed stream = true) :
    ∃ s' r, s₀.Goes s' ∧ s'.finisher = s.finisher ∧ s'.drain = .returned r ∧
      ∀ stream, r.closed stream = true := by
  have hread : s.step .drain = some { s with
      buffer := s.buffer.read.2
      log := s.log.call .read
      drain := .checking (chunks ++ s.buffer.read.1.chunks)
        { s.buffer.read.1 with chunks := [] } } := by
    simp [step, drainOutput, hd, DrainAt.read]
  have hcheck : ∀ x : PipesState, x.drain = .checking (chunks ++ s.buffer.read.1.chunks)
      { s.buffer.read.1 with chunks := [] } → x.step .drain = some { x with
        drain := .returned { s.buffer.read.1 with
          chunks := chunks ++ s.buffer.read.1.chunks } } := by
    intro x hx
    simp [step, drainOutput, DrainAt.check, hx, Buffer.read, hc]
  refine ⟨_, _, (h.step _ rfl hread).step .drain rfl (hcheck _ rfl), rfl, rfl,
    fun stream => ?_⟩
  cases stream
  · exact hc .stdout
  · exact hc .stderr

/-- A drain that sleeps when both streams are closed wakes, reads and returns. -/
theorem goes_wake {s₀ : PipesState} {chunks : List OutputChunk} (h : s₀.Goes s)
    (hd : s.drain = .sleeping chunks) (hc : ∀ stream, s.buffer.state.closed stream = true) :
    ∃ s' r, s₀.Goes s' ∧ s'.finisher = s.finisher ∧ s'.drain = .returned r ∧
      ∀ stream, r.closed stream = true := by
  have hwake : s.step .drain = some { s with drain := .reading chunks } := by
    simp [step, drainOutput, hd]
  obtain ⟨s', r, hs', hf', hr, hcl⟩ := goes_read (h.step _ rfl hwake) rfl hc
  exact ⟨s', r, hs', hf', hr, hcl⟩

/-- A drain that looks at a snapshot when both streams are closed returns: with this snapshot, if
it has both streams closed or the budget is used up, or else with a later one. -/
theorem goes_check {s₀ : PipesState} {chunks : List OutputChunk} {snapshot : OutputSnapshot}
    (h : s₀.Goes s) (hd : s.drain = .checking chunks snapshot)
    (hc : ∀ stream, s.buffer.state.closed stream = true) :
    ∃ s' r, s₀.Goes s' ∧ s'.finisher = s.finisher ∧ s'.drain = .returned r ∧
      (s.now < s.deadline → ∀ stream, r.closed stream = true) := by
  by_cases hgo : (!(snapshot.stdoutClosed && snapshot.stderrClosed) &&
      decide (s.now < s.deadline)) = true
  · have hstep : s.step .drain = some { s with drain := .sleeping chunks } := by
      simp only [step, drainOutput, DrainAt.check, hd, hgo, if_true]
    obtain ⟨s', r, hs', hf', hr, hcl⟩ := goes_wake (h.step _ rfl hstep) rfl hc
    exact ⟨s', r, hs', hf', hr, fun _ => hcl⟩
  · have hstep : s.step .drain = some { s with drain := .returned { snapshot with chunks } } := by
      simp only [step, drainOutput, DrainAt.check, hd, if_neg hgo]
    refine ⟨_, _, h.step _ rfl hstep, rfl, rfl, fun hlt stream => ?_⟩
    have hclosed : snapshot.stdoutClosed = true ∧ snapshot.stderrClosed = true := by
      simpa [hlt] using hgo
    cases stream
    · exact hclosed.1
    · exact hclosed.2

/-- Once it has started, `finish_readers` comes to its end by its own steps, and the drain stays
where it is. -/
theorem goes_finished (hf : s.finisher ≠ .unstarted) : ∃ s', s.Goes s' ∧
    s'.finisher = .joining [] ∧ s'.drain = s.drain ∧ s'.now = s.now ∧
    s'.deadline = s.deadline := by
  cases hfs : s.finisher with
  | unstarted => exact absurd hfs hf
  | joining rest => exact goes_finish .initial hfs
  | stopping stream rest =>
      obtain ⟨s₁, h₁, hf₁, hd₁, hn₁, hl₁⟩ := goes_stop .initial hfs
      obtain ⟨s₂, h₂, hf₂, hd₂, hn₂, hl₂⟩ := goes_finish h₁ hf₁
      exact ⟨s₂, h₂, hf₂, hd₂.trans hd₁, hn₂.trans hn₁, hl₂.trans hl₁⟩

/-- **The drain ends**: once the root was reaped, `finish_readers` and a called `drain_output`
come to their ends by their own steps, though a descendant holds the pipes open and the budget
is not used up; and within the budget the drain returns with both streams closed. -/
theorem drain_output_ends (capacity tailCapacity : ℕ) (budget : Duration) (s : PipesState)
    (h : Reaches step (start capacity tailCapacity budget) s)
    (hb : s.log.pushed.length < 2 ^ 64) (hf : s.finisher ≠ .unstarted)
    (hd : s.drain ≠ .unstarted) : ∃ s' r, s.Goes s' ∧ s'.finisher = .joining [] ∧
      s'.drain = .returned r ∧ (s.now < s.deadline → ∀ stream, r.closed stream = true) := by
  obtain ⟨s₁, h₁, hf₁, hd₁, hn₁, hl₁⟩ := goes_finished hf
  have hi : s₁.Inv capacity tailCapacity := by
    have hreach : Reaches step s s₁ :=
      h₁.invariant (I := Reaches step s) .initial fun _ _ _ ih _ hs => ih.next _ hs
    have hlen : s₁.log.pushed.length ≤ MAX := by
      rw [pushed_of_goes h₁]
      exact Nat.le_sub_one_of_lt hb
    exact inv_of_reaches (h.trans hreach) hlen
  have hc : ∀ stream, s₁.buffer.state.closed stream = true := fun stream =>
    hi.passed stream (by rw [hf₁]; simp [Finisher.passed])
  cases hdr : s₁.drain with
  | unstarted => exact absurd (hd₁.symm.trans hdr) hd
  | reading chunks =>
      obtain ⟨s', r, hs', hf', hr, hcl⟩ := goes_read h₁ hdr hc
      exact ⟨s', r, hs', hf'.trans hf₁, hr, fun _ => hcl⟩
  | checking chunks snapshot =>
      obtain ⟨s', r, hs', hf', hr, hcl⟩ := goes_check h₁ hdr hc
      rw [hn₁, hl₁] at hcl
      exact ⟨s', r, hs', hf'.trans hf₁, hr, hcl⟩
  | sleeping chunks =>
      obtain ⟨s', r, hs', hf', hr, hcl⟩ := goes_wake h₁ hdr hc
      exact ⟨s', r, hs', hf'.trans hf₁, hr, fun _ => hcl⟩
  | returned r =>
      have hdrained := hi.drained
      rw [hdr] at hdrained
      refine ⟨s₁, r, h₁, hf₁, hdr, fun hlt => hdrained.2.2.resolve_right ?_⟩
      rw [hn₁, hl₁]
      exact Nat.not_le.mpr hlt

/-- The descendant never closes the pipe, the budget lasts, and the drain has not looked. -/
theorem inherited_pipe_is_left : ∃ s : PipesState, (∃ s' r, s.Goes s' ∧
      s'.finisher = .joining [] ∧ s'.drain = .returned r ∧
      (s.now < s.deadline → ∀ stream, r.closed stream = true)) ∧
    s.now < s.deadline ∧ (s.pipes .stderr).held = true := by
  obtain ⟨s, hs, hp⟩ := Reaches.exists_of_follow step (start 4 4 10)
    [.write .stdout [1], .callDrain, .drain, .rootReaped, .elapse]
    (fun s => decide (s.log.pushed.length < 2 ^ 64) && s.finisher != .unstarted &&
      s.drain != .unstarted && decide (s.now < s.deadline) && (s.pipes .stderr).held)
    (by decide +kernel)
  simp only [Bool.and_eq_true, decide_eq_true_eq, bne_iff_ne] at hp
  obtain ⟨⟨⟨⟨hb, hf⟩, hd⟩, hlt⟩, hheld⟩ := hp
  exact ⟨s, drain_output_ends 4 4 10 s hs hb hf hd, hlt, hheld⟩

end PipesState

end Shepherd
