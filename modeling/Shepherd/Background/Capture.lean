import Shepherd.Conc.Steps
import Shepherd.Output

/-!
# The Output of a Background Task

`Output::read` of a background task drains the capture and derives how many bytes are
missing from the tail: what earlier reads drained, plus what overflowed, minus what the
tail retains. Any number of observers call `output()` beside the worker, which installs
the capture when the process is attached and freezes the last observation when it
finishes; a mutex serializes all of them, but not the pushes of the pipe readers.

`CaptureState` is the capture, what the mutex guards, and the read that holds it; a call
takes the mutex and drains the capture (`enter`), and updates the observation (`leave`).
Three fields are history: the byte log of the capture, the bytes that had been pushed when
the current observation was drained, and the values returned so far, newest first.
-/

namespace Shepherd

open Conc

/-- A bounded output tail. -/
structure BackgroundTaskOutput where
  tail : List OutputChunk
  omittedBytes : ℕ
  stdoutClosed : Bool
  stderrClosed : Bool
  errors : List String
  deriving DecidableEq, Repr

namespace BackgroundTaskOutput

/-- The output before any read. -/
def empty : BackgroundTaskOutput := ⟨[], 0, false, false, []⟩

/-- The labelled bytes of the tail. -/
def content (o : BackgroundTaskOutput) : List Labelled :=
  o.tail.flatMap OutputChunk.content

end BackgroundTaskOutput

/-- The number of bytes in some chunks. -/
def byteCount (chunks : List OutputChunk) : ℕ :=
  (chunks.map fun c => c.bytes.length).sum

/-- What the mutex of a task's output guards: whether the capture is installed, the bytes
that reads have drained, and the last observation. -/
structure Output where
  source : Bool
  drained : ℕ
  current : BackgroundTaskOutput
  deriving DecidableEq, Repr

/-- `Output::read` with the snapshot it got from the capture. -/
def Output.observe (o : Output) (snapshot : OutputSnapshot) : Output where
  source := o.source
  drained := saturatingAdd o.drained (byteCount snapshot.chunks)
  current :=
    { tail := snapshot.tail
      omittedBytes :=
        saturatingAdd (saturatingAdd o.drained (byteCount snapshot.chunks))
          snapshot.droppedBytes - byteCount snapshot.tail
      stdoutClosed := snapshot.stdoutClosed
      stderrClosed := snapshot.stderrClosed
      errors := snapshot.errors }

/-- Who reads the output. -/
inductive OutputReader where
  | worker
  | observer
  deriving DecidableEq, Repr

/-- A read that holds the mutex: its snapshot if the capture is installed, and, for the
history, the bytes that had been pushed when it was taken. -/
structure PendingRead where
  reader : OutputReader
  snapshot : Option (OutputSnapshot × List Labelled)

/-- A value that a read returned, with what the history knows about it: whether the task
was attached and whether it was frozen, and the bytes that had been pushed at the
underlying read. -/
structure ReturnedOutput where
  output : BackgroundTaskOutput
  attached : Bool
  frozen : Bool
  bytes : Option (List Labelled)

/-- The state of a task's capture. -/
structure CaptureState where
  buffer : Buffer
  output : Output
  reading : Option PendingRead
  attached : Bool
  collected : Bool
  result : Option BackgroundTaskOutput
  log : ByteLog
  bytes : Option (List Labelled)
  returned : List ReturnedOutput

/-- What can happen to it. -/
inductive CaptureAction where
  | push (stream : OutputStream) (bytes : List UInt8)
  | close (stream : OutputStream) (error : Option String)
  | attach
  | enter (reader : OutputReader)
  | leave
  | freeze (failed : Bool)
  deriving DecidableEq, Repr

namespace CaptureState

/-- A task before its process is attached; the capture is given `outputBytes` for its
queue and for its tail. -/
def start (outputBytes : ℕ) : CaptureState where
  buffer := capture outputBytes outputBytes
  output := ⟨false, 0, .empty⟩
  reading := none
  attached := false
  collected := false
  result := none
  log := .empty
  bytes := none
  returned := []

/-- A read takes the mutex and drains the capture. -/
def enter (s : CaptureState) (reader : OutputReader) : CaptureState :=
  if s.output.source then
    { s with
      buffer := s.buffer.read.2
      reading := some ⟨reader, some (s.buffer.read.1, s.log.pushed)⟩
      log := s.log.call .read }
  else { s with reading := some ⟨reader, none⟩ }

/-- A read updates the observation and returns it. -/
def leave (s : CaptureState) (r : PendingRead) : CaptureState :=
  let output := match r.snapshot with
    | some (snapshot, _) => s.output.observe snapshot
    | none => s.output
  let bytes := match r.snapshot with
    | some (_, bytes) => some bytes
    | none => s.bytes
  { s with
    output := output
    reading := none
    collected := s.collected || r.reader == .worker
    bytes := bytes
    returned := ⟨output.current, s.attached, s.result.isSome, bytes⟩ :: s.returned }

/-- The worker freezes the last observation and lets go of the capture. -/
def freeze (s : CaptureState) (failed : Bool) : CaptureState :=
  let output :=
    if failed then
      { s.output.current with
        errors := s.output.current.errors ++ ["background output collection failed"] }
    else s.output.current
  { s with
    output := ⟨false, s.output.drained, output⟩
    result := some output }

/-- One step. The worker attaches once, before it collects the output; it freezes the
output after it collected it, or after the collection panicked. -/
def step (s : CaptureState) : CaptureAction → Option CaptureState
  | .push stream bytes =>
      (s.buffer.push stream bytes).map fun buffer =>
        { s with buffer := buffer, log := s.log.call (.push stream bytes) }
  | .close stream error =>
      some { s with
        buffer := s.buffer.close stream error
        log := s.log.call (.close stream error) }
  | .attach =>
      if s.reading.isNone && !s.attached && !s.collected && s.result.isNone then
        some { s with output := { s.output with source := true }, attached := true }
      else none
  | .enter reader =>
      if s.reading.isNone && (reader == .observer || s.result.isNone) then
        some (s.enter reader)
      else none
  | .leave => s.reading.map s.leave
  | .freeze failed =>
      if s.reading.isNone && s.result.isNone && (failed || s.collected) then
        some (s.freeze failed)
      else none

end CaptureState

/-! ### Exactness -/

/-- The byte count of chunks is the length of their contents. -/
@[simp] theorem byteCount_eq (chunks : List OutputChunk) :
    byteCount chunks = (chunks.flatMap OutputChunk.content).length := by
  simp [byteCount, OutputChunk.content, List.length_flatMap]

/-- An observation is exact for the bytes pushed: its tail is the last of them, and it
counts the others. -/
def BackgroundTaskOutput.Exact (outputBytes : ℕ) (bytes : List Labelled)
    (o : BackgroundTaskOutput) : Prop :=
  o.omittedBytes + o.content.length = bytes.length ∧ o.content = bytes.rtake outputBytes

/-- The bytes that completed reads have drained. -/
def ByteLog.taken (l : ByteLog) (capacity : ℕ) : ℕ :=
  (l.intervals.map fun i => (i.rtake capacity).length).sum

/-- A read takes what fits of the current interval. -/
theorem ByteLog.taken_read (l : ByteLog) (capacity : ℕ) :
    (l.call .read).taken capacity = l.taken capacity + (l.unread.rtake capacity).length := by
  simp [taken, call]

/-- Every byte was taken, is waiting, or is beyond the capacity. -/
theorem ByteLog.taken_add_beyond (l : ByteLog) (capacity : ℕ) :
    l.taken capacity + (l.unread.rtake capacity).length + l.beyond capacity =
      l.pushed.length :=
  l.beyond_add_kept capacity

/-- The snapshot of a capture whose bytes were counted this far gives an exact
observation. -/
theorem Output.observe_exact {outputBytes : ℕ} {o : Output} {snapshot : OutputSnapshot}
    {bytes : List Labelled}
    (hcount : o.drained + snapshot.drained.length + snapshot.droppedBytes = bytes.length)
    (htail : snapshot.retained = bytes.rtake outputBytes) (hb : bytes.length ≤ MAX) :
    (o.observe snapshot).current.Exact outputBytes bytes ∧
      (o.observe snapshot).drained = o.drained + snapshot.drained.length := by
  have hlen : snapshot.retained.length ≤ bytes.length := by
    rw [htail, List.rtake, List.length_drop]
    omega
  have hd : saturatingAdd o.drained (byteCount snapshot.chunks) =
      o.drained + snapshot.drained.length := by
    rw [saturatingAdd, byteCount_eq, ← OutputSnapshot.drained, Nat.min_eq_left (by omega)]
  refine ⟨⟨?_, htail⟩, hd⟩
  rw [Output.observe, hd, saturatingAdd, Nat.min_eq_left (by omega), hcount, byteCount_eq,
    ← OutputSnapshot.retained, BackgroundTaskOutput.content, ← OutputSnapshot.retained]
  dsimp only
  omega

/-- More bytes leave at least as many out of an exact tail. -/
theorem BackgroundTaskOutput.Exact.omitted_mono {outputBytes : ℕ} {bytes bytes' : List Labelled}
    {o o' : BackgroundTaskOutput} (h : o.Exact outputBytes bytes)
    (h' : o'.Exact outputBytes bytes') (hle : bytes.length ≤ bytes'.length) :
    o.omittedBytes ≤ o'.omittedBytes := by
  obtain ⟨h₁, h₂⟩ := h
  obtain ⟨h₁', h₂'⟩ := h'
  rw [h₂, List.rtake, List.length_drop] at h₁
  rw [h₂', List.rtake, List.length_drop] at h₁'
  omega

namespace CaptureState

variable {outputBytes : ℕ} {s s' : CaptureState}

/-- The bytes that a read has drained but not yet counted. -/
def inFlight (s : CaptureState) : ℕ :=
  match s.reading with
  | some ⟨_, some (snapshot, _)⟩ => snapshot.drained.length
  | _ => 0

/-- The bytes pushed before the last observation. -/
def seen (s : CaptureState) : ℕ :=
  (s.bytes.getD []).length

/-- **The invariant.** The drained bytes are those of the completed reads, so that the
snapshot a read holds determines an exact observation; the current observation is exact;
and the values returned lie before it. -/
structure Inv (outputBytes : ℕ) (s : CaptureState) : Prop where
  capacity : s.buffer.capacity = outputBytes
  tailCapacity : s.buffer.tailCapacity = outputBytes
  represents : s.buffer.Represents s.log
  taken : s.output.drained + s.inFlight = s.log.taken outputBytes
  source : s.output.source = true ↔ s.attached = true ∧ s.result = none
  pending : ∀ r snapshot bytes, s.reading = some r → r.snapshot = some (snapshot, bytes) →
    s.output.drained + snapshot.drained.length + snapshot.droppedBytes = bytes.length ∧
      snapshot.retained = bytes.rtake outputBytes ∧ bytes.length ≤ s.log.pushed.length ∧
      s.seen ≤ bytes.length
  seen_le : s.seen ≤ s.log.pushed.length
  unread : ∀ r, s.reading = some r → r.snapshot = none → s.attached = true →
    s.result.isSome = true
  current : ∀ bytes, s.bytes = some bytes → s.output.current.Exact outputBytes bytes
  initial : s.bytes = none → s.output.current.omittedBytes = 0 ∧ s.output.current.tail = []
  collected : s.collected = true → s.attached = true → s.bytes.isSome = true
  frozen : ∀ out, s.result = some out → s.output.current = out
  unfrozen : ∀ r, s.reading = some r → r.snapshot.isSome = true ∨ r.reader = .worker →
    s.result = none
  returned_exact : ∀ v ∈ s.returned, ∀ bytes, v.bytes = some bytes →
    v.output.Exact outputBytes bytes
  returned_read : ∀ v ∈ s.returned, v.attached = true → v.frozen = false → v.bytes.isSome = true
  returned_frozen : ∀ v ∈ s.returned, v.frozen = true → s.result = some v.output
  returned_le : ∀ v ∈ s.returned, v.output.omittedBytes ≤ s.output.current.omittedBytes
  sorted : s.returned.Pairwise fun v w => w.output.omittedBytes ≤ v.output.omittedBytes

/-- Nothing has been captured at the start. -/
theorem inv_start (outputBytes : ℕ) : (start outputBytes).Inv outputBytes where
  capacity := rfl
  tailCapacity := rfl
  represents := Buffer.represents_capture outputBytes outputBytes
  taken := rfl
  source := by simp [start]
  pending := by simp [start]
  seen_le := by simp [start, seen]
  unread := by simp [start]
  current := by simp [start]
  initial := by simp [start, BackgroundTaskOutput.empty]
  collected := by simp [start]
  frozen := by simp [start]
  unfrozen := by simp [start]
  returned_exact := by simp [start]
  returned_read := by simp [start]
  returned_frozen := by simp [start]
  returned_le := by simp [start]
  sorted := by simp [start]

/-- A capture that only received something keeps the invariant. -/
theorem Inv.received (h : s.Inv outputBytes) {buffer : Buffer} {log : ByteLog}
    (hc : buffer.capacity = outputBytes) (ht : buffer.tailCapacity = outputBytes)
    (hr : buffer.Represents log) (htaken : log.taken outputBytes = s.log.taken outputBytes)
    (hlen : s.log.pushed.length ≤ log.pushed.length) :
    Inv outputBytes { s with buffer := buffer, log := log } :=
  { h with
    capacity := hc
    tailCapacity := ht
    represents := hr
    taken := h.taken.trans htaken.symm
    pending := fun r snapshot bytes hr hs => by
      obtain ⟨h₁, h₂, h₃, h₄⟩ := h.pending r snapshot bytes hr hs
      exact ⟨h₁, h₂, h₃.trans hlen, h₄⟩
    seen_le := h.seen_le.trans hlen }

/-- Draining the capture determines an exact observation. -/
theorem Inv.enter (h : s.Inv outputBytes) (hn : s.reading = none) {reader : OutputReader}
    (hw : reader = .worker → s.result = none) : (s.enter reader).Inv outputBytes := by
  have hflight : s.inFlight = 0 := by rw [inFlight, hn]
  have htaken := h.taken
  rw [hflight, Nat.add_zero] at htaken
  rw [CaptureState.enter]
  split
  · next hsrc =>
      have hsplit := s.log.taken_add_beyond outputBytes
      have hdrained := congrArg List.length s.buffer.drained_read
      rw [h.represents.queue_content, h.capacity] at hdrained
      have hdropped : s.buffer.read.1.droppedBytes = s.log.beyond outputBytes := by
        rw [← h.capacity]
        exact h.represents.dropped_bytes
      have hlen : (s.log.call .read).pushed.length = s.log.pushed.length :=
        congrArg List.length s.log.pushed_read
      refine { h with
        represents := h.represents.read
        taken := ?_
        pending := ?_
        seen_le := h.seen_le.trans hlen.ge
        unread := ?_
        unfrozen := ?_ }
      · rw [ByteLog.taken_read, inFlight]
        dsimp only
        omega
      · rintro r snapshot bytes ⟨⟩ ⟨⟩
        refine ⟨by dsimp only; omega, ?_, hlen.ge, h.seen_le⟩
        rw [Buffer.retained_read, h.represents.tail_content, h.tailCapacity]
      · rintro r ⟨⟩ hs
        exact absurd hs (by simp)
      · rintro r ⟨⟩ -
        exact (h.source.mp hsrc).2
  · next hsrc =>
      refine { h with
        taken := htaken
        pending := ?_
        unread := ?_
        unfrozen := ?_ }
      · rintro r snapshot bytes ⟨⟩ ⟨⟩
      · rintro r ⟨⟩ - ha
        cases hres : s.result with
        | none => exact absurd (h.source.mpr ⟨ha, hres⟩) hsrc
        | some out => rfl
      · rintro r ⟨⟩ (hs | hs)
        · exact absurd hs (by simp)
        · exact hw hs

/-- What a read that returns `output` leaves behind. -/
theorem Inv.returned_cons (h : s.Inv outputBytes) {output : BackgroundTaskOutput}
    (bytes : Option (List Labelled))
    (hexact : ∀ bs, bytes = some bs → output.Exact outputBytes bs)
    (hread : s.attached = true → s.result = none → bytes.isSome = true)
    (hfrozen : s.result.isSome = true → s.result = some output)
    (hle : s.output.current.omittedBytes ≤ output.omittedBytes) :
    ∀ l, l = ⟨output, s.attached, s.result.isSome, bytes⟩ :: s.returned →
      (∀ v ∈ l, ∀ bs, v.bytes = some bs → v.output.Exact outputBytes bs) ∧
      (∀ v ∈ l, v.attached = true → v.frozen = false → v.bytes.isSome = true) ∧
      (∀ v ∈ l, v.frozen = true → s.result = some v.output) ∧
      (∀ v ∈ l, v.output.omittedBytes ≤ output.omittedBytes) ∧
      l.Pairwise fun v w => w.output.omittedBytes ≤ v.output.omittedBytes := by
  rintro l rfl
  have hold : ∀ v ∈ s.returned, v.output.omittedBytes ≤ output.omittedBytes :=
    fun v hv => (h.returned_le v hv).trans hle
  refine ⟨?_, ?_, ?_, ?_, List.pairwise_cons.mpr ⟨hold, h.sorted⟩⟩
  · intro v hv
    rcases List.mem_cons.mp hv with rfl | hv
    · exact hexact
    · exact h.returned_exact v hv
  · intro v hv ha hf
    rcases List.mem_cons.mp hv with rfl | hv
    · exact hread ha (Option.not_isSome_iff_eq_none.mp (by simpa using hf))
    · exact h.returned_read v hv ha hf
  · intro v hv hf
    rcases List.mem_cons.mp hv with rfl | hv
    · exact hfrozen hf
    · exact h.returned_frozen v hv hf
  · intro v hv
    rcases List.mem_cons.mp hv with rfl | hv
    · exact le_rfl
    · exact hold v hv

/-- Updating the observation keeps it exact, and it never omits fewer bytes. -/
theorem Inv.leave (h : s.Inv outputBytes) {r : PendingRead} (hr : s.reading = some r)
    (hb : s.log.pushed.length ≤ MAX) : (s.leave r).Inv outputBytes := by
  obtain ⟨reader, snapshot⟩ := r
  cases snapshot with
  | none =>
      have hflight : s.inFlight = 0 := by rw [inFlight, hr]
      have hres : s.attached = true → s.result.isSome = true := h.unread _ hr rfl
      obtain ⟨h₁, h₂, h₃, h₄, h₅⟩ := h.returned_cons s.bytes h.current
        (fun ha hn => absurd (hres ha) (by simp [hn]))
        (fun hs => by
          obtain ⟨out, hout⟩ := Option.isSome_iff_exists.mp hs
          rw [hout, h.frozen out hout])
        le_rfl _ rfl
      exact { h with
        taken := by
          have := h.taken
          rw [hflight] at this
          exact this
        pending := by rintro r snapshot bytes ⟨⟩
        unread := by rintro r ⟨⟩
        collected := fun hc ha => by
          rcases Bool.or_eq_true_iff.mp hc with hc | hc
          · exact h.collected hc ha
          · have hn := h.unfrozen _ hr (.inr (by simpa using hc))
            exact absurd (hres ha) (by simp [hn])
        unfrozen := by rintro r ⟨⟩
        returned_exact := h₁
        returned_read := h₂
        returned_frozen := h₃
        returned_le := h₄
        sorted := h₅ }
  | some p =>
      obtain ⟨snapshot, bytes⟩ := p
      obtain ⟨hcount, htail, hle, hseen⟩ := h.pending _ snapshot bytes hr rfl
      obtain ⟨hexact, hdrained⟩ := Output.observe_exact hcount htail (hle.trans hb)
      have hflight : s.inFlight = snapshot.drained.length := by rw [inFlight, hr]
      have hnone := h.unfrozen _ hr (.inl rfl)
      have hmono : s.output.current.omittedBytes ≤
          (s.output.observe snapshot).current.omittedBytes := by
        cases hbs : s.bytes with
        | none => rw [(h.initial hbs).1]; exact Nat.zero_le _
        | some old =>
            refine (h.current old hbs).omitted_mono hexact ?_
            rw [seen, hbs] at hseen
            exact hseen
      obtain ⟨h₁, h₂, h₃, h₄, h₅⟩ := h.returned_cons (some bytes)
        (by rintro bs ⟨⟩; exact hexact) (fun _ _ => rfl)
        (fun hs => absurd hs (by simp [hnone])) hmono _ rfl
      exact { h with
        taken := by
          have := h.taken
          rw [hflight, ← hdrained] at this
          exact this
        source := h.source
        pending := by rintro r snapshot bytes ⟨⟩
        seen_le := hle
        unread := by rintro r ⟨⟩
        current := by rintro bs ⟨⟩; exact hexact
        initial := by rintro ⟨⟩
        collected := fun _ _ => rfl
        frozen := fun out hout => absurd (hnone.symm.trans hout) (by simp)
        unfrozen := by rintro r ⟨⟩
        returned_exact := h₁
        returned_read := h₂
        returned_frozen := h₃
        returned_le := h₄
        sorted := h₅ }

/-- Attachment installs the capture. -/
theorem Inv.attach (h : s.Inv outputBytes) (hn : s.reading = none) (hc : s.collected = false)
    (hr : s.result = none) :
    Inv outputBytes { s with output := { s.output with source := true }, attached := true } :=
  { h with
    taken := h.taken
    source := ⟨fun _ => ⟨rfl, hr⟩, fun _ => rfl⟩
    unread := fun r hr' => absurd (hn.symm.trans hr') (by simp)
    collected := fun hc' => absurd (hc.symm.trans hc') (by simp)
    frozen := fun out hout => absurd (hr.symm.trans hout) (by simp) }

/-- The frozen output keeps the tail and the count of the last observation. -/
theorem Inv.freeze (h : s.Inv outputBytes) (hn : s.reading = none) (hr : s.result = none)
    (failed : Bool) : (s.freeze failed).Inv outputBytes := by
  have hsame : (s.freeze failed).output.current.omittedBytes = s.output.current.omittedBytes ∧
      (s.freeze failed).output.current.tail = s.output.current.tail := by
    rw [CaptureState.freeze]
    split
    · exact ⟨rfl, rfl⟩
    · exact ⟨rfl, rfl⟩
  have hexact : ∀ bytes, s.output.current.Exact outputBytes bytes →
      (s.freeze failed).output.current.Exact outputBytes bytes := by
    intro bytes hb
    rw [BackgroundTaskOutput.Exact, BackgroundTaskOutput.content, hsame.1, hsame.2]
    exact hb
  exact { h with
    taken := h.taken
    source := ⟨fun hs => absurd hs (by simp [CaptureState.freeze]), fun hs =>
      absurd hs.2 (by simp [CaptureState.freeze])⟩
    pending := fun r _ _ hr' => absurd (hn.symm.trans hr') (by simp)
    unread := fun r hr' => absurd (hn.symm.trans hr') (by simp)
    current := fun bytes hb => hexact bytes (h.current bytes hb)
    initial := fun hb => by rw [hsame.1, hsame.2]; exact h.initial hb
    frozen := fun out hout => Option.some.inj hout
    unfrozen := fun r hr' => absurd (hn.symm.trans hr') (by simp)
    returned_frozen := fun v hv hf =>
      absurd (hr.symm.trans (h.returned_frozen v hv hf)) (by simp)
    returned_le := fun v hv => by rw [hsame.1]; exact h.returned_le v hv }

/-- Steps only add bytes to the log. -/
theorem step_pushed {a : CaptureAction} (hs : s.step a = some s') :
    s.log.pushed.length ≤ s'.log.pushed.length := by
  cases a with
  | push stream bytes =>
      obtain ⟨buffer, -, rfl⟩ := Option.map_eq_some_iff.mp hs
      exact s.log.length_pushed_le _
  | close stream error =>
      obtain rfl := Option.some.inj hs
      exact s.log.length_pushed_le (.close stream error)
  | attach =>
      rw [step, Option.ite_none_right_eq_some] at hs
      obtain ⟨-, ⟨⟩⟩ := hs
      exact le_rfl
  | enter reader =>
      rw [step, Option.ite_none_right_eq_some] at hs
      obtain ⟨-, ⟨⟩⟩ := hs
      rw [CaptureState.enter]
      split
      · exact s.log.length_pushed_le .read
      · exact le_rfl
  | leave =>
      obtain ⟨r, -, rfl⟩ := Option.map_eq_some_iff.mp hs
      exact le_rfl
  | freeze failed =>
      rw [step, Option.ite_none_right_eq_some] at hs
      obtain ⟨-, ⟨⟩⟩ := hs
      exact le_rfl

/-- **The step.** While the bytes fit in 64 bits, every step keeps the invariant. -/
theorem Inv.step (h : s.Inv outputBytes) {a : CaptureAction} (hs : s.step a = some s')
    (hb : s'.log.pushed.length ≤ MAX) : s'.Inv outputBytes := by
  have hold := (step_pushed hs).trans hb
  cases a with
  | push stream bytes =>
      obtain ⟨buffer, hp, rfl⟩ := Option.map_eq_some_iff.mp hs
      rw [ByteLog.pushed_push] at hb
      obtain ⟨buffer', hp', hc, ht, hr⟩ := h.represents.push stream hb
      obtain rfl := Option.some.inj (hp.symm.trans hp')
      exact h.received (hc.trans h.capacity) (ht.trans h.tailCapacity) hr rfl
        (s.log.length_pushed_le _)
  | close stream error =>
      obtain rfl := Option.some.inj hs
      exact h.received (by simp [h.capacity]) (by simp [h.tailCapacity])
        (h.represents.close stream error) rfl le_rfl
  | attach =>
      rw [CaptureState.step, Option.ite_none_right_eq_some] at hs
      obtain ⟨hg, ⟨⟩⟩ := hs
      simp only [Bool.and_eq_true, Option.isNone_iff_eq_none, Bool.not_eq_true'] at hg
      exact h.attach hg.1.1.1 hg.1.2 hg.2
  | enter reader =>
      rw [CaptureState.step, Option.ite_none_right_eq_some] at hs
      obtain ⟨hg, ⟨⟩⟩ := hs
      simp only [Bool.and_eq_true, Option.isNone_iff_eq_none, Bool.or_eq_true, beq_iff_eq] at hg
      refine h.enter hg.1 fun hw => hg.2.resolve_left ?_
      rw [hw]
      exact nofun
  | leave =>
      obtain ⟨r, hr, rfl⟩ := Option.map_eq_some_iff.mp hs
      exact h.leave hr hold
  | freeze failed =>
      rw [CaptureState.step, Option.ite_none_right_eq_some] at hs
      obtain ⟨hg, ⟨⟩⟩ := hs
      simp only [Bool.and_eq_true, Option.isNone_iff_eq_none] at hg
      exact h.freeze hg.1.1 hg.1.2 failed

/-- **The run.** -/
theorem inv_of_reaches (h : Reaches step (start outputBytes) s)
    (hb : s.log.pushed.length ≤ MAX) : s.Inv outputBytes := by
  refine h.invariant (I := fun s => s.log.pushed.length ≤ MAX → s.Inv outputBytes)
    (fun _ => inv_start outputBytes) (fun s a s' ih hs hb => ?_) hb
  exact (ih ((step_pushed hs).trans hb)).step hs hb

/-- **The output count is exact.** In every run whose bytes fit in 64 bits: a value
returned by `output()` while the capture was installed comes from a read of it; a value is
exact for the bytes that had been pushed at its read; no value omits fewer bytes than an
earlier one; and every value returned after the output was frozen is the result, which is
itself exact for the bytes of the last read, and without a read only if the collection
failed. -/
theorem output_count_is_exact (outputBytes : ℕ) (s : CaptureState)
    (h : Reaches step (start outputBytes) s) (hb : s.log.pushed.length < 2 ^ 64) :
    (∀ v ∈ s.returned, v.attached = true → v.frozen = false → v.bytes.isSome = true) ∧
    (∀ v ∈ s.returned, ∀ bytes, v.bytes = some bytes → v.output.Exact outputBytes bytes) ∧
    (s.returned.Pairwise fun v w => w.output.omittedBytes ≤ v.output.omittedBytes) ∧
    ∀ out, s.result = some out →
      (∀ v ∈ s.returned, v.frozen = true → v.output = out) ∧
      (∀ bytes, s.bytes = some bytes → out.Exact outputBytes bytes) ∧
      (s.collected = true → s.attached = true → s.bytes.isSome = true) := by
  have hi := inv_of_reaches h (by rw [MAX]; omega)
  refine ⟨hi.returned_read, hi.returned_exact, hi.sorted, fun out hout => ⟨?_, ?_, ?_⟩⟩
  · intro v hv hf
    exact Option.some.inj ((hi.returned_frozen v hv hf).symm.trans hout)
  · intro bytes hbs
    rw [← hi.frozen out hout]
    exact hi.current bytes hbs
  · exact hi.collected

/-- Three bytes before attachment, a read that another byte races with, the worker's read,
the freeze, and a read afterwards: the tail of two bytes omits one byte, then two. -/
theorem observed_output_counts :
    ∃ s, Reaches step (start 2) s ∧ s.returned.map (·.output.omittedBytes) = [2, 2, 1] ∧
      ∀ v ∈ s.returned, ∀ bytes, v.bytes = some bytes → v.output.Exact 2 bytes := by
  obtain ⟨s, hs, hp⟩ := Reaches.exists_of_follow step (start 2)
    [.push .stdout [1, 2, 3], .attach, .enter .observer, .push .stderr [4], .leave,
      .enter .worker, .leave, .freeze false, .enter .observer, .leave]
    (fun s => s.returned.map (·.output.omittedBytes) == [2, 2, 1] &&
      s.log.pushed.length == 4) (by decide +kernel)
  simp only [Bool.and_eq_true, beq_iff_eq] at hp
  exact ⟨s, hs, hp.1, (output_count_is_exact 2 s hs (by omega)).2.1⟩

end CaptureState

end Shepherd
