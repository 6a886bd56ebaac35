import Mathlib.Algebra.Order.Ring.Nat
import Mathlib.Data.List.DropRight
import Mathlib.Data.List.Induction
import Mathlib.Data.Nat.Notation
import Mathlib.Tactic.Common

/-!
# The Output Buffer

The capture adapter of `shepherd-infra`: one byte queue for both output streams of a
process, and an independent tail. A chunk keeps its allocation while prefixes are
discarded, so its live bytes start at an offset. `append` makes room in a queue by
discarding the oldest bytes, then pushes what fits of the new ones; `push` does it for the
queue and for the tail, and `read` takes the queue and copies the tail.

Sizes are `usize` and counts are `u64`, both 64 bits wide. Additions and subtractions that
the source leaves unchecked are fallible here, as is the `expect` on an empty queue: `none`
stands for an operation that does not return.

What the buffer is for is said by `ByteLog`, which keeps every byte ever pushed under its
stream label, cut at the reads. `Buffer.Represents` is the relation between the two.
-/

namespace Shepherd

/-- Which OS pipe produced a chunk. -/
inductive OutputStream where
  | stdout
  | stderr
  deriving DecidableEq, Repr

/-- A byte chunk. -/
structure OutputChunk where
  stream : OutputStream
  bytes : List UInt8
  deriving DecidableEq, Repr

/-- What a read returns: the drained queue, and the tail. -/
structure OutputSnapshot where
  chunks : List OutputChunk
  tail : List OutputChunk
  droppedBytes : ℕ
  stdoutClosed : Bool
  stderrClosed : Bool
  errors : List String
  deriving DecidableEq, Repr

/-- A byte with its stream label. -/
abbrev Labelled := OutputStream × UInt8

/-- The bytes of a push under their label. -/
def labelled (stream : OutputStream) (bytes : List UInt8) : List Labelled :=
  bytes.map (stream, ·)

/-- A label on each byte adds none. -/
@[simp] theorem length_labelled (stream : OutputStream) (bytes : List UInt8) :
    (labelled stream bytes).length = bytes.length :=
  List.length_map _

/-- The labelled bytes of a chunk. -/
def OutputChunk.content (c : OutputChunk) : List Labelled :=
  labelled c.stream c.bytes

/-- A chunk of the queue: its live bytes start at `offset`. -/
structure BufferedChunk where
  stream : OutputStream
  bytes : List UInt8
  offset : ℕ
  deriving DecidableEq, Repr

namespace BufferedChunk

/-- A copy of the live bytes. -/
def snapshot (c : BufferedChunk) : OutputChunk where
  stream := c.stream
  bytes := c.bytes.drop c.offset

/-- `copy_within(offset.., 0)`: the bytes from `offset` on are copied to the front. -/
def copyWithin (bytes : List UInt8) (offset : ℕ) : List UInt8 :=
  bytes.drop offset ++ bytes.drop (bytes.length - offset)

/-- The live bytes, compacted in place when the chunk goes to the consumer. -/
def intoOutput (c : BufferedChunk) : OutputChunk where
  stream := c.stream
  bytes :=
    if c.offset ≠ 0 then (copyWithin c.bytes c.offset).take (c.bytes.length - c.offset)
    else c.bytes

/-- The labelled live bytes. -/
def content (c : BufferedChunk) : List Labelled :=
  c.snapshot.content

/-- **Compaction is a copy.** Both ways of reading a chunk give its live bytes. -/
theorem intoOutput_eq_snapshot (c : BufferedChunk) : c.intoOutput = c.snapshot := by
  rw [intoOutput, snapshot, copyWithin]
  split
  · next h =>
      rw [OutputChunk.mk.injEq]
      refine ⟨rfl, ?_⟩
      rw [← List.length_drop, List.take_left]
  · next h =>
      have hz : c.offset = 0 := not_not.mp h
      rw [hz, List.drop_zero]

end BufferedChunk

/-! ### Appending -/

/-- `usize::MAX` and `u64::MAX`. -/
def MAX : ℕ := 2 ^ 64 - 1

/-- An addition within 64 bits. -/
def checkedAdd (a b : ℕ) : Option ℕ :=
  if a + b ≤ MAX then some (a + b) else none

/-- An addition that stops at the largest value. -/
def saturatingAdd (a b : ℕ) : ℕ :=
  min (a + b) MAX

/-- The loop of `append`: discards `remove` bytes from the front of the queue. It fails on
an empty queue and on a size or an offset out of range. -/
def discard (queue : List BufferedChunk) (size remove dropped : ℕ) :
    Option (List BufferedChunk × ℕ × ℕ) :=
  if remove = 0 then some (queue, size, dropped)
  else
    match queue with
    | [] => none
    | first :: rest =>
        let count := min remove (first.bytes.length - first.offset)
        if first.bytes.length < first.offset ∨ size < count ∨ MAX < dropped + count then none
        else if first.offset + count = first.bytes.length then
          discard rest (size - count) (remove - count) (dropped + count)
        else
          discard ({ first with offset := first.offset + count } :: rest) (size - count)
            (remove - count) (dropped + count)
termination_by remove + queue.length
decreasing_by
  all_goals
    simp only [List.length_cons]
    omega

/-- Makes room for new bytes, discarding the oldest, and pushes what fits. The queue, its
size, and the number of bytes that are lost. -/
def append (queue : List BufferedChunk) (size capacity : ℕ) (stream : OutputStream)
    (bytes : List UInt8) : Option (List BufferedChunk × ℕ × ℕ) := do
  let retain := min bytes.length capacity
  let need := saturatingAdd size retain - capacity
  let (queue, size, dropped) ← discard queue size need 0
  let dropped ← checkedAdd dropped (bytes.length - retain)
  if 0 < retain then
    let size ← checkedAdd size retain
    let chunk := ⟨stream, bytes.drop (bytes.length - retain), 0⟩
    return (queue ++ [chunk], size, dropped)
  else
    return (queue, size, dropped)

/-- The labelled live bytes of a queue. -/
def content (queue : List BufferedChunk) : List Labelled :=
  queue.flatMap BufferedChunk.content

/-- Every chunk of the queue has a live byte. -/
def Live (queue : List BufferedChunk) : Prop :=
  ∀ c ∈ queue, c.offset < c.bytes.length

/-- An empty queue has no content. -/
@[simp] theorem content_nil : content [] = [] := rfl

/-- The content of a queue, from its first chunk on. -/
@[simp] theorem content_cons (c : BufferedChunk) (queue : List BufferedChunk) :
    content (c :: queue) = c.content ++ content queue := rfl

/-- The content of two queues, one after the other. -/
@[simp] theorem content_append (queue queue' : List BufferedChunk) :
    content (queue ++ queue') = content queue ++ content queue' :=
  List.flatMap_append

/-- What is left of a chunk behind its offset. -/
@[simp] theorem BufferedChunk.length_content (c : BufferedChunk) :
    c.content.length = c.bytes.length - c.offset := by
  simp [content, OutputChunk.content, snapshot]

/-- Advancing an offset discards live bytes from the front. -/
theorem BufferedChunk.content_advance (c : BufferedChunk) (count : ℕ) :
    content { c with offset := c.offset + count } = c.content.drop count := by
  simp [content, OutputChunk.content, snapshot, labelled, List.map_drop, List.drop_drop]

/-- **The loop.** It discards exactly the oldest bytes it was asked to, and does not fail while the
size counts the live bytes. It goes on behind a chunk that is used up, and stops in one that keeps
live bytes. -/
theorem discard_spec {queue : List BufferedChunk} (hl : Live queue) (remove dropped : ℕ)
    (hr : remove ≤ (content queue).length) (hd : dropped + remove ≤ MAX) :
    ∃ queue', discard queue (content queue).length remove dropped =
        some (queue', (content queue).length - remove, dropped + remove) ∧
      Live queue' ∧ content queue' = (content queue).drop remove := by
  induction queue generalizing remove dropped with
  | nil =>
      obtain rfl : remove = 0 := by simpa using hr
      exact ⟨[], by rw [discard]; simp, hl, rfl⟩
  | cons first rest ih =>
      have hlive := hl first List.mem_cons_self
      have hrest : Live rest := fun c hc => hl c (List.mem_cons_of_mem first hc)
      have hlen : (content (first :: rest)).length =
          (first.bytes.length - first.offset) + (content rest).length := by simp
      by_cases hz : remove = 0
      · subst hz
        exact ⟨first :: rest, by rw [discard]; simp, hl, rfl⟩
      rw [discard, if_neg hz]
      dsimp only
      rw [if_neg (by omega)]
      by_cases hall : first.bytes.length - first.offset ≤ remove
      · have hmin : min remove (first.bytes.length - first.offset) =
            first.bytes.length - first.offset := Nat.min_eq_right hall
        obtain ⟨queue', hq, hlq, hc⟩ := ih hrest (remove - (first.bytes.length - first.offset))
          (dropped + (first.bytes.length - first.offset)) (by omega) (by omega)
        refine ⟨queue', ?_, hlq, ?_⟩
        · rw [hmin, if_pos (by omega), hlen, Nat.add_sub_cancel_left, hq, Option.some.injEq,
            Prod.mk.injEq, Prod.mk.injEq]
          exact ⟨rfl, by omega, by omega⟩
        · have hnil : first.content.drop remove = [] :=
            List.drop_eq_nil_of_le (by rw [BufferedChunk.length_content]; exact hall)
          rw [hc, content_cons, List.drop_append, hnil, List.nil_append,
            BufferedChunk.length_content]
      · have hmin : min remove (first.bytes.length - first.offset) = remove := by omega
        refine ⟨{ first with offset := first.offset + remove } :: rest, ?_, ?_, ?_⟩
        · rw [hmin, if_neg (by omega), discard, Nat.sub_self, if_pos rfl]
        · intro c hc
          rcases List.mem_cons.mp hc with rfl | hc
          · simp only
            omega
          · exact hrest c hc
        · rw [content_cons, content_cons, BufferedChunk.content_advance,
            List.drop_append_of_le_length (by rw [BufferedChunk.length_content]; omega)]

/-- The last bytes of a log depend only on the last bytes of its beginning. -/
theorem rtake_rtake_append {α : Type} (l l' : List α) (n : ℕ) :
    (l.rtake n ++ l').rtake n = (l ++ l').rtake n := by
  have hl : (l.drop (l.length - n)).length = l.length - (l.length - n) := List.length_drop
  simp only [List.rtake, List.length_append, hl]
  rw [List.drop_append, List.drop_append, List.drop_drop, hl]
  congr 2
  · omega
  · omega

/-- The labelled end of a push. -/
theorem labelled_drop (stream : OutputStream) (bytes : List UInt8) (n : ℕ) :
    labelled stream (bytes.drop n) = (labelled stream bytes).drop n :=
  List.map_drop

/-- **Appending.** Afterwards the queue holds the last `capacity` bytes of its content and
the new bytes, and the others are counted. -/
theorem append_spec {queue : List BufferedChunk} (hl : Live queue) (capacity : ℕ)
    (stream : OutputStream) (bytes : List UInt8)
    (hb : (content queue).length + bytes.length ≤ MAX) :
    ∃ queue', append queue (content queue).length capacity stream bytes =
        some (queue', (content queue').length,
          (content queue).length + bytes.length - capacity) ∧
      Live queue' ∧
      content queue' = (content queue ++ labelled stream bytes).rtake capacity := by
  obtain ⟨retain, hretain⟩ : ∃ retain, retain = min bytes.length capacity := ⟨_, rfl⟩
  obtain ⟨need, hneed⟩ : ∃ need, need = saturatingAdd (content queue).length retain - capacity :=
    ⟨_, rfl⟩
  have hn : need = (content queue).length + retain - capacity := by
    rw [hneed, saturatingAdd, Nat.min_eq_left (by omega)]
  obtain ⟨kept, hk, hlk, hck⟩ := discard_spec hl need 0 (by omega) (by omega)
  have hadd : checkedAdd (0 + need) (bytes.length - retain) =
      some ((content queue).length + bytes.length - capacity) := by
    have hsum : 0 + need + (bytes.length - retain) =
        (content queue).length + bytes.length - capacity := by omega
    rw [checkedAdd, hsum, if_pos (by omega)]
  have hlast : (content queue ++ labelled stream bytes).rtake capacity =
      content kept ++ labelled stream (bytes.drop (bytes.length - retain)) := by
    have hold : (content queue).drop ((content queue).length + bytes.length - capacity) =
        (content queue).drop need := by
      by_cases hfit : bytes.length ≤ capacity
      · congr 1
        omega
      · rw [List.drop_eq_nil_of_le (by omega), List.drop_eq_nil_of_le (by omega)]
    rw [List.rtake, List.drop_append, List.length_append, length_labelled, hck, hold,
      labelled_drop]
    congr 2
    omega
  have hlen : (content kept).length = (content queue).length - need := by
    rw [hck, List.length_drop]
  rw [append, ← hretain, ← hneed, hk]
  simp only [Option.bind_eq_bind, Option.bind_some, hadd]
  by_cases hr : 0 < retain
  · have hsize : checkedAdd ((content queue).length - need) retain =
        some ((content queue).length - need + retain) := if_pos (by omega)
    refine ⟨kept ++ [⟨stream, bytes.drop (bytes.length - retain), 0⟩], ?_, ?_, ?_⟩
    · rw [if_pos hr, hsize]
      simp only [Option.bind_some, pure, content_append, List.length_append, hlen, content_cons,
        content_nil, BufferedChunk.length_content, List.length_drop, List.length_nil]
      congr 3
      omega
    · intro c hc
      rcases List.mem_append.mp hc with hc | hc
      · exact hlk c hc
      · obtain rfl := List.mem_singleton.mp hc
        simp only [List.length_drop]
        omega
    · rw [hlast, content_append]
      simp [BufferedChunk.content, OutputChunk.content, BufferedChunk.snapshot]
  · have hnone : bytes.drop (bytes.length - retain) = [] :=
      List.drop_eq_nil_of_le (by omega)
    refine ⟨kept, ?_, hlk, ?_⟩
    · rw [if_neg hr, hlen]
      rfl
    · rw [hlast, hnone]
      exact (List.append_nil _).symm

/-! ### The buffer -/

/-- What the mutex of the buffer guards. -/
structure BufferState where
  queue : List BufferedChunk
  tail : List BufferedChunk
  bytes : ℕ
  tailBytes : ℕ
  dropped : ℕ
  closed : OutputStream → Bool
  errors : List String

/-- The capture adapter. -/
structure Buffer where
  capacity : ℕ
  tailCapacity : ℕ
  state : BufferState

/-- A new buffer. -/
def capture (capacity tailCapacity : ℕ) : Buffer where
  capacity := capacity
  tailCapacity := tailCapacity
  state := ⟨[], [], 0, 0, 0, fun _ => false, []⟩

namespace Buffer

/-- Stores the bytes of one OS read in the queue and in the tail. -/
def push (b : Buffer) (stream : OutputStream) (bytes : List UInt8) : Option Buffer := do
  let (queue, size, lost) ← append b.state.queue b.state.bytes b.capacity stream bytes
  let dropped := saturatingAdd b.state.dropped lost
  let (tail, tailSize, _) ← append b.state.tail b.state.tailBytes b.tailCapacity stream bytes
  return { b with
    state := { b.state with
      queue := queue
      bytes := size
      dropped := dropped
      tail := tail
      tailBytes := tailSize } }

/-- Records the end of a stream, once. -/
def close (b : Buffer) (stream : OutputStream) (error : Option String) : Buffer :=
  if b.state.closed stream then b
  else
    { b with
      state := { b.state with
        closed := Function.update b.state.closed stream true
        errors := b.state.errors ++ error.toList } }

/-- Takes the queue and copies the tail. -/
def read (b : Buffer) : OutputSnapshot × Buffer where
  fst :=
    { chunks := b.state.queue.map BufferedChunk.intoOutput
      tail := b.state.tail.map BufferedChunk.snapshot
      droppedBytes := b.state.dropped
      stdoutClosed := b.state.closed .stdout
      stderrClosed := b.state.closed .stderr
      errors := b.state.errors }
  snd := { b with state := { b.state with bytes := 0, queue := [] } }

end Buffer

/-- A call on the buffer. -/
inductive BufferCall where
  | push (stream : OutputStream) (bytes : List UInt8)
  | close (stream : OutputStream) (error : Option String)
  | read
  deriving DecidableEq, Repr

/-- A buffer after a call, with the snapshots that reads have returned. -/
def Buffer.call (b : Buffer × List OutputSnapshot) :
    BufferCall → Option (Buffer × List OutputSnapshot)
  | .push stream bytes => (b.1.push stream bytes).map (·, b.2)
  | .close stream error => some (b.1.close stream error, b.2)
  | .read => some (b.1.read.2, b.2 ++ [b.1.read.1])

/-- A new buffer after a sequence of calls, oldest first, with the snapshots returned. -/
def Buffer.after (capacity tailCapacity : ℕ) (calls : List BufferCall) :
    Option (Buffer × List OutputSnapshot) :=
  calls.foldlM Buffer.call (capture capacity tailCapacity, [])

/-! ### The byte log -/

/-- Every byte pushed so far under its label, cut at the reads: the intervals between
reads, and what was pushed since the last one. -/
structure ByteLog where
  intervals : List (List Labelled)
  unread : List Labelled
  deriving DecidableEq, Repr

namespace ByteLog

/-- Nothing was pushed. -/
def empty : ByteLog := ⟨[], []⟩

/-- What a call adds. -/
def call (l : ByteLog) : BufferCall → ByteLog
  | .push stream bytes => { l with unread := l.unread ++ labelled stream bytes }
  | .close _ _ => l
  | .read => ⟨l.intervals ++ [l.unread], []⟩

/-- The log of a sequence of calls, oldest first. -/
def of (calls : List BufferCall) : ByteLog :=
  calls.foldl call empty

/-- All bytes, oldest first. -/
def pushed (l : ByteLog) : List Labelled :=
  l.intervals.flatten ++ l.unread

/-- The bytes an interval has beyond the capacity, over all intervals. -/
def beyond (l : ByteLog) (capacity : ℕ) : ℕ :=
  ((l.intervals ++ [l.unread]).map fun i => i.length - capacity).sum

end ByteLog

/-- The labelled bytes of the chunks a snapshot drained. -/
def OutputSnapshot.drained (s : OutputSnapshot) : List Labelled :=
  s.chunks.flatMap OutputChunk.content

/-- The labelled bytes of the tail of a snapshot. -/
def OutputSnapshot.retained (s : OutputSnapshot) : List Labelled :=
  s.tail.flatMap OutputChunk.content

namespace ByteLog

variable {l : ByteLog} {capacity : ℕ}

/-- A push adds its bytes, with their label. -/
theorem pushed_push (l : ByteLog) (stream : OutputStream) (bytes : List UInt8) :
    (l.call (.push stream bytes)).pushed = l.pushed ++ labelled stream bytes := by
  simp [call, pushed]

/-- A close adds no bytes. -/
@[simp] theorem pushed_close (l : ByteLog) (stream : OutputStream) (error : Option String) :
    (l.call (.close stream error)).pushed = l.pushed := rfl

/-- A read adds no bytes. -/
@[simp] theorem pushed_read (l : ByteLog) : (l.call .read).pushed = l.pushed := by
  simp [call, pushed]

/-- Calls only add bytes. -/
theorem length_pushed_le (l : ByteLog) (c : BufferCall) :
    l.pushed.length ≤ (l.call c).pushed.length := by
  cases c with
  | push stream bytes => simp [pushed_push]
  | close stream error => simp
  | read => simp

/-- What is beyond the capacity: in the intervals that were read, and in the one that was not. -/
theorem beyond_eq (l : ByteLog) (capacity : ℕ) :
    l.beyond capacity =
      (l.intervals.map fun i => i.length - capacity).sum + (l.unread.length - capacity) := by
  simp [beyond]

/-- A read changes nothing of what is beyond the capacity. -/
@[simp] theorem beyond_read (l : ByteLog) (capacity : ℕ) :
    (l.call .read).beyond capacity = l.beyond capacity := by
  simp [call, beyond]

/-- No more bytes are beyond the capacity than were pushed. -/
theorem beyond_add_kept (l : ByteLog) (capacity : ℕ) :
    (l.intervals.map fun i => (i.rtake capacity).length).sum +
      (l.unread.rtake capacity).length + l.beyond capacity = l.pushed.length := by
  have hone : ∀ i : List Labelled,
      (i.rtake capacity).length + (i.length - capacity) = i.length := by
    intro i
    rw [List.rtake, List.length_drop]
    omega
  have hsum : ∀ is : List (List Labelled),
      (is.map fun i => (i.rtake capacity).length).sum +
        (is.map fun i => i.length - capacity).sum = is.flatten.length := by
    intro is
    induction is with
    | nil => rfl
    | cons i is ih =>
        have := hone i
        simp only [List.map_cons, List.sum_cons, List.flatten_cons, List.length_append]
        omega
  have hi := hsum l.intervals
  have hu := hone l.unread
  rw [beyond_eq, pushed, List.length_append]
  omega

end ByteLog

namespace Buffer

/-- **The relation to the byte log.** The queue holds what fits of the current interval,
the tail what fits of all bytes, and the counters count them. -/
structure Represents (l : ByteLog) (b : Buffer) : Prop where
  queue_live : Live b.state.queue
  queue_content : content b.state.queue = l.unread.rtake b.capacity
  queue_bytes : b.state.bytes = (content b.state.queue).length
  tail_live : Live b.state.tail
  tail_content : content b.state.tail = l.pushed.rtake b.tailCapacity
  tail_bytes : b.state.tailBytes = (content b.state.tail).length
  dropped_bytes : b.state.dropped = l.beyond b.capacity

variable {l : ByteLog} {b : Buffer}

/-- A new buffer represents the empty log. -/
theorem represents_capture (capacity tailCapacity : ℕ) :
    (capture capacity tailCapacity).Represents .empty := by
  refine ⟨?_, ?_, rfl, ?_, ?_, rfl, ?_⟩
  · simp [capture, Live]
  · simp [capture, ByteLog.empty]
  · simp [capture, Live]
  · simp [capture, ByteLog.empty, ByteLog.pushed]
  · simp [capture, ByteLog.empty, ByteLog.beyond]

/-- A push keeps the relation, and does not fail while the bytes fit in 64 bits. It loses what the
present interval then has beyond the capacity. -/
theorem Represents.push (h : b.Represents l) (stream : OutputStream) {bytes : List UInt8}
    (hb : (l.pushed ++ labelled stream bytes).length ≤ MAX) :
    ∃ b', b.push stream bytes = some b' ∧ b'.capacity = b.capacity ∧
      b'.tailCapacity = b.tailCapacity ∧ b'.Represents (l.call (.push stream bytes)) := by
  have hu : (content b.state.queue).length ≤ l.unread.length := by
    rw [h.queue_content, List.rtake, List.length_drop]
    omega
  have ht : (content b.state.tail).length ≤ l.pushed.length := by
    rw [h.tail_content, List.rtake, List.length_drop]
    omega
  have hlen : l.unread.length ≤ l.pushed.length := by simp [ByteLog.pushed]
  rw [List.length_append, length_labelled] at hb
  obtain ⟨queue', hq, hlq, hcq⟩ := append_spec h.queue_live b.capacity stream bytes
    (by omega)
  obtain ⟨tail', hta, hlt, hct⟩ := append_spec h.tail_live b.tailCapacity stream bytes
    (by omega)
  have hbeyond := l.beyond_add_kept b.capacity
  have hlost : l.beyond b.capacity + ((content b.state.queue).length + bytes.length - b.capacity) =
      (l.call (.push stream bytes)).beyond b.capacity := by
    rw [ByteLog.beyond_eq, ByteLog.beyond_eq, ByteLog.call, List.length_append, length_labelled,
      h.queue_content, List.rtake, List.length_drop]
    dsimp only
    omega
  have hdropped : saturatingAdd b.state.dropped
      ((content b.state.queue).length + bytes.length - b.capacity) =
        (l.call (.push stream bytes)).beyond b.capacity := by
    rw [saturatingAdd, h.dropped_bytes, hlost, Nat.min_eq_left]
    have := (l.call (.push stream bytes)).beyond_add_kept b.capacity
    rw [ByteLog.pushed_push, List.length_append, length_labelled] at this
    omega
  rw [Buffer.push]
  rw [h.queue_bytes, h.tail_bytes, hq, hta]
  refine ⟨_, rfl, rfl, rfl, hlq, ?_, rfl, hlt, ?_, rfl, hdropped⟩
  · rw [hcq, h.queue_content, rtake_rtake_append]
    rfl
  · rw [hct, h.tail_content, rtake_rtake_append, ByteLog.pushed_push]

/-- A close keeps to the log. -/
theorem Represents.close (h : b.Represents l) (stream : OutputStream) (error : Option String) :
    (b.close stream error).Represents (l.call (.close stream error)) := by
  rw [Buffer.close]
  split
  · exact h
  · exact ⟨h.queue_live, h.queue_content, h.queue_bytes, h.tail_live, h.tail_content,
      h.tail_bytes, h.dropped_bytes⟩

/-- **A read keeps to the log**: it takes the bytes since the last one. -/
theorem Represents.read (h : b.Represents l) : b.read.2.Represents (l.call .read) where
  queue_live := by simp [Buffer.read, Live]
  queue_content := by simp [Buffer.read, ByteLog.call]
  queue_bytes := rfl
  tail_live := h.tail_live
  tail_content := by rw [ByteLog.pushed_read]; exact h.tail_content
  tail_bytes := h.tail_bytes
  dropped_bytes := by rw [ByteLog.beyond_read]; exact h.dropped_bytes

/-- A close keeps the capacity. -/
@[simp] theorem close_capacity (b : Buffer) (stream : OutputStream) (error : Option String) :
    (b.close stream error).capacity = b.capacity := by
  rw [close]; split <;> rfl

/-- A close keeps the capacity of the tail. -/
@[simp] theorem close_tailCapacity (b : Buffer) (stream : OutputStream) (error : Option String) :
    (b.close stream error).tailCapacity = b.tailCapacity := by
  rw [close]; split <;> rfl

/-- What a read drains. -/
theorem drained_read (b : Buffer) : b.read.1.drained = content b.state.queue := by
  simp only [OutputSnapshot.drained, read, List.flatMap_map, content]
  congr 1
  funext c
  rw [BufferedChunk.intoOutput_eq_snapshot]
  rfl

/-- A read returns the tail. -/
theorem retained_read (b : Buffer) : b.read.1.retained = content b.state.tail := by
  simp only [OutputSnapshot.retained, read, List.flatMap_map, content]
  rfl

/-- **The run.** A sequence of calls whose bytes fit in 64 bits does not fail; the buffer
represents the log, and every read drained what fits of its interval. -/
theorem represents_after (capacity tailCapacity : ℕ) (calls : List BufferCall)
    (h : (ByteLog.of calls).pushed.length ≤ MAX) :
    ∃ b snapshots, after capacity tailCapacity calls = some (b, snapshots) ∧
      b.capacity = capacity ∧ b.tailCapacity = tailCapacity ∧
      b.Represents (ByteLog.of calls) ∧
      snapshots.map OutputSnapshot.drained =
        (ByteLog.of calls).intervals.map (·.rtake capacity) := by
  induction calls using List.reverseRecOn with
  | nil => exact ⟨_, [], rfl, rfl, rfl, represents_capture _ _, rfl⟩
  | append_singleton calls c ih =>
      have hof : ByteLog.of (calls ++ [c]) = (ByteLog.of calls).call c := by
        simp [ByteLog.of]
      rw [hof] at h ⊢
      obtain ⟨b, snapshots, hb, hc, htc, hrep, hs⟩ :=
        ih (((ByteLog.of calls).length_pushed_le c).trans h)
      have hstep : after capacity tailCapacity (calls ++ [c]) = call (b, snapshots) c := by
        rw [after, List.foldlM_append]
        rw [after] at hb
        rw [hb]
        simp
      rw [hstep]
      cases c with
      | push stream bytes =>
          rw [ByteLog.pushed_push] at h
          obtain ⟨b', hb', hc', htc', hrep'⟩ := hrep.push stream h
          exact ⟨b', snapshots, by rw [call, hb']; rfl, hc'.trans hc, htc'.trans htc, hrep', hs⟩
      | close stream error =>
          exact ⟨_, snapshots, rfl, by simp [hc], by simp [htc], hrep.close stream error, hs⟩
      | read =>
          refine ⟨_, _, rfl, hc, htc, hrep.read, ?_⟩
          rw [List.map_append, hs, List.map_singleton, drained_read, hrep.queue_content, hc]
          simp [ByteLog.call]

/-- No chunk of a live queue is empty. -/
theorem bytes_ne_nil {queue : List BufferedChunk} (h : Live queue) :
    ∀ c ∈ queue.map BufferedChunk.snapshot, c.bytes ≠ [] := by
  rintro c hc hnil
  obtain ⟨chunk, hm, rfl⟩ := List.mem_map.mp hc
  have := h chunk hm
  rw [BufferedChunk.snapshot, List.drop_eq_nil_iff] at hnil
  omega

/-- **The buffer refines the byte log.** After any calls whose bytes fit in 64 bits, none
of which fails: a read returns the last bytes of the current interval up to the capacity,
with their labels and without empty chunks; the tail is the last bytes of all; the bytes
dropped are those the intervals have beyond the capacity, so that every byte was returned
by a read, is queued, or was dropped. -/
theorem buffer_refines_byte_log (capacity tailCapacity : ℕ) (calls : List BufferCall)
    (h : (ByteLog.of calls).pushed.length < 2 ^ 64) :
    ∃ b snapshots, after capacity tailCapacity calls = some (b, snapshots) ∧
      snapshots.map OutputSnapshot.drained =
        (ByteLog.of calls).intervals.map (·.rtake capacity) ∧
      b.read.1.drained = (ByteLog.of calls).unread.rtake capacity ∧
      (∀ c ∈ b.read.1.chunks, c.bytes ≠ []) ∧
      b.read.1.retained = (ByteLog.of calls).pushed.rtake tailCapacity ∧
      (∀ c ∈ b.read.1.tail, c.bytes ≠ []) ∧
      b.read.1.droppedBytes = (ByteLog.of calls).beyond capacity ∧
      (ByteLog.of calls).pushed.length =
        (snapshots.map fun s => s.drained.length).sum + b.state.bytes + b.state.dropped ∧
      ∀ c : BufferedChunk, c.intoOutput = c.snapshot := by
  obtain ⟨b, snapshots, hb, rfl, rfl, hrep, hs⟩ :=
    represents_after capacity tailCapacity calls (by rw [MAX]; omega)
  have hchunks : b.read.1.chunks = b.state.queue.map BufferedChunk.snapshot :=
    List.map_congr_left fun c _ => c.intoOutput_eq_snapshot
  have hsum : (snapshots.map fun s => s.drained.length).sum =
      ((ByteLog.of calls).intervals.map fun i => (i.rtake b.capacity).length).sum := by
    have := congrArg (List.map List.length) hs
    rw [List.map_map, List.map_map] at this
    exact congrArg List.sum this
  refine ⟨b, snapshots, hb, hs, ?_, ?_, ?_, ?_, hrep.dropped_bytes, ?_,
    BufferedChunk.intoOutput_eq_snapshot⟩
  · rw [drained_read, hrep.queue_content]
  · rw [hchunks]
    exact bytes_ne_nil hrep.queue_live
  · rw [retained_read, hrep.tail_content]
  · exact bytes_ne_nil hrep.tail_live
  · rw [hsum, hrep.queue_bytes, hrep.queue_content, hrep.dropped_bytes,
      ByteLog.beyond_add_kept]

/-- A second push overflows a small buffer: the queue keeps the last four bytes, the tail
the last three, and two are dropped. -/
theorem overflow_drops_oldest :
    ∃ b snapshots, after 4 3 [.push .stdout [0, 255, 1], .push .stderr [2, 3, 4]] =
        some (b, snapshots) ∧
      b.read.1.drained = [(.stdout, 1), (.stderr, 2), (.stderr, 3), (.stderr, 4)] ∧
      b.read.1.retained = [(.stderr, 2), (.stderr, 3), (.stderr, 4)] ∧
      b.read.1.droppedBytes = 2 := by
  obtain ⟨b, snapshots, hb, -, hd, -, ht, -, hl, -⟩ := buffer_refines_byte_log 4 3
    [.push .stdout [0, 255, 1], .push .stderr [2, 3, 4]] (by decide)
  exact ⟨b, snapshots, hb, hd.trans (by decide), ht.trans (by decide), hl.trans (by decide)⟩

end Buffer

end Shepherd
