import Shepherd.Keyed.Firsts
import Shepherd.Proc.Stat
import Shepherd.Text.Lines

/-!
# The Accounting of a Control Group

`accounting` reads the files of a control group: a number, a line with a number, and one line for
each device with its counters. A file of a controller that is not enabled cannot be read, and its
value is missing then; the directory itself has to be there before and after.

* `ioSum` — the total of one counter over all devices; `ioSum_eq_some` says when there is one.
* `KernelAccounting` — what the kernel writes; `accounting` returns it (`accounting_of_kernel`).
-/

namespace Shepherd.Proc

open Observation Text

/-- Where the accounting of a scope comes from. -/
inductive AccountingSource where
  | linuxCgroup
  | windowsJob
  deriving DecidableEq, Repr

/-- The accounting of a scope; CPU time in microseconds. -/
structure ScopeAccounting where
  source : AccountingSource
  cpuTime : Option ℕ
  memoryBytes : Option ℕ
  peakCommitBytes : Option ℕ
  ioReadBytes : Option ℕ
  ioWriteBytes : Option ℕ
  memberCount : Option ℕ
  deriving DecidableEq, Repr

/-- What reading the files of a control group returns, in the order in which they are read. -/
structure AccountingFiles where
  events : FileContent
  cpuStat : FileContent
  ioStat : FileContent
  memoryCurrent : FileContent
  pidsCurrent : FileContent
  eventsAgain : FileContent

/-- A number, as far as it is one. -/
def parseU64 (text : List Char) : Option ℕ :=
  (parseUnsigned U64_MAX text).toOption

/-- The counter in a line of `io.stat`. -/
def ioValue (key line : List Char) : Option ℕ :=
  ((splitWhitespace line).findSome? (stripPrefix key)).bind parseU64

/-- `io_sum`: every device needs the counter. -/
def ioSum (text key : List Char) : Option ℕ :=
  (lines text).foldlM (fun total line =>
    (ioValue key line).bind fun value =>
      if total + value ≤ U64_MAX then some (total + value) else none) 0

/-- A file that holds one number. -/
def fileValue (file : FileContent) : Option ℕ :=
  (readToString file).toOption.bind fun s => parseU64 (trim s.toList)

/-- `accounting`. -/
def accounting (files : AccountingFiles) : Except String ScopeAccounting := do
  let _ ← readToString files.events
  let cpu := (readToString files.cpuStat).toOption.bind fun s =>
    ((lines s.toList).findSome? (stripPrefix "usage_usec ".toList)).bind parseU64
  let io := (readToString files.ioStat).toOption
  let read := io.bind fun s => ioSum s.toList "rbytes=".toList
  let written := io.bind fun s => ioSum s.toList "wbytes=".toList
  let result := ⟨.linuxCgroup, cpu, fileValue files.memoryCurrent, none, read, written,
    fileValue files.pidsCurrent⟩
  let _ ← readToString files.eventsAgain
  return result

/-! ### What the kernel writes -/

/-- A device and its counters, if its line has them: a device that did nothing can be named
alone. -/
structure IoDevice where
  major : ℕ
  minor : ℕ
  /-- The bytes read and written. -/
  bytes : Option (ℕ × ℕ)
  /-- The fields after them. -/
  rest : List (List Char)
  /-- A blank ends the line, as it does when nothing follows the name. -/
  blank : Bool
  bytes_le : ∀ x ∈ bytes, x.1 ≤ U64_MAX ∧ x.2 ≤ U64_MAX
  rest_words : ∀ w ∈ rest, IsWord w
  rest_other : ∀ w ∈ rest,
    stripPrefix "rbytes=".toList w = none ∧ stripPrefix "wbytes=".toList w = none

namespace IoDevice

variable (d : IoDevice)

def rbytes : Option ℕ :=
  d.bytes.map Prod.fst

def wbytes : Option ℕ :=
  d.bytes.map Prod.snd

/-- The name of the device. -/
def name : List Char :=
  Nat.toDigits 10 d.major ++ ':' :: Nat.toDigits 10 d.minor

/-- The two counters. -/
def counters : List (List Char) :=
  match d.bytes with
  | none => []
  | some (read, written) =>
      ["rbytes=".toList ++ Nat.toDigits 10 read, "wbytes=".toList ++ Nat.toDigits 10 written]

/-- The fields after the name. -/
def fields : List (List Char) :=
  d.counters ++ d.rest

/-- The line in `io.stat`. -/
def line : List Char :=
  unwords d.name d.fields ++ if d.blank then [' '] else []

example : (⟨8, 0, none, [], true, nofun, nofun, nofun⟩ : IoDevice).line = "8:0 ".toList := by
  decide

end IoDevice

/-- What the kernel has to say about a control group; a controller that is not enabled says
nothing. -/
structure KernelAccounting where
  events : String
  eventsAgain : String
  usage : Option ℕ
  /-- The lines of `cpu.stat` after the first. -/
  cpuRest : List (List Char)
  devices : Option (List IoDevice)
  memory : Option ℕ
  pids : Option ℕ
  usage_le : ∀ n ∈ usage, n ≤ U64_MAX
  cpuRest_lines : ∀ l ∈ cpuRest, '\n' ∉ l ∧ '\r' ∉ l
  memory_le : ∀ n ∈ memory, n ≤ U64_MAX
  pids_le : ∀ n ∈ pids, n ≤ U64_MAX

namespace KernelAccounting

/-- A file with a text, or one that cannot be read. -/
def file (text : Option (List Char)) : FileContent :=
  match text with
  | none => .error "No such file or directory"
  | some text => .ok (String.ofList text).toByteArray

variable (k : KernelAccounting)

/-- The files. -/
def files : AccountingFiles where
  events := .ok k.events.toByteArray
  cpuStat := file (k.usage.map fun n =>
    (("usage_usec ".toList ++ Nat.toDigits 10 n) :: k.cpuRest).flatMap (· ++ ['\n']))
  ioStat := file (k.devices.map fun ds => (ds.map IoDevice.line).flatMap (· ++ ['\n']))
  memoryCurrent := file (k.memory.map fun n => Nat.toDigits 10 n ++ ['\n'])
  pidsCurrent := file (k.pids.map fun n => Nat.toDigits 10 n ++ ['\n'])
  eventsAgain := .ok k.eventsAgain.toByteArray

/-- The total of a counter, if every device has it and a 64-bit number holds the sum. -/
def total (counter : IoDevice → Option ℕ) : Option ℕ :=
  k.devices.bind fun ds => (ds.mapM counter).bind fun values =>
    if values.sum ≤ U64_MAX then some values.sum else none

end KernelAccounting

/-! ### Totals -/

/-- **When there is a total**: every line has the counter, and the exact sum is small enough. -/
theorem ioSum_eq (text key : List Char) :
    ioSum text key = ((lines text).mapM (ioValue key)).bind (Keyed.checkedSum U64_MAX) :=
  Keyed.foldlM_bind_eq (ioValue key) (fun total value =>
    if total + value ≤ U64_MAX then some (total + value) else none) (lines text) 0

/-- When there is a total: each line has the counter, and the sum fits. -/
theorem ioSum_eq_some {text key : List Char} {n : ℕ} : ioSum text key = some n ↔
    ∃ values, (lines text).mapM (ioValue key) = some values ∧ values.sum = n ∧ n ≤ U64_MAX := by
  rw [ioSum_eq, Option.bind_eq_some_iff]
  refine exists_congr fun values => and_congr_right fun _ => ?_
  rw [Keyed.checkedSum_eq, Option.ite_none_right_eq_some, Option.some.injEq]
  constructor
  · rintro ⟨hle, rfl⟩
    exact ⟨rfl, hle⟩
  · rintro ⟨rfl, hle⟩
    exact ⟨hle, rfl⟩

/-! ### Reading what the kernel writes -/

/-- A number of 64 bits is read as it was written. -/
theorem parseU64_toDigits {n : ℕ} (h : n ≤ U64_MAX) : parseU64 (Nat.toDigits 10 n) = some n := by
  rw [parseU64, parseUnsigned_toDigits h]
  rfl

/-- The digits of a number are a word. -/
theorem isWord_toDigits (n : ℕ) : IsWord (Nat.toDigits 10 n) :=
  ⟨Nat.toDigits_ne_nil, fun _ hc => (plain_toDigits hc).not_whitespace⟩

/-- A file of the kernel is read as it was written. -/
theorem readToString_file (text : Option (List Char)) :
    (readToString (KernelAccounting.file text)).toOption = text.map String.ofList := by
  cases text with
  | none => rfl
  | some text =>
      have : toText (String.ofList text).toByteArray = some (String.ofList text) :=
        toText_eq_some.mpr rfl
      rw [KernelAccounting.file, readToString, this]
      rfl

/-- **A number with a newline is read back.** -/
theorem fileValue_file {n : Option ℕ} (h : ∀ m ∈ n, m ≤ U64_MAX) :
    fileValue (KernelAccounting.file (n.map fun n => Nat.toDigits 10 n ++ ['\n'])) = n := by
  rw [fileValue, readToString_file]
  cases n with
  | none => rfl
  | some n =>
      have hn := h n rfl
      simp [trim_append (isWord_toDigits n) (by decide : isWhitespace '\n' = true),
        parseU64_toDigits hn]

/-- A key with a number is a word. -/
theorem isWord_append {key : List Char} (hk : ∀ c ∈ key, isWhitespace c = false) (n : ℕ) :
    IsWord (key ++ Nat.toDigits 10 n) := by
  obtain ⟨hne, hall⟩ := isWord_toDigits n
  refine ⟨by simp [hne], fun c hc => ?_⟩
  rcases List.mem_append.mp hc with hc | hc
  · exact hk c hc
  · exact hall c hc

namespace IoDevice

variable (d : IoDevice)

/-- The name of a device is a word. -/
theorem isWord_name : IsWord d.name := by
  obtain ⟨hne, hall⟩ := isWord_toDigits d.major
  refine ⟨by simp [name], fun c hc => ?_⟩
  rw [name, List.mem_append, List.mem_cons] at hc
  rcases hc with hc | rfl | hc
  · exact hall c hc
  · decide
  · exact (isWord_toDigits d.minor).2 c hc

/-- The fields of a device line are words. -/
theorem isWord_fields {w : List Char} (h : w ∈ d.name :: d.fields) : IsWord w := by
  rcases List.mem_cons.mp h with rfl | h
  · exact d.isWord_name
  · rcases List.mem_append.mp h with h | h
    · rw [counters] at h
      split at h
      · cases h
      · simp only [List.mem_cons, List.not_mem_nil, or_false] at h
        rcases h with rfl | rfl
        · exact isWord_append (by simp [isWhitespace]) _
        · exact isWord_append (by simp [isWhitespace]) _
    · exact d.rest_words w h

/-- The blank at the end of a line changes nothing. -/
theorem splitWhitespace_line : splitWhitespace d.line = d.name :: d.fields := by
  have hwords : splitWhitespace (unwords d.name d.fields) = d.name :: d.fields :=
    splitWhitespace_unwords d.isWord_name fun _ h => d.isWord_fields (List.mem_cons_of_mem _ h)
  rw [line]
  split_ifs
  · exact (splitWhitespace_append_blank (by decide)).trans hwords
  · rw [List.append_nil]
    exact hwords

/-- The name of a device is no counter. -/
theorem stripPrefix_name {c : Char} {key : List Char} (hc : c.isDigit = false) :
    stripPrefix (c :: key) d.name = none := by
  obtain ⟨e, es, hes, -⟩ := exists_toDigits d.major
  have he : e.isDigit = true := isDigit_toDigits (hes ▸ List.mem_cons_self)
  have hne : c ≠ e := by
    rintro rfl
    cases hc.symm.trans he
  rw [stripPrefix, name, hes]
  simp [hne]

/-- A key that neither the name nor the fields after the counters start with is looked for in
the counters. -/
theorem ioValue_line {key : List Char} (hn : stripPrefix key d.name = none)
    (hr : ∀ w ∈ d.rest, stripPrefix key w = none) :
    ioValue key d.line = (d.counters.findSome? (stripPrefix key)).bind parseU64 := by
  rw [ioValue, splitWhitespace_line, List.findSome?_cons, hn, fields, List.findSome?_append,
    List.findSome?_eq_none_iff.mpr hr, Option.or_none]

/-- **A counter is read back**, or found to be missing. -/
theorem ioValue_rbytes : ioValue "rbytes=".toList d.line = d.rbytes := by
  have hle := d.bytes_le
  have hn : stripPrefix "rbytes=".toList d.name = none := d.stripPrefix_name rfl
  rw [d.ioValue_line hn fun w hw => (d.rest_other w hw).1, counters, rbytes]
  cases hb : d.bytes with
  | none => rfl
  | some bytes =>
      simp only
      rw [List.findSome?_cons, stripPrefix_append]
      exact parseU64_toDigits (hle bytes hb).1

/-- The written bytes are found in the line, if they are there. -/
theorem ioValue_wbytes : ioValue "wbytes=".toList d.line = d.wbytes := by
  have hle := d.bytes_le
  have hn : stripPrefix "wbytes=".toList d.name = none := d.stripPrefix_name rfl
  rw [d.ioValue_line hn fun w hw => (d.rest_other w hw).2, counters, wbytes]
  cases hb : d.bytes with
  | none => rfl
  | some bytes =>
      have hr : stripPrefix "wbytes=".toList ("rbytes=".toList ++ Nat.toDigits 10 bytes.1) = none :=
        if_neg (by simp)
      simp only
      rw [List.findSome?_cons, hr, List.findSome?_cons, stripPrefix_append]
      exact parseU64_toDigits (hle bytes hb).2

/-- A device line is one line. -/
theorem not_mem_line : '\n' ∉ d.line ∧ '\r' ∉ d.line := by
  have hwords : '\n' ∉ unwords d.name d.fields ∧ '\r' ∉ unwords d.name d.fields :=
    ⟨not_mem_unwords (by decide) (by decide) fun _ => d.isWord_fields,
      not_mem_unwords (by decide) (by decide) fun _ => d.isWord_fields⟩
  rw [line]
  split_ifs
  · simpa using hwords
  · simpa using hwords

end IoDevice

/-- **The total of a counter is read back**, if every device has it and the sum fits. -/
theorem ioSum_devices {key : List Char} {counter : IoDevice → Option ℕ} (ds : List IoDevice)
    (h : ∀ d, ioValue key (IoDevice.line d) = counter d) :
    ioSum ((ds.map IoDevice.line).flatMap (· ++ ['\n'])) key =
      (ds.mapM counter).bind fun values =>
        if values.sum ≤ U64_MAX then some values.sum else none := by
  have hmap : (ds.map IoDevice.line).mapM (ioValue key) = ds.mapM counter := by
    induction ds with
    | nil => rfl
    | cons d ds ih => rw [List.map_cons, List.mapM_cons, List.mapM_cons, h d, ih]
  rw [ioSum_eq, lines_unlines, hmap]
  · exact congrArg _ (funext fun values => Keyed.checkedSum_eq ..)
  · intro l hl
    obtain ⟨d, -, rfl⟩ := List.mem_map.mp hl
    exact d.not_mem_line

/-- The line that `cpu.stat` starts with. -/
theorem not_mem_usage (n : ℕ) : '\n' ∉ "usage_usec ".toList ++ Nat.toDigits 10 n ∧
    '\r' ∉ "usage_usec ".toList ++ Nat.toDigits 10 n := by
  have hdigits := (isWord_toDigits n).2
  constructor
  · intro h
    rcases List.mem_append.mp h with h | h
    · exact absurd h (by decide)
    · exact absurd (hdigits _ h) (by decide)
  · intro h
    rcases List.mem_append.mp h with h | h
    · exact absurd h (by decide)
    · exact absurd (hdigits _ h) (by decide)

namespace KernelAccounting

variable (k : KernelAccounting)

/-- The CPU time is read as the kernel wrote it. -/
theorem cpu_files : ((readToString k.files.cpuStat).toOption.bind fun s =>
    ((lines s.toList).findSome? (stripPrefix "usage_usec ".toList)).bind parseU64) = k.usage := by
  rw [files, readToString_file]
  have hle := k.usage_le
  cases hu : k.usage with
  | none => rfl
  | some n =>
      have hlines : lines ((("usage_usec ".toList ++ Nat.toDigits 10 n) :: k.cpuRest).flatMap
          (· ++ ['\n'])) = ("usage_usec ".toList ++ Nat.toDigits 10 n) :: k.cpuRest := by
        refine lines_unlines fun l hl => ?_
        rcases List.mem_cons.mp hl with rfl | hl
        · exact not_mem_usage n
        · exact k.cpuRest_lines l hl
      simp only [Option.map_some, Option.bind_some, String.toList_ofList]
      rw [hlines, List.findSome?_cons, stripPrefix_append]
      exact parseU64_toDigits (hle n hu)

/-- The total of a counter is read as the kernel wrote the devices. -/
theorem io_files {key : List Char} {counter : IoDevice → Option ℕ}
    (h : ∀ d, ioValue key (IoDevice.line d) = counter d) :
    ((readToString k.files.ioStat).toOption.bind fun s => ioSum s.toList key) =
      k.total counter := by
  rw [files, readToString_file, total]
  cases k.devices with
  | none => rfl
  | some ds => simpa using ioSum_devices ds h

end KernelAccounting

/-- **What the kernel writes is what `accounting` returns**: the value of each controller, missing
if it says nothing. The total of a counter is missing as well if the line of some device does not
have it, or if the sum is too large for a 64-bit number. A total that is read from any text is
exact, and takes every line to have the counter. -/
theorem accounting_of_kernel :
    (∀ k : KernelAccounting, accounting k.files = .ok ⟨.linuxCgroup, k.usage, k.memory, none,
      k.total IoDevice.rbytes, k.total IoDevice.wbytes, k.pids⟩) ∧
    ∀ (text key : List Char) (n : ℕ), ioSum text key = some n ↔
      ∃ values, (lines text).mapM (ioValue key) = some values ∧ values.sum = n ∧ n ≤ U64_MAX := by
  refine ⟨fun k => ?_, fun text key n => ioSum_eq_some⟩
  have htext : ∀ s : String, readToString (.ok s.toByteArray) = .ok s := by
    intro s
    rw [readToString, toText_eq_some.mpr rfl]
  have hfirst : readToString k.files.events = .ok k.events := htext _
  have hlast : readToString k.files.eventsAgain = .ok k.eventsAgain := htext _
  have hmemory : fileValue k.files.memoryCurrent = k.memory := fileValue_file k.memory_le
  have hpids : fileValue k.files.pidsCurrent = k.pids := fileValue_file k.pids_le
  rw [accounting, hfirst, hlast, hmemory, hpids, k.cpu_files]
  dsimp only
  rw [k.io_files IoDevice.ioValue_rbytes, k.io_files IoDevice.ioValue_wbytes]
  rfl

end Shepherd.Proc
