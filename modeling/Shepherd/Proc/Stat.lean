import Shepherd.Observation.Usage
import Shepherd.Service.Status
import Shepherd.Text.Fields

/-!
# The Status Line of a Process

The kernel writes one line about a process, `{pid} ({comm}) {state} {ppid} …`, where `comm` is
the name that the process chose, any bytes. Four functions read fields of the line; they find
the end of the name at the last parenthesis, and they read the file as text.

* `readStartTime`, `statField`, `usageStat`, `sampleTicks` — the functions, and `observe`,
  `isZombie`, `parentOf` and `groupMember` which use them. A file is given by what reading it
  returns.
* `KernelStat` — what the kernel writes (`line`).
* `ParsesRight` — the functions return what was written. They do exactly for a name that is
  text (`stat_is_parsed_iff`): every other name makes the whole line unreadable.
-/

namespace Shepherd.Proc

open Observation Text

/-- What reading a file returns. -/
abbrev FileContent := Except String ByteArray

/-- `read_to_string`. -/
def readToString : FileContent → Except String String
  | .error e => .error e
  | .ok bytes =>
      match toText bytes with
      | some text => .ok text
      | none => .error "stream did not contain valid UTF-8"

/-- The largest value of a signed 32-bit number. -/
def I32_MAX : ℕ := 2 ^ 31 - 1

/-! ### The backend -/

/-- `read_start_time`: field 22 follows the ")" that closes comm. -/
def readStartTime (stat : FileContent) : Option ℕ := do
  let stat ← (readToString stat).toOption
  let (_, afterComm) ← rsplitOnce ')' stat.toList
  let field ← (splitWhitespace afterComm)[19]?
  (parseUnsigned U64_MAX field).toOption

/-- `sample_sync`: the CPU ticks of a sample. -/
def sampleTicks (stat : FileContent) : Except String ℕ := do
  let stat ← readToString stat
  match rsplitOnce ')' stat.toList with
  | none => .error "invalid proc stat"
  | some (_, afterComm) =>
      let fields := splitWhitespace afterComm
      match fields[11]?.bind fun s => (parseUnsigned U64_MAX s).toOption,
          fields[12]?.bind fun s => (parseUnsigned U64_MAX s).toOption with
      | some u, some s => .ok (min (u + s) U64_MAX)
      | _, _ => .error "invalid CPU counters"

/-! ### Kept processes -/

/-- `stat_field`: the fields after comm, the first is the state. -/
def statField (stat : FileContent) (index : ℕ) : Option String := do
  let stat ← (readToString stat).toOption
  let (_, afterComm) ← rsplitOnce ')' stat.toList
  (splitWhitespace afterComm)[index]?.map String.ofList

/-- `is_zombie`. -/
def isZombie (stat : FileContent) : Bool :=
  statField stat 0 = some "Z" ∨ statField stat 0 = some "X"

/-- `parse::<i32>`. -/
def parseI32 (text : String) : Option Int :=
  (parseSigned I32_MAX text.toList).toOption

/-- `parent_of`. -/
def parentOf (stat : FileContent) : Option Int :=
  (statField stat 1).bind parseI32

/-- `pid as i32`. -/
def asI32 (pid : ℕ) : Int :=
  if pid ≤ I32_MAX then pid else (pid : Int) - 2 ^ 32

/-- The body of the loop of `group_members`, for a directory and the status line in it. -/
def groupMember (pgid : Int) (entry : ByteArray × FileContent) : Option Int := do
  let name ← toText entry.1
  let pid ← (parseUnsigned U32_MAX name.toList).toOption
  if (statField entry.2 2).bind parseI32 = some pgid then some (asI32 pid) else none

/-- `group_members`: `none` if the processes cannot be listed. -/
def groupMembers (entries : Option (List (ByteArray × FileContent))) (pgid : Int) :
    Option (List Int) :=
  entries.map (List.filterMap (groupMember pgid))

/-- An error of `kill`. -/
inductive Errno where
  | esrch
  | other (code : ℕ)
  deriving DecidableEq, Repr

/-- What the OS reports about the process at a pid. -/
structure KeptObservation where
  startToken : ℕ
  bootId : Option String
  deriving DecidableEq, Repr

/-- `observe`, with what reading the status line, `kill` without a signal and reading the line
again return. -/
def observe (pid : ℕ) (stat : FileContent) (kill : Except Errno Unit) (again : FileContent)
    (bootId : Option String) : Except KeptError (Option KeptObservation) :=
  match readStartTime stat with
  | some startToken => .ok (some ⟨startToken, bootId⟩)
  | none =>
      match kill with
      | .error .esrch => .ok none
      | _ =>
          -- a zombie has exited; it no longer needs a record
          if isZombie again then .ok none
          else .error (.signal s!"pid {pid} exists but its start time is unreadable")

/-! ### Usage -/

/-- `number`, of `stat`. -/
def number (fields : List (List Char)) (index : ℕ) : Except UsageFailure ℕ :=
  match fields[index]? with
  | none => .error (.unavailable "short stat")
  | some field => (parseUnsigned U64_MAX field).mapError fun e => .unavailable e.display

/-- `stat` of the usage sampler: the start time and the CPU ticks. -/
def usageStat (file : FileContent) : Except UsageFailure (ℕ × ℕ) := do
  let text ← (readToString file).mapError .unavailable
  match rsplitOnce ')' text.toList with
  | none => .error (.unavailable "invalid stat")
  | some (_, afterComm) =>
      let fields := splitWhitespace afterComm
      let start ← number fields 19
      let utime ← number fields 11
      let stime ← number fields 12
      if utime + stime ≤ U64_MAX then .ok (start, utime + stime)
      else .error (.unavailable "CPU overflow")

/-! ### The line -/

/-- What the kernel writes about a process. -/
structure KernelStat where
  pid : ℕ
  /-- The name, any bytes. -/
  comm : ByteArray
  state : Char
  ppid : Int
  pgrp : Int
  session : Int
  ttyNr : Int
  tpgid : Int
  flags : Int
  minflt : Int
  cminflt : Int
  majflt : Int
  cmajflt : Int
  utime : ℕ
  stime : ℕ
  cutime : Int
  cstime : Int
  priority : Int
  nice : Int
  numThreads : Int
  itrealvalue : Int
  starttime : ℕ
  rest : List Int
  pid_le : pid ≤ I32_MAX
  state_alpha : state.isAlpha = true
  ppid_range : -(I32_MAX + 1 : Int) ≤ ppid ∧ ppid ≤ I32_MAX
  pgrp_range : -(I32_MAX + 1 : Int) ≤ pgrp ∧ pgrp ≤ I32_MAX
  utime_le : utime ≤ U64_MAX
  stime_le : stime ≤ U64_MAX
  starttime_le : starttime ≤ U64_MAX

namespace KernelStat

variable (st : KernelStat)

/-- The fields after the name, as they are written. -/
def fields : List (List Char) :=
  [[st.state], decimal st.ppid, decimal st.pgrp, decimal st.session, decimal st.ttyNr,
    decimal st.tpgid, decimal st.flags, decimal st.minflt, decimal st.cminflt, decimal st.majflt,
    decimal st.cmajflt, Nat.toDigits 10 st.utime, Nat.toDigits 10 st.stime, decimal st.cutime,
    decimal st.cstime, decimal st.priority, decimal st.nice, decimal st.numThreads,
    decimal st.itrealvalue, Nat.toDigits 10 st.starttime] ++ st.rest.map decimal

/-- The text after the name and its parenthesis. -/
def after : List Char :=
  st.fields.flatMap (' ' :: ·) ++ ['\n']

/-- The text before the name. -/
def before : List Char :=
  Nat.toDigits 10 st.pid ++ [' ', '(']

/-- The line. -/
def line : ByteArray :=
  (String.ofList st.before).toByteArray ++ st.comm ++ (String.ofList (')' :: st.after)).toByteArray

/-- The name of its directory. -/
def directory : ByteArray :=
  (String.ofList (Nat.toDigits 10 st.pid)).toByteArray

end KernelStat

/-- **The functions return what the kernel wrote.** -/
structure ParsesRight (st : KernelStat) : Prop where
  startTime : readStartTime (.ok st.line) = some st.starttime
  field : ∀ index, statField (.ok st.line) index = st.fields[index]?.map String.ofList
  zombie : isZombie (.ok st.line) = decide (st.state = 'Z' ∨ st.state = 'X')
  parent : parentOf (.ok st.line) = some st.ppid
  member : ∀ pgid, groupMember pgid (st.directory, .ok st.line) =
    if st.pgrp = pgid then some (st.pid : Int) else none
  usage : usageStat (.ok st.line) = .ok (st.starttime, st.utime + st.stime)
  ticks : sampleTicks (.ok st.line) = .ok (st.utime + st.stime)
  observed : ∀ kill again bootId,
    observe st.pid (.ok st.line) kill again bootId = .ok (some ⟨st.starttime, bootId⟩)

variable {st : KernelStat}

/-! ### Fields -/

/-- The characters of fields. -/
def Plain (c : Char) : Prop := 45 ≤ c.toNat ∧ c.toNat ≤ 122

/-- A plain character is no blank. -/
theorem Plain.not_whitespace {c : Char} (h : Plain c) : isWhitespace c = false := by
  obtain ⟨hlow, hhigh⟩ := h
  simp only [isWhitespace, decide_eq_false_iff_not, List.mem_cons, List.not_mem_nil, or_false]
  omega

/-- A plain character is no parenthesis. -/
theorem Plain.ne_close {c : Char} (h : Plain c) : c ≠ ')' := by
  rintro rfl
  exact absurd h.1 (by decide)

/-- Digits are plain. -/
theorem plain_of_isDigit {c : Char} (h : c.isDigit = true) : Plain c := by
  simp only [Char.isDigit, Bool.and_eq_true, decide_eq_true_eq] at h
  change 48 ≤ c.toNat ∧ c.toNat ≤ 57 at h
  exact ⟨by omega, by omega⟩

/-- Letters are plain. -/
theorem plain_of_isAlpha {c : Char} (h : c.isAlpha = true) : Plain c := by
  change (decide (65 ≤ c.toNat ∧ c.toNat ≤ 90) ||
    (decide (97 ≤ c.toNat) && decide (c.toNat ≤ 122))) = true at h
  simp only [Bool.or_eq_true, Bool.and_eq_true, decide_eq_true_eq] at h
  exact ⟨by omega, by omega⟩

/-- A number is written in plain characters. -/
theorem plain_toDigits {n : ℕ} {c : Char} (h : c ∈ Nat.toDigits 10 n) : Plain c :=
  plain_of_isDigit (isDigit_toDigits h)

/-- A number with a sign is written in plain characters. -/
theorem plain_decimal {n : Int} {c : Char} (h : c ∈ decimal n) : Plain c := by
  rw [decimal] at h
  split at h
  · rcases List.mem_cons.mp h with rfl | h
    · exact ⟨by decide, by decide⟩
    · exact plain_toDigits h
  · exact plain_toDigits h

/-- A number is not written as nothing. -/
theorem decimal_ne_nil (n : Int) : decimal n ≠ [] := by
  rw [decimal]
  split
  · exact List.cons_ne_nil _ _
  · exact Nat.toDigits_ne_nil

/-- Every field is written with plain characters. -/
theorem plain_fields {w : List Char} (h : w ∈ st.fields) : w ≠ [] ∧ ∀ c ∈ w, Plain c := by
  have hdecimal (n : Int) : decimal n ≠ [] ∧ ∀ c ∈ decimal n, Plain c :=
    ⟨decimal_ne_nil n, fun c => plain_decimal⟩
  have hdigits (n : ℕ) : Nat.toDigits 10 n ≠ [] ∧ ∀ c ∈ Nat.toDigits 10 n, Plain c :=
    ⟨Nat.toDigits_ne_nil, fun c => plain_toDigits⟩
  have hstate : [st.state] ≠ [] ∧ ∀ c ∈ [st.state], Plain c := by
    refine ⟨List.cons_ne_nil _ _, fun c hc => ?_⟩
    rw [List.mem_singleton.mp hc]
    exact plain_of_isAlpha st.state_alpha
  rw [KernelStat.fields, List.mem_append, List.mem_map] at h
  rcases h with h | ⟨n, -, rfl⟩
  · simp only [List.mem_cons, List.not_mem_nil, or_false] at h
    rcases h with rfl | rfl | rfl | rfl | rfl | rfl | rfl | rfl | rfl | rfl | rfl | rfl | rfl |
      rfl | rfl | rfl | rfl | rfl | rfl | rfl <;> first | exact hstate | exact hdecimal _ |
      exact hdigits _
  · exact hdecimal n

/-- The text behind the name splits into the fields. -/
theorem splitWhitespace_after : splitWhitespace st.after = st.fields := by
  refine splitWhitespace_fields (fun w hw => ?_) (by decide)
  obtain ⟨hne, hplain⟩ := plain_fields hw
  exact ⟨hne, fun c hc => (hplain c hc).not_whitespace⟩

/-- The name ends at the last parenthesis. -/
theorem close_not_mem_after : ')' ∉ st.after := by
  intro h
  rw [KernelStat.after, List.mem_append, List.mem_flatMap] at h
  rcases h with ⟨w, hw, hc⟩ | hc
  · rcases List.mem_cons.mp hc with hc | hc
    · exact absurd hc (by decide)
    · exact ((plain_fields hw).2 _ hc).ne_close rfl
  · exact absurd (List.mem_singleton.mp hc) (by decide)

/-! ### Reading the line -/

/-- A name that is text leaves the line text. -/
theorem readToString_line (h : st.comm.IsValidUTF8) :
    ∃ text before, readToString (.ok st.line) = .ok text ∧
      rsplitOnce ')' text.toList = some (before, st.after) := by
  let name : String := ⟨st.comm, h⟩
  have htext : toText st.line =
      some (String.ofList st.before ++ name ++ String.ofList (')' :: st.after)) := by
    rw [toText_eq_some, String.toByteArray_append, String.toByteArray_append]
    rfl
  refine ⟨_, st.before ++ name.toList, by rw [readToString, htext], ?_⟩
  rw [String.toList_append, String.toList_append, String.toList_ofList, String.toList_ofList]
  exact rsplitOnce_append _ close_not_mem_after

/-- Any other name leaves nothing to read. -/
theorem readToString_line_of_not_valid (h : ¬ st.comm.IsValidUTF8) :
    readToString (.ok st.line) = .error "stream did not contain valid UTF-8" := by
  have htext : toText st.line = none := by
    rw [toText_eq_none, KernelStat.line, isValidUTF8_between]
    exact h
  rw [readToString, htext]

/-- A name that is no text hides the start time. -/
theorem readStartTime_of_not_valid (h : ¬ st.comm.IsValidUTF8) :
    readStartTime (.ok st.line) = none := by
  rw [readStartTime, readToString_line_of_not_valid h]
  rfl

/-- A name that is no text hides that the process is a zombie. -/
theorem isZombie_of_not_valid (h : ¬ st.comm.IsValidUTF8) : isZombie (.ok st.line) = false := by
  have hfield : statField (.ok st.line) 0 = none := by
    rw [statField, readToString_line_of_not_valid h]
    rfl
  rw [isZombie, hfield]
  rfl

/-- The fields of a line with a name that is text. -/
theorem statField_line (h : st.comm.IsValidUTF8) (index : ℕ) :
    statField (.ok st.line) index = st.fields[index]?.map String.ofList := by
  obtain ⟨text, before, hread, hsplit⟩ := readToString_line h
  rw [statField, hread]
  simp only [Except.toOption, Option.bind_eq_bind, Option.bind_some, hsplit, splitWhitespace_after]

/-- The start time is read as the kernel wrote it. -/
theorem readStartTime_line (h : st.comm.IsValidUTF8) :
    readStartTime (.ok st.line) = some st.starttime := by
  obtain ⟨text, before, hread, hsplit⟩ := readToString_line h
  have hfield : st.fields[19]? = some (Nat.toDigits 10 st.starttime) := rfl
  rw [readStartTime, hread]
  simp only [Except.toOption, Option.bind_eq_bind, Option.bind_some, hsplit, splitWhitespace_after,
    hfield, parseUnsigned_toDigits st.starttime_le]

/-- Whether a process is a zombie is read from its state. -/
theorem isZombie_line (h : st.comm.IsValidUTF8) :
    isZombie (.ok st.line) = decide (st.state = 'Z' ∨ st.state = 'X') := by
  have hfield : st.fields[0]? = some [st.state] := rfl
  have hletter (c : Char) : some (String.ofList [st.state]) = some (String.ofList [c]) ↔
      st.state = c := by
    rw [Option.some.injEq, String.ofList_inj, List.cons.injEq]
    exact and_iff_left rfl
  rw [isZombie, statField_line h, hfield]
  exact decide_eq_decide.mpr (or_congr (hletter 'Z') (hletter 'X'))

/-- The parent is read as the kernel wrote it. -/
theorem parentOf_line (h : st.comm.IsValidUTF8) : parentOf (.ok st.line) = some st.ppid := by
  have hfield : st.fields[1]? = some (decimal st.ppid) := rfl
  rw [parentOf, statField_line h, hfield]
  simp only [Option.map_some, Option.bind_some, parseI32, String.toList_ofList,
    parseSigned_decimal st.ppid_range.1 st.ppid_range.2, Except.toOption]

/-- A member of a group is listed under its number. -/
theorem groupMember_line (h : st.comm.IsValidUTF8) (pgid : Int) :
    groupMember pgid (st.directory, .ok st.line) =
      if st.pgrp = pgid then some (st.pid : Int) else none := by
  have hfield : st.fields[2]? = some (decimal st.pgrp) := rfl
  have hname : toText st.directory = some (String.ofList (Nat.toDigits 10 st.pid)) :=
    toText_eq_some.mpr rfl
  have hpid : st.pid ≤ U32_MAX := Nat.le_trans st.pid_le (by decide)
  rw [groupMember, hname]
  simp only [Option.bind_eq_bind, Option.bind_some, String.toList_ofList,
    parseUnsigned_toDigits hpid, Except.toOption, statField_line h, hfield, Option.map_some,
    parseI32, parseSigned_decimal st.pgrp_range.1 st.pgrp_range.2, Option.some.injEq, asI32,
    if_pos st.pid_le]

/-- The counters of the sampler. -/
theorem sampleTicks_line (h : st.comm.IsValidUTF8) :
    sampleTicks (.ok st.line) = .ok (min (st.utime + st.stime) U64_MAX) := by
  obtain ⟨text, before, hread, hsplit⟩ := readToString_line h
  have hutime : st.fields[11]? = some (Nat.toDigits 10 st.utime) := rfl
  have hstime : st.fields[12]? = some (Nat.toDigits 10 st.stime) := rfl
  rw [sampleTicks, hread]
  change (match rsplitOnce ')' text.toList with | none => _ | some (_, afterComm) => _) = _
  rw [hsplit]
  simp only [splitWhitespace_after, hutime, hstime, Option.bind_some,
    parseUnsigned_toDigits st.utime_le, parseUnsigned_toDigits st.stime_le, Except.toOption]

/-- The processor time is the sum of two fields, if that fits. -/
theorem usageStat_line (h : st.comm.IsValidUTF8) :
    usageStat (.ok st.line) =
      if st.utime + st.stime ≤ U64_MAX then .ok (st.starttime, st.utime + st.stime)
      else .error (.unavailable "CPU overflow") := by
  obtain ⟨text, before, hread, hsplit⟩ := readToString_line h
  have hutime : st.fields[11]? = some (Nat.toDigits 10 st.utime) := rfl
  have hstime : st.fields[12]? = some (Nat.toDigits 10 st.stime) := rfl
  have hstart : st.fields[19]? = some (Nat.toDigits 10 st.starttime) := rfl
  have hnumber {index n : ℕ} (hf : st.fields[index]? = some (Nat.toDigits 10 n))
      (hn : n ≤ U64_MAX) : number st.fields index = .ok n := by
    rw [number, hf]
    simp only [parseUnsigned_toDigits hn, Except.mapError]
  rw [usageStat, hread]
  change (match rsplitOnce ')' text.toList with | none => _ | some (_, afterComm) => _) = _
  rw [hsplit]
  simp only [splitWhitespace_after, hnumber hstart st.starttime_le, hnumber hutime st.utime_le,
    hnumber hstime st.stime_le]
  rfl

/-- **The line is parsed right exactly for a name that is text**, as long as the CPU ticks are
a 64-bit number together. -/
theorem stat_is_parsed_iff (st : KernelStat) :
    ParsesRight st ↔ st.comm.IsValidUTF8 ∧ st.utime + st.stime ≤ U64_MAX := by
  constructor
  · intro h
    have hvalid : st.comm.IsValidUTF8 := by
      by_contra hn
      have hstart := h.startTime
      rw [readStartTime_of_not_valid hn] at hstart
      cases hstart
    refine ⟨hvalid, ?_⟩
    by_contra hn
    have husage := h.usage
    rw [usageStat_line hvalid, if_neg hn] at husage
    cases husage
  · rintro ⟨hvalid, hsum⟩
    exact {
      startTime := readStartTime_line hvalid
      field := statField_line hvalid
      zombie := isZombie_line hvalid
      parent := parentOf_line hvalid
      member := groupMember_line hvalid
      usage := by rw [usageStat_line hvalid, if_pos hsum]
      ticks := by rw [sampleTicks_line hvalid, Nat.min_eq_left hsum]
      observed := fun _ _ _ => by simp only [observe, readStartTime_line hvalid] }

/-- The process 42, with a name that was cut in the middle of a character. -/
def cutName : KernelStat where
  pid := 42
  comm := ⟨#[97, 98, 99, 100, 101, 102, 103, 104, 105, 106, 107, 108, 109, 110, 0xc3]⟩
  state := 'S'
  ppid := 1
  pgrp := 42
  session := 42
  ttyNr := 0
  tpgid := -1
  flags := 0
  minflt := 0
  cminflt := 0
  majflt := 0
  cmajflt := 0
  utime := 3
  stime := 4
  cutime := 0
  cstime := 0
  priority := 20
  nice := 0
  numThreads := 1
  itrealvalue := 0
  starttime := 1000
  rest := []
  pid_le := by decide
  state_alpha := by decide
  ppid_range := by decide
  pgrp_range := by decide
  utime_le := by decide
  stime_le := by decide
  starttime_le := by decide

/-- The name of a live process makes its identity unreadable. -/
theorem cutName_is_not_observed : ¬ ParsesRight cutName ∧
    ∀ bootId, observe 42 (.ok cutName.line) (.ok ()) (.ok cutName.line) bootId =
      .error (.signal "pid 42 exists but its start time is unreadable") := by
  have hvalid : ¬ cutName.comm.IsValidUTF8 := by decide +kernel
  constructor
  · intro h
    have hstart := h.startTime
    rw [readStartTime_of_not_valid hvalid] at hstart
    cases hstart
  · intro bootId
    simp only [observe, readStartTime_of_not_valid hvalid, isZombie_of_not_valid hvalid]
    rfl

end Shepherd.Proc
