import Shepherd.Proc.Accounting

/-!
# Memory and Boot Time

The usage sampler of Linux reads the resident memory of a process in its `status` file, and the
time of the boot in `/proc/stat`. Both are a line among others, found by what it starts with.

* `residentBytes`, `bootTime` and `clockHz` — what `sample` makes of what it reads.
* `KernelStatus` and `KernelBoot` — what the kernel writes; it is read back
  (`residentBytes_file`, `bootTime_file`).
-/

namespace Shepherd.Proc

open Observation Text

/-! ### The sampler -/

/-- The number in the line of the resident memory. -/
def rssField (status : List Char) : Option (List Char) :=
  (findLine "VmRSS:".toList status).bind fun s => (splitWhitespace s).head?

/-- `sample`: the resident memory in `status`. -/
def residentBytes (status : FileContent) : Except UsageFailure ℕ := do
  let status ← (readToString status).mapError .unavailable
  match rssField status.toList with
  | none => .error (.unavailable "resident memory unavailable")
  | some field =>
      let kb ← (parseUnsigned U64_MAX field).mapError fun e => .unavailable e.display
      if kb * 1024 ≤ U64_MAX then .ok (kb * 1024) else .error (.unavailable "RSS overflow")

/-- `sample`: the time of the boot. -/
def bootTime (stat : FileContent) : Except UsageFailure ℕ := do
  let stat ← (readToString stat).mapError .unavailable
  match findLine "btime ".toList stat.toList with
  | none => .error (.unavailable "boot time unavailable")
  | some field => (parseUnsigned U64_MAX field).mapError fun e => .unavailable e.display

/-- `sample`: the ticks of a second, of what `sysconf` returns. -/
def clockHz : Except String (Option Int) → Except UsageFailure ℕ
  | .error e => .error (.unavailable e)
  | .ok none => .error (.unavailable "clock frequency unavailable")
  | .ok (some hz) =>
      if hz ≤ 0 then .error (.unavailable "invalid clock frequency") else .ok hz.toNat

/-- The second in which a process started; the addition wraps. -/
def startSeconds (boot start hz : ℕ) : ℕ :=
  (boot + start / hz) % (U64_MAX + 1)

/-! ### What the kernel writes -/

/-- What the kernel writes about the memory of a process. -/
structure KernelStatus where
  /-- The lines before that of the resident memory. -/
  before : List (List Char)
  /-- The resident memory in kilobytes; a process without memory has no line. -/
  rss : Option ℕ
  /-- How far the number is to the right. -/
  blanks : ℕ
  after : List Char
  before_lines : ∀ l ∈ before, '\n' ∉ l ∧ stripPrefix "VmRSS:".toList l = none
  rss_le : ∀ n ∈ rss, n ≤ U64_MAX

namespace KernelStatus

variable (k : KernelStatus)

/-- The line of the resident memory, after its key. -/
def value (n : ℕ) : List Char :=
  '\t' :: (List.replicate k.blanks ' ' ++ unwords (Nat.toDigits 10 n) ["kB".toList])

def text : List Char :=
  k.before.flatMap (· ++ ['\n']) ++
    match k.rss with
    | none => []
    | some n => ("VmRSS:".toList ++ k.value n) ++ '\n' :: k.after

def file : ByteArray :=
  (String.ofList k.text).toByteArray

end KernelStatus

/-- What the kernel writes about the boot. -/
structure KernelBoot where
  before : List (List Char)
  btime : ℕ
  after : List Char
  before_lines : ∀ l ∈ before, '\n' ∉ l ∧ stripPrefix "btime ".toList l = none
  btime_le : btime ≤ U64_MAX

namespace KernelBoot

variable (k : KernelBoot)

def text : List Char :=
  k.before.flatMap (· ++ ['\n']) ++ ("btime ".toList ++ Nat.toDigits 10 k.btime) ++ '\n' :: k.after

def file : ByteArray :=
  (String.ofList k.text).toByteArray

end KernelBoot

/-! ### Reading it back -/

/-- A text is read as it is. -/
theorem readToString_text (text : List Char) :
    readToString (.ok (String.ofList text).toByteArray) = .ok (String.ofList text) := by
  rw [readToString, toText_eq_some.mpr rfl]

/-- The number stands among blanks. -/
theorem head?_value (k : KernelStatus) (n : ℕ) :
    (splitWhitespace (k.value n)).head? = some (Nat.toDigits 10 n) := by
  have hblanks : ∀ (m : ℕ) (text : List Char),
      splitWhitespace (List.replicate m ' ' ++ text) = splitWhitespace text := by
    intro m text
    induction m with
    | zero => rfl
    | succ m ih =>
        rw [List.replicate_succ, List.cons_append, splitWhitespace_blank (by decide), ih]
  have hkb : ∀ w ∈ ["kB".toList], IsWord w := by
    intro w hw
    obtain rfl := List.mem_singleton.mp hw
    exact ⟨by simp, by simp [isWhitespace]⟩
  rw [KernelStatus.value, splitWhitespace_blank (by decide), hblanks,
    splitWhitespace_unwords (isWord_toDigits n) hkb]
  rfl

/-- No line ends within the line of the resident memory. -/
theorem not_mem_value (k : KernelStatus) (n : ℕ) {c : Char} (h : c = '\n' ∨ c = '\r') :
    c ∉ "VmRSS:".toList ++ k.value n := by
  have hword : ∀ w ∈ Nat.toDigits 10 n :: ["kB".toList], IsWord w := by
    intro w hw
    rcases List.mem_cons.mp hw with rfl | hw
    · exact isWord_toDigits n
    · obtain rfl := List.mem_singleton.mp hw
      exact ⟨by simp, by simp [isWhitespace]⟩
  have hblank : isWhitespace c = true ∧ c ≠ ' ' ∧ c ≠ '\t' := by
    rcases h with rfl | rfl <;> decide
  have hkey : c ∉ "VmRSS:".toList := by rcases h with rfl | rfl <;> decide
  rw [KernelStatus.value, List.mem_append, List.mem_cons, List.mem_append, not_or, not_or, not_or]
  refine ⟨hkey, hblank.2.2, fun hm => hblank.2.1 (List.eq_of_mem_replicate hm), ?_⟩
  exact not_mem_unwords hblank.1 hblank.2.1 hword

/-- The memory size is found in the text, if it is there. -/
theorem rssField_text (k : KernelStatus) :
    rssField k.text = k.rss.map (Nat.toDigits 10) := by
  rw [rssField, KernelStatus.text]
  cases k.rss with
  | none =>
      rw [List.append_nil, findLine_eq_none k.before_lines]
      rfl
  | some n =>
      dsimp only
      rw [← List.append_assoc, findLine_append k.after k.before_lines (not_mem_value k n (.inl rfl))
        (not_mem_value k n (.inr rfl)), Option.bind_some, head?_value]
      rfl

/-- **The resident memory is read back**, if there is any and the bytes are a 64-bit number. -/
theorem residentBytes_file (k : KernelStatus) : residentBytes (.ok k.file) =
    match k.rss with
    | none => .error (.unavailable "resident memory unavailable")
    | some n =>
        if n * 1024 ≤ U64_MAX then .ok (n * 1024) else .error (.unavailable "RSS overflow") := by
  have htext : rssField (String.ofList k.text).toList = k.rss.map (Nat.toDigits 10) := by
    rw [String.toList_ofList, rssField_text]
  have hle := k.rss_le
  rw [residentBytes, KernelStatus.file, readToString_text]
  change (match rssField (String.ofList k.text).toList with | none => _ | some field => _) = _
  rw [htext]
  cases hrss : k.rss with
  | none => rfl
  | some n =>
      simp only [Option.map_some, parseUnsigned_toDigits (hle n hrss)]
      rfl

/-- **The time of the boot is read back.** -/
theorem bootTime_file (k : KernelBoot) : bootTime (.ok k.file) = .ok k.btime := by
  have htext : (String.ofList k.text).toList = k.text := String.toList_ofList
  have hdigits := (isWord_toDigits k.btime).2
  have hline : ∀ c : Char, c = '\n' ∨ c = '\r' →
      c ∉ "btime ".toList ++ Nat.toDigits 10 k.btime := by
    intro c hc hm
    have hblank : isWhitespace c = true := by rcases hc with rfl | rfl <;> decide
    rcases List.mem_append.mp hm with hm | hm
    · rcases hc with rfl | rfl <;> exact absurd hm (by decide)
    · exact absurd (hdigits c hm) (by simp [hblank])
  have hfind : findLine "btime ".toList (String.ofList k.text).toList =
      some (Nat.toDigits 10 k.btime) := by
    rw [htext, KernelBoot.text]
    exact findLine_append k.after k.before_lines (hline _ (.inl rfl)) (hline _ (.inr rfl))
  rw [bootTime, KernelBoot.file, readToString_text]
  change (match findLine "btime ".toList (String.ofList k.text).toList with
    | none => _ | some field => _) = _
  rw [hfind]
  dsimp only
  rw [parseUnsigned_toDigits k.btime_le]
  rfl

end Shepherd.Proc
