import Mathlib.Data.String.Basic
import Shepherd.Domain.Fingerprint

/-!
# Kept Records

A kept process is owned by a record under a name that its caller chose. Here are names and
records with all their fields, and the form in which records are stored.

* `KeptName` — a name that was validated. The paths of its record, its lock and its temporary
  file are those of no other name (`recordPath_ne_lockPath`, …).
* `StoredRecord` — the stored form: the fingerprint is the text of 16 hexadecimal digits, and
  reading checks the format, the name and the fingerprint. `intoRecord_ofRecord`: nothing is
  lost.
-/

namespace Shepherd.Records

/-! ### Names -/

/-- A rejected name. -/
structure KeptNameError where
  name : String
  deriving DecidableEq, Repr

/-- The characters of a name. -/
def allowed (c : Char) : Bool :=
  c.isAlphanum || c = '.' || c = '_' || c = '-'

/-- `MAX_LEN`, in bytes. -/
def MAX_LEN : ℕ := 64

/-- A text that is a name. -/
def isKeptName (name : String) : Bool :=
  !(name.isEmpty || MAX_LEN < name.utf8ByteSize || name.toList.head? = some '.' ||
    !name.toList.all allowed)

/-- The caller-chosen name of a kept process. -/
@[ext] structure KeptName where
  text : String
  valid : isKeptName text = true
  deriving DecidableEq

namespace KeptName

/-- Validates a name. -/
def new (name : String) : Except KeptNameError KeptName :=
  if h : isKeptName name = true then .ok ⟨name, h⟩ else .error ⟨name⟩

/-- The text of a name is accepted. -/
@[simp] theorem new_text (n : KeptName) : new n.text = .ok n :=
  dif_pos n.valid

/-- A text that is accepted is the one of the name. -/
theorem new_eq_ok {name : String} {n : KeptName} : new name = .ok n ↔ n.text = name := by
  constructor
  · intro h
    rw [new] at h
    split at h
    · obtain rfl := Except.ok.inj h
      rfl
    · cases h
  · rintro rfl
    exact n.new_text

/-- Names do not start with a dot. -/
theorem head_ne (n : KeptName) : n.text.toList.head? ≠ some '.' := by
  have h := n.valid
  simp only [isKeptName, Bool.not_eq_true', Bool.or_eq_false_iff, decide_eq_false_iff_not] at h
  exact h.1.2

/-- A name is not empty. -/
theorem toList_ne_nil (n : KeptName) : n.text.toList ≠ [] := by
  have h := n.valid
  simp only [isKeptName, Bool.not_eq_true', Bool.or_eq_false_iff, String.isEmpty_eq_false_iff] at h
  exact fun hn => h.1.1.1 (String.toList_eq_nil_iff.mp hn)

end KeptName

/-! ### Paths -/

/-- A file name, as bytes. -/
abbrev FileName := ByteArray

def RECORD : String := ".json"

def LOCK : String := ".lock"

/-- The file of a name with a suffix. -/
def path (name : KeptName) (suffix : String) : FileName :=
  (name.text ++ suffix).toUTF8

/-- The temporary file of a record. Names never start with a dot, so it can never shadow a
record. -/
def temporaryPath (name : KeptName) : FileName :=
  ("." ++ name.text ++ RECORD ++ ".tmp").toUTF8

/-- A file name as text, if it is text. -/
def toStr (f : FileName) : Option String :=
  String.fromUTF8? f

/-- `strip_suffix`. -/
def stripSuffix (s suffix : String) : Option String :=
  if suffix.toList <:+ s.toList then
    some (String.ofList (s.toList.take (s.toList.length - suffix.toList.length)))
  else none

/-- Strings with the same bytes are the same. -/
theorem toUTF8_inj {s s' : String} : s.toUTF8 = s'.toUTF8 ↔ s = s' := by
  simp only [String.toUTF8_eq_toByteArray, String.toByteArray_inj]

/-- The bytes of a string can be read as the string. -/
@[simp] theorem toStr_toUTF8 (s : String) : toStr s.toUTF8 = some s := by
  have h : s.toUTF8.IsValidUTF8 := s.isValidUTF8
  rw [toStr, String.fromUTF8?, dif_pos h]
  rfl

/-- What can be read as a string are its bytes. -/
theorem toStr_eq_some {f : FileName} {s : String} (h : toStr f = some s) : f = s.toUTF8 := by
  rw [toStr, String.fromUTF8?] at h
  split at h
  · obtain rfl := Option.some.inj h
    rfl
  · cases h

/-- What is left when a suffix is taken away. -/
theorem stripSuffix_eq_some {s suffix stem : String} :
    stripSuffix s suffix = some stem ↔ s = stem ++ suffix := by
  rw [stripSuffix]
  constructor
  · intro h
    split at h
    · next hs =>
        obtain ⟨l, hl⟩ := hs
        obtain rfl := Option.some.inj h
        apply String.toList_inj.mp
        simp [← hl]
    · cases h
  · rintro rfl
    rw [if_pos (by simp)]
    simp

/-- **The file of a record names its record.** -/
theorem path_inj {n m : KeptName} {suffix : String} (h : path n suffix = path m suffix) :
    n = m := by
  have h := congrArg String.toList (toUTF8_inj.mp h)
  rw [String.toList_append, String.toList_append] at h
  exact KeptName.ext (String.toList_inj.mp (List.append_cancel_right h))

/-- A record is no lock. -/
theorem recordPath_ne_lockPath (n m : KeptName) : path n RECORD ≠ path m LOCK := by
  intro h
  have h := congrArg (fun s => s.toList.getLast?) (toUTF8_inj.mp h)
  simp [RECORD, LOCK] at h

/-- The temporary file of a name is no file of a name. -/
theorem temporaryPath_ne_path (n m : KeptName) (suffix : String) :
    temporaryPath n ≠ path m suffix := by
  intro h
  have h := congrArg (fun s => s.toList.head?) (toUTF8_inj.mp h)
  obtain ⟨c, cs, hc⟩ := List.exists_cons_of_ne_nil m.toList_ne_nil
  have hd := m.head_ne
  rw [hc] at hd
  have hdot : '.' = c := by simpa [hc] using h
  exact hd (congrArg some hdot.symm)

/-- Names have different temporary files. -/
theorem temporaryPath_inj {n m : KeptName} (h : temporaryPath n = temporaryPath m) : n = m := by
  have h := congrArg String.toList (toUTF8_inj.mp h)
  simp only [String.toList_append, List.append_assoc] at h
  exact KeptName.ext (String.toList_inj.mp (List.append_cancel_right (List.append_cancel_left h)))

/-! ### Records -/

/-- The durable owner of one kept process. -/
structure KeptRecord where
  name : KeptName
  osPid : UInt32
  startToken : UInt64
  bootId : Option String
  exe : Option OsString
  program : String
  args : List String
  fingerprint : SpecFingerprint
  revision : Option String
  gracefulSignal : Signal
  log : Option OsString
  owner : String
  startedAtUnixMs : UInt64
  deriving DecidableEq

/-- The stored form of a signal. -/
inductive StoredSignal where
  | term
  | kill
  | interrupt
  | custom (number : Int)
  deriving DecidableEq, Repr

/-- The stored form of a record. -/
structure StoredRecord where
  format : UInt32
  name : String
  osPid : UInt32
  startToken : UInt64
  bootId : Option String
  exe : Option OsString
  program : String
  args : List String
  fingerprint : String
  revision : Option String
  gracefulSignal : StoredSignal
  log : Option OsString
  owner : String
  startedAtUnixMs : UInt64
  deriving DecidableEq

def FORMAT : UInt32 := 1

/-! ### Hexadecimal numbers -/

/-- A hexadecimal digit, in lower case. -/
def hexDigit (n : ℕ) : Char :=
  if n < 10 then Char.ofNat ('0'.toNat + n) else Char.ofNat ('a'.toNat + (n - 10))

/-- The value of a hexadecimal digit, in either case. -/
def toDigit (c : Char) : Option ℕ :=
  if '0' ≤ c ∧ c ≤ '9' then some (c.toNat - '0'.toNat)
  else if 'a' ≤ c ∧ c ≤ 'f' then some (c.toNat - 'a'.toNat + 10)
  else if 'A' ≤ c ∧ c ≤ 'F' then some (c.toNat - 'A'.toNat + 10)
  else none

/-- The last `k` hexadecimal digits of a number. -/
def hexDigits : ℕ → ℕ → List Char
  | 0, _ => []
  | k + 1, n => hexDigits k (n / 16) ++ [hexDigit (n % 16)]

/-- The text of a fingerprint: `{:016x}`. -/
def display (f : SpecFingerprint) : String :=
  String.ofList (hexDigits 16 f.raw.toNat)

/-- Why a text is no number. -/
inductive ParseIntError where
  | empty
  | invalidDigit
  | posOverflow
  deriving DecidableEq, Repr

/-- The digits of `from_str_radix` for 64-bit numbers. -/
def parseDigits (n : ℕ) : List Char → Except ParseIntError ℕ
  | [] => .ok n
  | c :: cs =>
      match toDigit c with
      | none => .error .invalidDigit
      | some x => if n * 16 + x < 2 ^ 64 then parseDigits (n * 16 + x) cs else .error .posOverflow

/-- `u64::from_str_radix`, base 16. -/
def fromStrRadix (s : String) : Except ParseIntError UInt64 :=
  match s.toList with
  | [] => .error .empty
  | ['+'] | ['-'] => .error .invalidDigit
  | '+' :: cs => (parseDigits 0 cs).map UInt64.ofNat
  | cs => (parseDigits 0 cs).map UInt64.ofNat

/-- A hex digit is read as what it was written for. -/
theorem toDigit_hexDigit {n : ℕ} (h : n < 16) : toDigit (hexDigit n) = some n := by
  have hall : ∀ n : Fin 16, toDigit (hexDigit n) = some n.val := by decide +kernel
  exact hall ⟨n, h⟩

/-- A number is written with as many digits as asked for. -/
theorem length_hexDigits (k n : ℕ) : (hexDigits k n).length = k := by
  induction k generalizing n with
  | zero => rfl
  | succ k ih => rw [hexDigits, List.length_append, ih, List.length_singleton]

/-- Digits are read from the left to the right. -/
theorem parseDigits_append (n : ℕ) (cs cs' : List Char) :
    parseDigits n (cs ++ cs') = (parseDigits n cs).bind fun m => parseDigits m cs' := by
  induction cs generalizing n with
  | nil => rfl
  | cons c cs ih =>
      rw [List.cons_append, parseDigits, parseDigits]
      cases toDigit c with
      | none => rfl
      | some x =>
          dsimp only
          split
          · exact ih _
          · rfl

/-- The digits of a number are read back. -/
theorem parseDigits_hexDigits (k n : ℕ) (h : n < 2 ^ 64) :
    parseDigits 0 (hexDigits k n) = .ok (n % 16 ^ k) := by
  induction k generalizing n with
  | zero => rw [hexDigits, pow_zero, Nat.mod_one]; rfl
  | succ k ih =>
      rw [hexDigits, parseDigits_append, ih (n / 16) (by omega)]
      have hval : n / 16 % 16 ^ k * 16 + n % 16 = n % 16 ^ (k + 1) := by
        rw [pow_succ', Nat.mod_mul]
        omega
      have hlt : n / 16 % 16 ^ k * 16 + n % 16 < 2 ^ 64 := by
        rw [hval]
        exact (Nat.mod_le _ _).trans_lt h
      change parseDigits (n / 16 % 16 ^ k) [hexDigit (n % 16)] = _
      simp only [parseDigits, toDigit_hexDigit (Nat.mod_lt n (by decide)), if_pos hlt]
      rw [hval]

/-- **A fingerprint is read back** from its text. -/
theorem fromStrRadix_display (f : SpecFingerprint) : fromStrRadix (display f) = .ok f.raw := by
  have hraw : f.raw.toNat < 2 ^ 64 := f.raw.toNat_lt
  have hparse := parseDigits_hexDigits 16 f.raw.toNat hraw
  have hhead : ∀ cs, hexDigits 16 f.raw.toNat ≠ '+' :: cs := by
    intro cs hcs
    rw [hcs] at hparse
    cases hparse
  have hone : ∀ c, hexDigits 16 f.raw.toNat ≠ [c] := by
    intro c hc
    have hlen := length_hexDigits 16 f.raw.toNat
    rw [hc] at hlen
    cases hlen
  have hmod : f.raw.toNat % 16 ^ 16 = f.raw.toNat := Nat.mod_eq_of_lt hraw
  rw [hmod] at hparse
  rw [fromStrRadix, display, String.toList_ofList]
  split
  · next hcs => exact absurd (congrArg List.length hcs) (by rw [length_hexDigits]; decide)
  · next hcs => exact absurd hcs (hone _)
  · next hcs => exact absurd hcs (hone _)
  · next hcs => exact absurd hcs (hhead _)
  · rw [hparse]
    exact congrArg Except.ok (UInt64.ofNat_toNat)

/-! ### Storing records -/

/-- Why a stored record is refused. -/
inductive RecordError where
  /-- `record {file_name} has unknown format {format}` -/
  | unknownFormat (file : KeptName) (format : UInt32)
  /-- `record name: {error}` -/
  | name (error : KeptNameError)
  /-- `record file {file_name} names {name}` -/
  | otherName (file name : KeptName)
  /-- `record fingerprint: {error}` -/
  | fingerprint (error : ParseIntError)
  deriving DecidableEq

namespace StoredSignal

def ofSignal : Signal → StoredSignal
  | .term => .term
  | .kill => .kill
  | .interrupt => .interrupt
  | .custom raw => .custom raw

def toSignal : StoredSignal → Signal
  | .term => .term
  | .kill => .kill
  | .interrupt => .interrupt
  | .custom raw => .custom raw

/-- A signal comes back from its record. -/
@[simp] theorem toSignal_ofSignal (s : Signal) : (ofSignal s).toSignal = s := by
  cases s <;> rfl

end StoredSignal

namespace StoredRecord

/-- The stored form of a record. -/
def ofRecord (r : KeptRecord) : StoredRecord where
  format := FORMAT
  name := r.name.text
  osPid := r.osPid
  startToken := r.startToken
  bootId := r.bootId
  exe := r.exe
  program := r.program
  args := r.args
  fingerprint := display r.fingerprint
  revision := r.revision
  gracefulSignal := .ofSignal r.gracefulSignal
  log := r.log
  owner := r.owner
  startedAtUnixMs := r.startedAtUnixMs

/-- The record that is stored in the file of a name. -/
def intoRecord (s : StoredRecord) (fileName : KeptName) : Except RecordError KeptRecord :=
  if s.format ≠ FORMAT then .error (.unknownFormat fileName s.format)
  else
    match KeptName.new s.name with
    | .error e => .error (.name e)
    | .ok name =>
        if name ≠ fileName then .error (.otherName fileName name)
        else
          match fromStrRadix s.fingerprint with
          | .error e => .error (.fingerprint e)
          | .ok fingerprint =>
              .ok {
                name := name
                osPid := s.osPid
                startToken := s.startToken
                bootId := s.bootId
                exe := s.exe
                program := s.program
                args := s.args
                fingerprint := ⟨fingerprint⟩
                revision := s.revision
                gracefulSignal := s.gracefulSignal.toSignal
                log := s.log
                owner := s.owner
                startedAtUnixMs := s.startedAtUnixMs }

/-- **A record is read back as it was stored.** -/
theorem intoRecord_ofRecord (r : KeptRecord) : (ofRecord r).intoRecord r.name = .ok r := by
  simp [intoRecord, ofRecord, fromStrRadix_display]

/-- What is accepted has the format, the name of its file, and a fingerprint that is a
number. -/
theorem of_intoRecord {s : StoredRecord} {n : KeptName} {r : KeptRecord}
    (h : s.intoRecord n = .ok r) :
    s.format = FORMAT ∧ s.name = n.text ∧ r.name = n ∧
      fromStrRadix s.fingerprint = .ok r.fingerprint.raw := by
  rw [intoRecord] at h
  split at h
  · cases h
  next hf =>
  split at h
  · cases h
  next name hn =>
  split at h
  · cases h
  next hname =>
  split at h
  · cases h
  next raw hraw =>
  obtain rfl := Except.ok.inj h
  obtain rfl := not_not.mp hname
  exact ⟨not_not.mp hf, (KeptName.new_eq_ok.mp hn).symm, rfl, hraw⟩

end StoredRecord

end Shepherd.Records
