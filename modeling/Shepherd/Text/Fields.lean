import Mathlib.Data.Nat.Notation
import Mathlib.Tactic.Common

/-!
# Text With Fields

Reading lines of fields as text, as the standard library of the source does it.

* `isValidUTF8_between` — bytes between two texts are read as text exactly if they are text.
* `rsplitOnce` and `splitWhitespace` — the last occurrence of a character, and the words of a
  text; `splitWhitespace_fields` for fields with a blank before each.
* `parseUnsigned` and `parseSigned` — numbers with a bound, and `decimal`, how they are written;
  what is written is read back (`parseUnsigned_toDigits`, `parseSigned_decimal`).
-/

namespace Shepherd.Text

/-! ### Bytes and text -/

/-- A text around bytes does not make them text. -/
theorem isValidUTF8_between (a c : String) (b : ByteArray) :
    (a.toByteArray ++ b ++ c.toByteArray).IsValidUTF8 ↔ b.IsValidUTF8 := by
  constructor
  · intro h
    let s : String := ⟨a.toByteArray ++ b ++ c.toByteArray, h⟩
    let p : String.Pos.Raw := ⟨a.toByteArray.size⟩
    let q : String.Pos.Raw := ⟨(a.toByteArray ++ b).size⟩
    have hsize : s.rawEndPos.byteIdx = a.toByteArray.size + b.size + c.toByteArray.size := by
      rw [String.byteIdx_rawEndPos, ← String.size_toByteArray]
      simp [s]
    have hpq : p ≤ q := by
      rw [String.Pos.Raw.le_iff]
      simp [p, q]
    have hqs : q ≤ s.rawEndPos := by
      rw [String.Pos.Raw.le_iff, hsize]
      simp [q]
    have hp : p.IsValid s := by
      refine String.Pos.Raw.isValid_iff_isValidUTF8_extract_zero.mpr
        ⟨String.Pos.Raw.le_trans hpq hqs, ?_⟩
      have hpre : s.toByteArray.extract 0 p.byteIdx = a.toByteArray := by
        simp only [s, p, ByteArray.append_assoc]
        exact ByteArray.extract_append_eq_left rfl
      rw [hpre]
      exact a.isValidUTF8
    have hq : q.IsValid s := by
      refine String.Pos.Raw.isValid_iff_isValidUTF8_extract_utf8ByteSize.mpr ⟨hqs, ?_⟩
      have hpost : s.toByteArray.extract q.byteIdx s.utf8ByteSize = c.toByteArray := by
        rw [← String.byteIdx_rawEndPos, hsize]
        exact ByteArray.extract_append_eq_right rfl (by simp)
      rw [hpost]
      exact c.isValidUTF8
    have hb : s.toByteArray.extract p.byteIdx q.byteIdx = b := by
      have hinner : (b ++ c.toByteArray).extract 0 b.size = b :=
        ByteArray.extract_append_eq_left rfl
      have houter := @ByteArray.extract_append_size_add a.toByteArray (b ++ c.toByteArray) 0 b.size
      rw [hinner, Nat.add_zero, ← ByteArray.append_assoc, ← ByteArray.size_append] at houter
      exact houter
    rw [← hb]
    exact (String.Pos.Raw.isValidUTF8_extract_iff p q hpq hqs).mpr (.inr ⟨hp, hq⟩)
  · exact fun h => (a.isValidUTF8.append h).append c.isValidUTF8

/-- The text of a file, if it is text. -/
def toText (bytes : ByteArray) : Option String :=
  String.fromUTF8? bytes

/-- When bytes are a text. -/
theorem toText_eq_some {bytes : ByteArray} {s : String} :
    toText bytes = some s ↔ bytes = s.toByteArray := by
  rw [toText, String.fromUTF8?]
  constructor
  · intro h
    split at h
    · rw [← Option.some.inj h]
      rfl
    · cases h
  · rintro rfl
    rw [dif_pos s.isValidUTF8]
    rfl

/-- Bytes are no text exactly if they are not valid. -/
theorem toText_eq_none {bytes : ByteArray} : toText bytes = none ↔ ¬ bytes.IsValidUTF8 := by
  rw [toText, String.fromUTF8?]
  split
  · next h => simp [h]
  · next h => simp [h]

/-! ### Splitting -/

/-- `char::is_whitespace`. -/
def isWhitespace (c : Char) : Bool :=
  (0x9 ≤ c.toNat ∧ c.toNat ≤ 0xd) ∨ (0x2000 ≤ c.toNat ∧ c.toNat ≤ 0x200a) ∨
    c.toNat ∈ [0x20, 0x85, 0xa0, 0x1680, 0x2028, 0x2029, 0x202f, 0x205f, 0x3000]

/-- `split_whitespace`: the pieces between whitespace that are not empty. -/
def splitWhitespace (text : List Char) : List (List Char) :=
  (text.splitOnP isWhitespace).filter fun piece => !piece.isEmpty

/-- `rsplit_once`: what is before and after the last occurrence. -/
def rsplitOnce (c : Char) (text : List Char) : Option (List Char × List Char) :=
  match text with
  | [] => none
  | d :: text =>
      match rsplitOnce c text with
      | some (before, after) => some (d :: before, after)
      | none => if d = c then some ([], text) else none

/-- A word: it is not empty, and has no whitespace in it. -/
def IsWord (word : List Char) : Prop :=
  word ≠ [] ∧ ∀ c ∈ word, isWhitespace c = false

/-- A text without the separator is not split. -/
theorem rsplitOnce_eq_none {c : Char} {text : List Char} (h : c ∉ text) :
    rsplitOnce c text = none := by
  induction text with
  | nil => rfl
  | cons d text ih =>
      rw [List.mem_cons, not_or] at h
      rw [rsplitOnce, ih h.2, if_neg (Ne.symm h.1)]

/-- A text is split at its last separator. -/
theorem rsplitOnce_append {c : Char} {after : List Char} (before : List Char) (h : c ∉ after) :
    rsplitOnce c (before ++ c :: after) = some (before, after) := by
  induction before with
  | nil => rw [List.nil_append, rsplitOnce, rsplitOnce_eq_none h, if_pos rfl]
  | cons d before ih => rw [List.cons_append, rsplitOnce, ih]

/-- Words with a blank before each, and whitespace at the end. -/
theorem splitWhitespace_fields {words : List (List Char)} (h : ∀ w ∈ words, IsWord w)
    {last : Char} (hlast : isWhitespace last = true) :
    splitWhitespace (words.flatMap (' ' :: ·) ++ [last]) = words := by
  have hblank : isWhitespace ' ' = true := by decide
  induction words with
  | nil =>
      rw [List.flatMap_nil, splitWhitespace, List.splitOnP_append_cons [] [] hlast]
      rfl
  | cons w words ih =>
      obtain ⟨hne, hw⟩ := h w List.mem_cons_self
      have hrest := ih fun w' hw' => h w' (List.mem_cons_of_mem w hw')
      obtain ⟨sep, rest, heq, hsep⟩ : ∃ sep rest,
          words.flatMap (' ' :: ·) ++ [last] = sep :: rest ∧ isWhitespace sep = true := by
        cases words with
        | nil => exact ⟨last, [], rfl, hlast⟩
        | cons w words => exact ⟨' ', _, rfl, hblank⟩
      rw [heq, splitWhitespace, ← List.nil_append (sep :: rest),
        List.splitOnP_append_cons [] rest hsep] at hrest
      rw [List.flatMap_cons, List.append_assoc, heq, splitWhitespace, List.cons_append,
        ← List.nil_append (' ' :: _), List.splitOnP_append_cons [] _ hblank,
        List.splitOnP_append_cons_of_forall_mem hw sep hsep]
      have hfilter : (!w.isEmpty) = true := by simpa using hne
      simpa [List.filter_cons, hfilter] using hrest

/-! ### Numbers -/

/-- Why a text is no number. -/
inductive ParseIntError where
  | empty
  | invalidDigit
  | posOverflow
  | negOverflow
  deriving DecidableEq, Repr

/-- The text of the error. -/
def ParseIntError.display : ParseIntError → String
  | .empty => "cannot parse integer from empty string"
  | .invalidDigit => "invalid digit found in string"
  | .posOverflow => "number too large to fit in target type"
  | .negOverflow => "number too small to fit in target type"

/-- The value of a decimal digit. -/
def toDigit (c : Char) : Option ℕ :=
  if c.isDigit then some (c.toNat - '0'.toNat) else none

/-- The loop over the digits, for numbers up to a bound. -/
def parseDigits (bound : ℕ) (overflow : ParseIntError) : List Char → ℕ → Except ParseIntError ℕ
  | [], n => .ok n
  | c :: cs, n =>
      match toDigit c with
      | none => .error .invalidDigit
      | some x =>
          if 10 * n + x ≤ bound then parseDigits bound overflow cs (10 * n + x)
          else .error overflow

/-- `parse` of unsigned numbers up to a bound. -/
def parseUnsigned (bound : ℕ) : List Char → Except ParseIntError ℕ
  | [] => .error .empty
  | ['+'] | ['-'] => .error .invalidDigit
  | '+' :: cs => parseDigits bound .posOverflow cs 0
  | cs => parseDigits bound .posOverflow cs 0

/-- `parse` of signed numbers from `-(bound + 1)` to `bound`. -/
def parseSigned (bound : ℕ) : List Char → Except ParseIntError Int
  | [] => .error .empty
  | ['+'] | ['-'] => .error .invalidDigit
  | '+' :: cs => (parseDigits bound .posOverflow cs 0).map Int.ofNat
  | '-' :: cs => (parseDigits (bound + 1) .negOverflow cs 0).map fun n => -(n : Int)
  | cs => (parseDigits bound .posOverflow cs 0).map Int.ofNat

/-- How an integer is written. -/
def decimal (n : Int) : List Char :=
  if n < 0 then '-' :: Nat.toDigits 10 n.natAbs else Nat.toDigits 10 n.natAbs

/-- A number grows with its digits. -/
theorem le_ofDigitChars (cs : List Char) (n : ℕ) : n ≤ Nat.ofDigitChars 10 cs n := by
  induction cs generalizing n with
  | nil => exact Nat.le_of_eq Nat.ofDigitChars_nil.symm
  | cons c cs ih =>
      rw [Nat.ofDigitChars_cons]
      have hle : n ≤ 10 * n + (c.toNat - '0'.toNat) := by omega
      exact Nat.le_trans hle (ih _)

/-- Digits are read as long as their value is within the bound. -/
theorem parseDigits_eq {bound : ℕ} {overflow : ParseIntError} {cs : List Char}
    (hcs : ∀ c ∈ cs, c.isDigit = true) {n : ℕ} (h : Nat.ofDigitChars 10 cs n ≤ bound) :
    parseDigits bound overflow cs n = .ok (Nat.ofDigitChars 10 cs n) := by
  induction cs generalizing n with
  | nil => rw [parseDigits, Nat.ofDigitChars_nil]
  | cons c cs ih =>
      rw [Nat.ofDigitChars_cons] at h ⊢
      have hle : 10 * n + (c.toNat - '0'.toNat) ≤ bound := Nat.le_trans (le_ofDigitChars cs _) h
      have hdigit : toDigit c = some (c.toNat - '0'.toNat) :=
        if_pos (hcs c List.mem_cons_self)
      rw [parseDigits, hdigit]
      simp only [if_pos hle]
      exact ih (fun d hd => hcs d (List.mem_cons_of_mem c hd)) h

/-- The digits of a number are digits. -/
theorem isDigit_toDigits {n : ℕ} {c : Char} (h : c ∈ Nat.toDigits 10 n) : c.isDigit = true :=
  Nat.isDigit_of_mem_toDigits (by decide) (by decide) h

/-- A number within the bound is read as it was written. -/
theorem parseDigits_toDigits {bound n : ℕ} {overflow : ParseIntError} (h : n ≤ bound) :
    parseDigits bound overflow (Nat.toDigits 10 n) 0 = .ok n := by
  rw [parseDigits_eq (fun c => isDigit_toDigits) (by rwa [Nat.ofDigitChars_ten_toDigits]),
    Nat.ofDigitChars_ten_toDigits]

/-- A number starts with a digit. -/
theorem exists_toDigits (n : ℕ) : ∃ c cs, Nat.toDigits 10 n = c :: cs ∧ c ≠ '+' ∧ c ≠ '-' := by
  cases h : Nat.toDigits 10 n with
  | nil => exact (Nat.toDigits_ne_nil h).elim
  | cons c cs =>
      have hdigit : c.isDigit = true := isDigit_toDigits (h ▸ List.mem_cons_self)
      refine ⟨c, cs, rfl, ?_, ?_⟩
      · rintro rfl
        cases hdigit
      · rintro rfl
        cases hdigit

/-- **An unsigned number is read back.** -/
theorem parseUnsigned_toDigits {bound n : ℕ} (h : n ≤ bound) :
    parseUnsigned bound (Nat.toDigits 10 n) = .ok n := by
  obtain ⟨c, cs, hcs, hplus, hminus⟩ := exists_toDigits n
  have hparse : parseDigits bound .posOverflow (Nat.toDigits 10 n) 0 = .ok n :=
    parseDigits_toDigits h
  rw [hcs] at hparse ⊢
  rw [parseUnsigned.eq_def]
  split
  · next heq => cases heq
  · next heq => exact (hplus (List.cons.inj heq).1).elim
  · next heq => exact (hminus (List.cons.inj heq).1).elim
  · next heq => exact (hplus (List.cons.inj heq).1).elim
  · exact hparse

/-- **A signed number is read back.** -/
theorem parseSigned_decimal {bound : ℕ} {n : Int} (hlow : -(bound + 1 : Int) ≤ n)
    (hhigh : n ≤ bound) : parseSigned bound (decimal n) = .ok n := by
  obtain ⟨c, cs, hcs, hplus, hminus⟩ := exists_toDigits n.natAbs
  rw [decimal]
  split
  · next hneg =>
      have hparse : parseDigits (bound + 1) .negOverflow (Nat.toDigits 10 n.natAbs) 0 =
          .ok n.natAbs := parseDigits_toDigits (by omega)
      rw [hcs] at hparse ⊢
      rw [parseSigned, hparse]
      · have hvalue : -(n.natAbs : Int) = n := by omega
        exact congrArg Except.ok hvalue
      · intro h
        cases h
  · next hpos =>
      have hparse : parseDigits bound .posOverflow (Nat.toDigits 10 n.natAbs) 0 =
          .ok n.natAbs := parseDigits_toDigits (by omega)
      rw [hcs] at hparse ⊢
      rw [parseSigned.eq_def]
      split
      · next heq => cases heq
      · next heq => exact (hplus (List.cons.inj heq).1).elim
      · next heq => exact (hminus (List.cons.inj heq).1).elim
      · next heq => exact (hplus (List.cons.inj heq).1).elim
      · next heq => exact (hminus (List.cons.inj heq).1).elim
      · rw [hparse]
        have hvalue : (n.natAbs : Int) = n := by omega
        exact congrArg Except.ok hvalue

end Shepherd.Text
