import Shepherd.Domain.Types

/-!
# Fingerprints

`SpecFingerprint` is a 64-bit digest of what a process is started with: FNV-1a over a
length-prefixed encoding of the specification and an optional revision.

OS strings are digested as text. `toStringLossy` is the standard library's lossy conversion:
valid UTF-8 stays as it is, and each maximal invalid piece becomes U+FFFD.
-/

namespace Shepherd

/-! ### Lossy text -/

/-- Whether a byte continues a character. -/
def isContinuation (b : UInt8) : Bool :=
  b &&& 192 == 128

/-- Whether the second byte can follow the first byte of a character of three or four
bytes. -/
def secondFits (first second : UInt8) : Bool :=
  if first == 0xE0 then 0xA0 ≤ second && second ≤ 0xBF
  else if first == 0xED then 0x80 ≤ second && second ≤ 0x9F
  else if first == 0xF0 then 0x90 ≤ second && second ≤ 0xBF
  else if first == 0xF4 then 0x80 ≤ second && second ≤ 0x8F
  else 0x80 ≤ second && second ≤ 0xBF

/-- The width of the character a byte starts; zero when it starts none. -/
def utf8CharWidth (b : UInt8) : ℕ :=
  if b < 0x80 then 1
  else if 0xC2 ≤ b && b ≤ 0xDF then 2
  else if 0xE0 ≤ b && b ≤ 0xEF then 3
  else if 0xF0 ≤ b && b ≤ 0xF4 then 4
  else 0

/-- How many bytes the first piece of a text takes, and whether it is a character. -/
def firstPiece (bytes : List UInt8) : ℕ × Bool :=
  let byte (i : ℕ) := bytes.getD i 0
  match utf8CharWidth (byte 0) with
  | 1 => (1, true)
  | 2 => if isContinuation (byte 1) then (2, true) else (1, false)
  | 3 =>
      if !secondFits (byte 0) (byte 1) then (1, false)
      else if !isContinuation (byte 2) then (2, false)
      else (3, true)
  | 4 =>
      if !secondFits (byte 0) (byte 1) then (1, false)
      else if !isContinuation (byte 2) then (2, false)
      else if !isContinuation (byte 3) then (3, false)
      else (4, true)
  | _ => (1, false)

/-- U+FFFD, the replacement character. -/
def replacementCharacter : List UInt8 := [0xEF, 0xBF, 0xBD]

/-- The pieces of a text, at most that many. -/
def lossyPieces : ℕ → List UInt8 → List UInt8
  | 0, _ | _, [] => []
  | n + 1, bytes =>
      let (width, valid) := firstPiece bytes
      (if valid then bytes.take width else replacementCharacter) ++
        lossyPieces n (bytes.drop width)

/-- `OsStr::to_string_lossy`, as the bytes of the text. -/
def toStringLossy (s : OsString) : List UInt8 :=
  lossyPieces s.length s

/-! ### FNV-1a -/

/-- The state of the digest. -/
structure Fnv where
  state : UInt64
  deriving DecidableEq, Repr

namespace Fnv

/-- The offset basis. -/
def new : Fnv := ⟨0xcbf29ce484222325⟩

/-- Digests bytes. -/
def bytes (h : Fnv) (bytes : List UInt8) : Fnv :=
  bytes.foldl (fun h b => ⟨(h.state ^^^ b.toUInt64) * 0x00000100000001b3⟩) h

/-- The little-endian bytes of a 64-bit number. -/
def toLeBytes (n : ℕ) : List UInt8 :=
  (List.range 8).map fun i => UInt8.ofNat (n >>> (8 * i))

/-- Digests a number. -/
def number (h : Fnv) (n : ℕ) : Fnv :=
  h.bytes (toLeBytes n)

/-- Digests a text, after its length. -/
def text (h : Fnv) (text : List UInt8) : Fnv :=
  (h.number text.length).bytes text

end Fnv

/-! ### The fingerprint -/

/-- A stable digest of what a process was started with. -/
structure SpecFingerprint where
  raw : UInt64
  deriving DecidableEq, Repr

namespace SpecFingerprint

/-- Digests the environment policy. -/
def env (h : Fnv) : EnvPolicy → Fnv
  | .inherit => h.number 0
  | .overrides entries =>
      entries.foldl
        (fun h (key, value) =>
          let h := h.text (toStringLossy key)
          match value with
          | some value => (h.number 1).text (toStringLossy value)
          | none => h.number 0)
        ((h.number 1).number entries.length)
  | .clear entries =>
      entries.foldl
        (fun h (key, value) => (h.text (toStringLossy key)).text (toStringLossy value))
        ((h.number 2).number entries.length)

/-- Digests the graceful signal; of a custom one, the magnitude and the sign. -/
def signal (h : Fnv) : Signal → Fnv
  | .term => h.number 0
  | .kill => h.number 1
  | .interrupt => h.number 2
  | .custom raw => (h.number 3).number (raw.natAbs ||| if raw < 0 then 1 <<< 32 else 0)

/-- The digest of an optional text: absent, or present with its bytes. -/
def option (h : Fnv) : Option (List UInt8) → Fnv
  | some text => (h.number 1).text text
  | none => h.number 0

/-- The fingerprint of a specification and a revision. -/
def of (spec : ProcessSpec) (revision : Option String) : SpecFingerprint :=
  let h := Fnv.new.text (toStringLossy spec.program)
  let h := spec.args.foldl (fun h arg => h.text (toStringLossy arg)) (h.number spec.args.length)
  let h := env h spec.env
  let h := option h (spec.cwd.map toStringLossy)
  let h := signal h spec.gracefulSignal
  ⟨(option h (revision.map fun r => r.toUTF8.toList)).state⟩

end SpecFingerprint

end Shepherd
