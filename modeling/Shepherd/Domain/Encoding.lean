import Shepherd.Codec.Delimited
import Shepherd.Domain.Fingerprint

/-!
# The Encoding under a Fingerprint

`SpecFingerprint::of` feeds bytes to FNV-1a: numbers, texts after their length, lists after
their count, and tags for optional values and alternatives. `encode` is the whole byte string,
and the fingerprint is its digest (`of_eq`).

The parts delimit themselves, so the byte string tells all inputs of the fingerprint apart,
OS strings up to their lossy text (`fingerprint_encoding_is_injective`). Two specifications
with one fingerprint are a collision of the hash, never of the format.
-/

namespace Shepherd

open Codec

/-! ### Lossy specifications -/

/-- The policy with its OS strings as text. -/
def EnvPolicy.lossy : EnvPolicy → EnvPolicy
  | .inherit => .inherit
  | .overrides entries =>
      .overrides (entries.map fun e => (toStringLossy e.1, e.2.map toStringLossy))
  | .clear entries => .clear (entries.map fun e => (toStringLossy e.1, toStringLossy e.2))

namespace SpecFingerprint

/-! ### The byte string -/

/-- The bytes of a number. -/
def numberBytes (n : ℕ) : List UInt8 :=
  Fnv.toLeBytes n

/-- The bytes of a text. -/
def textBytes (text : List UInt8) : List UInt8 :=
  numberBytes text.length ++ text

/-- The bytes of an optional text. -/
def optionBytes : Option (List UInt8) → List UInt8
  | some text => numberBytes 1 ++ textBytes text
  | none => numberBytes 0

/-- The bytes of a list of texts. -/
def textsBytes (texts : List (List UInt8)) : List UInt8 :=
  numberBytes texts.length ++ texts.flatMap textBytes

/-- The tag of an environment policy. -/
def envTag : EnvPolicy → ℕ
  | .inherit => 0
  | .overrides _ => 1
  | .clear _ => 2

/-- The bytes of the entries of an environment policy, with the OS strings as they are. -/
def entriesBytes : EnvPolicy → List UInt8
  | .inherit => []
  | .overrides entries =>
      numberBytes entries.length ++ entries.flatMap fun e => textBytes e.1 ++ optionBytes e.2
  | .clear entries =>
      numberBytes entries.length ++ entries.flatMap fun e => textBytes e.1 ++ textBytes e.2

/-- The bytes of an environment policy. -/
def envBytes (env : EnvPolicy) : List UInt8 :=
  numberBytes (envTag env) ++ entriesBytes env

/-- The tag of a signal. -/
def signalTag : Signal → ℕ
  | .term => 0
  | .kill => 1
  | .interrupt => 2
  | .custom _ => 3

/-- The magnitude and the sign of a raw signal number. -/
def customNumber (raw : Int) : ℕ :=
  raw.natAbs ||| if raw < 0 then 1 <<< 32 else 0

/-- The bytes of a signal. -/
def signalBytes (s : Signal) : List UInt8 :=
  numberBytes (signalTag s) ++
    match s with
    | .custom raw => numberBytes (customNumber raw)
    | _ => []

/-- The text of a revision. -/
def revisionText (revision : Option String) : Option (List UInt8) :=
  revision.map fun r => r.toUTF8.toList

/-- The bytes that are fed to the hash. -/
def encode (spec : ProcessSpec) (revision : Option String) : List UInt8 :=
  textBytes (toStringLossy spec.program) ++ (textsBytes (spec.args.map toStringLossy) ++
    (envBytes spec.env.lossy ++ (optionBytes (spec.cwd.map toStringLossy) ++
      (signalBytes spec.gracefulSignal ++ optionBytes (revisionText revision)))))

/-! ### The digest -/

variable {h : Fnv}

/-- Bytes are hashed one after the other. -/
theorem bytes_append (h : Fnv) (a b : List UInt8) : h.bytes (a ++ b) = (h.bytes a).bytes b :=
  List.foldl_append

/-- A number is hashed through its bytes. -/
theorem number_eq (h : Fnv) (n : ℕ) : h.number n = h.bytes (numberBytes n) := rfl

/-- A text is hashed through its length and its bytes. -/
theorem text_eq (h : Fnv) (t : List UInt8) : h.text t = h.bytes (textBytes t) := by
  rw [textBytes, bytes_append]
  rfl

/-- An optional text is hashed through its tag and its bytes. -/
theorem option_eq (h : Fnv) (o : Option (List UInt8)) : option h o = h.bytes (optionBytes o) := by
  cases o with
  | none => rfl
  | some t =>
      rw [option, optionBytes, bytes_append, text_eq]
      rfl

/-- A loop that feeds the parts one by one. -/
theorem foldl_bytes {α : Type} (f : Fnv → α → Fnv) (enc : α → List UInt8)
    (hf : ∀ h a, f h a = h.bytes (enc a)) (l : List α) (h : Fnv) :
    l.foldl f h = h.bytes (l.flatMap enc) := by
  induction l generalizing h with
  | nil => rfl
  | cons a l ih => rw [List.foldl_cons, hf, ih, List.flatMap_cons, bytes_append]

/-- The environment is hashed through its lossy text. -/
theorem env_eq (h : Fnv) (env : EnvPolicy) :
    SpecFingerprint.env h env = h.bytes (envBytes env.lossy) := by
  cases env with
  | inherit => rfl
  | overrides entries =>
      rw [SpecFingerprint.env, EnvPolicy.lossy, envBytes, entriesBytes, bytes_append, bytes_append,
        List.length_map, List.flatMap_map, ← number_eq, ← number_eq]
      refine foldl_bytes _ _ (fun h e => ?_) entries _
      obtain ⟨key, value⟩ := e
      rw [bytes_append, ← text_eq, ← option_eq]
      cases value with
      | none => rfl
      | some value => rfl
  | clear entries =>
      rw [SpecFingerprint.env, EnvPolicy.lossy, envBytes, entriesBytes, bytes_append, bytes_append,
        List.length_map, List.flatMap_map, ← number_eq, ← number_eq]
      refine foldl_bytes _ _ (fun h e => ?_) entries _
      rw [bytes_append, ← text_eq, ← text_eq]

/-- A signal is hashed through its name, or its number. -/
theorem signal_eq (h : Fnv) (s : Signal) : signal h s = h.bytes (signalBytes s) := by
  cases s with
  | custom raw =>
      rw [signalBytes, bytes_append]
      rfl
  | _ => rfl

/-- **The fingerprint is the digest of the byte string.** -/
theorem of_eq (spec : ProcessSpec) (revision : Option String) :
    of spec revision = ⟨(Fnv.new.bytes (encode spec revision)).state⟩ := by
  have hargs : ∀ h : Fnv, spec.args.foldl (fun h arg => h.text (toStringLossy arg))
      (h.number spec.args.length) = h.bytes (textsBytes (spec.args.map toStringLossy)) := by
    intro h
    rw [textsBytes, bytes_append, List.length_map, List.flatMap_map, ← number_eq]
    exact foldl_bytes (fun h arg => h.text (toStringLossy arg)) _ (fun h arg => text_eq h _)
      spec.args _
  rw [of, text_eq, hargs, env_eq, option_eq, signal_eq, option_eq]
  rw [encode, bytes_append, bytes_append, bytes_append, bytes_append, bytes_append, revisionText]

/-- A byte string may be fed in any pieces. -/
theorem bytes_flatten (h : Fnv) (pieces : List (List UInt8)) :
    pieces.foldl Fnv.bytes h = h.bytes pieces.flatten := by
  rw [← List.flatMap_id]
  exact foldl_bytes Fnv.bytes id (fun _ _ => rfl) pieces h

/-- FNV-1a over a byte string. -/
def fnv1a (bytes : List UInt8) : UInt64 :=
  bytes.foldl (fun h b => (h ^^^ b.toUInt64) * 0x00000100000001b3) 0xcbf29ce484222325

/-- Hashing some bytes is FNV-1a. -/
theorem state_bytes (bytes : List UInt8) : (Fnv.new.bytes bytes).state = fnv1a bytes := by
  have hfold : ∀ h : Fnv, (h.bytes bytes).state =
      bytes.foldl (fun h b => (h ^^^ b.toUInt64) * 0x00000100000001b3) h.state := by
    induction bytes with
    | nil => exact fun _ => rfl
    | cons b bytes ih => exact fun h => ih _
  exact hfold Fnv.new

/-! ### The parts delimit themselves -/

/-- A number of 64 bits. -/
def U64 (n : ℕ) : Prop :=
  n < 2 ^ 64

/-- A 64-bit number is determined by its eight bytes: its bit at `j` is in the byte at `j / 8`. -/
theorem toLeBytes_inj {n m : ℕ} (hn : U64 n) (hm : U64 m) (h : Fnv.toLeBytes n = Fnv.toLeBytes m) :
    n = m := by
  have hbyte : ∀ i < 8, n >>> (8 * i) % 256 = m >>> (8 * i) % 256 := by
    intro i hi
    have heq := congrArg (fun l : List UInt8 => l[i]?) h
    simp only [Fnv.toLeBytes, List.getElem?_map, List.getElem?_range hi, Option.map_some,
      Option.some.injEq] at heq
    simpa using congrArg UInt8.toNat heq
  refine Nat.eq_of_testBit_eq fun j => ?_
  by_cases hj : j < 64
  · have hbit := congrArg (fun b => b.testBit (j % 8)) (hbyte (j / 8) (by omega))
    simpa only [Nat.testBit_mod_two_pow _ 8, Nat.testBit_shiftRight, Nat.div_add_mod,
      Nat.mod_lt j (show 8 > 0 by decide), decide_true, Bool.true_and] using hbit
  · have hpow : 2 ^ 64 ≤ 2 ^ j := Nat.pow_le_pow_right (by decide) (Nat.le_of_not_lt hj)
    rw [Nat.testBit_lt_two_pow (Nat.lt_of_lt_of_le hn hpow),
      Nat.testBit_lt_two_pow (Nat.lt_of_lt_of_le hm hpow)]

/-- Numbers can be told from what follows them. -/
theorem delimited_number : Delimited U64 numberBytes := by
  have hlen : ∀ n, (numberBytes n).length = 8 := by simp [numberBytes, Fnv.toLeBytes]
  exact .of_length hlen fun _ _ hn hm h => toLeBytes_inj hn hm h

/-- A text whose length is a number. -/
def TextFits (t : List UInt8) : Prop :=
  U64 t.length

/-- Texts can be told from what follows them. -/
theorem delimited_text : Delimited TextFits textBytes :=
  delimited_number.text

/-- Optional texts can be told from what follows them. -/
theorem delimited_option : Delimited (fun o => ∀ t ∈ o, TextFits t) optionBytes := by
  have h := delimited_number.option (by rw [U64]; decide) (by unfold U64; decide) delimited_text
  intro o o' x y ho ho' heq
  refine h o o' x y ho ho' ?_
  cases o <;> cases o' <;> exact heq

/-- Lists of texts can be told from what follows them. -/
theorem delimited_texts :
    Delimited (fun l => U64 l.length ∧ ∀ t ∈ l, TextFits t) textsBytes :=
  delimited_number.counted delimited_text

/-- The lengths in an environment policy are numbers. -/
def EnvFits : EnvPolicy → Prop
  | .inherit => True
  | .overrides entries =>
      U64 entries.length ∧ ∀ e ∈ entries, TextFits e.1 ∧ ∀ v ∈ e.2, TextFits v
  | .clear entries => U64 entries.length ∧ ∀ e ∈ entries, TextFits e.1 ∧ TextFits e.2

/-- Environments can be told from what follows them. -/
theorem delimited_env : Delimited EnvFits envBytes := by
  refine delimited_number.tagged (fun env => ?_) fun env env' x y he he' htag heq => ?_
  · cases env <;> simp [U64, envTag]
  cases env with
  | inherit =>
      cases env' with
      | inherit => exact ⟨rfl, heq⟩
      | _ => cases htag
  | overrides entries =>
      cases env' with
      | overrides entries' =>
          obtain ⟨rfl, hxy⟩ := delimited_number.counted (delimited_text.append delimited_option)
            entries entries' x y he he' heq
          exact ⟨rfl, hxy⟩
      | _ => cases htag
  | clear entries =>
      cases env' with
      | clear entries' =>
          obtain ⟨rfl, hxy⟩ := delimited_number.counted (delimited_text.append delimited_text)
            entries entries' x y he he' heq
          exact ⟨rfl, hxy⟩
      | _ => cases htag

/-- The signal is one of 32 bits. -/
def SignalFits : Signal → Prop
  | .custom raw => -2 ^ 31 ≤ raw ∧ raw < 2 ^ 31
  | _ => True

/-- The sign is above the magnitude. -/
theorem customNumber_eq {raw : Int} (h : raw.natAbs < 2 ^ 32) :
    customNumber raw = raw.natAbs + if raw < 0 then 2 ^ 32 else 0 := by
  rw [customNumber]
  split
  · have hor := Nat.two_pow_add_eq_or_of_lt h 1
    rw [Nat.mul_one] at hor
    rw [Nat.or_comm, Nat.one_shiftLeft, ← hor, Nat.add_comm]
  · rw [Nat.or_zero, Nat.add_zero]

/-- Signals can be told from what follows them. -/
theorem delimited_signal : Delimited SignalFits signalBytes := by
  refine delimited_number.tagged (fun s => ?_) fun s s' x y hs hs' htag heq => ?_
  · cases s <;> simp [U64, signalTag]
  cases s with
  | custom raw =>
      cases s' with
      | custom raw' =>
          simp only [SignalFits] at hs hs'
          have hraw := @customNumber_eq raw (by omega)
          have hraw' := @customNumber_eq raw' (by omega)
          obtain ⟨hn, hxy⟩ := delimited_number (customNumber raw) (customNumber raw') x y
            (by rw [U64]; split at hraw <;> omega) (by unfold U64; split at hraw' <;> omega) heq
          have heq : raw = raw' := by
            rw [hraw, hraw'] at hn
            split at hn <;> split at hn <;> omega
          exact ⟨congrArg Signal.custom heq, hxy⟩
      | _ => cases htag
  | _ =>
      cases s' with
      | custom raw' => cases htag
      | _ => first | exact ⟨rfl, heq⟩ | cases htag

/-! ### Injectivity -/

/-- The lengths of a specification and a revision are numbers, and its signal is one. -/
structure Fits (spec : ProcessSpec) (revision : Option String) : Prop where
  program : TextFits (toStringLossy spec.program)
  args : U64 spec.args.length ∧ ∀ arg ∈ spec.args, TextFits (toStringLossy arg)
  env : EnvFits spec.env.lossy
  cwd : ∀ dir ∈ spec.cwd, TextFits (toStringLossy dir)
  signal : SignalFits spec.gracefulSignal
  revision : ∀ r ∈ revision, r.utf8ByteSize < 2 ^ 64

/-- Equal inputs of the fingerprint, OS strings up to their lossy text. -/
structure SameInputs (s₁ : ProcessSpec) (r₁ : Option String) (s₂ : ProcessSpec)
    (r₂ : Option String) : Prop where
  program : toStringLossy s₁.program = toStringLossy s₂.program
  args : s₁.args.map toStringLossy = s₂.args.map toStringLossy
  env : s₁.env.lossy = s₂.env.lossy
  cwd : s₁.cwd.map toStringLossy = s₂.cwd.map toStringLossy
  signal : s₁.gracefulSignal = s₂.gracefulSignal
  revision : r₁ = r₂

/-- The bytes of an array, as a list. -/
theorem toList_eq (bs : ByteArray) : bs.toList = bs.data.toList := by
  have hloop : ∀ i r, ByteArray.toList.loop bs i r = r.reverse ++ bs.data.toList.drop i := by
    intro i r
    fun_induction ByteArray.toList.loop bs i r with
    | case1 i r h ih =>
        have hi : i < bs.data.toList.length := h
        have hsize : i < bs.data.size := h
        have hget : bs.get! i = bs.data[i] := by
          change bs.data[i]! = _
          exact getElem!_pos bs.data i hsize
        rw [ih, List.reverse_cons, List.append_assoc, List.drop_eq_getElem_cons hi, hget]
        rfl
    | case2 i r h =>
        have hi : bs.data.toList.length ≤ i := Nat.le_of_not_lt h
        rw [List.drop_eq_nil_of_le hi, List.append_nil]
  exact hloop 0 []

/-- A revision is determined by the text that is hashed of it. -/
theorem revisionText_inj {r₁ r₂ : Option String} (h : revisionText r₁ = revisionText r₂) :
    r₁ = r₂ := by
  refine Option.map_injective (fun s s' heq => ?_) h
  rw [toList_eq, toList_eq, Array.toList_inj] at heq
  exact String.toByteArray_inj.mp (ByteArray.ext heq)

/-- A revision fits if its text does. -/
theorem revisionText_fits {r : Option String} (h : ∀ s ∈ r, s.utf8ByteSize < 2 ^ 64) :
    ∀ t ∈ revisionText r, TextFits t := by
  intro t ht
  obtain ⟨s, hs, rfl⟩ := Option.map_eq_some_iff.mp ht
  rw [TextFits, toList_eq]
  exact h s hs

/-- The byte string tells the inputs apart. -/
theorem encode_inj {s₁ s₂ : ProcessSpec} {r₁ r₂ : Option String} (h₁ : Fits s₁ r₁)
    (h₂ : Fits s₂ r₂) (h : encode s₁ r₁ = encode s₂ r₂) : SameInputs s₁ r₁ s₂ r₂ := by
  obtain ⟨hprogram, h⟩ := delimited_text _ _ _ _ h₁.program h₂.program h
  have hargs : ∀ {s : ProcessSpec} {r}, Fits s r →
      U64 (s.args.map toStringLossy).length ∧ ∀ t ∈ s.args.map toStringLossy, TextFits t := by
    intro s r hs
    refine ⟨by rw [List.length_map]; exact hs.args.1, fun t ht => ?_⟩
    obtain ⟨arg, harg, rfl⟩ := List.mem_map.mp ht
    exact hs.args.2 arg harg
  have hcwd : ∀ {s : ProcessSpec} {r}, Fits s r → ∀ t ∈ s.cwd.map toStringLossy, TextFits t := by
    intro s r hs t ht
    obtain ⟨dir, hdir, rfl⟩ := Option.map_eq_some_iff.mp ht
    exact hs.cwd dir hdir
  obtain ⟨hargs, h⟩ := delimited_texts _ _ _ _ (hargs h₁) (hargs h₂) h
  obtain ⟨henv, h⟩ := delimited_env _ _ _ _ h₁.env h₂.env h
  obtain ⟨hcwd, h⟩ := delimited_option _ _ _ _ (hcwd h₁) (hcwd h₂) h
  obtain ⟨hsignal, h⟩ := delimited_signal _ _ _ _ h₁.signal h₂.signal h
  have hrevision := delimited_option.injective (revisionText_fits h₁.revision)
    (revisionText_fits h₂.revision) h
  exact ⟨hprogram, hargs, henv, hcwd, hsignal, revisionText_inj hrevision⟩

/-- Specifications with the same lossy texts are encoded alike. -/
theorem SameInputs.encode_eq {s₁ s₂ : ProcessSpec} {r₁ r₂ : Option String}
    (h : SameInputs s₁ r₁ s₂ r₂) : encode s₁ r₁ = encode s₂ r₂ := by
  rw [encode, encode, h.program, h.args, h.env, h.cwd, h.signal, h.revision]

/-- **The encoding under the fingerprint is injective**, and the fingerprint is the FNV-1a
digest of the encoded bytes, in whatever pieces they are fed. -/
theorem fingerprint_encoding_is_injective :
    (∀ s₁ r₁ s₂ r₂, Fits s₁ r₁ → Fits s₂ r₂ →
      (encode s₁ r₁ = encode s₂ r₂ ↔ SameInputs s₁ r₁ s₂ r₂)) ∧
    ∀ spec revision, (of spec revision).raw = fnv1a (encode spec revision) ∧
      ∀ pieces : List (List UInt8), pieces.flatten = encode spec revision →
        of spec revision = ⟨(pieces.foldl Fnv.bytes Fnv.new).state⟩ := by
  refine ⟨fun s₁ r₁ s₂ r₂ h₁ h₂ => ⟨encode_inj h₁ h₂, fun h => h.encode_eq⟩,
    fun spec revision => ⟨?_, fun pieces hp => ?_⟩⟩
  · rw [of_eq, state_bytes]
  · rw [of_eq, bytes_flatten, hp]

/-- A specification that sets or removes the variable `K`. -/
def withVariable (value : Option OsString) : ProcessSpec :=
  { ProcessSpec.new [0x2F, 0x62] with env := .overrides [([0x4B], value)] }

/-- The specification of the example fits. -/
theorem withVariable_fits {value : Option OsString} (h : ∀ v ∈ value, v = []) :
    Fits (withVariable value) none where
  program := show (toStringLossy [0x2F, 0x62]).length < 2 ^ 64 by decide +kernel
  args := ⟨show 0 < 2 ^ 64 by decide, nofun⟩
  env := by
    refine ⟨show 1 < 2 ^ 64 by decide, fun e he => ?_⟩
    obtain rfl := List.mem_singleton.mp he
    refine ⟨show (toStringLossy [0x4B]).length < 2 ^ 64 by decide +kernel, fun v hv => ?_⟩
    obtain ⟨w, hw, rfl⟩ := Option.map_eq_some_iff.mp hv
    rw [h w hw]
    exact show 0 < 2 ^ 64 by decide
  cwd := nofun
  signal := trivial
  revision := nofun

/-- A variable that is removed and one that is empty give different fingerprints. -/
theorem removed_is_not_empty :
    encode (withVariable none) none ≠ encode (withVariable (some [])) none ∧
      of (withVariable none) none =
        ⟨([encode (withVariable none) none].foldl Fnv.bytes Fnv.new).state⟩ := by
  constructor
  · intro heq
    have hsame := (fingerprint_encoding_is_injective.1 (withVariable none) none
      (withVariable (some [])) none (withVariable_fits nofun)
      (withVariable_fits fun v hv => (Option.some.inj hv).symm)).mp heq
    have henv : [(toStringLossy [0x4B], none)] =
        [(toStringLossy [0x4B], some (toStringLossy []))] :=
      EnvPolicy.overrides.inj hsame.env
    simp at henv
  · exact (fingerprint_encoding_is_injective.2 (withVariable none) none).2 _
      (by rw [List.flatten_cons, List.flatten_nil, List.append_nil])

end SpecFingerprint

end Shepherd
