import Mathlib
import Shepherd.Fs.Directory
import Shepherd.Kept.Record

/-!
# The Directory Store

`DirectoryKeptStore` keeps records as files in one directory: `<name>.json` is the record of a
name and `<name>.lock` the owner claim. A record is replaced by writing a temporary file and
renaming it, so a reader sees the old record or the new one.

What the store is for is a map from names to records (`Spec`). `Represents` says when a
directory stands for a map: the record files are the encoded records of the map, and nothing is
said of other files. Every call keeps to the map, whichever operations fail
(`refines`), and so does every sequence of calls (`directory_refines_map`).
-/

namespace Shepherd.Records

open Conc Fs

/-- How stored records are written as text and read again, without a loss. -/
structure Json where
  toVecPretty : StoredRecord → Except String (List UInt8)
  fromSlice : List UInt8 → Except String StoredRecord
  lossless : ∀ {r bytes}, toVecPretty r = .ok bytes → fromSlice bytes = .ok r

/-- `KeptError::Store`, by its text. -/
inductive StoreError where
  /-- `{context}: {error}`, of an operation -/
  | io (context : String) (error : IoError)
  /-- `{context}: {error}`, of a conversion -/
  | json (context : String) (error : String)
  /-- `claim for {} cannot write record {}` -/
  | claim (lock record : KeptName)
  | record (error : RecordError)
  deriving DecidableEq

/-- The claim on a name, a lock on its lock file. -/
structure KeptLock where
  name : KeptName
  deriving DecidableEq

/-- A program on the directory. -/
abbrev StoreCode (α : Type) := FileCode FileName UInt8 α

/-- The directory of a store. -/
abbrev StoreDisk := Disk FileName UInt8

/-! ### The store -/

/-- `sync_dir`. -/
def syncDir : StoreCode (Except StoreError Unit) := do
  match ← perform .syncDirectory with
  | .ok () => return .ok ()
  | .error e => return .error (.io "sync directory" e)

/-- `lock`: `none` when another owner has the claim. -/
def lock (name : KeptName) : StoreCode (Except StoreError (Option KeptLock)) := do
  match ← perform (.openFile (path name LOCK) false) with
  | .error e => return .error (.io "open lock" e)
  | .ok () =>
      match ← perform (.tryLock (path name LOCK)) with
      | .ok true => return .ok (some ⟨name⟩)
      | .ok false => return .ok none
      | .error e => return .error (.io "lock" e)

/-- The claim is dropped. -/
def release (lock : KeptLock) : StoreCode Unit := do
  perform (.unlock (path lock.name LOCK))

/-- The record in the bytes of the file of a name. -/
def decodeRecord (J : Json) (name : KeptName) (bytes : List UInt8) :
    Except StoreError KeptRecord :=
  match J.fromSlice bytes with
  | .error e => .error (.json "decode record" e)
  | .ok stored => (stored.intoRecord name).mapError .record

/-- `read`. -/
def read (J : Json) (name : KeptName) : StoreCode (Except StoreError (Option KeptRecord)) := do
  match ← perform (.read (path name RECORD)) with
  | .error .notFound => return .ok none
  | .error e => return .error (.io "read record" e)
  | .ok bytes => return (decodeRecord J name bytes).map some

/-- `write`. -/
def write (J : Json) (lock : KeptLock) (record : KeptRecord) :
    StoreCode (Except StoreError Unit) := do
  if lock.name ≠ record.name then return .error (.claim lock.name record.name)
  else
    match J.toVecPretty (.ofRecord record) with
    | .error e => return .error (.json "encode record" e)
    | .ok bytes =>
        match ← perform (.openFile (temporaryPath record.name) true) with
        | .error e => return .error (.io "create record" e)
        | .ok () =>
            match ← perform (.writeAll (temporaryPath record.name) bytes) with
            | .error e => return .error (.io "write record" e)
            | .ok () =>
                match ← perform (.syncAll (temporaryPath record.name)) with
                | .error e => return .error (.io "write record" e)
                | .ok () =>
                    match ← perform
                        (.rename (temporaryPath record.name) (path record.name RECORD)) with
                    | .error e => return .error (.io "publish record" e)
                    | .ok () => syncDir

/-- `remove`: a record that is not there is removed already. -/
def remove (lock : KeptLock) : StoreCode (Except StoreError Unit) := do
  match ← perform (.removeFile (path lock.name RECORD)) with
  | .ok () => syncDir
  | .error .notFound => return .ok ()
  | .error e => return .error (.io "remove record" e)

/-- The name whose record a file is. -/
def nameOf (file : FileName) : Option KeptName :=
  ((toStr file).bind fun f => stripSuffix f RECORD).bind fun stem => (KeptName.new stem).toOption

/-- The names among the entries; the first entry that could not be read is an error. -/
def collectNames : List (Except IoError FileName) → Except StoreError (List KeptName)
  | [] => .ok []
  | .error e :: _ => .error (.io "list" e)
  | .ok file :: entries => (collectNames entries).map fun names => (nameOf file).toList ++ names

/-- `names.sort()`. -/
def sortNames (names : List KeptName) : List KeptName :=
  names.mergeSort fun a b => decide (a.text ≤ b.text)

/-- `names`. -/
def names : StoreCode (Except StoreError (List KeptName)) := do
  match ← perform .readDirectory with
  | .error e => return .error (.io "list" e)
  | .ok entries => return (collectNames entries).map sortNames

/-! ### Calls -/

/-- The calls on a store. -/
inductive StoreCall where
  | lock (name : KeptName)
  | release (lock : KeptLock)
  | read (name : KeptName)
  | write (lock : KeptLock) (record : KeptRecord)
  | remove (lock : KeptLock)
  | names

/-- What a call returns. -/
inductive StoreResult where
  | locked (result : Except StoreError (Option KeptLock))
  | released
  | read (result : Except StoreError (Option KeptRecord))
  | written (result : Except StoreError Unit)
  | removed (result : Except StoreError Unit)
  | names (result : Except StoreError (List KeptName))
  deriving DecidableEq

/-- The program of a call. -/
def StoreCall.code (J : Json) : StoreCall → StoreCode StoreResult
  | .lock name => do return .locked (← Records.lock name)
  | .release l => do
      Records.release l
      return .released
  | .read name => do return .read (← Records.read J name)
  | .write l record => do return .written (← Records.write J l record)
  | .remove l => do return .removed (← Records.remove l)
  | .names => do return .names (← Records.names)

/-- A call with its result, and whether an operation of it has failed. -/
structure Outcome where
  call : StoreCall
  result : StoreResult
  failed : Bool

/-- A sequence of calls, each with what the environment answers to it. -/
def runCalls (J : Json) :
    List (StoreCall × List (FileAnswer FileName)) → StoreDisk → Option (List Outcome × StoreDisk)
  | [], s => some ([], s)
  | (call, answers) :: calls, s =>
      ((call.code J).run fileExec answers s).bind fun (result, s₁) =>
        (runCalls J calls s₁).map fun (outcomes, s') =>
          (⟨call, result, s.failures < s₁.failures⟩ :: outcomes, s')

/-! ### The map -/

/-- Which record each name has. -/
abbrev RecordMap := KeptName → Option KeptRecord

/-- **What the store is for**: what a call may return and make of the map. A call only fails
with an operation of it, or when it could not be right: a write with the claim on another name,
or of a record that cannot be encoded. -/
inductive Spec (J : Json) (failed : Bool) (m : RecordMap) :
    StoreCall → StoreResult → RecordMap → Prop
  | lock {name : KeptName} {result : Except StoreError (Option KeptLock)} :
      (∀ l, result = .ok (some l) → l.name = name) → Spec J failed m (.lock name) (.locked result) m
  | release {l : KeptLock} : Spec J failed m (.release l) .released m
  | read {name : KeptName} : Spec J failed m (.read name) (.read (.ok (m name))) m
  | readFailed {name : KeptName} {e : StoreError} :
      failed = true → Spec J failed m (.read name) (.read (.error e)) m
  | write {l : KeptLock} {r : KeptRecord} : l.name = r.name →
      Spec J failed m (.write l r) (.written (.ok ())) (Function.update m r.name (some r))
  | writeFailed {l : KeptLock} {r : KeptRecord} {e : StoreError} {m' : RecordMap} :
      failed = true ∨ l.name ≠ r.name ∨ (∃ text, J.toVecPretty (.ofRecord r) = .error text) →
      m' = m ∨ failed = true ∧ l.name = r.name ∧ m' = Function.update m r.name (some r) →
      Spec J failed m (.write l r) (.written (.error e)) m'
  | remove {l : KeptLock} :
      Spec J failed m (.remove l) (.removed (.ok ())) (Function.update m l.name none)
  | removeFailed {l : KeptLock} {e : StoreError} {m' : RecordMap} : failed = true →
      m' = m ∨ m' = Function.update m l.name none →
      Spec J failed m (.remove l) (.removed (.error e)) m'
  | names {ns : List KeptName} : ns.Pairwise (fun a b => a.text < b.text) →
      (∀ n, n ∈ ns ↔ (m n).isSome = true) → Spec J failed m .names (.names (.ok ns)) m
  | namesFailed {e : StoreError} :
      failed = true → Spec J failed m .names (.names (.error e)) m

/-- A sequence of calls that keeps to the map. -/
inductive SpecRun (J : Json) : RecordMap → List Outcome → RecordMap → Prop
  | nil (m : RecordMap) : SpecRun J m [] m
  | cons {m m₁ m' : RecordMap} {o : Outcome} {outcomes : List Outcome} :
      Spec J o.failed m o.call o.result m₁ → SpecRun J m₁ outcomes m' →
      SpecRun J m (o :: outcomes) m'

/-- The content of the file of a name whose record this is. -/
def Stores (J : Json) (name : KeptName) : Option KeptRecord → Option (List UInt8) → Prop
  | none, none => True
  | some r, some bytes => r.name = name ∧ J.toVecPretty (.ofRecord r) = .ok bytes
  | _, _ => False

/-- The directory stands for the map. -/
def Represents (J : Json) (d : Directory FileName UInt8) (m : RecordMap) : Prop :=
  ∀ name, Stores J name (m name) (d.get (path name RECORD))

variable {J : Json} {d d' : Directory FileName UInt8} {s s' : StoreDisk} {m : RecordMap}
  {name : KeptName} {r : KeptRecord}

/-! ### Directories and maps -/

/-- There is a record exactly if there is a file. -/
theorem Stores.eq_none_iff {record : Option KeptRecord} {content : Option (List UInt8)}
    (h : Stores J name record content) : record = none ↔ content = none := by
  cases record with
  | none =>
      cases content with
      | none => simp
      | some bytes => exact h.elim
  | some r =>
      cases content with
      | none => exact h.elim
      | some bytes => simp

/-- What is stored is what a reader decodes. -/
theorem Stores.decode {bytes : List UInt8} (h : Stores J name (some r) (some bytes)) :
    decodeRecord J name bytes = .ok r := by
  obtain ⟨rfl, henc⟩ := h
  rw [decodeRecord, J.lossless henc]
  exact congrArg (Except.mapError StoreError.record) (StoredRecord.intoRecord_ofRecord r)

/-- Other files do not matter. -/
theorem Represents.congr (h : Represents J d m)
    (hd : ∀ n, d'.get (path n RECORD) = d.get (path n RECORD)) : Represents J d' m := by
  intro n
  rw [hd n]
  exact h n

/-- A file that is no record may be put into the directory. -/
theorem Represents.put (h : Represents J d m) {f : FileName} {bytes : List UInt8}
    (hf : ∀ n, path n RECORD ≠ f) : Represents J (d.put f bytes) m :=
  h.congr fun n => Directory.get_put_of_ne (hf n)

/-- The temporary file of a record replaces the record. -/
theorem Represents.rename (h : Represents J d m) {bytes : List UInt8}
    (ht : d.get (temporaryPath r.name) = some bytes)
    (he : J.toVecPretty (.ofRecord r) = .ok bytes) :
    Represents J (d.rename (temporaryPath r.name) (path r.name RECORD))
      (Function.update m r.name (some r)) := by
  intro n
  by_cases hn : n = r.name
  · subst hn
    rw [Function.update_self, Directory.get_rename ht]
    exact ⟨rfl, he⟩
  · rw [Function.update_of_ne hn, Directory.get_rename_of_ne
      (temporaryPath_ne_path _ _ _).symm fun heq => hn (path_inj heq)]
    exact h n

/-- The removal of a record file removes the record. -/
theorem Represents.erase (h : Represents J d m) (name : KeptName) :
    Represents J (d.erase (path name RECORD)) (Function.update m name none) := by
  intro n
  by_cases hn : n = name
  · subst hn
    rw [Function.update_self, Directory.get_erase_self]
    trivial
  · rw [Function.update_of_ne hn, Directory.get_erase_of_ne fun heq => hn (path_inj heq)]
    exact h n

/-- The removal of a record that is not there. -/
theorem Represents.absent (h : Represents J d m) (hn : d.get (path name RECORD) = none) :
    Function.update m name none = m := by
  rw [Function.update_eq_self_iff]
  exact ((h name).eq_none_iff.mpr hn).symm

/-- A file that is opened, other than a record. -/
theorem Represents.opened (h : Represents J s.directory m) {f : FileName} {truncate : Bool}
    (hf : ∀ n, path n RECORD ≠ f) : Represents J (s.opened f truncate) m := by
  rw [Disk.opened]
  split
  · split
    · exact h.put hf
    · exact h
  · exact h.put hf

/-- A write to a file that is no record. -/
theorem Represents.written (h : Represents J s.directory m) {f : FileName} {bytes : List UInt8}
    (hf : ∀ n, path n RECORD ≠ f) : Represents J (s.written f bytes) m := by
  rw [Disk.written]
  split
  · exact h.put hf
  · exact h

/-! ### The calls keep to the map -/

/-- A call that returned has kept to the map. -/
def KeepsTo (J : Json) (s : StoreDisk) (m : RecordMap) (call : StoreCall) (v : StoreResult)
    (s' : StoreDisk) : Prop :=
  ∃ m', Spec J (s.failures < s'.failures) m call v m' ∧ Represents J s'.directory m'

/-- A failed operation has failed. -/
theorem failed_fail : decide (s.failures < (s.fail d).failures) = true :=
  decide_eq_true (Nat.lt_succ_self _)

/-- The directory is synchronized at the end of a call. -/
theorem syncDir_wp {Q : Except StoreError Unit → StoreDisk → Prop} (hok : Q (.ok ()) s)
    (hfail : ∀ e, Q (.error e) (s.fail s.directory)) : syncDir.wp fileExec Q s :=
  wp_syncDirectory hok fun _ => hfail _

/-- A lock changes no record. -/
theorem lock_keepsTo (h : Represents J s.directory m) (name : KeptName) :
    (lock name).wp fileExec (fun v s' => KeepsTo J s m (.lock name) (.locked v) s') s := by
  have hopened : Represents J (s.opened (path name LOCK) false) m :=
    h.opened fun n => recordPath_ne_lockPath n name
  refine wp_openFile ?_ fun text d hd => ?_
  · refine wp_tryLock (fun free s' hdir _ => ?_) fun text => ?_
    · have hrep : Represents J s'.directory m := hdir ▸ hopened
      cases free with
      | true => exact ⟨m, .lock fun l heq => (by cases heq; rfl), hrep⟩
      | false => exact ⟨m, .lock fun l heq => (by cases heq), hrep⟩
    · exact ⟨m, .lock fun l heq => (by cases heq), hopened⟩
  · refine ⟨m, .lock fun l heq => (by cases heq), ?_⟩
    rcases hd with rfl | rfl
    · exact h
    · exact hopened

/-- A release changes no record. -/
theorem release_keepsTo (h : Represents J s.directory m) (l : KeptLock) :
    (release l).wp fileExec (fun _ s' => KeepsTo J s m (.release l) .released s') s :=
  wp_unlock fun _ hdir _ => ⟨m, .release, hdir ▸ h⟩

/-- A read returns what is recorded, or fails. -/
theorem read_keepsTo (h : Represents J s.directory m) (name : KeptName) :
    (read J name).wp fileExec (fun v s' => KeepsTo J s m (.read name) (.read v) s') s := by
  have hst := h name
  refine wp_read (fun bytes hg => ?_) (fun hg => ?_) fun text => ?_
  · have hg : s.directory.get (path name RECORD) = some bytes := hg
    rw [hg] at hst
    cases hm : m name with
    | none =>
        rw [hm] at hst
        exact hst.elim
    | some r =>
        rw [hm] at hst
        refine ⟨m, ?_, h⟩
        rw [hst.decode]
        have hspec : Spec J (s.failures < s.failures) m (.read name) (.read (.ok (m name))) m :=
          .read
        rwa [hm] at hspec
  · have hm : m name = none := hst.eq_none_iff.mpr hg
    refine ⟨m, ?_, h⟩
    have hspec : Spec J (s.failures < s.failures) m (.read name) (.read (.ok (m name))) m :=
      .read
    rwa [hm] at hspec
  · exact ⟨m, .readFailed failed_fail, h⟩

/-- A removal removes the record, or fails and may have removed it. -/
theorem remove_keepsTo (h : Represents J s.directory m) (l : KeptLock) :
    (remove l).wp fileExec (fun v s' => KeepsTo J s m (.remove l) (.removed v) s') s := by
  have herased := h.erase l.name
  refine wp_removeFile ?_ (fun hg => ?_) fun text d hd => ?_
  · refine syncDir_wp ⟨_, .remove, herased⟩ fun e => ?_
    exact ⟨_, .removeFailed failed_fail (.inr rfl), herased⟩
  · refine ⟨_, .remove, ?_⟩
    rw [h.absent hg]
    exact h
  · rcases hd with rfl | rfl
    · exact ⟨m, .removeFailed failed_fail (.inl rfl), h⟩
    · exact ⟨_, .removeFailed failed_fail (.inr rfl), herased⟩

/-- A write that has failed before the record was replaced. -/
theorem KeepsTo.unwritten {l : KeptLock} {e : StoreError} (hrep : Represents J s'.directory m)
    (hfail : (decide (s.failures < s'.failures)) = true) :
    KeepsTo J s m (.write l r) (.written (.error e)) s' :=
  ⟨m, .writeFailed (.inl hfail) (.inl rfl), hrep⟩

/-- The record is published: it is replaced, or the write fails and it is the old or the new
one. -/
theorem publish_keepsTo {l : KeptLock} {s₁ : StoreDisk} {bytes : List UInt8}
    (h : Represents J s₁.directory m) (hl : l.name = r.name)
    (he : J.toVecPretty (.ofRecord r) = .ok bytes)
    (hs : s₁.failures = s.failures) (ht : s₁.get (temporaryPath r.name) = some bytes) :
    ((perform (.rename (temporaryPath r.name) (path r.name RECORD))).bind fun x =>
      match x with
      | .error e => Prog.pure (.error (StoreError.io "publish record" e))
      | .ok () => syncDir).wp fileExec
      (fun v s' => KeepsTo J s m (.write l r) (.written v) s') s₁ := by
  have hfailed : ∀ d, decide (s.failures < (s₁.fail d).failures) = true := by
    intro d
    rw [← hs]
    exact failed_fail
  have hrenamed := h.rename ht he
  refine wp_rename ht ?_ fun text d hd => ?_
  · refine syncDir_wp ⟨_, .write hl, hrenamed⟩ fun e => ?_
    exact ⟨_, .writeFailed (.inl (hfailed _)) (.inr ⟨hfailed _, hl, rfl⟩), hrenamed⟩
  · rcases hd with rfl | rfl
    · exact .unwritten h (hfailed _)
    · exact ⟨_, .writeFailed (.inl (hfailed _)) (.inr ⟨hfailed _, hl, rfl⟩), hrenamed⟩

/-- A file that was truncated is empty. -/
theorem Disk.get_opened (f : FileName) : (s.opened f true).get f = some [] := by
  rw [Disk.opened]
  split
  · exact Directory.get_put_self
  · exact Directory.get_put_self

/-- A write to an empty file makes it the content. -/
theorem Disk.get_written {f : FileName} {bytes : List UInt8} (h : s.get f = some []) :
    (s.written f bytes).get f = some bytes := by
  rw [Disk.written, h]
  simp

/-- **A write is atomic**: the record is replaced by the rename alone, so that a failure leaves the
old record or the new one. -/
theorem write_keepsTo (h : Represents J s.directory m) (l : KeptLock) (r : KeptRecord) :
    (write J l r).wp fileExec (fun v s' => KeepsTo J s m (.write l r) (.written v) s') s := by
  have htemp : ∀ n, path n RECORD ≠ temporaryPath r.name :=
    fun n => (temporaryPath_ne_path r.name n RECORD).symm
  rw [write]
  split
  · next hne => exact ⟨m, .writeFailed (.inr (.inl hne)) (.inl rfl), h⟩
  next hl =>
  have hl : l.name = r.name := not_not.mp hl
  split
  · next e he => exact ⟨m, .writeFailed (.inr (.inr ⟨e, he⟩)) (.inl rfl), h⟩
  next bytes he =>
  refine wp_openFile ?_ fun text d hd => ?_
  · have hopen : Represents J (s.opened (temporaryPath r.name) true) m := h.opened htemp
    refine wp_writeAll ?_ fun text n => .unwritten (Represents.written hopen htemp) failed_fail
    have hwritten : Represents J ((s.set (s.opened (temporaryPath r.name) true)).written
        (temporaryPath r.name) bytes) m := Represents.written hopen htemp
    refine wp_syncAll ?_ fun text => .unwritten hwritten failed_fail
    exact publish_keepsTo hwritten hl he rfl (Disk.get_written (Disk.get_opened _))
  · refine .unwritten ?_ failed_fail
    rcases hd with rfl | rfl
    · exact h
    · exact h.opened htemp

/-! ### Listing -/

/-- **A file has the name of a record** if it is the file of this record. -/
theorem nameOf_eq_some {f : FileName} : nameOf f = some name ↔ f = path name RECORD := by
  rw [nameOf, Option.bind_eq_some_iff]
  constructor
  · rintro ⟨stem, hs, hn⟩
    obtain ⟨text, ht, hs⟩ := Option.bind_eq_some_iff.mp hs
    have hname : KeptName.new stem = .ok name := by
      cases hnew : KeptName.new stem with
      | error e => rw [hnew] at hn; cases hn
      | ok n => rw [hnew] at hn; exact congrArg Except.ok (Option.some.inj hn)
    rw [toStr_eq_some ht, stripSuffix_eq_some.mp hs, ← KeptName.new_eq_ok.mp hname]
    rfl
  · rintro rfl
    refine ⟨name.text, Option.bind_eq_some_iff.mpr ⟨_, toStr_toUTF8 _, ?_⟩, ?_⟩
    · exact stripSuffix_eq_some.mpr rfl
    · rw [KeptName.new_text]
      rfl

/-- Names that can be read are collected. -/
theorem collectNames_ok (fs : List FileName) :
    collectNames (fs.map .ok) = .ok (fs.filterMap nameOf) := by
  induction fs with
  | nil => rfl
  | cons f fs ih =>
      rw [List.map_cons, collectNames, ih, List.filterMap_cons]
      cases nameOf f with
      | none => rfl
      | some n => rfl

/-- An entry that could not be read is an error. -/
theorem collectNames_error {entries : List (Except IoError FileName)}
    (h : ∃ e, .error e ∈ entries) : ∃ e, collectNames entries = .error e := by
  induction entries with
  | nil =>
      obtain ⟨e, hm⟩ := h
      cases hm
  | cons x entries ih =>
      cases x with
      | error e => exact ⟨_, rfl⟩
      | ok f =>
          obtain ⟨e, hm⟩ := h
          obtain ⟨e', he'⟩ := ih ⟨e, (List.mem_cons.mp hm).resolve_left (by simp)⟩
          exact ⟨e', by rw [collectNames, he']; rfl⟩

/-- The names of the records of a directory, once each. -/
theorem listed_names {fs : List FileName} (h : Represents J s.directory m)
    (hp : fs.Perm s.directory.names) :
    (fs.filterMap nameOf).Nodup ∧ ∀ n, n ∈ fs.filterMap nameOf ↔ (m n).isSome = true := by
  constructor
  · refine List.Nodup.filterMap (fun f f' n hn hn' => ?_) (hp.nodup_iff.mpr s.directory.nodup)
    rw [nameOf_eq_some.mp hn, nameOf_eq_some.mp hn']
  · intro n
    have hmem : n ∈ fs.filterMap nameOf ↔ path n RECORD ∈ fs := by
      rw [List.mem_filterMap]
      constructor
      · rintro ⟨f, hf, hn⟩
        exact nameOf_eq_some.mp hn ▸ hf
      · exact fun hf => ⟨_, hf, nameOf_eq_some.mpr rfl⟩
    rw [hmem, hp.mem_iff, Directory.mem_names, Option.isSome_iff_ne_none, Option.isSome_iff_ne_none]
    exact not_congr (h n).eq_none_iff.symm

/-- Sorted names without repetition are in strictly ascending order. -/
theorem sorted_names {ns : List KeptName} (hn : ns.Nodup) :
    (sortNames ns).Pairwise fun a b => a.text < b.text := by
  have hsorted : (sortNames ns).Pairwise fun a b => decide (a.text ≤ b.text) = true :=
    List.pairwise_mergeSort
      (fun a b c hab hbc => by simpa using (of_decide_eq_true hab).trans (of_decide_eq_true hbc))
      (fun a b => by simpa using le_total a.text b.text) ns
  have hnodup : (sortNames ns).Nodup := (List.mergeSort_perm _ _).nodup_iff.mpr hn
  refine (hsorted.and hnodup).imp fun hab => ?_
  exact lt_of_le_of_ne (of_decide_eq_true hab.1) fun heq => hab.2 (KeptName.ext heq)

/-- The listing names what is recorded, or fails. -/
theorem names_keepsTo (h : Represents J s.directory m) :
    names.wp fileExec (fun v s' => KeepsTo J s m .names (.names v) s') s := by
  refine wp_readDirectory (fun fs hp => ?_) (fun entries he => ?_) fun text => ?_
  · obtain ⟨hn, hmem⟩ := listed_names h hp
    change KeepsTo J s m .names (.names ((collectNames (fs.map .ok)).map sortNames)) s
    rw [collectNames_ok]
    exact ⟨m, .names (sorted_names hn) fun n => List.mem_mergeSort.trans (hmem n), h⟩
  · obtain ⟨e, heq⟩ := collectNames_error he
    change KeepsTo J s m .names (.names ((collectNames entries).map sortNames)) _
    rw [heq]
    exact ⟨m, .namesFailed failed_fail, h⟩
  · exact ⟨m, .namesFailed failed_fail, h⟩

/-- **Every call keeps to the map.** -/
theorem refines (h : Represents J s.directory m) (call : StoreCall) :
    (call.code J).wp fileExec (KeepsTo J s m call) s := by
  cases call with
  | lock name => exact Prog.wp_bind.mpr (lock_keepsTo h name)
  | release l => exact Prog.wp_bind.mpr (release_keepsTo h l)
  | read name => exact Prog.wp_bind.mpr (read_keepsTo h name)
  | write l r => exact Prog.wp_bind.mpr (write_keepsTo h l r)
  | remove l => exact Prog.wp_bind.mpr (remove_keepsTo h l)
  | names => exact Prog.wp_bind.mpr (names_keepsTo h)

/-- **So does every sequence of calls.** -/
theorem runCalls_refines {calls : List (StoreCall × List (FileAnswer FileName))}
    {outcomes : List Outcome} (h : Represents J s.directory m)
    (hr : runCalls J calls s = some (outcomes, s')) :
    outcomes.map Outcome.call = calls.map Prod.fst ∧
      ∃ m', SpecRun J m outcomes m' ∧ Represents J s'.directory m' := by
  induction calls generalizing s m outcomes with
  | nil =>
      obtain ⟨rfl, rfl⟩ := Prod.mk.inj (Option.some.inj hr)
      exact ⟨rfl, m, .nil m, h⟩
  | cons x calls ih =>
      obtain ⟨call, answers⟩ := x
      obtain ⟨⟨result, s₁⟩, hcall, hr⟩ := Option.bind_eq_some_iff.mp hr
      obtain ⟨⟨outcomes', s₂⟩, hrest, heq⟩ := Option.map_eq_some_iff.mp hr
      obtain ⟨rfl, rfl⟩ := Prod.mk.inj heq
      obtain ⟨m₁, hspec, hrep⟩ := Prog.wp_iff_run.mp (refines h call) answers result s₁ hcall
      obtain ⟨hmap, m', hrun, hrep'⟩ := ih hrep hrest
      exact ⟨congrArg (call :: ·) hmap, m', .cons hspec hrun, hrep'⟩

/-- A directory without records stands for the empty map. -/
theorem represents_empty : Represents J Directory.empty fun _ => none :=
  fun _ => trivial

/-! ### Files that are no records of their name -/

/-- Bytes that do not decode, or to a record of another format, under another name, or without
a fingerprint. -/
def Mismatched (J : Json) (name : KeptName) (bytes : List UInt8) : Prop :=
  (∃ e, J.fromSlice bytes = .error e) ∨ ∃ stored, J.fromSlice bytes = .ok stored ∧
    (stored.format ≠ FORMAT ∨ stored.name ≠ name.text ∨
      ∃ e, fromStrRadix stored.fingerprint = .error e)

/-- A record under another name is refused. -/
theorem Mismatched.error {bytes : List UInt8} (h : Mismatched J name bytes) :
    ∃ e, decodeRecord J name bytes = .error e := by
  cases hd : decodeRecord J name bytes with
  | error e => exact ⟨e, rfl⟩
  | ok r =>
      rw [decodeRecord] at hd
      rcases h with ⟨e, he⟩ | ⟨stored, hst, hbad⟩
      · rw [he] at hd
        cases hd
      · rw [hst] at hd
        dsimp only at hd
        cases hin : stored.intoRecord name with
        | error e =>
            rw [hin] at hd
            cases hd
        | ok r' =>
            obtain ⟨hf, hn, -, hfp⟩ := StoredRecord.of_intoRecord hin
            rcases hbad with hne | hne | ⟨e, he⟩
            · exact absurd hf hne
            · exact absurd hn hne
            · cases hfp.symm.trans he

/-- **A file that is no record of its name is an error.** -/
theorem read_mismatched {bytes : List UInt8} (hg : s.get (path name RECORD) = some bytes)
    (h : Mismatched J name bytes) :
    (read J name).wp fileExec (fun v _ => ∃ e, v = .error e) s := by
  refine wp_read (fun bytes' hg' => ?_) (fun hn => ?_) fun text => ⟨_, rfl⟩
  · obtain rfl := Option.some.inj (hg.symm.trans hg')
    obtain ⟨e, he⟩ := h.error
    change ∃ e', (decodeRecord J name bytes).map some = .error e'
    rw [he]
    exact ⟨e, rfl⟩
  · cases hg.symm.trans hn

/-! ### Refinement -/

/-- The kinds of files that the store keeps for a name. -/
inductive FileKind where
  | record
  | lock
  | temporary
  deriving DecidableEq

/-- The file of a kind for a name. -/
def FileKind.path : FileKind → KeptName → FileName
  | .record, n => Records.path n RECORD
  | .lock, n => Records.path n LOCK
  | .temporary, n => temporaryPath n

/-- **No two files share a path.** -/
theorem FileKind.path_inj {k k' : FileKind} {n n' : KeptName} (h : k.path n = k'.path n') :
    k = k' ∧ n = n' := by
  cases k with
  | record =>
      cases k' with
      | record => exact ⟨rfl, Records.path_inj h⟩
      | lock => exact absurd h (recordPath_ne_lockPath n n')
      | temporary => exact absurd h.symm (temporaryPath_ne_path n' n RECORD)
  | lock =>
      cases k' with
      | record => exact absurd h.symm (recordPath_ne_lockPath n' n)
      | lock => exact ⟨rfl, Records.path_inj h⟩
      | temporary => exact absurd h.symm (temporaryPath_ne_path n' n LOCK)
  | temporary =>
      cases k' with
      | record => exact absurd h (temporaryPath_ne_path n n' RECORD)
      | lock => exact absurd h (temporaryPath_ne_path n n' LOCK)
      | temporary => exact ⟨rfl, temporaryPath_inj h⟩

/-- **The directory store refines a map from names to records**, whichever operations fail.
The files of all names are told apart, only the record of a name is listed under it, and a file
that is no record of its name is an error. -/
theorem directory_refines_map (J : Json) :
    (∀ (s : StoreDisk) m, Represents J s.directory m →
      ∀ calls outcomes s', runCalls J calls s = some (outcomes, s') →
        outcomes.map Outcome.call = calls.map Prod.fst ∧
          ∃ m', SpecRun J m outcomes m' ∧ Represents J s'.directory m') ∧
    (∀ k k' n n', FileKind.path k n = FileKind.path k' n' → k = k' ∧ n = n') ∧
    (∀ f n, nameOf f = some n ↔ f = FileKind.path .record n) ∧
    ∀ (s : StoreDisk) n bytes, s.get (FileKind.path .record n) = some bytes →
      Mismatched J n bytes → ∀ answers v s', (read J n).run fileExec answers s = some (v, s') →
        ∃ e, v = .error e := by
  refine ⟨fun s m h calls outcomes s' hr => runCalls_refines h hr,
    fun k k' n n' h => FileKind.path_inj h, fun f n => nameOf_eq_some,
    fun s n bytes hg hbad answers v s' hr => ?_⟩
  exact Prog.wp_iff_run.mp (read_mismatched hg hbad) answers v s' hr

/-- A record. -/
def sleepRecord : KeptRecord where
  name := ⟨"a.lock", by decide +kernel⟩
  osPid := 41
  startToken := 9
  bootId := some "boot"
  exe := none
  program := "sleep"
  args := ["30"]
  fingerprint := ⟨0x0123456789abcdef⟩
  revision := none
  gracefulSignal := .custom (-1)
  log := none
  owner := "test"
  startedAtUnixMs := 5

/-- Its stored form, as text. -/
def sleepText : List UInt8 :=
  "\x7b
  \"format\": 1,
  \"name\": \"a.lock\",
  \"os_pid\": 41,
  \"start_token\": 9,
  \"boot_id\": \"boot\",
  \"exe\": null,
  \"program\": \"sleep\",
  \"args\": [
    \"30\"
  ],
  \"fingerprint\": \"0123456789abcdef\",
  \"revision\": null,
  \"graceful_signal\": \x7b
    \"custom\": -1
  \x7d,
  \"log\": null,
  \"owner\": \"test\",
  \"started_at_unix_ms\": 5
\x7d".toUTF8.data.toList

/-- The conversion, as far as this record goes. -/
def sleepJson : Json where
  toVecPretty r := if r = .ofRecord sleepRecord then .ok sleepText else .error ""
  fromSlice bytes := if bytes = sleepText then .ok (.ofRecord sleepRecord) else .error ""
  lossless h := by
    split at h
    · next hr =>
        rw [← Except.ok.inj h, if_pos rfl, hr]
    · cases h

/-- The record is written; the next write fails half-way, and the record is read. -/
def sleepCalls : List (StoreCall × List (FileAnswer FileName)) :=
  [(.lock sleepRecord.name, [.done, .done]),
   (.write ⟨sleepRecord.name⟩ sleepRecord, [.done, .done, .done, .done, .done]),
   (.write ⟨sleepRecord.name⟩ sleepRecord, [.done, .fails "no space left on device" 3]),
   (.read sleepRecord.name, [.done])]

/-- The schedule of a record that is written, and once more on a full disk. -/
theorem sleepCalls_run : (runCalls sleepJson sleepCalls ⟨.empty, [], 0⟩).any (fun x =>
    x.1.map Outcome.result = [.locked (.ok (some ⟨sleepRecord.name⟩)), .written (.ok ()),
      .written (.error (.io "write record" (.other "no space left on device"))),
      .read (.ok (some sleepRecord))]) = true := by
  decide +kernel

/-- A directory whose record file is damaged. -/
def damagedDisk : StoreDisk :=
  ⟨Directory.empty.put (FileKind.path .record sleepRecord.name) [0x7b], [], 0⟩

/-- That schedule keeps to the abstract store; and a record that is damaged is refused. -/
theorem kept_record_is_read : (∃ outcomes s',
      runCalls sleepJson sleepCalls ⟨.empty, [], 0⟩ = some (outcomes, s') ∧
      outcomes.map Outcome.result = [.locked (.ok (some ⟨sleepRecord.name⟩)), .written (.ok ()),
        .written (.error (.io "write record" (.other "no space left on device"))),
        .read (.ok (some sleepRecord))] ∧
      ∃ m', SpecRun sleepJson (fun _ => none) outcomes m' ∧ Represents sleepJson s'.directory m') ∧
    ∃ v s', (read sleepJson sleepRecord.name).run fileExec [.done] damagedDisk = some (v, s') ∧
      ∃ e, v = .error e := by
  constructor
  · obtain ⟨⟨outcomes, s'⟩, hr, hP⟩ := (Option.any_eq_true _ _).mp sleepCalls_run
    have hrefines := (directory_refines_map sleepJson).1 ⟨.empty, [], 0⟩ (fun _ => none)
      represents_empty sleepCalls outcomes s' hr
    exact ⟨outcomes, s', hr, of_decide_eq_true hP, hrefines.2⟩
  · have hbad : Mismatched sleepJson sleepRecord.name [0x7b] := .inl ⟨"", by decide +kernel⟩
    exact ⟨_, _, rfl, (directory_refines_map sleepJson).2.2.2 damagedDisk sleepRecord.name [0x7b]
      Directory.get_put_self hbad [.done] _ _ rfl⟩

end Shepherd.Records
