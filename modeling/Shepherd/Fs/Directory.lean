import Shepherd.Conc.Alone

/-!
# Files in a Directory

A flat directory and the operations on its files, any of which may fail. File names are told
apart exactly, and a rename is atomic; beyond that little is assumed of an operation that
fails: a write may have written any part, and what a failed rename, open or removal would have
done may have happened or not.

* `Directory` — files under distinct names, with `get`, `put`, `erase` and `rename`.
* `FileOp` and `fileExec` — the operations of a program, and what they do to a `Disk`. A
  disk counts the operations that failed, so that a result can be traced to a failure.
* `wp_read`, `wp_openFile`, … — the rules of the operations: a program that goes on well after
  everything an operation can do is right.
-/

namespace Shepherd.Fs

open Conc

variable {F B : Type}

/-- Files under distinct names. -/
structure Directory (F B : Type) where
  files : List (F × List B)
  nodup : (files.map Prod.fst).Nodup

namespace Directory

/-- No files. -/
def empty : Directory F B := ⟨[], List.nodup_nil⟩

/-- The names of the files, in some order. -/
def names (d : Directory F B) : List F :=
  d.files.map Prod.fst

variable [DecidableEq F]

/-- The content of a file. -/
def get (d : Directory F B) (f : F) : Option (List B) :=
  d.files.lookup f

/-- Removes a file. -/
def erase (d : Directory F B) (f : F) : Directory F B where
  files := d.files.filter fun x => x.1 ≠ f
  nodup := (List.filter_sublist.map Prod.fst).nodup d.nodup

/-- Creates or replaces a file. -/
def put (d : Directory F B) (f : F) (content : List B) : Directory F B where
  files := (f, content) :: (d.erase f).files
  nodup := by
    refine List.nodup_cons.mpr ⟨fun hm => ?_, (d.erase f).nodup⟩
    obtain ⟨x, hx, rfl⟩ := List.mem_map.mp hm
    simpa using (List.mem_filter.mp hx).2

/-- Moves a file over another, if it is there. -/
def rename (d : Directory F B) (a b : F) : Directory F B :=
  match d.get a with
  | some content => (d.erase a).put b content
  | none => d

variable {d : Directory F B} {f g : F} {content : List B}

/-- What is in a directory after a removal. -/
theorem get_erase : (d.erase f).get g = if g = f then none else d.get g := by
  obtain ⟨files, hn⟩ := d
  simp only [erase, get]
  clear hn
  induction files with
  | nil => simp
  | cons x files ih =>
      obtain ⟨k, v⟩ := x
      by_cases hk : k = f
      · rw [List.filter_cons_of_neg (by simpa using hk), ih, List.lookup_cons]
        split
        · rfl
        · next hg => rw [beq_false_of_ne fun heq => hg (heq.trans hk)]
      · rw [List.filter_cons_of_pos (by simpa using hk), List.lookup_cons, List.lookup_cons]
        by_cases hg : g = k
        · rw [hg, BEq.rfl, if_neg hk]
        · rw [beq_false_of_ne hg]
          exact ih

/-- What is in a directory after a file was put there. -/
theorem get_put : (d.put f content).get g = if g = f then some content else d.get g := by
  rw [get, put, List.lookup_cons]
  by_cases hg : g = f
  · rw [hg, BEq.rfl, if_pos rfl]
  · rw [beq_false_of_ne hg, if_neg hg]
    exact get_erase.trans (if_neg hg)

/-- The file that was put there. -/
@[simp] theorem get_put_self : (d.put f content).get f = some content := by
  rw [get_put, if_pos rfl]

/-- The other files stay as they are. -/
theorem get_put_of_ne (h : g ≠ f) : (d.put f content).get g = d.get g := by
  rw [get_put, if_neg h]

/-- A file that is removed is not there. -/
@[simp] theorem get_erase_self : (d.erase f).get f = none := by
  rw [get_erase, if_pos rfl]

/-- The other files stay as they are. -/
theorem get_erase_of_ne (h : g ≠ f) : (d.erase f).get g = d.get g := by
  rw [get_erase, if_neg h]

/-- A rename leaves the files alone that it does not name. -/
theorem get_rename_of_ne {a b : F} (ha : g ≠ a) (hb : g ≠ b) : (d.rename a b).get g = d.get g := by
  rw [rename]
  split
  · rw [get_put_of_ne hb, get_erase_of_ne ha]
  · rfl

/-- A file that is renamed has its content under the new name. -/
theorem get_rename {a b : F} (h : d.get a = some content) :
    (d.rename a b).get b = some content := by
  rw [rename, h]
  exact get_put_self

/-- The names of a directory are those of its files. -/
theorem mem_names : f ∈ d.names ↔ (d.get f).isSome = true := by
  rw [names, get, List.lookup_isSome_iff, List.mem_map]
  constructor
  · rintro ⟨x, hx, rfl⟩
    exact ⟨x, hx, BEq.rfl⟩
  · rintro ⟨x, hx, heq⟩
    exact ⟨x, hx, (eq_of_beq heq).symm⟩

end Directory

/-! ### Operations -/

/-- Why an operation failed. -/
inductive IoError where
  | notFound
  | other (text : String)
  deriving DecidableEq, Repr

/-- The operations. `openFile` creates a file that is missing; `writeAll` writes from the
beginning of a file that was opened; `tryLock` tells whether the lock was free. -/
inductive FileOp (F B : Type) where
  | read (f : F)
  | openFile (f : F) (truncate : Bool)
  | writeAll (f : F) (bytes : List B)
  | syncAll (f : F)
  | rename (a b : F)
  | removeFile (f : F)
  | syncDirectory
  | readDirectory
  | tryLock (f : F)
  | unlock (f : F)

/-- What an operation returns. -/
@[reducible] def FileOp.Result : FileOp F B → Type
  | .read _ => Except IoError (List B)
  | .readDirectory => Except IoError (List (Except IoError F))
  | .tryLock _ => Except IoError Bool
  | .unlock _ => Unit
  | _ => Except IoError Unit

/-- What the environment decides: whether an operation fails, with an error that is not about
a missing file, and how far it came. A directory is read in any order. -/
inductive FileAnswer (F : Type) where
  | done
  | fails (text : String) (extent : ℕ)
  | lists (entries : List (Except String F))

/-- A directory with the locks held on its files; `failures` counts the operations that
failed. -/
structure Disk (F B : Type) where
  directory : Directory F B
  locked : List F
  failures : ℕ

namespace Disk

/-- The directory changes. -/
def set (s : Disk F B) (d : Directory F B) : Disk F B := { s with directory := d }

/-- An operation has failed and left the directory like this. -/
def fail (s : Disk F B) (d : Directory F B) : Disk F B :=
  { s with directory := d, failures := s.failures + 1 }

variable [DecidableEq F]

/-- The content of a file. -/
def get (s : Disk F B) (f : F) : Option (List B) := s.directory.get f

/-- The directory with a file that was opened. -/
def opened (s : Disk F B) (f : F) (truncate : Bool) : Directory F B :=
  match s.get f with
  | some _ => if truncate then s.directory.put f [] else s.directory
  | none => s.directory.put f []

/-- The directory with the first bytes of a file written. -/
def written (s : Disk F B) (f : F) (bytes : List B) : Directory F B :=
  match s.get f with
  | some old => s.directory.put f (bytes ++ old.drop bytes.length)
  | none => s.directory

end Disk

/-- An operation without a result to speak of: what it does, and what it may have done when
it fails. -/
def simpleExec (s : Disk F B) (done : Except IoError Unit × Disk F B)
    (partly : ℕ → Directory F B) : FileAnswer F → Option (Except IoError Unit × Disk F B)
  | .done => some done
  | .fails text extent => some (.error (.other text), s.fail (partly extent))
  | .lists _ => none

/-- What happened already when an operation fails: nothing, or all. -/
def nothingOrAll (before after : Directory F B) : ℕ → Directory F B
  | 0 => before
  | _ => after

/-- The names among the entries of a listing. -/
def listed (entries : List (Except String F)) : List F :=
  entries.filterMap fun
    | .ok f => some f
    | .error _ => none

/-- A listing has an entry that could not be read, or it has every file once. -/
def fits [DecidableEq F] (entries : List (Except String F)) (s : Disk F B) : Bool :=
  entries.any (fun e => !e.isOk) || (listed entries).isPerm s.directory.names

/-- What the operations do. -/
def fileExec [DecidableEq F] : Prog.Exec (FileOp.Result (F := F) (B := B)) (FileAnswer F) (Disk F B)
  | .read f, .done, s =>
      some (match s.get f with | some bytes => .ok bytes | none => .error .notFound, s)
  | .read _, .fails text _, s => some (.error (.other text), s.fail s.directory)
  | .openFile f truncate, a, s =>
      simpleExec s (.ok (), s.set (s.opened f truncate))
        (nothingOrAll s.directory (s.opened f truncate)) a
  | .writeAll f bytes, a, s =>
      simpleExec s (.ok (), s.set (s.written f bytes)) (fun n => s.written f (bytes.take n)) a
  | .syncAll _, a, s => simpleExec s (.ok (), s) (fun _ => s.directory) a
  | .rename a b, answer, s =>
      simpleExec s
        (match s.get a with
          | some _ => (.ok (), s.set (s.directory.rename a b))
          | none => (.error .notFound, s))
        (nothingOrAll s.directory (s.directory.rename a b)) answer
  | .removeFile f, a, s =>
      simpleExec s
        (match s.get f with
          | some _ => (.ok (), s.set (s.directory.erase f))
          | none => (.error .notFound, s))
        (nothingOrAll s.directory (s.directory.erase f)) a
  | .syncDirectory, a, s => simpleExec s (.ok (), s) (fun _ => s.directory) a
  | .readDirectory, .fails text _, s => some (.error (.other text), s.fail s.directory)
  | .readDirectory, .lists entries, s =>
      if fits entries s then
        some (.ok (entries.map fun
          | .ok f => .ok f
          | .error text => .error (.other text)),
          if entries.any fun e => !e.isOk then s.fail s.directory else s)
      else none
  | .tryLock f, .done, s =>
      if f ∈ s.locked then some (.ok false, s)
      else some (.ok true, { s with locked := f :: s.locked })
  | .tryLock _, .fails text _, s => some (.error (.other text), s.fail s.directory)
  | .unlock f, .done, s => some ((), { s with locked := s.locked.erase f })
  | _, _, _ => none

/-! ### The rules -/

/-- A program of file operations. -/
abbrev FileCode (F B α : Type) :=
  Prog (FileOp.Result (F := F) (B := B)) α

/-- Performs an operation. -/
def perform (o : FileOp F B) : FileCode F B o.Result :=
  Prog.call o

/-- The operation is done, or it has failed half-way. -/
theorem of_simpleExec {s : Disk F B} {done : Except IoError Unit × Disk F B}
    {partly : ℕ → Directory F B} {a : FileAnswer F} {r : Except IoError Unit} {s' : Disk F B}
    (h : simpleExec s done partly a = some (r, s')) :
    done = (r, s') ∨ ∃ text n, r = .error (.other text) ∧ s' = s.fail (partly n) := by
  cases a with
  | done => exact .inl (Option.some.inj h)
  | fails text n =>
      obtain ⟨rfl, rfl⟩ := Prod.mk.inj (Option.some.inj h)
      exact .inr ⟨text, n, rfl, rfl⟩
  | lists => cases h

/-- What a crash leaves of an atomic operation is the state before or after it. -/
theorem nothingOrAll_eq (before after : Directory F B) (n : ℕ) :
    nothingOrAll before after n = before ∨ nothingOrAll before after n = after := by
  cases n with
  | zero => exact .inl rfl
  | succ n => exact .inr rfl

section

variable [DecidableEq F] {α : Type} {s : Disk F B} {f : F} {Q : α → Disk F B → Prop}

/-- **The rule for a read**: the content, no file, or a failure. -/
theorem wp_read {k : Except IoError (List B) → FileCode F B α}
    (hok : ∀ bytes, s.get f = some bytes → (k (.ok bytes)).wp fileExec Q s)
    (hnone : s.get f = none → (k (.error .notFound)).wp fileExec Q s)
    (hfail : ∀ text, (k (.error (.other text))).wp fileExec Q (s.fail s.directory)) :
    ((perform (.read f)).bind k).wp fileExec Q s := by
  intro a r s' he
  cases a with
  | done =>
      obtain ⟨rfl, rfl⟩ := Prod.mk.inj (Option.some.inj he)
      cases hg : s.get f with
      | some bytes => exact hok bytes hg
      | none => exact hnone hg
  | fails text n =>
      obtain ⟨rfl, rfl⟩ := Prod.mk.inj (Option.some.inj he)
      exact hfail text
  | lists => cases he

/-- **The rule for opening a file**, which may create or truncate it even when it fails. -/
theorem wp_openFile {truncate : Bool} {k : Except IoError Unit → FileCode F B α}
    (hok : (k (.ok ())).wp fileExec Q (s.set (s.opened f truncate)))
    (hfail : ∀ text d, d = s.directory ∨ d = s.opened f truncate →
      (k (.error (.other text))).wp fileExec Q (s.fail d)) :
    ((perform (.openFile f truncate)).bind k).wp fileExec Q s := by
  intro a r s' he
  rcases of_simpleExec he with heq | ⟨text, n, rfl, rfl⟩
  · obtain ⟨rfl, rfl⟩ := Prod.mk.inj heq
    exact hok
  · exact hfail text _ (nothingOrAll_eq _ _ n)

/-- **The rule for a write**, which may fail behind any part of the bytes. -/
theorem wp_writeAll {bytes : List B} {k : Except IoError Unit → FileCode F B α}
    (hok : (k (.ok ())).wp fileExec Q (s.set (s.written f bytes)))
    (hfail : ∀ text n,
      (k (.error (.other text))).wp fileExec Q (s.fail (s.written f (bytes.take n)))) :
    ((perform (.writeAll f bytes)).bind k).wp fileExec Q s := by
  intro a r s' he
  rcases of_simpleExec he with heq | ⟨text, n, rfl, rfl⟩
  · obtain ⟨rfl, rfl⟩ := Prod.mk.inj heq
    exact hok
  · exact hfail text n

/-- **The rule for the sync of a file.** -/
theorem wp_syncAll {k : Except IoError Unit → FileCode F B α}
    (hok : (k (.ok ())).wp fileExec Q s)
    (hfail : ∀ text, (k (.error (.other text))).wp fileExec Q (s.fail s.directory)) :
    ((perform (.syncAll f)).bind k).wp fileExec Q s := by
  intro a r s' he
  rcases of_simpleExec he with heq | ⟨text, n, rfl, rfl⟩
  · obtain ⟨rfl, rfl⟩ := Prod.mk.inj heq
    exact hok
  · exact hfail text

/-- **The rule for the sync of the directory.** -/
theorem wp_syncDirectory {k : Except IoError Unit → FileCode F B α}
    (hok : (k (.ok ())).wp fileExec Q s)
    (hfail : ∀ text, (k (.error (.other text))).wp fileExec Q (s.fail s.directory)) :
    ((perform .syncDirectory).bind k).wp fileExec Q s := by
  intro a r s' he
  rcases of_simpleExec he with heq | ⟨text, n, rfl, rfl⟩
  · obtain ⟨rfl, rfl⟩ := Prod.mk.inj heq
    exact hok
  · exact hfail text

/-- The rename of a file that is there. -/
theorem wp_rename {g : F} {bytes : List B} {k : Except IoError Unit → FileCode F B α}
    (hf : s.get f = some bytes)
    (hok : (k (.ok ())).wp fileExec Q (s.set (s.directory.rename f g)))
    (hfail : ∀ text d, d = s.directory ∨ d = s.directory.rename f g →
      (k (.error (.other text))).wp fileExec Q (s.fail d)) :
    ((perform (.rename f g)).bind k).wp fileExec Q s := by
  intro a r s' he
  rcases of_simpleExec he with heq | ⟨text, n, rfl, rfl⟩
  · rw [hf] at heq
    obtain ⟨rfl, rfl⟩ := Prod.mk.inj heq
    exact hok
  · exact hfail text _ (nothingOrAll_eq _ _ n)

/-- **The rule for a removal**, which may have happened when it fails. -/
theorem wp_removeFile {k : Except IoError Unit → FileCode F B α}
    (hok : (k (.ok ())).wp fileExec Q (s.set (s.directory.erase f)))
    (hnone : s.get f = none → (k (.error .notFound)).wp fileExec Q s)
    (hfail : ∀ text d, d = s.directory ∨ d = s.directory.erase f →
      (k (.error (.other text))).wp fileExec Q (s.fail d)) :
    ((perform (.removeFile f)).bind k).wp fileExec Q s := by
  intro a r s' he
  rcases of_simpleExec he with heq | ⟨text, n, rfl, rfl⟩
  · cases hg : s.get f with
    | some bytes =>
        rw [hg] at heq
        obtain ⟨rfl, rfl⟩ := Prod.mk.inj heq
        exact hok
    | none =>
        rw [hg] at heq
        obtain ⟨rfl, rfl⟩ := Prod.mk.inj heq
        exact hnone hg
  · exact hfail text _ (nothingOrAll_eq _ _ n)

/-- The listing has every file once, unless an entry could not be read. -/
theorem wp_readDirectory {k : Except IoError (List (Except IoError F)) → FileCode F B α}
    (hok : ∀ fs : List F, fs.Perm s.directory.names → (k (.ok (fs.map .ok))).wp fileExec Q s)
    (hentry : ∀ entries, (∃ e, .error e ∈ entries) →
      (k (.ok entries)).wp fileExec Q (s.fail s.directory))
    (hfail : ∀ text, (k (.error (.other text))).wp fileExec Q (s.fail s.directory)) :
    ((perform .readDirectory).bind k).wp fileExec Q s := by
  intro a r s' he
  cases a with
  | done => cases he
  | fails text n =>
      obtain ⟨rfl, rfl⟩ := Prod.mk.inj (Option.some.inj he)
      exact hfail text
  | lists entries =>
      rw [fileExec] at he
      split at he
      · next hfits =>
          obtain ⟨rfl, rfl⟩ := Prod.mk.inj (Option.some.inj he)
          cases hany : entries.any fun e => !e.isOk with
          | true =>
              rw [if_pos rfl]
              obtain ⟨e, hm, hbad⟩ := List.any_eq_true.mp hany
              cases e with
              | ok f => cases hbad
              | error text =>
                  exact hentry _ ⟨.other text, List.mem_map.mpr ⟨.error text, hm, rfl⟩⟩
          | false =>
              rw [if_neg Bool.false_ne_true]
              rw [fits, hany, Bool.false_or, List.isPerm_iff] at hfits
              have hmap : (entries.map fun
                    | .ok f => .ok f
                    | .error text => .error (.other text)) =
                  (listed entries).map (Except.ok : F → Except IoError F) := by
                clear hfits he
                induction entries with
                | nil => rfl
                | cons e entries ih =>
                    rw [List.any_cons, Bool.or_eq_false_iff] at hany
                    cases e with
                    | ok f => exact congrArg (Except.ok f :: ·) (ih hany.2)
                    | error text => cases hany.1
              rw [hmap]
              exact hok _ hfits
      · cases he

/-- **The rule for a lock**, which does not touch the directory. -/
theorem wp_tryLock {k : Except IoError Bool → FileCode F B α}
    (hok : ∀ free s', s'.directory = s.directory → s'.failures = s.failures →
      (k (.ok free)).wp fileExec Q s')
    (hfail : ∀ text, (k (.error (.other text))).wp fileExec Q (s.fail s.directory)) :
    ((perform (.tryLock f)).bind k).wp fileExec Q s := by
  intro a r s' he
  cases a with
  | done =>
      rw [fileExec] at he
      split at he
      · obtain ⟨rfl, rfl⟩ := Prod.mk.inj (Option.some.inj he)
        exact hok false _ rfl rfl
      · obtain ⟨rfl, rfl⟩ := Prod.mk.inj (Option.some.inj he)
        exact hok true _ rfl rfl
  | fails text n =>
      obtain ⟨rfl, rfl⟩ := Prod.mk.inj (Option.some.inj he)
      exact hfail text
  | lists => cases he

/-- **The rule for the release of a lock.** -/
theorem wp_unlock {k : Unit → FileCode F B α}
    (hok : ∀ s', s'.directory = s.directory → s'.failures = s.failures →
      (k ()).wp fileExec Q s') :
    ((perform (.unlock f)).bind k).wp fileExec Q s := by
  intro a r s' he
  cases a with
  | done =>
      obtain ⟨rfl, rfl⟩ := Prod.mk.inj (Option.some.inj he)
      exact hok _ rfl rfl
  | _ => cases he

end

end Shepherd.Fs
