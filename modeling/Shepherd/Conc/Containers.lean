import Mathlib.Data.Nat.Notation
import Mathlib.Tactic.Common

/-!
# Process Containers

What a kernel promises about groups of processes that it tracks itself (job objects, control
groups). A process is in at most one container, and a process that it forks is in the same one;
a container is terminated as a whole. A process can be created suspended, so that it is put in a
container before it runs. A termination is only begun by the call: the process executes nothing
more, but it is active in its container until it has ended.

A table of processes is a list, a process its index. `Contained held` says that what runs is in a
container, and that the containers of live processes are held. Every operation of the kernel
keeps it, `resume` under the condition that the process was assigned; and a container that has no
active process can be given up. `Doomed P` says that what is in some containers has ended or is
being terminated, as it is after a termination of them; then nothing is created in them either.
-/

namespace Shepherd.Conc

/-- How far a process is. -/
inductive Phase (ε : Type) where
  /-- Created, with no instruction executed. -/
  | suspended
  | running
  /-- Being terminated. -/
  | dying (exit : ε)
  | ended (exit : ε)
  deriving DecidableEq, Repr

namespace Phase

/-- A process has not ended. -/
def isLive {ε : Type} : Phase ε → Bool
  | .suspended | .running | .dying _ => true
  | .ended _ => false

/-- How a process has ended, or will. -/
def exit {ε : Type} : Phase ε → Option ε
  | .suspended | .running => none
  | .dying e | .ended e => some e

/-- A process that is not live has an exit. -/
theorem exit_ne_none {ε : Type} {phase : Phase ε} (h : phase.isLive = false) :
    phase.exit.isSome = true := by
  cases phase <;> simp_all [isLive, exit]

/-- A process without an exit is live. -/
theorem isLive_of_exit {ε : Type} {phase : Phase ε} (h : phase.exit = none) :
    phase.isLive = true := by
  cases phase <;> simp_all [isLive, exit]

end Phase

/-- A process of the kernel. -/
structure OsProc (κ ε : Type) where
  container : Option κ
  phase : Phase ε
  deriving DecidableEq, Repr

/-- The processes ever created, in order. -/
abbrev OsProcs (κ ε : Type) :=
  List (OsProc κ ε)

variable {κ ε : Type}

namespace OsProc

/-- The process ends, if it has not already; if it is being terminated, as it was to. -/
def finish (x : OsProc κ ε) (e : ε) : OsProc κ ε :=
  { x with phase := .ended (x.phase.exit.getD e) }

/-- The process is terminated, if it is not yet. -/
def doom (x : OsProc κ ε) (e : ε) : OsProc κ ε :=
  { x with
    phase := match x.phase with
      | .suspended | .running => .dying e
      | phase => phase }

/-- The process starts, if it is suspended. -/
def resume (x : OsProc κ ε) : OsProc κ ε :=
  { x with
    phase := match x.phase with
      | .suspended => .running
      | phase => phase }

/-- The process is in a container that meets `P`. -/
def isIn (x : OsProc κ ε) (P : κ → Bool) : Bool :=
  x.container.any P

/-- When a process is in a container of the kind. -/
theorem isIn_iff {x : OsProc κ ε} {P : κ → Bool} :
    x.isIn P = true ↔ ∃ k, x.container = some k ∧ P k = true := by
  rw [isIn, Option.any_eq_true]

/-- A process that ends is where it was. -/
@[simp] theorem finish_container (x : OsProc κ ε) (e : ε) : (x.finish e).container = x.container :=
  rfl

/-- A process whose termination begins is where it was. -/
@[simp] theorem doom_container (x : OsProc κ ε) (e : ε) : (x.doom e).container = x.container :=
  rfl

/-- A process that is resumed is where it was. -/
@[simp] theorem resume_container (x : OsProc κ ε) : x.resume.container = x.container :=
  rfl

/-- What ended has ended. -/
@[simp] theorem isLive_finish (x : OsProc κ ε) (e : ε) : (x.finish e).phase.isLive = false :=
  rfl

/-- A process that is being terminated has not ended. -/
@[simp] theorem isLive_doom (x : OsProc κ ε) (e : ε) :
    (x.doom e).phase.isLive = x.phase.isLive := by
  obtain ⟨container, phase⟩ := x
  cases phase <;> rfl

/-- How a process ends was settled when it was terminated. -/
@[simp] theorem exit_finish (x : OsProc κ ε) (e : ε) :
    (x.finish e).phase.exit = some (x.phase.exit.getD e) :=
  rfl

/-- The first exit that a process is doomed to is the one it gets. -/
@[simp] theorem exit_doom (x : OsProc κ ε) (e : ε) :
    (x.doom e).phase.exit = some (x.phase.exit.getD e) := by
  obtain ⟨container, phase⟩ := x
  cases phase <;> rfl

/-- A resume changes no exit. -/
@[simp] theorem exit_resume (x : OsProc κ ε) : x.resume.phase.exit = x.phase.exit := by
  obtain ⟨container, phase⟩ := x
  cases phase <;> rfl

/-- The exit of a process that ends or is terminated is the one that was settled, or the new
one. -/
theorem exit_cases {x : OsProc κ ε} {e e' : ε} (h : some (x.phase.exit.getD e) = some e') :
    x.phase.exit = some e' ∨ (x.phase.exit = none ∧ e' = e) := by
  cases hx : x.phase.exit with
  | none => exact .inr ⟨rfl, by simpa [hx] using h.symm⟩
  | some e₀ => exact .inl (by simpa [hx] using h)

/-- What has ended does not end again. -/
theorem finish_of_ended {x : OsProc κ ε} (h : x.phase.isLive = false) (e : ε) : x.finish e = x := by
  obtain ⟨container, phase⟩ := x
  cases phase with
  | ended e₀ => rfl
  | _ => cases h

/-- What has ended or is being terminated is not terminated again. -/
theorem doom_of_exit {x : OsProc κ ε} (h : x.phase.exit.isSome = true) (e : ε) : x.doom e = x := by
  obtain ⟨container, phase⟩ := x
  cases phase with
  | dying e₀ => rfl
  | ended e₀ => rfl
  | _ => cases h

/-- Only a suspended process is changed by a start. -/
theorem resume_phase {x : OsProc κ ε} (h : x.phase ≠ .suspended) : x.resume = x := by
  obtain ⟨container, phase⟩ := x
  cases phase with
  | suspended => exact absurd rfl h
  | _ => rfl

/-- A resume ends no process. -/
theorem isLive_resume (x : OsProc κ ε) : x.resume.phase.isLive = x.phase.isLive := by
  obtain ⟨container, phase⟩ := x
  cases phase <;> rfl

/-- A process that is being terminated does not run. -/
theorem not_running {x : OsProc κ ε} (h : x.phase.exit.isSome = true) : x.phase ≠ .running := by
  intro hr
  rw [hr] at h
  cases h

end OsProc

namespace OsProcs

/-- A process is created suspended, in no container. -/
def create (ps : OsProcs κ ε) : OsProcs κ ε :=
  ps ++ [⟨none, .suspended⟩]

/-- A running process forks. -/
def fork (ps : OsProcs κ ε) (parent : ℕ) : Option (OsProcs κ ε) :=
  match ps[parent]? with
  | some ⟨container, .running⟩ => some (ps ++ [⟨container, .running⟩])
  | _ => none

/-- A process is put in a container. -/
def assign (ps : OsProcs κ ε) (p : ℕ) (k : κ) : OsProcs κ ε :=
  ps.modify p fun x => { x with container := some k }

/-- A process starts. -/
def resume (ps : OsProcs κ ε) (p : ℕ) : OsProcs κ ε :=
  ps.modify p OsProc.resume

/-- A process ends. -/
def finish (ps : OsProcs κ ε) (p : ℕ) (e : ε) : OsProcs κ ε :=
  ps.modify p fun x => x.finish e

/-- A process is terminated. -/
def doom (ps : OsProcs κ ε) (p : ℕ) (e : ε) : OsProcs κ ε :=
  ps.modify p fun x => x.doom e

/-- The processes in containers that meet `P` are terminated. -/
def terminate (ps : OsProcs κ ε) (P : κ → Bool) (e : ε) : OsProcs κ ε :=
  ps.map fun x => if x.isIn P then x.doom e else x

/-- The number of active processes in containers that meet `P`. -/
def active (ps : OsProcs κ ε) (P : κ → Bool) : ℕ :=
  ps.countP fun x => x.isIn P && x.phase.isLive

variable {ps ps' : OsProcs κ ε} {x y : OsProc κ ε} {p q parent : ℕ} {k : κ} {e : ε} {P : κ → Bool}

/-! ### One process of the table -/

/-- The table after a creation. -/
theorem getElem?_create (ps : OsProcs κ ε) (p : ℕ) :
    (ps.create)[p]? = if p = ps.length then some ⟨none, .suspended⟩ else ps[p]? := by
  rw [create, List.getElem?_append]
  rcases Nat.lt_trichotomy p ps.length with hlt | heq | hgt
  · rw [if_pos hlt, if_neg (Nat.ne_of_lt hlt)]
  · simp [heq]
  · rw [if_neg (by omega), if_neg (by omega), List.getElem?_eq_none (by simp; omega),
      List.getElem?_eq_none (by omega)]

/-- **What a fork does**: a running process has a child in its container. -/
theorem fork_eq (h : ps.fork parent = some ps') :
    ∃ container, ps[parent]? = some ⟨container, .running⟩ ∧
      ps' = ps ++ [⟨container, .running⟩] := by
  unfold fork at h
  split at h
  · next container hp =>
      obtain rfl := Option.some.inj h
      exact ⟨container, hp, rfl⟩
  · cases h

/-- A fork leaves the other processes alone. -/
theorem getElem?_fork (h : ps.fork parent = some ps') (hp : p < ps.length) : ps'[p]? = ps[p]? := by
  obtain ⟨container, -, rfl⟩ := fork_eq h
  exact List.getElem?_append_left hp

/-- A fork changes no process that was there. -/
theorem getElem?_of_fork (h : ps.fork parent = some ps') (hp : ps[p]? = some x) :
    ps'[p]? = some x := by
  rw [getElem?_fork h (List.getElem?_eq_some_iff.mp hp).1, hp]

/-- A process that is put into a container. -/
theorem getElem?_assign_self (h : ps[p]? = some x) :
    (ps.assign p k)[p]? = some { x with container := some k } := by
  simp [assign, h]

/-- The other processes stay where they are. -/
theorem getElem?_assign_of_ne (h : p ≠ q) : (ps.assign p k)[q]? = ps[q]? := by
  simp [assign, List.getElem?_modify_ne, h]

/-- The table after a resume. -/
theorem getElem?_resume (ps : OsProcs κ ε) (p q : ℕ) :
    (ps.resume p)[q]? = ps[q]?.map fun x => if p = q then x.resume else x := by
  rw [resume, List.getElem?_modify]
  split <;> simp

/-- The table after an end. -/
theorem getElem?_finish (ps : OsProcs κ ε) (p q : ℕ) (e : ε) :
    (ps.finish p e)[q]? = ps[q]?.map fun x => if p = q then x.finish e else x := by
  rw [finish, List.getElem?_modify]
  split <;> simp

/-- The table after the termination of one process has begun. -/
theorem getElem?_doom (ps : OsProcs κ ε) (p q : ℕ) (e : ε) :
    (ps.doom p e)[q]? = ps[q]?.map fun x => if p = q then x.doom e else x := by
  rw [doom, List.getElem?_modify]
  split <;> simp

/-- The table after the termination of containers has begun: what is in them is doomed. -/
theorem getElem?_terminate (ps : OsProcs κ ε) (P : κ → Bool) (e : ε) (p : ℕ) :
    (ps.terminate P e)[p]? = ps[p]?.map fun x => if x.isIn P then x.doom e else x :=
  List.getElem?_map ..

/-! ### Later tables -/

/-- No process is gone, none has left its container for none, and how one ends stays settled. -/
def Grows (ps ps' : OsProcs κ ε) : Prop :=
  ∀ (p : ℕ) (x : OsProc κ ε), ps[p]? = some x → ∃ x', ps'[p]? = some x' ∧
    (x.container.isSome = true → x'.container.isSome = true) ∧
    ∀ e, x.phase.exit = some e → x'.phase.exit = some e

/-- A table has grown into itself. -/
theorem Grows.refl (ps : OsProcs κ ε) : Grows ps ps :=
  fun _ x hp => ⟨x, hp, id, fun _ => id⟩

/-- A table grows step by step. -/
theorem Grows.trans {ps'' : OsProcs κ ε} (h : Grows ps ps') (h' : Grows ps' ps'') :
    Grows ps ps'' := by
  intro p x hp
  obtain ⟨x', hp', hc, he⟩ := h p x hp
  obtain ⟨x'', hp'', hc', he'⟩ := h' p x' hp'
  exact ⟨x'', hp'', hc' ∘ hc, fun e => he' e ∘ he e⟩

/-- A table grows by a creation. -/
theorem Grows.create (ps : OsProcs κ ε) : Grows ps ps.create := by
  intro p x hp
  refine ⟨x, ?_, id, fun _ => id⟩
  rw [getElem?_create, if_neg (Nat.ne_of_lt (List.getElem?_eq_some_iff.mp hp).1), hp]

/-- A table grows by a fork. -/
theorem Grows.fork (h : ps.fork parent = some ps') : Grows ps ps' :=
  fun _ x hp => ⟨x, getElem?_of_fork h hp, id, fun _ => id⟩

/-- An assignment takes no process out of all containers. -/
theorem Grows.assign (ps : OsProcs κ ε) (p : ℕ) (k : κ) : Grows ps (ps.assign p k) := by
  intro q x hq
  by_cases h : p = q
  · subst h
    exact ⟨_, getElem?_assign_self hq, fun _ => rfl, fun _ => id⟩
  · exact ⟨x, (getElem?_assign_of_ne h).trans hq, id, fun _ => id⟩

/-- A resume leaves an exit that is settled. -/
theorem Grows.resume (ps : OsProcs κ ε) (p : ℕ) : Grows ps (ps.resume p) := by
  intro q x hq
  refine ⟨_, by rw [getElem?_resume, hq]; rfl, ?_⟩
  split
  · exact ⟨id, fun e he => (x.exit_resume).trans he⟩
  · exact ⟨id, fun _ => id⟩

/-- A process that was doomed ends as it was doomed to. -/
theorem Grows.finish (ps : OsProcs κ ε) (p : ℕ) (e : ε) : Grows ps (ps.finish p e) := by
  intro q x hq
  refine ⟨_, by rw [getElem?_finish, hq]; rfl, ?_⟩
  split
  · exact ⟨id, fun e' he' => by simp [he']⟩
  · exact ⟨id, fun _ => id⟩

/-- A process is doomed once. -/
theorem Grows.doom (ps : OsProcs κ ε) (p : ℕ) (e : ε) : Grows ps (ps.doom p e) := by
  intro q x hq
  refine ⟨_, by rw [getElem?_doom, hq]; rfl, ?_⟩
  split
  · exact ⟨id, fun e' he' => by simp [he']⟩
  · exact ⟨id, fun _ => id⟩

/-- A termination of containers dooms what was not doomed yet. -/
theorem Grows.terminate (ps : OsProcs κ ε) (P : κ → Bool) (e : ε) :
    Grows ps (ps.terminate P e) := by
  intro q x hq
  refine ⟨if x.isIn P then x.doom e else x, by rw [getElem?_terminate, hq, Option.map_some], ?_⟩
  split
  · exact ⟨id, fun e' he' => by simp [he']⟩
  · exact ⟨id, fun _ => id⟩

/-- **What is being terminated never runs again.** -/
theorem Grows.not_running (h : Grows ps ps') (hp : ps[p]? = some x)
    (he : x.phase.exit.isSome = true) : ∃ x', ps'[p]? = some x' ∧ x'.phase ≠ .running := by
  obtain ⟨e, he⟩ := Option.isSome_iff_exists.mp he
  obtain ⟨x', hp', -, he'⟩ := h p x hp
  exact ⟨x', hp', OsProc.not_running (by rw [he' e he]; rfl)⟩

/-! ### Containment -/

/-- What runs is in a container, and the containers of live processes are held. -/
structure Contained (held : κ → Prop) (ps : OsProcs κ ε) : Prop where
  inside : ∀ (p : ℕ) (x : OsProc κ ε), ps[p]? = some x → x.phase = .running → x.container.isSome
  held : ∀ (p : ℕ) (x : OsProc κ ε) (k : κ), ps[p]? = some x → x.phase.isLive = true →
    x.container = some k → held k

variable {held held' : κ → Prop}

/-- An empty table is contained. -/
theorem contained_nil : Contained held ([] : OsProcs κ ε) where
  inside _ _ h := by simp at h
  held _ _ _ h := by simp at h

/-- **What runs is in a container that is held.** -/
theorem Contained.running (h : Contained held ps) (hp : ps[p]? = some x)
    (hr : x.phase = .running) : ∃ k, x.container = some k ∧ held k := by
  obtain ⟨k, hk⟩ := Option.isSome_iff_exists.mp (h.inside p x hp hr)
  exact ⟨k, hk, h.held p x k hp (by rw [hr]; rfl) hk⟩

/-- More containers may be held. -/
theorem Contained.mono (h : Contained held ps) (hh : ∀ k, held k → held' k) :
    Contained held' ps where
  inside := h.inside
  held p x k hp hl hk := hh k (h.held p x k hp hl hk)

/-- A process that is created is suspended, so it need not be contained. -/
theorem Contained.create (h : Contained held ps) : Contained held ps.create where
  inside p x hp hr := by
    rw [getElem?_create] at hp
    split at hp
    · obtain rfl := Option.some.inj hp
      cases hr
    · exact h.inside p x hp hr
  held p x k hp hl hk := by
    rw [getElem?_create] at hp
    split at hp
    · obtain rfl := Option.some.inj hp
      cases hk
    · exact h.held p x k hp hl hk

/-- **A fork stays inside.** -/
theorem Contained.fork (h : Contained held ps) (hf : ps.fork parent = some ps') :
    Contained held ps' := by
  obtain ⟨container, hparent, rfl⟩ := fork_eq hf
  have hnew : ∀ (p : ℕ) (x : OsProc κ ε), (ps ++ [⟨container, .running⟩])[p]? = some x →
      ps[p]? = some x ∨ x = ⟨container, .running⟩ := by
    intro p x hp
    rw [List.getElem?_append] at hp
    split at hp
    · exact .inl hp
    · rw [List.getElem?_singleton] at hp
      split at hp
      · exact .inr (Option.some.inj hp).symm
      · cases hp
  refine { inside := fun p x hp hr => ?_, held := fun p x k hp hl hk => ?_ }
  · rcases hnew p x hp with hp | rfl
    · exact h.inside p x hp hr
    · exact h.inside parent _ hparent rfl
  · rcases hnew p x hp with hp | rfl
    · exact h.held p x k hp hl hk
    · exact h.held parent _ k hparent rfl hk

/-- An operation on one process keeps what holds of the others. -/
theorem Contained.modify {f : OsProc κ ε → OsProc κ ε} (h : Contained held ps)
    (hi : ∀ x, ps[p]? = some x → (f x).phase = .running → (f x).container.isSome)
    (hh : ∀ x k, ps[p]? = some x → (f x).phase.isLive = true → (f x).container = some k → held k) :
    Contained held (ps.modify p f) := by
  have hnew : ∀ (q : ℕ) (y : OsProc κ ε), (ps.modify p f)[q]? = some y →
      ps[q]? = some y ∨ ∃ x, ps[p]? = some x ∧ y = f x := by
    intro q y hq
    rw [List.getElem?_modify] at hq
    split at hq
    · next heq =>
        subst heq
        obtain ⟨x, hx, rfl⟩ := Option.map_eq_some_iff.mp hq
        exact .inr ⟨x, hx, rfl⟩
    · exact .inl (by simpa using hq)
  refine { inside := fun q y hq hr => ?_, held := fun q y k hq hl hk => ?_ }
  · rcases hnew q y hq with hq | ⟨x, hx, rfl⟩
    · exact h.inside q y hq hr
    · exact hi x hx hr
  · rcases hnew q y hq with hq | ⟨x, hx, rfl⟩
    · exact h.held q y k hq hl hk
    · exact hh x k hx hl hk

/-- A process may be put into a container that is held. -/
theorem Contained.assign (h : Contained held ps) (hk : held k) : Contained held (ps.assign p k) :=
  h.modify (fun _ _ _ => rfl) fun _ _ _ _ heq => Option.some.inj heq ▸ hk

/-- **A process that starts was assigned.** -/
theorem Contained.resume (h : Contained held ps)
    (ha : ∀ x, ps[p]? = some x → x.container.isSome) : Contained held (ps.resume p) :=
  h.modify (fun x hx _ => ha x hx) fun x k hx hl hk =>
    h.held p x k hx (x.isLive_resume ▸ hl) hk

/-- A process that has ended need not be contained. -/
theorem Contained.finish (h : Contained held ps) : Contained held (ps.finish p e) := by
  refine h.modify (fun x _ hr => ?_) fun x _ _ hl _ => ?_
  · cases hr
  · cases hl

/-- A process that is being terminated is contained as it was. -/
theorem Contained.doom (h : Contained held ps) : Contained held (ps.doom p e) :=
  h.modify (fun x _ hr => absurd hr (OsProc.not_running (by simp))) fun x k hx hl hk =>
    h.held p x k hx (x.isLive_doom e ▸ hl) hk

/-- The termination of containers moves nothing out of them. -/
theorem Contained.terminate (h : Contained held ps) : Contained held (ps.terminate P e) where
  inside p y hp hr := by
    rw [getElem?_terminate] at hp
    obtain ⟨x, hx, rfl⟩ := Option.map_eq_some_iff.mp hp
    split at hr
    · exact absurd hr (OsProc.not_running (by simp))
    · next hin =>
        rw [if_neg hin]
        exact h.inside p x hx hr
  held p y k hp hl hk := by
    rw [getElem?_terminate] at hp
    obtain ⟨x, hx, rfl⟩ := Option.map_eq_some_iff.mp hp
    split at hl
    · next hin =>
        rw [if_pos hin] at hk
        exact h.held p x k hx (x.isLive_doom e ▸ hl) hk
    · next hin =>
        rw [if_neg hin] at hk
        exact h.held p x k hx hl hk

/-! ### Active processes -/

/-- Nothing is active in the containers exactly if whatever is in them has ended. -/
theorem active_eq_zero : ps.active P = 0 ↔
    ∀ (p : ℕ) (x : OsProc κ ε), ps[p]? = some x → x.isIn P = true → x.phase.isLive = false := by
  rw [active, List.countP_eq_zero]
  refine ⟨fun h p x hp hin => ?_, fun h x hx => ?_⟩
  · have := h x (List.mem_of_getElem? hp)
    simpa [hin] using this
  · obtain ⟨p, hp⟩ := List.mem_iff_getElem?.mp hx
    have := h p x hp
    simp only [Bool.and_eq_true, not_and, Bool.not_eq_true]
    exact this

/-- **A container with no active process can be given up.** -/
theorem Contained.release (h : Contained held ps) (ha : ps.active P = 0)
    (hh : ∀ k, held k → P k = false → held' k) : Contained held' ps where
  inside := h.inside
  held p x k hp hl hk := by
    refine hh k (h.held p x k hp hl hk) ?_
    rw [← Bool.not_eq_true]
    intro hP
    have := active_eq_zero.mp ha p x hp (by simp [OsProc.isIn, hk, hP])
    rw [hl] at this
    cases this

/-- A container with no active process stays so: a fork needs a process that runs. -/
theorem active_fork (ha : ps.active P = 0) (hf : ps.fork parent = some ps') :
    ps'.active P = 0 := by
  obtain ⟨container, hparent, rfl⟩ := fork_eq hf
  have hin : OsProc.isIn (⟨container, .running⟩ : OsProc κ ε) P = false := by
    rw [← Bool.not_eq_true]
    intro hin
    cases active_eq_zero.mp ha parent _ hparent hin
  rw [active] at ha
  rw [active, List.countP_append, List.countP_singleton, ha, hin]
  rfl

/-- A new process is in no container. -/
theorem active_create (ha : ps.active P = 0) : ps.create.active P = 0 := by
  rw [active] at ha
  rw [active, create, List.countP_append, List.countP_singleton, ha]
  rfl

/-- An end makes nothing active. -/
theorem active_finish (ha : ps.active P = 0) : (ps.finish p e).active P = 0 := by
  rw [active_eq_zero] at ha ⊢
  intro q y hq hin
  rw [getElem?_finish] at hq
  obtain ⟨x, hx, rfl⟩ := Option.map_eq_some_iff.mp hq
  split
  · exact OsProc.isLive_finish x e
  · next hne =>
      rw [if_neg hne] at hin
      exact ha q x hx hin

/-- A termination makes nothing active. -/
theorem active_doom (ha : ps.active P = 0) : (ps.doom p e).active P = 0 := by
  rw [active_eq_zero] at ha ⊢
  intro q y hq hin
  rw [getElem?_doom] at hq
  obtain ⟨x, hx, rfl⟩ := Option.map_eq_some_iff.mp hq
  split
  · next heq =>
      rw [if_pos heq] at hin
      exact (x.isLive_doom e).trans (ha q x hx hin)
  · next hne =>
      rw [if_neg hne] at hin
      exact ha q x hx hin

/-! ### Terminated containers -/

/-- What is in containers that meet `P` has ended or is being terminated. -/
def Doomed (ps : OsProcs κ ε) (P : κ → Bool) : Prop :=
  ∀ (p : ℕ) (x : OsProc κ ε), ps[p]? = some x → x.isIn P = true → x.phase.exit.isSome = true

/-- **A container that was terminated is doomed.** -/
theorem doomed_terminate (ps : OsProcs κ ε) (P : κ → Bool) (e : ε) :
    (ps.terminate P e).Doomed P := by
  intro p y hp hin
  rw [getElem?_terminate] at hp
  obtain ⟨x, -, rfl⟩ := Option.map_eq_some_iff.mp hp
  split at hin
  · next h => simp [h]
  · next h => exact absurd hin h

/-- Nothing runs when all containers that are held are doomed. -/
theorem Contained.stopped (h : Contained held ps) (hh : ∀ k, held k → P k = true)
    (hd : ps.Doomed P) (hp : ps[p]? = some x) : x.phase ≠ .running := by
  intro hr
  obtain ⟨k, hk, hheld⟩ := h.running hp hr
  exact OsProc.not_running (hd p x hp (OsProc.isIn_iff.mpr ⟨k, hk, hh k hheld⟩)) hr

/-- **A doomed container stays so**: a fork needs a process that runs. -/
theorem Doomed.fork (hd : ps.Doomed P) (hf : ps.fork parent = some ps') : ps'.Doomed P := by
  obtain ⟨container, hparent, rfl⟩ := fork_eq hf
  intro p x hp hin
  rw [List.getElem?_append] at hp
  split at hp
  · exact hd p x hp hin
  · rw [List.getElem?_singleton] at hp
    split at hp
    · obtain rfl := Option.some.inj hp
      cases hd parent _ hparent hin
    · cases hp

/-- A new process is in no container, so it need not be doomed. -/
theorem Doomed.create (hd : ps.Doomed P) : ps.create.Doomed P := by
  intro p x hp hin
  rw [getElem?_create] at hp
  split at hp
  · obtain rfl := Option.some.inj hp
    cases hin
  · exact hd p x hp hin

/-- What is doomed may end. -/
theorem Doomed.finish (hd : ps.Doomed P) : (ps.finish p e).Doomed P := by
  intro q y hq hin
  rw [getElem?_finish] at hq
  obtain ⟨x, hx, rfl⟩ := Option.map_eq_some_iff.mp hq
  split
  · rfl
  · next hne =>
      rw [if_neg hne] at hin
      exact hd q x hx hin

/-- What is doomed stays so when another termination begins. -/
theorem Doomed.doom (hd : ps.Doomed P) : (ps.doom p e).Doomed P := by
  intro q y hq hin
  rw [getElem?_doom] at hq
  obtain ⟨x, hx, rfl⟩ := Option.map_eq_some_iff.mp hq
  split
  · simp
  · next hne =>
      rw [if_neg hne] at hin
      exact hd q x hx hin

end OsProcs

end Shepherd.Conc
