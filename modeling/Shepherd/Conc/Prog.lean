import Mathlib.Data.Nat.Notation
import Mathlib.Logic.Function.Basic
import Mathlib.Tactic.Common

/-!
# Concurrent Programs

A small calculus of tasks that share state. A program is a finite tree of **atomic
operations**: a node names an operation and continues with its result. A machine gives the
operations their meaning on the shared state, with the choices the environment makes
(results of outside calls, timers, which of several ready futures is taken) passed as an
explicit answer, so that a schedule is a list of labels and a run can be evaluated.

* `Prog` — programs, with the monad structure that lets code be written in `do` notation.
* `Task` — a program together with what runs when its future is dropped.
* `Machine` — atomic operations, spawned tasks, await points, entry points.
* `Config.step` — one step: a task executes its next operation, a droppable task is
  dropped at an await point, or the environment starts a new call.
* `Machine.Reachable` and `Machine.ReachableUnder` — the configurations of all runs, and
  of the runs whose steps all meet a condition.

A task returns in the step of its last operation: what a task computes after its last
access to the shared state is not visible to anybody before it returns.
-/

namespace Shepherd.Conc

/-- A task identifier. -/
abbrev Tid := ℕ

/-- A program over operations `Op` with results `Res`, returning `α`. -/
inductive Prog {Op : Type} (Res : Op → Type) (α : Type) where
  | pure (a : α)
  | op (o : Op) (k : Res o → Prog Res α)

namespace Prog

variable {Op : Type} {Res : Op → Type} {α β : Type}

/-- Sequencing. -/
def bind : Prog Res α → (α → Prog Res β) → Prog Res β
  | .pure a, f => f a
  | .op o k, f => .op o fun r => (k r).bind f

instance : Monad (Prog Res) where
  pure := .pure
  bind := .bind

/-- The program of a single operation. -/
def call (o : Op) : Prog Res (Res o) :=
  .op o .pure

/-- The `pure` of the monad is a program without operations. -/
@[simp] theorem pure_eq (a : α) : (Pure.pure a : Prog Res α) = .pure a := rfl

/-- The bind of the monad is the one of programs. -/
@[simp] theorem bind_eq (p : Prog Res α) (f : α → Prog Res β) : (p >>= f) = p.bind f := rfl

/-- A program that is over goes on with its value. -/
@[simp] theorem pure_bind (a : α) (f : α → Prog Res β) : (Prog.pure a).bind f = f a := rfl

/-- What follows a program follows each of its continuations. -/
@[simp] theorem op_bind (o : Op) (k : Res o → Prog Res α) (f : α → Prog Res β) :
    (Prog.op o k).bind f = .op o fun r => (k r).bind f := rfl

end Prog

/-- A task: the program it still has to run, and the program that runs instead when its
future is dropped at an await point; `none` for a task nobody can drop. -/
structure Task {Op : Type} (Res : Op → Type) (Ret : Type) where
  prog : Prog Res Ret
  unwind : Option (Prog Res Ret)

/-- A machine over shared states `St`. The environment's answers are of type `Ans` and the
calls it can start of type `Call`. -/
structure Machine {Op : Type} (Res : Op → Type) (Ret St Ans Call : Type) where
  /-- One atomic operation of a task; `none` when the operation is blocked, or when the
  answer is not one the operation can get. -/
  exec : Tid → (o : Op) → Ans → St → Option (Res o × St)
  /-- The task an operation spawns. -/
  spawn : (o : Op) → Res o → Option (Task Res Ret)
  /-- Whether a task suspends at the operation, so that it can be dropped there. -/
  awaits : Op → Bool
  /-- The return of a task. -/
  finish : Tid → Ret → St → St
  /-- The task of a call. -/
  entry : Call → Task Res Ret
  /-- The start of a call. -/
  enter : St → St
  /-- The identifier the next task gets. -/
  next : St → Tid
  next_exec : ∀ {t o a s r s'}, exec t o a s = some (r, s') →
    next s' = next s + (spawn o r).toList.length
  next_finish : ∀ t v s, next (finish t v s) = next s
  next_enter : ∀ s, next (enter s) = next s + 1

/-- What the environment lets happen next. -/
inductive Label (Ans Call : Type) where
  | run (t : Tid) (a : Ans)
  | drop (t : Tid)
  | start (call : Call)

/-- The shared state and the tasks. -/
structure Config {Op : Type} (Res : Op → Type) (Ret St : Type) where
  shared : St
  tasks : Tid → Option (Task Res Ret)

/-- Adds a spawned task under the identifier `n`. -/
def Config.add {Op : Type} {Res : Op → Type} {Ret St : Type} (n : Tid)
    (task : Option (Task Res Ret)) (c : Config Res Ret St) : Config Res Ret St :=
  match task with
  | some task => ⟨c.shared, Function.update c.tasks n (some task)⟩
  | none => c

/-- What a recorder of a task's operations remembers after a step. -/
def Config.record {Op : Type} {Res : Op → Type} {Ret St Ans Call X : Type}
    (c : Config Res Ret St) (update : Op → Ans → St → X → X) (t : Tid) (l : Label Ans Call)
    (x : X) : X :=
  match l with
  | .run t' a =>
      if t' = t then
        match c.tasks t with
        | some ⟨.op o _, _⟩ => update o a c.shared x
        | _ => x
      else x
  | _ => x

namespace Machine

variable {Op : Type} {Res : Op → Type} {Ret St Ans Call : Type}
variable (M : Machine Res Ret St Ans Call)

/-- Puts a task back after an operation; a task whose program is over returns. -/
def settle (t : Tid) (u : Option (Prog Res Ret)) (p : Prog Res Ret)
    (c : Config Res Ret St) : Config Res Ret St :=
  match p with
  | .pure v => ⟨M.finish t v c.shared, Function.update c.tasks t none⟩
  | .op o k => ⟨c.shared, Function.update c.tasks t (some ⟨.op o k, u⟩)⟩

/-- One step of the machine. -/
def step (c : Config Res Ret St) : Label Ans Call → Option (Config Res Ret St)
  | .run t a =>
      match c.tasks t with
      | some ⟨.op o k, u⟩ =>
          match M.exec t o a c.shared with
          | some (r, s') =>
              some (M.settle t u (k r)
                (Config.add (M.next c.shared) (M.spawn o r) ⟨s', c.tasks⟩))
          | none => none
      | _ => none
  | .drop t =>
      match c.tasks t with
      | some ⟨.op o _, some p⟩ =>
          if M.awaits o then
            some ⟨c.shared, Function.update c.tasks t (some ⟨p, none⟩)⟩
          else none
      | _ => none
  | .start call =>
      some ⟨M.enter c.shared,
        Function.update c.tasks (M.next c.shared) (some (M.entry call))⟩

/-- What a step does to the shared state, and to the task that takes it. -/
inductive Shared (c c' : Config Res Ret St) : Label Ans Call → Prop
  | run {t : Tid} {a : Ans} {o : Op} {k : Res o → Prog Res Ret} {u : Option (Prog Res Ret)}
      {r : Res o} {s' : St} (task : c.tasks t = some ⟨.op o k, u⟩)
      (exec : M.exec t o a c.shared = some (r, s'))
      (shared : (∃ o' k', k r = .op o' k' ∧ c'.shared = s' ∧ c'.tasks t = some ⟨k r, u⟩) ∨
        ∃ v, k r = .pure v ∧ c'.shared = M.finish t v s' ∧ c'.tasks t = none) :
      Shared c c' (.run t a)
  | drop {t : Tid} {o : Op} {k : Res o → Prog Res Ret} {p : Prog Res Ret}
      (task : c.tasks t = some ⟨.op o k, some p⟩) (awaits : M.awaits o = true)
      (shared : c'.shared = c.shared) (unwinds : c'.tasks t = some ⟨p, none⟩) :
      Shared c c' (.drop t)
  | start {call : Call} (shared : c'.shared = M.enter c.shared)
      (entry : c'.tasks (M.next c.shared) = some (M.entry call)) : Shared c c' (.start call)

/-- A step executes an operation, and may end the task; the other steps at most take an
identifier. -/
theorem step_shared {c c' : Config Res Ret St} {l : Label Ans Call}
    (hs : M.step c l = some c') : M.Shared c c' l := by
  cases l with
  | run t a =>
      simp only [Machine.step] at hs
      split at hs
      case h_2 => cases hs
      next o k u htask =>
      split at hs
      case h_2 => cases hs
      next r s' hexec =>
      obtain rfl := Option.some.inj hs
      have hadd : (Config.add (M.next c.shared) (M.spawn o r)
          ⟨s', c.tasks⟩ : Config Res Ret St).shared = s' := by
        cases M.spawn o r <;> rfl
      refine .run htask hexec ?_
      cases hk : k r with
      | pure v =>
          simp only [Machine.settle, hadd]
          exact .inr ⟨v, rfl, rfl, Function.update_self ..⟩
      | op o' k' =>
          simp only [Machine.settle, hadd]
          exact .inl ⟨o', k', rfl, trivial, Function.update_self ..⟩
  | drop t =>
      simp only [Machine.step] at hs
      split at hs
      case h_2 => cases hs
      next htask =>
      split at hs
      case isFalse => cases hs
      next haw =>
      obtain rfl := Option.some.inj hs
      exact .drop htask haw rfl (Function.update_self ..)
  | start call =>
      obtain rfl := Option.some.inj hs
      exact .start rfl (Function.update_self ..)

/-- Identifiers are not given back. -/
theorem step_next {c c' : Config Res Ret St} {l : Label Ans Call} (hs : M.step c l = some c') :
    M.next c.shared ≤ M.next c'.shared := by
  cases M.step_shared hs with
  | run _ hexec hsh =>
      have hle := Nat.le_trans (Nat.le_add_right _ _) (Nat.le_of_eq (M.next_exec hexec).symm)
      rcases hsh with ⟨_, _, -, hsh, -⟩ | ⟨_, -, hsh, -⟩
      · exact hsh ▸ hle
      · rw [hsh, M.next_finish]
        exact hle
  | drop _ _ hsh => exact hsh ▸ Nat.le_refl _
  | start hsh =>
      rw [hsh, M.next_enter]
      exact Nat.le_succ _

/-- Whether the label moves the task. -/
def moves {Ans Call : Type} (t : Tid) : Label Ans Call → Prop
  | .run t' _ | .drop t' => t' = t
  | .start _ => False

/-- A step of another task leaves a task alone. -/
theorem step_tasks {c c' : Config Res Ret St} {l : Label Ans Call} {t : Tid}
    (hs : M.step c l = some c') (hl : ¬ moves t l) (ht : t ≠ M.next c.shared) :
    c'.tasks t = c.tasks t := by
  cases l with
  | run t' a =>
      have hne : t ≠ t' := fun h => hl h.symm
      simp only [Machine.step] at hs
      split at hs
      case h_2 => cases hs
      next o k u htask =>
      split at hs
      case h_2 => cases hs
      next r s' hexec =>
      obtain rfl := Option.some.inj hs
      have hadd : (Config.add (M.next c.shared) (M.spawn o r)
          ⟨s', c.tasks⟩ : Config Res Ret St).tasks t = c.tasks t := by
        cases M.spawn o r with
        | none => rfl
        | some task => exact Function.update_of_ne ht ..
      cases k r with
      | pure v => exact (Function.update_of_ne hne ..).trans hadd
      | op o' k' => exact (Function.update_of_ne hne ..).trans hadd
  | drop t' =>
      have hne : t ≠ t' := fun h => hl h.symm
      simp only [Machine.step] at hs
      split at hs
      case h_2 => cases hs
      split at hs
      case isFalse => cases hs
      obtain rfl := Option.some.inj hs
      exact Function.update_of_ne hne ..
  | start call =>
      obtain rfl := Option.some.inj hs
      exact Function.update_of_ne ht ..

/-- The configuration before any call. -/
def initial (s : St) : Config Res Ret St :=
  ⟨s, fun _ => none⟩

/-- The configurations that runs from the shared state `s₀` reach, with every step of the
run meeting `cond`. -/
inductive ReachableUnder (s₀ : St)
    (cond : Config Res Ret St → Label Ans Call → Prop) : Config Res Ret St → Prop
  | initial : ReachableUnder s₀ cond (initial s₀)
  | step {c c' : Config Res Ret St} (l : Label Ans Call) :
      ReachableUnder s₀ cond c → cond c l → M.step c l = some c' →
      ReachableUnder s₀ cond c'

/-- The configurations that runs from the shared state `s₀` reach. -/
def Reachable (s₀ : St) : Config Res Ret St → Prop :=
  M.ReachableUnder s₀ fun _ _ => True

variable {M}

/-- A step of a reachable configuration leads to a reachable one. -/
theorem Reachable.step {s₀ : St} {c c' : Config Res Ret St} {l : Label Ans Call}
    (h : M.Reachable s₀ c) (hs : M.step c l = some c') : M.Reachable s₀ c' :=
  ReachableUnder.step l h trivial hs

/-- A run whose steps meet a condition is a run. -/
theorem ReachableUnder.reachable {s₀ : St}
    {cond : Config Res Ret St → Label Ans Call → Prop} {c : Config Res Ret St}
    (h : M.ReachableUnder s₀ cond c) : M.Reachable s₀ c := by
  induction h with
  | initial => exact .initial
  | step l _ _ hs ih => exact ih.step hs

variable (M) in
/-- Follows a schedule. -/
def follow (c : Config Res Ret St) : List (Label Ans Call) → Option (Config Res Ret St)
  | [] => some c
  | l :: ls =>
      match M.step c l with
      | some c' => follow c' ls
      | none => none

variable (M) in
/-- Follows a schedule whose steps all meet a condition. -/
def followUnder (cond : Config Res Ret St → Label Ans Call → Bool) (c : Config Res Ret St) :
    List (Label Ans Call) → Option (Config Res Ret St)
  | [] => some c
  | l :: ls =>
      if cond c l then
        match M.step c l with
        | some c' => followUnder cond c' ls
        | none => none
      else none

/-- What such a schedule reaches is reached by a run that meets the condition. -/
theorem ReachableUnder.followUnder {s₀ : St}
    {cond : Config Res Ret St → Label Ans Call → Bool} {c c' : Config Res Ret St}
    {ls : List (Label Ans Call)} (h : M.ReachableUnder s₀ (fun c l => cond c l = true) c)
    (hf : M.followUnder cond c ls = some c') :
    M.ReachableUnder s₀ (fun c l => cond c l = true) c' := by
  induction ls generalizing c with
  | nil =>
      obtain rfl := Option.some.inj hf
      exact h
  | cons l ls ih =>
      rw [Machine.followUnder] at hf
      split at hf
      case isFalse => cases hf
      next hc =>
      split at hf
      · next hs => exact ih (h.step l hc hs) hf
      · cases hf

/-- What a schedule reaches is reachable. -/
theorem Reachable.follow {s₀ : St} {c c' : Config Res Ret St} {ls : List (Label Ans Call)}
    (h : M.Reachable s₀ c) (hf : M.follow c ls = some c') : M.Reachable s₀ c' := by
  induction ls generalizing c with
  | nil =>
      obtain rfl := Option.some.inj hf
      exact h
  | cons l ls ih =>
      rw [Machine.follow] at hf
      split at hf
      · next hs => exact ih (h.step hs) hf
      · exact absurd hf (by simp)

end Machine

end Shepherd.Conc
