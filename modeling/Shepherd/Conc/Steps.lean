import Mathlib.Data.Nat.Notation
import Mathlib.Tactic.Common

/-!
# Step Machines

The lighter counterpart of `Conc.Machine`, for protocols whose parties are small enough to
have their program counters in the state: an executable step function that takes the
action the environment picks, `none` when the action is not possible.

* `ReachesUnder` — the states of the runs whose steps all meet a condition.
* `Reaches` — the states of all runs.
* `ReachesUnder.invariant` — what holds initially and is kept by every step holds of them.
* `follow` — runs a schedule, so that a run can be evaluated.
-/

namespace Shepherd.Conc

variable {St Act : Type} {step : St → Act → Option St} {cond : St → Act → Prop}
variable {s₀ s s' : St}

/-- The states that runs from `s₀` reach, with every step of the run meeting `cond`. -/
inductive ReachesUnder (step : St → Act → Option St) (cond : St → Act → Prop) (s₀ : St) :
    St → Prop
  | initial : ReachesUnder step cond s₀ s₀
  | step {s s' : St} (a : Act) : ReachesUnder step cond s₀ s → cond s a → step s a = some s' →
      ReachesUnder step cond s₀ s'

/-- The states that runs from `s₀` reach. -/
def Reaches (step : St → Act → Option St) (s₀ : St) : St → Prop :=
  ReachesUnder step (fun _ _ => True) s₀

/-- **The invariant rule.** -/
theorem ReachesUnder.invariant {I : St → Prop} (h : ReachesUnder step cond s₀ s) (h₀ : I s₀)
    (hstep : ∀ s a s', I s → cond s a → step s a = some s' → I s') : I s := by
  induction h with
  | initial => exact h₀
  | step a _ hc hs ih => exact hstep _ a _ ih hc hs

/-- The invariant rule for all runs. -/
theorem Reaches.invariant {I : St → Prop} (h : Reaches step s₀ s) (h₀ : I s₀)
    (hstep : ∀ s a s', I s → step s a = some s' → I s') : I s :=
  ReachesUnder.invariant h h₀ fun s a s' hi _ hs => hstep s a s' hi hs

/-- The first state of a run is reached. -/
theorem Reaches.initial : Reaches step s₀ s₀ :=
  ReachesUnder.initial

/-- One step more. -/
theorem Reaches.next (h : Reaches step s₀ s) (a : Act) (hs : step s a = some s') :
    Reaches step s₀ s' :=
  ReachesUnder.step a h trivial hs

/-- Runs go on from where runs end. -/
theorem Reaches.trans (h : Reaches step s₀ s) (h' : Reaches step s s') :
    Reaches step s₀ s' := by
  induction h' with
  | initial => exact h
  | step a _ _ hs ih => exact Reaches.next ih a hs

/-- Follows a schedule. -/
def follow (step : St → Act → Option St) (s : St) : List Act → Option St
  | [] => some s
  | a :: as => (step s a).bind fun s' => follow step s' as

/-- Takes the steps that meet a condition only. -/
def guarded (step : St → Act → Option St) (cond : St → Act → Bool) (s : St) (a : Act) :
    Option St :=
  if cond s a then step s a else none

/-- What a guarded schedule reaches is reached by a run that meets the condition. -/
theorem ReachesUnder.of_follow {cond : St → Act → Bool} {as : List Act}
    (h : ReachesUnder step (fun s a => cond s a = true) s₀ s)
    (hf : follow (guarded step cond) s as = some s') :
    ReachesUnder step (fun s a => cond s a = true) s₀ s' := by
  induction as generalizing s with
  | nil =>
      obtain rfl := Option.some.inj hf
      exact h
  | cons a as ih =>
      obtain ⟨s₁, hs, hf⟩ := Option.bind_eq_some_iff.mp hf
      rw [guarded, Option.ite_none_right_eq_some] at hs
      exact ih (h.step a hs.1 hs.2) hf

/-- A guarded schedule that reaches a state with a property shows one. -/
theorem ReachesUnder.exists_of_follow (step : St → Act → Option St) (cond : St → Act → Bool)
    (s : St) (as : List Act) (P : St → Bool)
    (h : (follow (guarded step cond) s as).any P = true) :
    ∃ s', ReachesUnder step (fun s a => cond s a = true) s s' ∧ P s' = true := by
  cases hs : follow (guarded step cond) s as with
  | none =>
      rw [hs] at h
      exact absurd h (by simp)
  | some s' =>
      rw [hs] at h
      exact ⟨s', ReachesUnder.initial.of_follow hs, h⟩

/-- What a schedule reaches is reachable. -/
theorem Reaches.of_follow {as : List Act} (h : follow step s as = some s') :
    Reaches step s s' := by
  induction as generalizing s with
  | nil =>
      obtain rfl := Option.some.inj h
      exact .initial
  | cons a as ih =>
      obtain ⟨s₁, hs, hf⟩ := Option.bind_eq_some_iff.mp h
      exact (Reaches.initial.next a hs).trans (ih hf)

/-- A schedule whose actions all meet a condition is a run whose steps do. -/
theorem ReachesUnder.of_follow_of_forall {cond : Act → Prop} {as : List Act}
    (h : ReachesUnder step (fun _ a => cond a) s₀ s) (hf : follow step s as = some s')
    (ha : ∀ a ∈ as, cond a) : ReachesUnder step (fun _ a => cond a) s₀ s' := by
  induction as generalizing s with
  | nil =>
      obtain rfl := Option.some.inj hf
      exact h
  | cons a as ih =>
      obtain ⟨s₁, hs, hf⟩ := Option.bind_eq_some_iff.mp hf
      exact ih (h.step a (ha a List.mem_cons_self) hs) hf
        fun b hb => ha b (List.mem_cons_of_mem a hb)

/-- An action of a schedule is taken somewhere on the way. -/
theorem Reaches.of_mem_follow {as : List Act} {a : Act} (hf : follow step s as = some s')
    (ha : a ∈ as) :
    ∃ s₁ s₂, Reaches step s s₁ ∧ step s₁ a = some s₂ ∧ Reaches step s₂ s' := by
  induction as generalizing s with
  | nil => cases ha
  | cons b as ih =>
      obtain ⟨s₁, hs, hrest⟩ := Option.bind_eq_some_iff.mp hf
      rcases List.mem_cons.mp ha with rfl | ha
      · exact ⟨s, s₁, .initial, hs, .of_follow hrest⟩
      · obtain ⟨s₂, s₃, hr, hs', hr'⟩ := ih hrest ha
        exact ⟨s₂, s₃, (Reaches.initial.next b hs).trans hr, hs', hr'⟩

/-- A schedule that reaches a state with a property shows one. -/
theorem Reaches.exists_of_follow (step : St → Act → Option St) (s : St) (as : List Act)
    (P : St → Bool) (h : (follow step s as).any P = true) :
    ∃ s', Reaches step s s' ∧ P s' = true := by
  cases hs : follow step s as with
  | none =>
      rw [hs] at h
      exact absurd h (by simp)
  | some s' =>
      rw [hs] at h
      exact ⟨s', .of_follow hs, h⟩

/-- Two schedules, one after the other, show a run and how it goes on. -/
theorem Reaches.exists_of_follow_follow (step : St → Act → Option St) (s : St) (as bs : List Act)
    (P : St → St → Bool)
    (h : ((follow step s as).any fun s₁ => (follow step s₁ bs).any (P s₁)) = true) :
    ∃ s₁ s₂, Reaches step s s₁ ∧ Reaches step s₁ s₂ ∧ P s₁ s₂ = true := by
  obtain ⟨s₁, hs₁, h⟩ := Reaches.exists_of_follow step s as _ h
  obtain ⟨s₂, hs₂, h⟩ := Reaches.exists_of_follow step s₁ bs _ h
  exact ⟨s₁, s₂, hs₁, hs₂, h⟩

end Shepherd.Conc
