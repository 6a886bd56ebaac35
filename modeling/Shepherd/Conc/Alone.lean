import Shepherd.Conc.Prog

/-!
# A Program Alone

A program that no other task disturbs, between one call and its return. The operations get
their meaning from an `exec`, which takes the choices of the environment as answers.

* `Prog.run` — the run under a list of answers, one for each operation.
* `Prog.wp` — the weakest precondition: whatever the environment answers, the program returns
  with the postcondition. It is sound and complete for runs (`wp_iff_run`), and follows the
  structure of programs (`wp_bind`).
-/

namespace Shepherd.Conc.Prog

variable {Op : Type} {Res : Op → Type} {Ans St α β : Type}

/-- The meaning of the operations; `none` for an answer that an operation cannot get. -/
abbrev Exec (Res : Op → Type) (Ans St : Type) :=
  (o : Op) → Ans → St → Option (Res o × St)

variable (exec : Exec Res Ans St)

/-- The run of a program under the answers. -/
def run : Prog Res α → List Ans → St → Option (α × St)
  | .pure v, [], s => some (v, s)
  | .op o k, a :: as, s => (exec o a s).bind fun rs => (k rs.1).run as rs.2
  | _, _, _ => none

/-- Whatever the environment answers, the program returns with `Q`. -/
def wp : Prog Res α → (α → St → Prop) → St → Prop
  | .pure v, Q, s => Q v s
  | .op o k, Q, s => ∀ a r s', exec o a s = some (r, s') → (k r).wp Q s'

variable {exec} {p : Prog Res α} {Q Q' : α → St → Prop} {s : St}

/-- A program that is over has met its postcondition. -/
@[simp] theorem wp_pure (v : α) : (Prog.pure v : Prog Res α).wp exec Q s ↔ Q v s := Iff.rfl

/-- The rule of consequence. -/
theorem wp_mono (hQ : ∀ v s, Q v s → Q' v s) (h : p.wp exec Q s) : p.wp exec Q' s := by
  induction p generalizing s with
  | pure v => exact hQ v s h
  | op o k ih => exact fun a r s' he => ih r (h a r s' he)

/-- The rule for sequencing. -/
theorem wp_bind {f : α → Prog Res β} {R : β → St → Prop} :
    (p.bind f).wp exec R s ↔ p.wp exec (fun v s' => (f v).wp exec R s') s := by
  induction p generalizing s with
  | pure v => exact Iff.rfl
  | op o k ih =>
      constructor
      · exact fun h a r s' he => (ih r).mp (h a r s' he)
      · exact fun h a r s' he => (ih r).mpr (h a r s' he)

/-- **Weakest preconditions speak about runs.** -/
theorem wp_iff_run : p.wp exec Q s ↔ ∀ as v s', p.run exec as s = some (v, s') → Q v s' := by
  induction p generalizing s with
  | pure v =>
      constructor
      · intro h as v' s' hr
        cases as with
        | nil =>
            obtain ⟨rfl, rfl⟩ := Prod.mk.inj (Option.some.inj hr)
            exact h
        | cons a as => cases hr
      · exact fun h => h [] v s rfl
  | op o k ih =>
      constructor
      · intro h as v s' hr
        cases as with
        | nil => cases hr
        | cons a as =>
            obtain ⟨rs, he, hr⟩ := Option.bind_eq_some_iff.mp hr
            exact (ih rs.1).mp (h a rs.1 rs.2 he) as v s' hr
      · refine fun h a r s' he => (ih r).mpr fun as v s'' hr => h (a :: as) v s'' ?_
        rw [run, he]
        exact hr

end Shepherd.Conc.Prog
