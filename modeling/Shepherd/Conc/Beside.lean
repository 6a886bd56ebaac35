import Shepherd.Conc.Alone
import Shepherd.Conc.Steps

/-!
# A Program beside a World

A program beside a world that takes steps of its own, any number of them between two operations,
so that what the program has read may be out of date when it goes on.

* `Beside` — the runs of a program: the world before, the value returned, the world after.
* `onOk` — a program that goes on unless something has failed.
* `Beside.bind` and `Beside.of_bind` — the runs of a program are those of its parts.
* `Beside.reaches` — a program that only reads leaves no trace in the world.
-/

namespace Shepherd.Conc.Prog

variable {Op : Type} {Res : Op → Type} {Ans Act W α β : Type}

/-- Goes on with the value, unless there is an error. -/
def onOk {ε : Type} (x : Except ε α) (k : α → Prog Res (Except ε β)) : Prog Res (Except ε β) :=
  match x with
  | .error e => .pure (.error e)
  | .ok v => k v

/-- The runs of a program beside a world. -/
inductive Beside (step : W → Act → Option W) (exec : Exec Res Ans W) :
    Prog Res α → W → α → W → Prop
  | pure (v : α) (w : W) : Beside step exec (.pure v) w v w
  | world {p : Prog Res α} {v : α} {w w' w'' : W} (e : Act) : step w e = some w' →
      Beside step exec p w' v w'' → Beside step exec p w v w''
  | op {o : Op} {k : Res o → Prog Res α} {v : α} {w w' w'' : W} {r : Res o} (a : Ans) :
      exec o a w = some (r, w') → Beside step exec (k r) w' v w'' →
      Beside step exec (.op o k) w v w''

variable {step : W → Act → Option W} {exec : Exec Res Ans W} {p : Prog Res α} {v : α}
  {w w' w'' : W}

namespace Beside

/-- The world goes on before the program does. -/
theorem of_reaches (hr : Reaches step w w') (h : Beside step exec p w' v w'') :
    Beside step exec p w v w'' := by
  induction hr with
  | initial => exact h
  | step e _ _ hs ih => exact ih (.world e hs h)

/-- A program that is over returns its value, while the world goes on. -/
theorem of_pure {v' : α} (h : Beside step exec (.pure v) w v' w') :
    v' = v ∧ Reaches step w w' := by
  generalize hp : Prog.pure v = p at h
  induction h with
  | pure v' w =>
      cases hp
      exact ⟨rfl, .initial⟩
  | world e hs _ ih =>
      obtain ⟨heq, hr⟩ := ih hp
      exact ⟨heq, (Reaches.initial.next e hs).trans hr⟩
  | op => cases hp

/-- **An operation** is performed some time later. -/
theorem of_op {o : Op} {k : Res o → Prog Res α} (h : Beside step exec (.op o k) w v w') :
    ∃ w₁ a r w₂, Reaches step w w₁ ∧ exec o a w₁ = some (r, w₂) ∧
      Beside step exec (k r) w₂ v w' := by
  generalize hp : Prog.op o k = p at h
  induction h with
  | pure => cases hp
  | world e hs _ ih =>
      obtain ⟨w₁, a, r, w₂, hr, hexec, h⟩ := ih hp
      exact ⟨w₁, a, r, w₂, (Reaches.initial.next e hs).trans hr, hexec, h⟩
  | op a hexec h =>
      cases hp
      exact ⟨_, a, _, _, .initial, hexec, h⟩

/-- **One program after the other.** -/
theorem bind {f : α → Prog Res β} {u : β} (h : Beside step exec p w v w')
    (hf : Beside step exec (f v) w' u w'') : Beside step exec (p.bind f) w u w'' := by
  induction h with
  | pure => exact hf
  | world e hs _ ih => exact .world e hs (ih hf)
  | op a hexec _ ih => exact .op a hexec (ih hf)

/-- **The parts of a run.** -/
theorem of_bind {f : α → Prog Res β} {u : β} (h : Beside step exec (p.bind f) w u w') :
    ∃ v w₁, Beside step exec p w v w₁ ∧ Beside step exec (f v) w₁ u w' := by
  generalize hq : p.bind f = q at h
  induction h generalizing p with
  | pure u w =>
      cases p with
      | pure v =>
          refine ⟨v, w, .pure v w, ?_⟩
          rw [← pure_bind v f, hq]
          exact .pure u w
      | op => cases hq
  | world e hs h ih =>
      obtain ⟨v, w₁, hp, hf⟩ := ih hq
      exact ⟨v, w₁, .world e hs hp, hf⟩
  | op a hexec h ih =>
      cases p with
      | pure v =>
          refine ⟨v, _, .pure v _, ?_⟩
          rw [← pure_bind v f, hq]
          exact .op a hexec h
      | op o k =>
          cases hq
          obtain ⟨v, w₁, hp, hf⟩ := ih rfl
          exact ⟨v, w₁, .op a hexec hp, hf⟩

/-- A program that goes on, or has failed. -/
theorem of_onOk {ε : Type} {x : Except ε α} {k : α → Prog Res (Except ε β)} {u : Except ε β}
    (h : Beside step exec (onOk x k) w u w') :
    (∃ e, x = .error e ∧ u = .error e) ∨ ∃ v, x = .ok v ∧ Beside step exec (k v) w u w' := by
  cases x with
  | error e => exact .inl ⟨e, rfl, h.of_pure.1⟩
  | ok v => exact .inr ⟨v, rfl, h⟩

/-- **A program that only reads** leaves the world to itself. -/
theorem reaches (hread : ∀ o a w r w', exec o a w = some (r, w') → w' = w)
    (h : Beside step exec p w v w') : Reaches step w w' := by
  induction h with
  | pure => exact .initial
  | world e hs _ ih => exact (Reaches.initial.next e hs).trans ih
  | op a hexec _ ih => exact hread _ _ _ _ _ hexec ▸ ih

end Beside

end Shepherd.Conc.Prog
