import Shepherd.Conc.Prog

/-!
# Rely–Guarantee Reasoning

A proof about all interleavings of a machine is split into proofs about single programs.
A **protocol** fixes

* `inv`, a global invariant of the shared state,
* `rely t`, what the steps of the *other* tasks can do as seen by task `t` — a preorder,
* `ready t task`, the condition under which a task may be started as `t`.

The weakest precondition `wp` of a program for task `t` asks, at every operation and after
any interference `rely t` allows, that the operation keeps the invariant, that it stays
within what every other task relies on (`guar`), that a task it spawns is ready, and that
the rest of the program is fine afterwards. At an await point of a droppable task the
unwinding program has to be fine as well.

`Protocol.good` is the adequacy theorem: if the initial state satisfies the invariant,
calls can be started, and every ready task has its weakest precondition, then the
invariant holds in every reachable configuration. Program proofs use the rules `wp_op`,
`wp_bind` and `wp_mono` and do not unfold `wp`.
-/

namespace Shepherd.Conc

variable {Op : Type} {Res : Op → Type} {Ret St Ans Call : Type}

/-- A rely–guarantee protocol for a machine. -/
structure Protocol (M : Machine Res Ret St Ans Call) where
  inv : St → Prop
  rely : Tid → St → St → Prop
  ready : Tid → Task Res Ret → St → Prop
  rely_refl : ∀ t s, rely t s s
  rely_trans : ∀ {t s₁ s₂ s₃}, rely t s₁ s₂ → rely t s₂ s₃ → rely t s₁ s₃

namespace Protocol

variable {M : Machine Res Ret St Ans Call} (P : Protocol M) {α β : Type}

/-- A step of `t` that every other task can rely on. -/
def guar (t : Tid) (s s' : St) : Prop :=
  ∀ t', t' ≠ t → P.rely t' s s'

/-- The weakest precondition of a program run by `t`, with `u` the condition under which
the task may be dropped. -/
def wp (t : Tid) (u : St → Prop) : Prog Res α → (α → St → Prop) → St → Prop
  | .pure a, Q, s => Q a s
  | .op o k, Q, s => ∀ s₁, P.rely t s s₁ → P.inv s₁ → t < M.next s₁ →
      (M.awaits o = true → u s₁) ∧
      ∀ a r s₂, M.exec t o a s₁ = some (r, s₂) →
        P.inv s₂ ∧ P.guar t s₁ s₂ ∧
        (∀ task, M.spawn o r = some task → P.ready (M.next s₁) task s₂) ∧
        wp t u (k r) Q s₂

variable {P} {t : Tid} {u : St → Prop} {s : St}

/-- No step guarantees everything. -/
theorem guar_refl (t : Tid) (s : St) : P.guar t s s :=
  fun t' _ => P.rely_refl t' s

/-- A program that is over has met its postcondition. -/
@[simp] theorem wp_pure (a : α) (Q : α → St → Prop) : P.wp t u (.pure a) Q s ↔ Q a s :=
  Iff.rfl

/-- **The rule for an operation.** -/
theorem wp_op {o : Op} {k : Res o → Prog Res α} {Q : α → St → Prop}
    (h : ∀ s₁, P.rely t s s₁ → P.inv s₁ → t < M.next s₁ →
      (M.awaits o = true → u s₁) ∧
      ∀ a r s₂, M.exec t o a s₁ = some (r, s₂) →
        P.inv s₂ ∧ P.guar t s₁ s₂ ∧
        (∀ task, M.spawn o r = some task → P.ready (M.next s₁) task s₂) ∧
        P.wp t u (k r) Q s₂) :
    P.wp t u (.op o k) Q s := h

/-- **The rule of consequence**, for the result and for the condition at an await. -/
theorem wp_conseq {u' : St → Prop} {p : Prog Res α} {Q Q' : α → St → Prop}
    (hu : ∀ s, u s → u' s) (hQ : ∀ a s, Q a s → Q' a s) (h : P.wp t u p Q s) :
    P.wp t u' p Q' s := by
  induction p generalizing s with
  | pure a => exact hQ a s h
  | op o k ih =>
      intro s₁ hr hi ht
      obtain ⟨hu₁, hs⟩ := h s₁ hr hi ht
      refine ⟨fun ha => hu s₁ (hu₁ ha), fun a r s₂ he => ?_⟩
      obtain ⟨hi₂, hg, hsp, hw⟩ := hs a r s₂ he
      exact ⟨hi₂, hg, hsp, ih r hw⟩

/-- A weaker postcondition. -/
theorem wp_mono {p : Prog Res α} {Q Q' : α → St → Prop} (hQ : ∀ a s, Q a s → Q' a s)
    (h : P.wp t u p Q s) : P.wp t u p Q' s :=
  wp_conseq (fun _ hu => hu) hQ h

/-- Where a program ends, the invariant holds. -/
theorem wp_inv {p : Prog Res α} {Q : α → St → Prop} (hi : P.inv s) (ht : t < M.next s)
    (h : P.wp t u p Q s) :
    P.wp t u p (fun a s' => Q a s' ∧ P.inv s' ∧ t < M.next s') s := by
  induction p generalizing s with
  | pure a => exact ⟨h, hi, ht⟩
  | op o k ih =>
      intro s₁ hr hi₁ ht₁
      obtain ⟨hu, hs⟩ := h s₁ hr hi₁ ht₁
      refine ⟨hu, fun a r s₂ he => ?_⟩
      obtain ⟨hi₂, hg, hsp, hw⟩ := hs a r s₂ he
      have ht₂ : t < M.next s₂ := by
        rw [M.next_exec he]
        exact Nat.lt_add_right _ ht₁
      exact ⟨hi₂, hg, hsp, ih r hi₂ ht₂ hw⟩

/-- **The rule for sequencing.** -/
theorem wp_bind {p : Prog Res α} {f : α → Prog Res β} {Q : β → St → Prop}
    (h : P.wp t u p (fun a => P.wp t u (f a) Q) s) : P.wp t u (p.bind f) Q s := by
  induction p generalizing s with
  | pure a => exact h
  | op o k ih =>
      intro s₁ hr hi ht
      obtain ⟨hu, hs⟩ := h s₁ hr hi ht
      refine ⟨hu, fun a r s₂ he => ?_⟩
      obtain ⟨hi₂, hg, hsp, hw⟩ := hs a r s₂ he
      exact ⟨hi₂, hg, hsp, ih r hw⟩

/-- A program that is not over can start after any interference. -/
theorem wp_of_rely {o : Op} {k : Res o → Prog Res α} {Q : α → St → Prop} {s' : St}
    (h : P.wp t u (.op o k) Q s) (hr : P.rely t s s') : P.wp t u (.op o k) Q s' :=
  fun s₁ hr₁ hi ht => h s₁ (P.rely_trans hr hr₁) hi ht

variable (P)

/-- What a task guarantees when it returns. -/
def returns (t : Tid) (v : Ret) (s : St) : Prop :=
  P.inv (M.finish t v s) ∧ P.guar t s (M.finish t v s)

/-- The condition under which a task may be dropped. -/
def droppable (t : Tid) : Option (Prog Res Ret) → St → Prop
  | some p => P.wp t (fun _ => True) p (P.returns t)
  | none => fun _ => True

/-- The weakest precondition of a whole task. -/
def safe (t : Tid) (task : Task Res Ret) (s : St) : Prop :=
  P.wp t (P.droppable t task.unwind) task.prog (P.returns t) s

/-- The invariant of a configuration: the shared state satisfies the invariant, and every
task that is not over is safe. -/
def Good (c : Config Res Ret St) : Prop :=
  P.inv c.shared ∧ ∀ t task, c.tasks t = some task →
    t < M.next c.shared ∧ ∀ o k, task.prog = .op o k → P.safe t task c.shared

variable {P}

/-- A task at an operation stays safe under the steps of the others. -/
theorem safe_of_rely {task : Task Res Ret} {s' : St} {o : Op} {k : Res o → Prog Res Ret}
    (hp : task.prog = .op o k) (h : P.safe t task s) (hr : P.rely t s s') :
    P.safe t task s' := by
  obtain ⟨p, u⟩ := task
  obtain rfl : p = .op o k := hp
  exact wp_of_rely h hr

/-- **One step** keeps the configuration good: the tasks beside `t`, the one that it spawns, and `t`
itself. -/
theorem Good.step {c c' : Config Res Ret St} {l : Label Ans Call}
    (hready : ∀ t task s, P.inv s → t < M.next s → P.ready t task s → P.safe t task s)
    (henter : ∀ call s, P.inv s → P.inv (M.enter s) ∧ P.guar (M.next s) s (M.enter s) ∧
      P.ready (M.next s) (M.entry call) (M.enter s))
    (h : P.Good c) (hs : M.step c l = some c') : P.Good c' := by
  obtain ⟨hi, ht⟩ := h
  cases l with
  | run t a =>
      simp only [Machine.step] at hs
      split at hs
      case h_2 => exact absurd hs (by simp)
      case h_1 o k u htask =>
      split at hs
      case h_2 => exact absurd hs (by simp)
      case h_1 r s' hexec =>
      obtain rfl := Option.some.inj hs
      obtain ⟨hlt, hw⟩ := ht t _ htask
      obtain ⟨-, hstep⟩ := hw o k rfl c.shared (P.rely_refl t c.shared) hi hlt
      obtain ⟨hi', hg, hsp, hk⟩ := hstep a r s' hexec
      have hnext := M.next_exec hexec
      have hle : M.next c.shared ≤ M.next s' := hnext ▸ Nat.le_add_right _ _
      have hothers : ∀ t' task, t' ≠ t →
          (Config.add (M.next c.shared) (M.spawn o r) ⟨s', c.tasks⟩).tasks t' = some task →
          t' < M.next s' ∧ ∀ o k, task.prog = .op o k → P.safe t' task s' := by
        intro t' task hne htask'
        have hold : c.tasks t' = some task → t' < M.next s' ∧
            ∀ o k, task.prog = .op o k → P.safe t' task s' := by
          intro h
          obtain ⟨hlt', hw'⟩ := ht t' task h
          refine ⟨Nat.lt_of_lt_of_le hlt' hle, fun o k hp => ?_⟩
          exact safe_of_rely hp (hw' o k hp) (hg t' hne)
        cases hspawn : M.spawn o r with
        | none => rw [hspawn] at htask'; exact hold htask'
        | some new =>
            rw [hspawn] at htask' hnext
            simp only [Config.add, Function.update_apply] at htask'
            split at htask'
            · next heq =>
                obtain rfl := Option.some.inj htask'
                subst heq
                have hlt' : M.next c.shared < M.next s' := by rw [hnext]; simp
                exact ⟨hlt', fun _ _ _ => hready _ _ s' hi' hlt' (hsp new hspawn)⟩
            · exact hold htask'
      cases hp : k r with
      | pure v =>
          rw [hp] at hk
          obtain ⟨hif, hgf⟩ := hk
          have hsh : (Config.add (M.next c.shared) (M.spawn o r) ⟨s', c.tasks⟩ :
              Config Res Ret St).shared = s' := by
            cases M.spawn o r <;> rfl
          simp only [Machine.settle, hsh]
          refine ⟨hif, fun t' task htask' => ?_⟩
          simp only [Function.update_apply] at htask'
          split at htask'
          · exact absurd htask' (by simp)
          · next hne =>
              obtain ⟨hlt', hw'⟩ := hothers t' task hne htask'
              refine ⟨by rw [M.next_finish]; exact hlt', fun o k hp' => ?_⟩
              exact safe_of_rely hp' (hw' o k hp') (hgf t' hne)
      | op o' k' =>
          rw [hp] at hk
          have hsh : (Config.add (M.next c.shared) (M.spawn o r) ⟨s', c.tasks⟩ :
              Config Res Ret St).shared = s' := by
            cases M.spawn o r <;> rfl
          simp only [Machine.settle, hsh]
          refine ⟨hi', fun t' task htask' => ?_⟩
          simp only [Function.update_apply] at htask'
          split at htask'
          · next heq =>
              subst heq
              obtain rfl := Option.some.inj htask'
              exact ⟨Nat.lt_of_lt_of_le hlt hle, fun _ _ _ => hk⟩
          · next hne => exact hothers t' task hne htask'
  | drop t =>
      simp only [Machine.step] at hs
      split at hs
      case h_2 => exact absurd hs (by simp)
      case h_1 o k p htask =>
      split at hs
      case isFalse => exact absurd hs (by simp)
      case isTrue haw =>
      obtain rfl := Option.some.inj hs
      obtain ⟨hlt, hw⟩ := ht t _ htask
      have hdrop := (hw o k rfl c.shared (P.rely_refl t c.shared) hi hlt).1 haw
      refine ⟨hi, fun t' task htask' => ?_⟩
      simp only [Function.update_apply] at htask'
      split at htask'
      · next heq =>
          subst heq
          obtain rfl := Option.some.inj htask'
          exact ⟨hlt, fun _ _ _ => hdrop⟩
      · exact ht t' task htask'
  | start call =>
      obtain rfl := Option.some.inj hs
      obtain ⟨hie, hge, hre⟩ := henter call c.shared hi
      refine ⟨hie, fun t' task htask' => ?_⟩
      simp only [Function.update_apply] at htask'
      dsimp only
      rw [M.next_enter]
      split at htask'
      · next heq =>
          subst heq
          obtain rfl := Option.some.inj htask'
          refine ⟨Nat.lt_succ_self _, fun _ _ _ => hready _ _ _ hie ?_ hre⟩
          rw [M.next_enter]
          exact Nat.lt_succ_self _
      · next hne =>
          obtain ⟨hlt, hw⟩ := ht t' task htask'
          exact ⟨Nat.lt_succ_of_lt hlt,
            fun o k hp => safe_of_rely hp (hw o k hp) (hge t' hne)⟩

/-- **Adequacy.** In every reachable configuration the invariant holds, and every task has its
weakest precondition. -/
theorem good {s₀ : St} (hinit : P.inv s₀)
    (hready : ∀ t task s, P.inv s → t < M.next s → P.ready t task s → P.safe t task s)
    (henter : ∀ call s, P.inv s → P.inv (M.enter s) ∧ P.guar (M.next s) s (M.enter s) ∧
      P.ready (M.next s) (M.entry call) (M.enter s))
    {c : Config Res Ret St} (h : M.Reachable s₀ c) : P.Good c := by
  induction h with
  | initial => exact ⟨hinit, fun t task ht => absurd ht (by simp [Machine.initial])⟩
  | step l _ _ hs ih => exact ih.step hready henter hs

/-- What a task can rely on in a step of another. -/
theorem Good.rely {c c' : Config Res Ret St} {l : Label Ans Call} (h : P.Good c)
    (henter : ∀ s, P.inv s → P.guar (M.next s) s (M.enter s))
    (hs : M.step c l = some c') (hl : ¬ Machine.moves t l) (ht : t ≠ M.next c.shared) :
    P.rely t c.shared c'.shared := by
  obtain ⟨hi, htasks⟩ := h
  cases M.step_shared hs with
  | @run t' a o k u r s' htask hexec hsh =>
      have hne : t ≠ t' := fun heq => hl heq.symm
      obtain ⟨hlt, hw⟩ := htasks t' _ htask
      obtain ⟨-, hstep⟩ := hw o k rfl c.shared (P.rely_refl t' c.shared) hi hlt
      obtain ⟨-, hg, -, hk⟩ := hstep a r s' hexec
      rcases hsh with ⟨_, _, -, hsh, -⟩ | ⟨v, hv, hsh, -⟩
      · exact hsh ▸ hg t hne
      · rw [hv] at hk
        exact hsh ▸ P.rely_trans (hg t hne) (hk.2 t hne)
  | drop _ _ hsh => exact hsh ▸ P.rely_refl t c.shared
  | start hsh => exact hsh ▸ henter c.shared hi t ht

end Protocol

end Shepherd.Conc
