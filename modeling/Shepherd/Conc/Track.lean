import Shepherd.Conc.Logic

/-!
# Watching a Task

The weakest precondition of a task says what the task makes of the shared state. Here one
task of a system that is known to be good is **watched**: a recorder remembers something of
the operations it performs, and an assertion about the memory and the shared state is to
hold at each of its operations and when its program is over.

* `Watch` — what is remembered, and what has to hold at an operation.
* `tracked` — the program keeps to it, whatever the other tasks do. As the system is good,
  the invariant is there for free after every operation.
* `Watched` — the task of a configuration keeps to it; kept by every step
  (`Watched.step`).
* `tracked_of_stable` — an assertion that no operation can break holds through any program.
* `Watch.idle` — nothing is watched: what is left is what the program returns.
-/

namespace Shepherd.Conc

variable {Op : Type} {Res : Op → Type} {Ret St Ans Call X : Type}

/-- What is remembered of the operations of a task, and what has to hold at each. -/
structure Watch (Op Ans St X : Type) where
  update : Op → Ans → St → X → X
  holds : Op → X → St → Prop

/-- The watch that asks for nothing. -/
def Watch.idle : Watch Op Ans St Unit where
  update _ _ _ x := x
  holds _ _ _ := True

namespace Protocol

variable {M : Machine Res Ret St Ans Call} (P : Protocol M) (W : Watch Op Ans St X)
  {α β : Type}

/-- The program keeps to the watch, and ends with `Q`. -/
def tracked (t : Tid) : Prog Res α → (α → X → St → Prop) → X → St → Prop
  | .pure v, Q, x, s => Q v x s
  | .op o k, Q, x, s => ∀ s₁, P.rely t s s₁ → P.inv s₁ → W.holds o x s₁ ∧
      ∀ a r s₂, M.exec t o a s₁ = some (r, s₂) → P.inv s₂ →
        tracked t (k r) Q (W.update o a s₁ x) s₂

variable {P W} {t : Tid} {x : X} {s s' : St}

/-- The rule for an operation. -/
theorem tracked_op {o : Op} {k : Res o → Prog Res α} {Q : α → X → St → Prop}
    (h : ∀ s₁, P.rely t s s₁ → P.inv s₁ → W.holds o x s₁ ∧
      ∀ a r s₂, M.exec t o a s₁ = some (r, s₂) → P.inv s₂ →
        P.tracked W t (k r) Q (W.update o a s₁ x) s₂) :
    P.tracked W t (.op o k) Q x s := h

/-- The rule of consequence. -/
theorem tracked_mono {p : Prog Res α} {Q Q' : α → X → St → Prop}
    (hQ : ∀ a x s, Q a x s → Q' a x s) (h : P.tracked W t p Q x s) :
    P.tracked W t p Q' x s := by
  induction p generalizing x s with
  | pure v => exact hQ v x s h
  | op o k ih =>
      intro s₁ hr hi
      obtain ⟨hh, hk⟩ := h s₁ hr hi
      exact ⟨hh, fun a r s₂ he hi₂ => ih r (hk a r s₂ he hi₂)⟩

/-- The rule for sequencing. -/
theorem tracked_bind {p : Prog Res α} {f : α → Prog Res β} {Q : β → X → St → Prop}
    (h : P.tracked W t p (fun v => P.tracked W t (f v) Q) x s) :
    P.tracked W t (p.bind f) Q x s := by
  induction p generalizing x s with
  | pure v => exact h
  | op o k ih =>
      intro s₁ hr hi
      obtain ⟨hh, hk⟩ := h s₁ hr hi
      exact ⟨hh, fun a r s₂ he hi₂ => ih r (hk a r s₂ he hi₂)⟩

/-- A program that is not over can start after any interference. -/
theorem tracked_of_rely {o : Op} {k : Res o → Prog Res α} {Q : α → X → St → Prop}
    (h : P.tracked W t (.op o k) Q x s) (hr : P.rely t s s') :
    P.tracked W t (.op o k) Q x s' :=
  fun s₁ hr₁ hi => h s₁ (P.rely_trans hr hr₁) hi

/-- **An assertion that nothing breaks** holds through any program. -/
theorem tracked_of_stable {F : X → St → Prop} {Q : α → X → St → Prop} (p : Prog Res α)
    (hrely : ∀ x s s', F x s → P.rely t s s' → F x s')
    (hexec : ∀ o a r x s s', F x s → M.exec t o a s = some (r, s') → F (W.update o a s x) s')
    (hholds : ∀ o x s, F x s → W.holds o x s) (hQ : ∀ v x s, F x s → Q v x s) (h : F x s) :
    P.tracked W t p Q x s := by
  induction p generalizing x s with
  | pure v => exact hQ v x s h
  | op o k ih =>
      intro s₁ hr hi
      have h₁ := hrely x s s₁ h hr
      exact ⟨hholds o x s₁ h₁, fun a r s₂ he _ => ih r (hexec o a r x s₁ s₂ h₁ he)⟩

/-- Any program keeps to the idle watch. -/
theorem tracked_idle (p : Prog Res α) (s : St) :
    P.tracked Watch.idle t p (fun _ _ _ => True) () s :=
  tracked_of_stable (F := fun _ _ => True) p (fun _ _ _ _ _ => trivial)
    (fun _ _ _ _ _ _ _ _ => trivial) (fun _ _ _ _ => trivial) (fun _ _ _ _ => trivial) trivial

variable (P W)

/-- The task of the configuration keeps to the watch and returns with `Q`, and `F` holds when
it has returned; `u` is what runs when it is dropped. -/
def Watched (t : Tid) (u : Option (Prog Res Ret)) (Q : Ret → X → St → Prop)
    (F : X → St → Prop) (c : Config Res Ret St) (x : X) : Prop :=
  match c.tasks t with
  | some task => ∃ o k, task = ⟨.op o k, u⟩ ∧ P.tracked W t (.op o k) Q x c.shared
  | none => F x c.shared

variable {P W} {u : Option (Prog Res Ret)} {Q : Ret → X → St → Prop} {F : X → St → Prop}

/-- A task that was just started. -/
theorem Watched.start {c : Config Res Ret St} {o : Op} {k : Res o → Prog Res Ret}
    (ht : c.tasks t = some ⟨.op o k, u⟩) (h : P.tracked W t (.op o k) Q x c.shared) :
    P.Watched W t u Q F c x := by
  rw [Watched, ht]
  exact ⟨o, k, rfl, h⟩

/-- What holds at the operation the task is at. -/
theorem Watched.holds {c : Config Res Ret St} {o : Op} {k : Res o → Prog Res Ret}
    {u' : Option (Prog Res Ret)} (hg : P.Good c) (hw : P.Watched W t u Q F c x)
    (ht : c.tasks t = some ⟨.op o k, u'⟩) : u' = u ∧ W.holds o x c.shared := by
  rw [Watched, ht] at hw
  obtain ⟨_, _, heq, hw⟩ := hw
  cases heq
  exact ⟨rfl, (hw c.shared (P.rely_refl t c.shared) hg.1).1⟩

/-- A task that is over has kept to its watch. -/
theorem Watched.over {c : Config Res Ret St} (hw : P.Watched W t u Q F c x)
    (ht : c.tasks t = none) : F x c.shared := by
  rw [Watched, ht] at hw
  exact hw

/-- **A step keeps the watch**, of the task itself or of another. -/
theorem Watched.step {c c' : Config Res Ret St} {l : Label Ans Call} (hg : P.Good c)
    (henter : ∀ s, P.inv s → P.guar (M.next s) s (M.enter s))
    (hF : ∀ x s s', F x s → P.rely t s s' → F x s')
    (hfinish : ∀ v x s, Q v x s → F x (M.finish t v s))
    (hw : P.Watched W t u Q F c x) (hs : M.step c l = some c') (hd : l ≠ .drop t)
    (hlt : t ≠ M.next c.shared) :
    P.Watched W t u Q F c' (c.record W.update t l x) := by
  by_cases hl : Machine.moves t l
  · cases l with
    | start call => exact hl.elim
    | drop t' =>
        obtain rfl : t' = t := hl
        exact absurd rfl hd
    | run t' a =>
        obtain rfl : t' = t := hl
        cases M.step_shared hs with
        | @run _ _ o k u' r s' htask hexec hsh =>
        rw [Watched, htask] at hw
        obtain ⟨_, _, heq, hw⟩ := hw
        cases heq
        obtain ⟨-, hk⟩ := hw c.shared (P.rely_refl t' c.shared) hg.1
        have hrec : c.record W.update t' (.run t' a : Label Ans Call) x =
            W.update o a c.shared x := by
          simp only [Config.record, htask, if_true]
        rw [hrec]
        have hi' : P.inv s' := by
          obtain ⟨hlt', hsafe⟩ := hg.2 t' _ htask
          exact ((hsafe o k rfl c.shared (P.rely_refl t' c.shared) hg.1 hlt').2 a r s' hexec).1
        have hk' := hk a r s' hexec hi'
        rcases hsh with ⟨o', k', hkr, hsh, htask'⟩ | ⟨v, hv, hsh, htask'⟩
        · rw [Watched, htask', hsh]
          rw [hkr] at hk' ⊢
          exact ⟨o', k', rfl, hk'⟩
        · rw [Watched, htask', hsh]
          rw [hv] at hk'
          exact hfinish v _ _ hk'
  · have hrec : c.record W.update t l x = x := by
      cases l with
      | run t' a =>
          have hne : ¬ t' = t := hl
          simp only [Config.record, if_neg hne]
      | drop t' => rfl
      | start call => rfl
    have hr := hg.rely henter hs hl hlt
    have htasks := M.step_tasks hs hl hlt
    rw [hrec]
    rw [Watched] at hw ⊢
    rw [htasks]
    cases htask : c.tasks t with
    | none =>
        rw [htask] at hw
        exact hF x _ _ hw hr
    | some task =>
        rw [htask] at hw
        obtain ⟨o, k, hp, hw⟩ := hw
        exact ⟨o, k, hp, tracked_of_rely hw hr⟩

/-- **The drop of a watched task**: it was at an await point, and is unwinding now. -/
theorem Watched.dropped {c c' : Config Res Ret St} (hg : P.Good c)
    (hw : P.Watched W t u Q F c x) (hs : M.step c (.drop t) = some c') :
    ∃ o k p, c.tasks t = some ⟨.op o k, u⟩ ∧ u = some p ∧ M.awaits o = true ∧
      W.holds o x c.shared ∧ c'.shared = c.shared ∧ c'.tasks t = some ⟨p, none⟩ := by
  cases M.step_shared hs with
  | @drop _ o k p htask haw hsh hun =>
      obtain ⟨rfl, hh⟩ := hw.holds hg htask
      exact ⟨o, k, p, htask, rfl, haw, hh, hsh, hun⟩

end Protocol

end Shepherd.Conc
