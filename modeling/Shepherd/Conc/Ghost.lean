import Shepherd.Conc.Track

/-!
# Ghost Memory

A ghost memory is updated by every operation of a run and read by none: it says what a run
has done where the shared state does not.

* `Machine.Recorded` — a run with its memory. Every run has one (`Recorded.of_reachable`), and
  a memory that is computed from another is recorded with it (`Recorded.map`).
* `Protocol.AllTracked` — every task keeps to a watch of its own, and what runs when it is
  dropped does; kept by every step (`AllTracked.step`), so it holds in every run
  (`AllTracked.of_recorded`).
* `Prog.All` — every operation of a program satisfies a condition. A program without the
  operations that a watch asks about keeps to it (`Protocol.tracked_of_all`).
-/

namespace Shepherd.Conc

variable {Op : Type} {Res : Op → Type} {Ret St Ans Call X G G' : Type}

/-! ### Memory -/

/-- The memory after a step. -/
def Config.remember (c : Config Res Ret St) (update : Tid → Op → Ans → St → G → G)
    (l : Label Ans Call) (g : G) : G :=
  match l with
  | .run t a =>
      match c.tasks t with
      | some ⟨.op o _, _⟩ => update t o a c.shared g
      | _ => g
  | _ => g

/-- The configurations that runs from the shared state `s₀` reach, with their memories. -/
inductive Machine.Recorded (M : Machine Res Ret St Ans Call)
    (update : Tid → Op → Ans → St → G → G) (s₀ : St) (g₀ : G) : Config Res Ret St → G → Prop
  | initial : Recorded M update s₀ g₀ (Machine.initial s₀) g₀
  | step {c c' : Config Res Ret St} {g : G} (l : Label Ans Call) :
      Recorded M update s₀ g₀ c g → M.step c l = some c' →
      Recorded M update s₀ g₀ c' (c.remember update l g)

namespace Machine.Recorded

variable {M : Machine Res Ret St Ans Call} {update : Tid → Op → Ans → St → G → G} {s₀ : St}
  {g₀ g : G} {c : Config Res Ret St}

/-- A run with a record is a run. -/
theorem reachable (h : M.Recorded update s₀ g₀ c g) : M.Reachable s₀ c := by
  induction h with
  | initial => exact .initial
  | step l _ hs ih => exact ih.step hs

/-- Every run has a memory. -/
theorem of_reachable (update : Tid → Op → Ans → St → G → G) (g₀ : G)
    (h : M.Reachable s₀ c) : ∃ g, M.Recorded update s₀ g₀ c g := by
  induction h with
  | initial => exact ⟨g₀, .initial⟩
  | step l _ _ hs ih =>
      obtain ⟨g, hg⟩ := ih
      exact ⟨_, hg.step l hs⟩

/-- A memory that is computed from another. -/
theorem map {update' : Tid → Op → Ans → St → G' → G'} (f : G → G')
    (hf : ∀ t o a s g, f (update t o a s g) = update' t o a s (f g))
    (h : M.Recorded update s₀ g₀ c g) : M.Recorded update' s₀ (f g₀) c (f g) := by
  induction h with
  | initial => exact .initial
  | @step c c' g l _ hs ih =>
      have heq : f (c.remember update l g) = c.remember update' l (f g) := by
        cases l with
        | run t a =>
            simp only [Config.remember]
            split
            · exact hf _ _ _ _ _
            · rfl
        | drop t => rfl
        | start call => rfl
      exact heq ▸ ih.step l hs

end Machine.Recorded

/-- Follows a schedule, and keeps the memory. -/
def Machine.record (M : Machine Res Ret St Ans Call) (update : Tid → Op → Ans → St → G → G) :
    Config Res Ret St × G → List (Label Ans Call) → Option (Config Res Ret St × G)
  | cg, [] => some cg
  | cg, l :: ls =>
      match M.step cg.1 l with
      | some c' => record M update (c', cg.1.remember update l cg.2) ls
      | none => none

/-- A schedule with a record extends a run with one. -/
theorem Machine.Recorded.record {M : Machine Res Ret St Ans Call}
    {update : Tid → Op → Ans → St → G → G} {s₀ : St} {g₀ : G} {cg cg' : Config Res Ret St × G}
    {ls : List (Label Ans Call)} (h : M.Recorded update s₀ g₀ cg.1 cg.2)
    (hf : M.record update cg ls = some cg') : M.Recorded update s₀ g₀ cg'.1 cg'.2 := by
  induction ls generalizing cg with
  | nil =>
      obtain rfl := Option.some.inj hf
      exact h
  | cons l ls ih =>
      rw [Machine.record] at hf
      split at hf
      · next hs => exact ih (h.step l hs) hf
      · cases hf

/-! ### Every task -/

namespace Protocol

variable {M : Machine Res Ret St Ans Call} (P : Protocol M)
  (W : Tid → Watch Op Ans St X) (D : Tid → Op → X → St → Prop) (Q : Tid → Ret → X → St → Prop)

/-- The watch of a task that nobody can drop. -/
def detachedWatch (t : Tid) : Watch Op Ans St X where
  update := (W t).update
  holds o x s := (W t).holds o x s ∧ D t o x s

/-- The watch of a task: where it can be dropped, what runs then keeps to the watch as well. -/
def taskWatch (t : Tid) (u : Option (Prog Res Ret)) : Watch Op Ans St X where
  update := (W t).update
  holds o x s := (W t).holds o x s ∧
    match u with
    | none => D t o x s
    | some p => M.awaits o = true →
        (∃ o k, p = .op o k) ∧ P.tracked (detachedWatch W D t) t p (Q t) x s

/-- The task keeps to its watch, and so does what runs when it is dropped. -/
def TracksTask (t : Tid) (task : Task Res Ret) (x : X) (s : St) : Prop :=
  (∃ o k, task.prog = .op o k) ∧
    P.tracked (P.taskWatch W D Q t task.unwind) t task.prog (Q t) x s

/-- Every task keeps to its watch; a task that is over has left `F`, and a task that is not
there yet has an empty memory. -/
structure AllTracked (F : Tid → X → St → Prop) (x₀ : X) (c : Config Res Ret St)
    (x : Tid → X) : Prop where
  fresh : ∀ t, M.next c.shared ≤ t → x t = x₀
  task : ∀ t task, c.tasks t = some task → P.TracksTask W D Q t task (x t) c.shared
  ended : ∀ t, c.tasks t = none → F t (x t) c.shared

/-- Each task remembers what it does. -/
def ownMemory (t : Tid) (o : Op) (a : Ans) (s : St) (x : Tid → X) : Tid → X :=
  Function.update x t ((W t).update o a s (x t))

variable {P W D Q} {F : Tid → X → St → Prop} {x₀ : X} {x : Tid → X} {c c' : Config Res Ret St}

/-- A program keeps to a watch that asks for less. -/
theorem tracked_holds {α : Type} {W₁ W₂ : Watch Op Ans St X} {t : Tid} {p : Prog Res α}
    {R : α → X → St → Prop} {y : X} {s : St} (hu : W₂.update = W₁.update)
    (hW : ∀ o x s, W₁.holds o x s → W₂.holds o x s) (h : P.tracked W₁ t p R y s) :
    P.tracked W₂ t p R y s := by
  induction p generalizing y s with
  | pure v => exact h
  | op o k ih =>
      intro s₁ hr hi
      obtain ⟨hh, hk⟩ := h s₁ hr hi
      refine ⟨hW _ _ _ hh, fun a r s₂ he hi₂ => ih r ?_⟩
      rw [hu]
      exact hk a r s₂ he hi₂

/-- A task that keeps to its watch does so after steps of others. -/
theorem TracksTask.rely {t : Tid} {task : Task Res Ret} {y : X} {s s' : St}
    (h : P.TracksTask W D Q t task y s) (hr : P.rely t s s') :
    P.TracksTask W D Q t task y s' := by
  obtain ⟨p, u⟩ := task
  obtain ⟨⟨o, k, rfl⟩, h⟩ := h
  exact ⟨⟨o, k, rfl⟩, tracked_of_rely h hr⟩

/-- What holds at the operation a task is at. -/
theorem AllTracked.holds {t : Tid} {o : Op} {k : Res o → Prog Res Ret}
    {u : Option (Prog Res Ret)} (h : P.AllTracked W D Q F x₀ c x) (hg : P.Good c)
    (ht : c.tasks t = some ⟨.op o k, u⟩) : (P.taskWatch W D Q t u).holds o (x t) c.shared :=
  ((h.task t _ ht).2 c.shared (P.rely_refl t c.shared) hg.1).1

/-- The invariant after an operation. -/
theorem Good.exec {t : Tid} {a : Ans} {o : Op} {k : Res o → Prog Res Ret}
    {u : Option (Prog Res Ret)} {r : Res o} {s' : St} (hg : P.Good c)
    (ht : c.tasks t = some ⟨.op o k, u⟩) (he : M.exec t o a c.shared = some (r, s')) :
    P.inv s' := by
  obtain ⟨hlt, hsafe⟩ := hg.2 t _ ht
  exact ((hsafe o k rfl c.shared (P.rely_refl t c.shared) hg.1 hlt).2 a r s' he).1

/-- What holds when a task returns. -/
theorem AllTracked.returns {t : Tid} {a : Ans} {o : Op} {k : Res o → Prog Res Ret}
    {u : Option (Prog Res Ret)} {r : Res o} {s' : St} {v : Ret}
    (h : P.AllTracked W D Q F x₀ c x) (hg : P.Good c) (ht : c.tasks t = some ⟨.op o k, u⟩)
    (he : M.exec t o a c.shared = some (r, s')) (hv : k r = .pure v) :
    Q t v ((W t).update o a c.shared (x t)) s' := by
  have hcont := ((h.task t _ ht).2 c.shared (P.rely_refl t c.shared) hg.1).2 a r s' he
    (Good.exec hg ht he)
  rw [hv] at hcont
  exact hcont

/-- The task that an operation spawns is the only new one. -/
theorem tasks_of_run {t t' : Tid} {a : Ans} {o : Op} {k : Res o → Prog Res Ret}
    {u : Option (Prog Res Ret)} {r : Res o} {s' : St} (ht : c.tasks t = some ⟨.op o k, u⟩)
    (he : M.exec t o a c.shared = some (r, s')) (hs : M.step c (.run t a) = some c')
    (hne : t' ≠ t) : c'.tasks t' =
      (Config.add (M.next c.shared) (M.spawn o r) ⟨s', c.tasks⟩ : Config Res Ret St).tasks t' := by
  simp only [Machine.step, ht, he, Option.some.injEq] at hs
  subst hs
  cases k r with
  | pure v => exact Function.update_of_ne hne ..
  | op o' k' => exact Function.update_of_ne hne ..

/-- What a step relies on: tasks are started when they are ready, and what is left of a task
that is over is stable. -/
structure Tracks (P : Protocol M) (W : Tid → Watch Op Ans St X) (D : Tid → Op → X → St → Prop)
    (Q : Tid → Ret → X → St → Prop) (F : Tid → X → St → Prop) (x₀ : X) : Prop where
  enter : ∀ call s, P.inv s → P.guar (M.next s) s (M.enter s) ∧
    P.ready (M.next s) (M.entry call) (M.enter s)
  ready : ∀ t task s, P.ready t task s → P.TracksTask W D Q t task x₀ s
  rely : ∀ t y s s', F t y s → P.rely t s s' → F t y s'
  absent : ∀ t s, F t x₀ s
  finish : ∀ t v y s, Q t v y s → F t y (M.finish t v s)

/-- **A step of one task keeps all tasks to their watches.** If the step ends the task, its return
is one more step of it. -/
theorem AllTracked.run {t : Tid} {a : Ans} (hT : Tracks P W D Q F x₀) (hg : P.Good c)
    (h : P.AllTracked W D Q F x₀ c x) (hs : M.step c (.run t a) = some c') :
    P.AllTracked W D Q F x₀ c' (c.remember (ownMemory W) (.run t a : Label Ans Call) x) := by
  cases M.step_shared hs with
  | @run _ _ o k u r s' htask hexec hsh =>
  obtain ⟨hlt, hsafe⟩ := hg.2 t _ htask
  obtain ⟨-, hstep⟩ := hsafe o k rfl c.shared (P.rely_refl t c.shared) hg.1 hlt
  obtain ⟨hi', hguar, hspawn, hk⟩ := hstep a r s' hexec
  have hmem : c.remember (ownMemory W) (.run t a : Label Ans Call) x =
      Function.update x t ((W t).update o a c.shared (x t)) := by
    simp only [Config.remember, htask, ownMemory]
  rw [hmem]
  have hother : ∀ t', t' ≠ t → Function.update x t ((W t).update o a c.shared (x t)) t' = x t' :=
    fun t' hne => Function.update_of_ne hne ..
  have hret : ∀ t', t' ≠ t → P.rely t' s' c'.shared := by
    intro t' hne
    rcases hsh with ⟨_, _, -, hsh, -⟩ | ⟨v, hv, hsh, -⟩
    · exact hsh ▸ P.rely_refl t' s'
    · rw [hv] at hk
      exact hsh ▸ hk.2 t' hne
  have hrely : ∀ t', t' ≠ t → P.rely t' c.shared c'.shared :=
    fun t' hne => P.rely_trans (hguar t' hne) (hret t' hne)
  have hcont := ((h.task t _ htask).2 c.shared (P.rely_refl t c.shared) hg.1).2 a r s' hexec hi'
  refine ⟨fun t' hle => ?_, fun t' task htask' => ?_, fun t' hnone => ?_⟩
  · have hle' := Nat.le_trans (M.step_next hs) hle
    rw [hother t' (fun heq => Nat.lt_irrefl t (Nat.lt_of_lt_of_le hlt (heq ▸ hle')))]
    exact h.fresh t' hle'
  · by_cases hne : t' = t
    · subst hne
      rw [Function.update_self]
      rcases hsh with ⟨o', k', hop, hsh, hput⟩ | ⟨v, -, -, hput⟩
      · obtain rfl := Option.some.inj (hput.symm.trans htask')
        rw [hsh]
        exact ⟨⟨o', k', hop⟩, hcont⟩
      · cases hput.symm.trans htask'
    · rw [hother t' hne]
      rw [tasks_of_run htask hexec hs hne] at htask'
      cases hnew : M.spawn o r with
      | none =>
          rw [hnew] at htask'
          exact (h.task t' task htask').rely (hrely t' hne)
      | some new =>
          rw [hnew] at htask'
          simp only [Config.add, Function.update_apply] at htask'
          split at htask'
          · next heq =>
              obtain rfl := Option.some.inj htask'
              rw [h.fresh t' (Nat.le_of_eq heq.symm)]
              exact (hT.ready t' new s' (heq ▸ hspawn new hnew)).rely (hret t' hne)
          · exact (h.task t' task htask').rely (hrely t' hne)
  · by_cases hne : t' = t
    · subst hne
      rw [Function.update_self]
      rcases hsh with ⟨o', k', -, -, hput⟩ | ⟨v, hv, hsh, -⟩
      · cases hput.symm.trans hnone
      · rw [hv] at hcont
        exact hsh ▸ hT.finish t' v _ s' hcont
    · rw [hother t' hne]
      rw [tasks_of_run htask hexec hs hne] at hnone
      have hnone' : c.tasks t' = none := by
        cases hnew : M.spawn o r with
        | none => rwa [hnew] at hnone
        | some new =>
            rw [hnew] at hnone
            simp only [Config.add, Function.update_apply] at hnone
            split at hnone
            · cases hnone
            · exact hnone
      exact hT.rely t' _ _ _ (h.ended t' hnone') (hrely t' hne)

/-- **A step keeps every task to its watch.** -/
theorem AllTracked.step {l : Label Ans Call} (hT : Tracks P W D Q F x₀) (hg : P.Good c)
    (h : P.AllTracked W D Q F x₀ c x) (hs : M.step c l = some c') :
    P.AllTracked W D Q F x₀ c' (c.remember (ownMemory W) l x) := by
  cases l with
  | run t a => exact h.run hT hg hs
  | drop t =>
      simp only [Machine.step] at hs
      split at hs
      case h_2 => cases hs
      next o k p htask =>
      split at hs
      case isFalse => cases hs
      next haw =>
      obtain rfl := Option.some.inj hs
      have hdrop := ((h.task t _ htask).2 c.shared (P.rely_refl t c.shared) hg.1).1.2 haw
      refine ⟨h.fresh, fun t' task htask' => ?_, fun t' hnone => ?_⟩
      · simp only [Function.update_apply] at htask'
        split at htask'
        · next heq =>
            obtain rfl := Option.some.inj htask'
            subst heq
            exact hdrop
        · exact h.task t' task htask'
      · simp only [Function.update_apply] at hnone
        split at hnone
        · cases hnone
        · exact h.ended t' hnone
  | start call =>
      obtain rfl := Option.some.inj hs
      obtain ⟨hguar, hready⟩ := hT.enter call c.shared hg.1
      refine ⟨fun t' hle => ?_, fun t' task htask' => ?_, fun t' hnone => ?_⟩
      · have hle' : M.next c.shared + 1 ≤ t' := M.next_enter c.shared ▸ hle
        exact h.fresh t' (Nat.le_of_succ_le hle')
      · simp only [Function.update_apply] at htask'
        split at htask'
        · next heq =>
            obtain rfl := Option.some.inj htask'
            subst heq
            have hx : x (M.next c.shared) = x₀ := h.fresh _ (Nat.le_refl _)
            change P.TracksTask W D Q _ _ (x (M.next c.shared)) _
            rw [hx]
            exact hT.ready _ _ _ hready
        · next hne => exact (h.task t' task htask').rely (hguar t' hne)
      · simp only [Function.update_apply] at hnone
        split at hnone
        · cases hnone
        · next hne => exact hT.rely t' _ _ _ (h.ended t' hnone) (hguar t' hne)

/-- **In every run, every task keeps to its watch.** -/
theorem AllTracked.of_recorded {s₀ : St} (hT : Tracks P W D Q F x₀)
    (hgood : ∀ c, M.Reachable s₀ c → P.Good c)
    (h : M.Recorded (ownMemory W) s₀ (fun _ => x₀) c x) : P.AllTracked W D Q F x₀ c x := by
  induction h with
  | initial => exact ⟨fun _ _ => rfl, fun t task ht => (nomatch ht), fun t _ => hT.absent t _⟩
  | step l hr hs ih => exact ih.step hT (hgood _ hr.reachable) hs

end Protocol

/-! ### All operations of a program -/

namespace Prog

variable {α β : Type} {φ : Op → Prop} {ψ : α → Prop} {χ : β → Prop}

/-- Every operation that the program can get to satisfies `φ`, and every value that it may
return `ψ`. -/
def All (φ : Op → Prop) (ψ : α → Prop) : Prog Res α → Prop
  | .pure v => ψ v
  | .op o k => φ o ∧ ∀ r, All φ ψ (k r)

/-- A weaker condition on the operations, and on the results. -/
theorem All.mono {φ' : Op → Prop} {ψ' : α → Prop} {p : Prog Res α} (hφ : ∀ o, φ o → φ' o)
    (hψ : ∀ v, ψ v → ψ' v) (hp : p.All φ ψ) : p.All φ' ψ' := by
  induction p with
  | pure v => exact hψ v hp
  | op o k ih => exact ⟨hφ o hp.1, fun r => ih r (hp.2 r)⟩

/-- A condition over two programs in a row. -/
theorem All.bind {p : Prog Res α} {f : α → Prog Res β} (hp : p.All φ ψ)
    (hf : ∀ v, ψ v → (f v).All φ χ) : (p.bind f).All φ χ := by
  induction p with
  | pure v => exact hf v hp
  | op o k ih => exact ⟨hp.1, fun r => ih r (hp.2 r)⟩

end Prog

/-- A program keeps to a watch that asks nothing of its operations, and an assertion that they
do not break holds after it. -/
theorem Protocol.tracked_of_all {M : Machine Res Ret St Ans Call} {P : Protocol M}
    {W : Watch Op Ans St X} {φ : Op → Prop} {t : Tid} {α : Type} {ψ : α → Prop}
    {F : X → St → Prop} {p : Prog Res α} {y : X} {s : St} (hp : p.All φ ψ)
    (hrely : ∀ x s s', F x s → P.rely t s s' → F x s')
    (hexec : ∀ o a r x s s', φ o → F x s → M.exec t o a s = some (r, s') →
      F (W.update o a s x) s')
    (hholds : ∀ o x s, φ o → F x s → W.holds o x s) (h : F y s) :
    P.tracked W t p (fun v x s => ψ v ∧ F x s) y s := by
  induction p generalizing y s with
  | pure v => exact ⟨hp, h⟩
  | op o k ih =>
      intro s₁ hr _
      have h₁ := hrely y s s₁ h hr
      exact ⟨hholds o y s₁ hp.1 h₁, fun a r s₂ he _ =>
        ih r (hp.2 r) (hexec o a r y s₁ s₂ hp.1 h₁ he)⟩

/-- What a program returns, beside what it keeps to. -/
theorem Protocol.tracked_returns {M : Machine Res Ret St Ans Call} {P : Protocol M}
    {W : Watch Op Ans St X} {φ : Op → Prop} {t : Tid} {α : Type} {ψ : α → Prop}
    {Q : α → X → St → Prop} {p : Prog Res α} {y : X} {s : St} (hp : p.All φ ψ)
    (h : P.tracked W t p Q y s) : P.tracked W t p (fun v x s => ψ v ∧ Q v x s) y s := by
  induction p generalizing y s with
  | pure v => exact ⟨hp, h⟩
  | op o k ih =>
      intro s₁ hr hi
      obtain ⟨hh, hk⟩ := h s₁ hr hi
      exact ⟨hh, fun a r s₂ he hi₂ => ih r (hp.2 r) (hk a r s₂ he hi₂)⟩

end Shepherd.Conc
