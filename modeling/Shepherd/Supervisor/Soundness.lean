import Shepherd.Supervisor.CallSpecs

/-!
# Soundness

Every task of the system is safe when it is started, whatever the other tasks do and
wherever its future is dropped. By the adequacy theorem of the protocol, the invariant holds
in every reachable configuration: the history of every run is lawful, and the stores are
what the history makes of them.
-/

open Std

namespace Shepherd

open Conc

variable {t : Tid} {s : Inner} {c : ProcessScopeId}

/-! ### Dropped futures -/

/-- Releasing the guards of a dropped task. -/
theorem wp_dropGuards {α : Type} {f : Code α} {Q : α → Inner → Prop} {u : Inner → Prop}
    (hd : Droppable t s) (h : ∀ s', s.history <:+ s'.history → WP t u f Q s') :
    WP t u (do act .dropGuards; f) Q s := by
  rw [act_bind]
  refine wp_act (fun _ => rfl) fun s₁ hr₁ hi₁ ht₁ =>
    ⟨nofun, ⟨nofun, Calm.droppable (Calm.of_rely hr₁) hd⟩, fun a r s₂ he hi₂ => ?_⟩
  exact h s₂ (hr₁.suffix.trans (exec_suffix he))

/-- A call that can be dropped releases what it holds. -/
theorem droppable_unwound (hi : Inv s) (ht : t < s.nextTask) (hd : Droppable t s) :
    protocol.droppable t (some unwound) s :=
  droppable_of hi ht (wp_dropGuards hd fun _ _ => trivial)

/-- A `finish` that can be dropped releases what it holds, and its backstop answers the channel. -/
theorem droppable_unwoundFinish {withScope : Bool} (hi : Inv s) (ht : t < s.nextTask)
    (hd : Droppable t s) (hob : Observed s.history c) :
    protocol.droppable t (some (unwoundFinish c withScope)) s := by
  refine droppable_of hi ht (wp_dropGuards hd fun s₁ h₁ => ?_)
  refine wp_seq _ (wp_dropBackstop (hob.mono h₁)) fun _ s₂ h₂ => ?_
  exact wp_seq _ (wp_publishWorkerError (hob.mono (h₁.trans h₂))) fun _ _ _ => trivial

/-! ### Tasks -/

/-- A task that has done nothing is idle. -/
theorem Inv.idle (hi : Inv s) (hfresh : ∀ ev, (t, ev) ∉ s.history) : Idle t s :=
  ⟨fun _ _ => hfresh _, fun _ hh => hfresh _ (hi.tasks.holder hh)⟩

/-- An idle call can be dropped after any calm steps. -/
theorem await_unwound (hidle : Idle t s) :
    Await (fun ev => ev.calm = true) t (protocol.droppable t (some unwound)) s :=
  fun _ hs' hi' ht' => droppable_unwound hi' ht' (Calm.idle hs' hidle).droppable

/-- A call can be abandoned in any state in which it can be dropped. -/
theorem abandonable_unwound (t : Tid) (s : Inner) :
    Abandonable t (protocol.droppable t (some unwound)) s :=
  fun _ _ hi' ht' hd => droppable_unwound hi' ht' hd

/-- **Every call is safe.** -/
theorem safe_call (call : Call) (hi : Inv s) (ht : t < s.nextTask)
    (hfresh : ∀ ev, (t, ev) ∉ s.history) : protocol.safe t (Role.call call).task s := by
  have hidle := hi.idle hfresh
  refine safe_of hi ht ?_
  cases call with
  | createScope observed =>
      exact wp_act (fun _ => rfl) fun s₁ hr₁ hi₁ ht₁ =>
        ⟨nofun, .of_guard rfl trivial, fun _ _ _ _ _ => trivial⟩
  | spawn c spec admission =>
      exact wp_seq _ (wp_spawnOwned hfresh) fun v s' hj => hj
  | wait pid =>
      exact wp_seq _ (wp_wait (Since.refl t s) (await_unwound hidle)) fun v s' hj => hj.2
  | terminate pid opts =>
      exact wp_seq _ (wp_terminate (Since.refl t s) (await_unwound hidle)) fun v s' hj => hj.2
  | terminateScope c opts =>
      exact wp_seq _ (wp_terminateScope hidle (abandonable_unwound t s))
        fun v s' hj => ⟨hj.2.2.1, hj.2.2.2⟩
  | finish c opts withScope =>
      refine wp_takeOwner fun s₁ hi₁ hr₁ hob => ?_
      have hidle₁ := hidle.since (fun _ _ hf => hf) hr₁
      refine wp_seq _ (wp_finishScopeCleanup hidle₁ hob fun s' hs' hi' ht' hd => ?_)
        fun v s' hj => hj
      exact droppable_unwoundFinish hi' ht' hd (hob.mono hs')
  | dropOwner c withScope =>
      refine wp_takeOwner fun s₁ hi₁ hr₁ hob => ?_
      refine wp_seq _ (wp_dropBackstop hob) fun _ s₂ h₂ => ?_
      exact wp_seq _ (wp_publishWorkerError (hob.mono h₂)) fun _ _ _ => trivial
  | waitScopeCleanup c =>
      exact wp_seq _ (wp_waitScopeCleanup hidle (abandonable_unwound t s)) fun v s' hj => hj
  | withScopeOptions c =>
      exact wp_seq _ (wp_awaitCleanup (Since.refl t s)
        (await_of_idle hidle (abandonable_unwound t s))) fun v s' hj => hj
  | shutdown => exact wp_shutdown hfresh hidle (abandonable_unwound t s)
  | dropSupervisor =>
      have hu : ∀ s₀, Await (fun ev => ev.calm = true) t (fun _ => True) s₀ :=
        fun _ _ _ _ _ => trivial
      refine wp_seq (fun _ _ => True) ?_ fun _ _ _ => trivial
      rw [dropCleanupGuard, act_bind]
      refine wp_skip rfl (fun _ => rfl) (fun _ => .of_guard rfl trivial) (Since.refl t s) (hu s)
        fun _ s₁ hs₁ _ => ?_
      rw [act_bind]
      refine wp_skip rfl (fun _ => rfl) (fun _ => .of_guard rfl trivial) hs₁ (hu s)
        fun _ s₂ hs₂ _ => ?_
      exact wp_skip rfl (fun _ => rfl) (fun _ => .of_guard rfl trivial) hs₂ (hu s)
        fun _ _ _ _ => trivial
  | sample pid value =>
      exact wp_act (fun _ => rfl) fun s₁ hr₁ hi₁ ht₁ =>
        ⟨nofun, .of_guard rfl trivial, fun _ _ _ _ _ => trivial⟩
  | takeOutput pid =>
      exact wp_act (fun _ => rfl) fun s₁ hr₁ hi₁ ht₁ =>
        ⟨nofun, .of_guard rfl trivial, fun _ _ _ _ _ => trivial⟩

/-- The dispatch of `ScopeClosed`, by the task it was handed to. -/
theorem wp_closing {u : Inner → Prop} (hfresh : ∀ ev, (t, ev) ∉ s.history)
    (hh : Happened s.history (.closedHanded c t)) (hu : ∀ s, u s) :
    WP t u (dispatch [.scopeClosed c]) (fun _ _ => True) s := by
  have hu' : Await (fun ev => ev.calm = true) t u s := fun s' _ _ _ => hu s'
  rw [dispatch, act_bind]
  refine wp_calm rfl (fun _ => rfl) (Since.refl t s) hu' fun s₁ hr₁ hs₁ hi₁ =>
    ⟨.of_guard rfl ⟨fun c' heq => ?_, fun c p e heq => ?_⟩, fun a r s₂ he hi₂ hs₂ => ?_⟩
  · obtain rfl := DomainEvent.scopeClosed.inj heq
    exact ⟨hh.mono hr₁.suffix, fun hm => hfresh _ (Since.own_rely hr₁ hm)⟩
  · cases heq
  rw [act_bind]
  refine wp_calm rfl (fun _ => rfl) hs₂ hu' fun s₃ _ hs₃ _ =>
    ⟨.of_guard rfl fun c p e heq => ?_, fun a r s₄ he hi₄ hs₄ => ?_⟩
  · cases heq
  rw [act_bind]
  refine wp_skip rfl (fun _ => rfl) (fun _ => .of_guard rfl trivial) hs₄ hu' fun _ s₅ hs₅ _ => ?_
  exact trivial

/-- **Every task is safe when it is started.** -/
theorem safe_of_ready {role : Role} (hi : Inv s) (ht : t < s.nextTask)
    (hr : Ready t role s) : protocol.safe t role.task s := by
  obtain ⟨hfresh, hrole⟩ := hr
  cases role with
  | call call => exact safe_call call hi ht hfresh
  | monitor c p os =>
      have hw := wp_monitor hrole.1 hrole.2 fun c e => hfresh (.reaped c p e)
      exact safe_of hi ht (wp_seq _ hw fun _ _ _ => trivial)
  | worker c p observer opts =>
      have hidle := hi.idle hfresh
      refine safe_of hi ht (wp_seq _ (wp_worker hrole.2 (Since.refl t s)
        fun s' hs' hi' ht' => ?_) fun v s' hv => ⟨hrole.1.mono hv.1.suffix, hv.2⟩)
      exact droppable_of hi' ht' (wp_dropGuards (Calm.idle hs' hidle).droppable
        fun _ _ => trivial)
  | closing c =>
      exact safe_of hi ht (wp_seq _ (wp_closing hfresh hrole fun _ => trivial)
        fun _ _ _ => trivial)

/-! ### All runs -/

/-- The start of a call. -/
theorem Inv.enter (hi : Inv s) : Inv { s with nextTask := s.nextTask + 1 } :=
  ⟨hi.lawful, hi.catalogue, hi.processes, hi.signals, hi.pendings, hi.commits, hi.results,
    hi.flags, hi.tasks.next (Nat.le_succ _)⟩

/-- The start of a call is nothing to the tasks there are. -/
theorem guar_enter (s : Inner) (_ : Inv s) :
    protocol.guar (supervisor.next s) s (supervisor.enter s) :=
  fun _ _ => ⟨⟨[], rfl, by simp⟩, fun _ => Iff.rfl⟩

/-- **Every reachable configuration is good.** -/
theorem good_of_reachable {cfg : Config Res Ret Inner} (h : Reachable cfg) :
    protocol.Good cfg := by
  refine Protocol.good (P := protocol) inv_new ?_ ?_ h
  · rintro t task s hi ht ⟨role, rfl, hr⟩
    exact safe_of_ready hi ht hr
  · refine fun call s hi => ⟨hi.enter, guar_enter s hi, .call call, rfl, ?_, trivial⟩
    exact fun ev hm => Nat.lt_irrefl _ (hi.tasks.below hm)

/-- **The invariant holds in every reachable configuration.** -/
theorem inv_of_reachable {cfg : Config Res Ret Inner} (h : Reachable cfg) : Inv cfg.shared :=
  (good_of_reachable h).1

/-! ### Steps and the history -/

/-- A step only adds to the history. -/
theorem step_suffix {cfg cfg' : Config Res Ret Inner} {l : Label Answer Call}
    (hs : supervisor.step cfg l = some cfg') : cfg.shared.history <:+ cfg'.shared.history := by
  cases supervisor.step_shared hs with
  | run _ hexec hsh =>
      have hsuf := exec_suffix hexec
      rcases hsh with ⟨_, _, -, hsh, -⟩ | ⟨v, -, hsh, -⟩
      · exact hsh ▸ hsuf
      · rw [hsh]
        exact hsuf.trans (List.suffix_cons _ _)
  | drop _ _ hsh => exact hsh ▸ List.suffix_refl _
  | start hsh => exact hsh ▸ List.suffix_refl _

/-- The history grows over a schedule. -/
theorem follow_suffix {cfg cfg' : Config Res Ret Inner} {ls : List (Label Answer Call)}
    (hf : supervisor.follow cfg ls = some cfg') :
    cfg.shared.history <:+ cfg'.shared.history := by
  induction ls generalizing cfg with
  | nil =>
      obtain rfl := Option.some.inj hf
      exact List.suffix_refl _
  | cons l ls ih =>
      rw [Machine.follow] at hf
      split at hf
      · next hs => exact (step_suffix hs).trans (ih hf)
      · cases hf

/-- What a step adds to the history, the task that moves has caused. -/
theorem step_own {cfg cfg' : Config Res Ret Inner} {l : Label Answer Call}
    (hs : supervisor.step cfg l = some cfg') (hl : ¬ Machine.moves t l)
    {ev : Event} (hm : (t, ev) ∈ cfg'.shared.history) : (t, ev) ∈ cfg.shared.history := by
  cases supervisor.step_shared hs with
  | @run t' a o k u r s' _ hexec hsh =>
      have hne : t ≠ t' := fun heq => hl heq.symm
      obtain ⟨-, evs, hh, -⟩ := exec_ext hexec
      have hown : (t, ev) ∈ s'.history → (t, ev) ∈ cfg.shared.history := fun hm => by
        rw [hh, List.mem_append] at hm
        refine hm.resolve_left fun hm => ?_
        obtain ⟨_, -, heq⟩ := List.mem_map.mp hm
        exact hne (Prod.mk.inj heq).1.symm
      rcases hsh with ⟨_, _, -, hsh, -⟩ | ⟨v, -, hsh, -⟩
      · rw [hsh] at hm
        exact hown hm
      · rw [hsh] at hm
        rcases List.mem_cons.mp hm with heq | hm
        · exact absurd (Prod.mk.inj heq).1 hne
        · exact hown hm
  | drop _ _ hsh =>
      rw [hsh] at hm
      exact hm
  | start hsh =>
      rw [hsh] at hm
      exact hm

/-- **A task that runs has not returned.** -/
theorem not_returned_of_running {cfg : Config Res Ret Inner} (h : Reachable cfg)
    {task : Task Res Ret} (ht : cfg.tasks t = some task) (v : Ret) :
    (t, .returned v) ∉ cfg.shared.history := by
  induction h generalizing task with
  | initial => cases ht
  | @step cfg cfg' l hr _ hs ih =>
      have hi := inv_of_reachable hr
      intro hm
      by_cases hl : Machine.moves t l
      · cases supervisor.step_shared hs with
        | @run t' a o k u r s' htask hexec hsh =>
            obtain rfl : t' = t := hl
            obtain ⟨-, evs, hh, hk⟩ := exec_ext hexec
            rcases hsh with ⟨_, _, -, hsh, -⟩ | ⟨v, -, -, hnone⟩
            · rw [hsh, hh, List.mem_append] at hm
              rcases hm with hm | hm
              · obtain ⟨ev, hev, heq⟩ := List.mem_map.mp hm
                obtain ⟨-, rfl⟩ := Prod.mk.inj heq
                exact not_emits_returned o v (hk _ hev)
              · exact ih htask hm
            · rw [hnone] at ht
              cases ht
        | drop htask _ hsh =>
            obtain rfl := hl
            rw [hsh] at hm
            exact ih htask hm
        | start => exact hl
      · have hm' := step_own hs hl hm
        by_cases hlt : t = supervisor.next cfg.shared
        · subst hlt
          exact Nat.lt_irrefl _ (hi.tasks.below hm')
        · rw [supervisor.step_tasks hs hl hlt] at ht
          exact ih ht hm'

end Shepherd
