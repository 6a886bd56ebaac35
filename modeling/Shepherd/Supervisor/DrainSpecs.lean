import Shepherd.Supervisor.SpawnSpecs

/-!
# Draining a Scope

The part of `terminate_scope_operation` before the commit. It runs under the operation lock
of a scope that is not committed: the scope is drained, every process that is still tracked
gets a termination worker, the outcomes of the workers are entered, and the processes
without a verified outcome are observed once more.

At the end every process that was tracked when the scope began to drain has a pending
outcome, whoever entered it (`Inv.pending_complete`).
-/

open Std

namespace Shepherd

open Conc

variable {t : Tid} {s s' s₀ : Inner} {u : Inner → Prop} {c : ProcessScopeId} {p : ProcessId}
  {h h' : History} {d : List ProcessId}

/-! ### Tasks that can be dropped -/

/-- The task may be dropped whenever its guards can be released. -/
def Abandonable (t : Tid) (u : Inner → Prop) (s : Inner) : Prop :=
  ∀ s', s.history <:+ s'.history → Inv s' → t < s'.nextTask → Droppable t s' → u s'

/-- A task that can be abandoned can be abandoned later. -/
theorem Abandonable.mono (hs : s.history <:+ s'.history) (hu : Abandonable t u s) :
    Abandonable t u s' :=
  fun s₁ h₁ => hu s₁ (hs.trans h₁)

/-- The events of a termination before its commit. -/
def Event.draining : Event → Bool
  | .lookedUp _ | .drained _ _ | .pended _ _ => true
  | ev => ev.calm

/-- A later state in which `t` caused only events of a termination before its commit. -/
abbrev Draining (t : Tid) : Inner → Inner → Prop :=
  Since (fun ev => ev.draining = true) t

/-- A calm event is one of draining. -/
theorem Event.draining_of_calm {ev : Event} (hc : ev.calm = true) : ev.draining = true := by
  cases ev <;> first | rfl | cases hc

namespace Draining

/-- Calm steps are steps of draining. -/
theorem of_calm (hs : Calm t s s') : Draining t s s' :=
  hs.mono fun _ => Event.draining_of_calm

/-- What the other tasks do is a stretch of draining. -/
theorem of_rely (hr : Rely t s s') : Draining t s s' :=
  hr.mono fun _ hf => hf.elim

/-- Draining does not commit the scope whose lock the task holds. -/
theorem committed (hs : Draining t s s') (hh : (s.operations c).holder = some t)
    (hp : Committed s'.history c) : Committed s.history c := by
  obtain ⟨r, hr⟩ := hp
  exact ⟨r, hs.frozen hh rfl (by simp [Event.draining, Event.calm]) hr⟩

/-- A task that can be dropped now can be dropped after any steps of draining. -/
theorem await (hu : Abandonable t u s) (hd : Droppable t s) :
    Await (fun ev => ev.draining = true) t u s := fun s' hs' hi ht =>
  hu s' hs'.suffix hi ht (hs'.droppable (by simp [Event.draining, Event.calm])
    (by simp [Event.draining, Event.calm]) hd)

end Draining

/-- A task that may be dropped after steps of draining may be dropped after calm ones. -/
theorem Await.calm (hu : Await (fun ev => ev.draining = true) t u s) :
    Await (fun ev => ev.calm = true) t u s :=
  hu.mono fun _ => Event.draining_of_calm

/-! ### Workers -/

/-- The workers of a list are there for the processes of a list, and every process that is
not covered yet has one of them. -/
structure Workers (c : ProcessScopeId) (d : List ProcessId) (workers : List Tid)
    (h : History) : Prop where
  of_process : ∀ w ∈ workers, ∃ p ∈ d, Happened h (.workerStarted c p w)
  covered : ∀ p ∈ d, HasEvidence h p ∨ Happened h (.pended c p) ∨
    ∃ w ∈ workers, Happened h (.workerStarted c p w)

/-- The workers of a drained scope are its workers later on. -/
theorem Workers.mono {workers : List Tid} (hs : h <:+ h') (hw : Workers c d workers h) :
    Workers c d workers h' := by
  refine ⟨fun w hm => ?_, fun p hp => ?_⟩
  · obtain ⟨p, hp, hx⟩ := hw.of_process w hm
    exact ⟨p, hp, hx.mono hs⟩
  · rcases hw.covered p hp with hx | hx | ⟨w, hm, hx⟩
    · exact .inl (hx.mono hs)
    · exact .inr (.inl (hx.mono hs))
    · exact .inr (.inr ⟨w, hm, hx.mono hs⟩)

/-- Starting a worker for every process. -/
theorem wp_startWorkers {opts : TerminateOptions} {live : List (ProcessId × WaitFuture)}
    (hf : ∀ po ∈ live, FutureFor s.history po.1 po.2) (hs : Calm t s₀ s)
    (hu : Await (fun ev => ev.calm = true) t u s₀) :
    WP t u (startWorkers c opts live) (fun ws s' => Calm t s₀ s' ∧ s.history <:+ s'.history ∧
      (∀ w ∈ ws, ∃ po ∈ live, Happened s'.history (.workerStarted c po.1 w)) ∧
      ∀ po ∈ live, ∃ w ∈ ws, Happened s'.history (.workerStarted c po.1 w)) s := by
  induction live generalizing s with
  | nil => exact ⟨hs, List.suffix_refl _, by simp, by simp⟩
  | cons po rest ih =>
      obtain ⟨q, f⟩ := po
      rw [startWorkers, act_bind]
      refine wp_step fun s₁ hr₁ hi₁ ht₁ => ?_
      have hs₁ := hs.trans (Calm.of_rely hr₁)
      refine ⟨fun _ => hu s₁ hs₁ hi₁ ht₁, .of_guard rfl trivial, fun a w s₂ he hi₂ => ?_⟩
      have hs₂ : Calm t s₀ s₂ := hs₁.trans (exec_since (fun _ hev => hev.calm rfl) rfl he)
      have hsuf := hr₁.suffix.trans (exec_suffix he)
      obtain ⟨rfl, rfl⟩ := Prod.mk.inj (Option.some.inj he)
      have hstart : Happened ((t, Event.workerStarted c q s₁.nextTask) :: s₁.history)
          (.workerStarted c q s₁.nextTask) := by simp
      refine ⟨fun role hrole => ?_, ?_⟩
      · obtain rfl := Option.some.inj hrole
        refine ⟨fun ev hmem => ?_, hstart, FutureFor.mono hsuf (hf _ List.mem_cons_self)⟩
        rcases List.mem_cons.mp hmem with heq | hmem
        · exact absurd (Prod.mk.inj heq).1 (Nat.ne_of_gt ht₁)
        · exact Nat.lt_irrefl _ (hi₁.tasks.below hmem)
      · refine wp_seq _ (ih (fun po hpo => ?_) hs₂) fun ws s₃ ⟨hs₃, h₃, hof, hcov⟩ => ?_
        · exact FutureFor.mono hsuf (hf po (List.mem_cons_of_mem _ hpo))
        refine ⟨hs₃, hsuf.trans h₃, fun w hw => ?_, fun po hpo => ?_⟩
        · rcases List.mem_cons.mp hw with rfl | hw
          · exact ⟨_, List.mem_cons_self, hstart.mono h₃⟩
          · obtain ⟨po, hpo, hx⟩ := hof w hw
            exact ⟨po, List.mem_cons_of_mem _ hpo, hx⟩
        · rcases List.mem_cons.mp hpo with rfl | hpo
          · exact ⟨_, List.mem_cons_self, hstart.mono h₃⟩
          · obtain ⟨w, hw, hx⟩ := hcov po hpo
            exact ⟨w, List.mem_cons_of_mem _ hw, hx⟩

/-- What a worker left is an exit of its process. -/
theorem Inv.worker_ended (hi : Inv s) {w : Tid} {q : ProcessId}
    {r : Except TerminateError ProcessExit} (hw : Happened s.history (.workerStarted c p w))
    (hj : s.joined w = some (.ended q r)) :
    q = p ∧ ∀ e, r = .ok e → e.Verified → HasEvidence s.history p := by
  obtain ⟨c', hmem⟩ := hi.tasks.ended hj
  obtain ⟨l₁, l₂, hsplit, hst, hret⟩ := hi.lawful.of_mem hmem
  have hs : l₂ <:+ s.history := ⟨l₁ ++ [(w, .returned (.worker c' q r))], by rw [hsplit]; simp⟩
  obtain ⟨-, rfl⟩ := hi.lawful.worker_unique hw (hst.mono hs)
  exact ⟨rfl, fun e he hv => ((hret e he).1 hv).mono hs⟩

/-- Without a commit, the pending outcomes of a scope were not cleared. -/
theorem Inv.pending_of_not_committed (hi : Inv s) (hn : ¬ Committed s.history c) :
    ¬ Happened s.history (.pendingCleared c) := fun hx =>
  hn (hi.lawful.committed_of_removed (hi.lawful.removed_of_retired
    (hi.lawful.retired_of_cleared hx)))

/-- **Joining the workers** enters an outcome for each of their processes; by induction on how many
are left, whichever ends first. -/
theorem wp_joinWorkers {n : ℕ} {workers : List Tid} (hn : n = workers.length)
    (hw : Workers c d workers s.history) (hh : (s₀.operations c).holder = some t)
    (hncm : ¬ Committed s₀.history c) (hd : Happened s₀.history (.drained c d))
    (hs : Draining t s₀ s) (hu : Await (fun ev => ev.draining = true) t u s₀) :
    WP t u (joinWorkers c n workers) (fun ok s' => Draining t s₀ s' ∧
      (ok = true → Workers c d [] s'.history)) s := by
  induction n generalizing s workers with
  | zero =>
      obtain rfl := List.length_eq_zero_iff.mp hn.symm
      exact ⟨hs, fun _ => hw⟩
  | succ n ih =>
      rw [joinWorkers, act_bind]
      refine wp_since (fun _ hev => (by cases hev)) rfl (fun _ => rfl) hs hu
        fun s₁ hr₁ hs₁ hi₁ => ⟨.of_guard rfl trivial, fun a r s₂ he hi₂ hs₂ => ?_⟩
      simp only [exec] at he
      split at he
      case h_2 => cases he
      next w =>
      split at he
      case isFalse => cases he
      next hmem =>
      obtain ⟨result, hj, heq⟩ := Option.map_eq_some_iff.mp he
      obtain ⟨rfl, rfl⟩ := Prod.mk.inj heq
      have hw₁ := hw.mono hr₁.suffix
      obtain ⟨q, hq, hst⟩ := hw₁.of_process w hmem
      have hpend : ∀ o : TerminationOutcome, (o.isVerified = true → HasEvidence s₁.history q) →
          WP t u (do act (.pend c q o); joinWorkers c n (workers.erase w))
            (fun ok s' => Draining t s₀ s' ∧ (ok = true → Workers c d [] s'.history)) s₁ := by
        intro o ho
        rw [act_bind]
        refine wp_since (fun _ hev => ?_) rfl (fun _ => rfl) hs₁ hu fun s₃ hr₃ hs₃ hi₃ => ?_
        · obtain rfl := hev
          rfl
        have hncl := hi₃.pending_of_not_committed fun hx => hncm (Draining.committed hs₃ hh hx)
        refine ⟨⟨fun c' hc' => ?_, ⟨d, hd.mono hs₃.suffix, hq⟩, hncl, fun hv =>
          (ho hv).mono hr₃.suffix⟩, fun a r s₄ he hi₄ hs₄ => ?_⟩
        · obtain rfl := Option.some.inj hc'
          exact (hs₃.holder c).mpr hh
        have hsuf := hr₃.suffix.trans (exec_suffix he)
        obtain ⟨-, rfl⟩ := Prod.mk.inj (Option.some.inj he)
        refine ih ?_ ⟨fun w' hw' => ?_, fun p hp => ?_⟩ hs₄
        · rw [List.length_erase_of_mem hmem, ← hn, Nat.add_sub_cancel]
        · exact (hw₁.mono hsuf).of_process w' (List.mem_of_mem_erase hw')
        · rcases (hw₁.mono hsuf).covered p hp with hx | hx | ⟨w', hw', hx⟩
          · exact .inl hx
          · exact .inr (.inl hx)
          · by_cases heq : w' = w
            · subst heq
              obtain ⟨-, rfl⟩ := hi₄.lawful.worker_unique hx (hst.mono hsuf)
              exact .inr (.inl (happened_cons.mpr (.inl rfl)))
            · exact .inr (.inr ⟨w', (List.mem_erase_of_ne heq).mpr hw', hx⟩)
      cases result with
      | failed => exact ⟨hs₂, fun hf => by cases hf⟩
      | ended q' r =>
          obtain ⟨rfl, hev⟩ := hi₁.worker_ended hst hj
          cases r with
          | ok e => exact hpend e.outcome fun hv => hev e rfl hv
          | error e => exact hpend _ fun hv => (by cases hv)

/-! ### The first section -/

/-- What draining a scope finds: an observer for every process that was tracked at the
first draining and has no evidence. -/
theorem Inv.drain_result (hi : Inv s) {events : List DomainEvent}
    {live : List (ProcessId × WaitFuture)} (heq : s.drain t c = (some (events, live), s')) :
    Dispatchable s'.history events ∧ (∀ po ∈ live, FutureFor s'.history po.1 po.2) ∧
    ∃ d, Happened s'.history (.drained c d) ∧ (∀ po ∈ live, po.1 ∈ d) ∧
      ∀ p ∈ d, HasEvidence s'.history p ∨ ∃ po ∈ live, po.1 = p := by
  rw [Inner.drain] at heq
  split at heq
  · cases heq
  next sc hsc =>
  obtain ⟨-, hfut, hids⟩ := hi.observers hsc
  dsimp only at heq
  injection heq with h₁ h₂
  obtain ⟨rfl, rfl⟩ := Prod.mk.inj (Option.some.inj h₁)
  have hmem : ∀ {p}, p ∈ sc.beginScopeTermination.2.processIds ↔
      ∃ po ∈ (Inner.observers sc.beginScopeTermination.2
        sc.beginScopeTermination.2.processIds s.waiters).1, po.1 = p := fun {p} => by
    rw [← List.mem_map, hids]
  have hsuf : s.history <:+ s'.history := by
    rw [← h₂]
    split
    · exact List.suffix_cons _ _
    · exact List.suffix_refl _
  refine ⟨fun ev hev => ?_, fun po hpo => FutureFor.mono hsuf (hfut po hpo), ?_⟩
  · obtain ⟨hev, -⟩ := List.mem_filter.mp hev
    obtain ⟨q, proc, -, -, rfl⟩ := ProcessScope.mem_beginScopeTermination_fst.mp hev
    exact ⟨fun c' heq => (by cases heq), fun c' p e heq => (by cases heq)⟩
  by_cases ho : sc.isOpen = true
  · rw [if_pos ho] at h₂
    refine ⟨sc.beginScopeTermination.2.processIds, ?_, fun po hpo => hmem.mpr ⟨po, hpo, rfl⟩,
      fun p hp => .inr (hmem.mp hp)⟩
    rw [← h₂]
    exact happened_cons.mpr (.inl rfl)
  · rw [if_neg ho] at h₂
    obtain ⟨d, hd⟩ : Drained s.history c := by
      by_contra hnd
      exact ho ((hi.processes.open_iff hsc).mpr hnd)
    refine ⟨d, hd.mono hsuf, fun po hpo => ?_, fun p hp => ?_⟩
    · obtain ⟨proc', hp'⟩ := (ProcessScope.mem_processIds _ po.1).mp (hmem.mpr ⟨po, hpo, rfl⟩)
      obtain ⟨proc, hp, -⟩ := sc.agrees_beginScopeTermination.back hp'
      exact hi.processes.within ⟨sc, hsc, hp⟩ hd
    · obtain ⟨_, l, hs, -, -, -, hatt, -⟩ := hi.lawful.of_happened hd
      obtain ⟨os, ha⟩ := hatt p hp
      rcases hi.processes.tracked (ha.mono hs) with hev | ⟨proc, sc', hsc', hp⟩
      · exact .inl (hev.mono hsuf)
      · obtain rfl := Option.some.inj (hsc.symm.trans hsc')
        exact .inr (hmem.mp ((ProcessScope.mem_processIds _ p).mpr
          (sc.agrees_beginScopeTermination.forth hp)))

/-- Draining finds no scope only where there is none. -/
theorem Inner.drain_none (heq : s.drain t c = (none, s')) : s.registry.get c = none := by
  rw [Inner.drain] at heq
  split at heq
  · assumption
  · cases heq

/-! ### Pending outcomes -/

/-- The pending outcomes of a scope, as a list and as a map. -/
theorem Inner.mem_pendingOf {o : TerminationOutcome} :
    (p, o) ∈ s.pendingOf c ↔ pendingIn s.pendingOutcomes c p = some o := by
  rw [Inner.pendingOf, pendingIn]
  cases s.pendingOutcomes[c]? with
  | none => simp
  | some m => exact ExtTreeMap.mem_toList_iff_getElem?_eq_some

/-- A process has one pending outcome. -/
theorem Inner.pendingOf_nodup (s : Inner) (c : ProcessScopeId) :
    ((s.pendingOf c).map Prod.fst).Nodup := by
  rw [Inner.pendingOf]
  cases s.pendingOutcomes[c]? with
  | none => simp
  | some m =>
      refine List.pairwise_map.mpr (ExtTreeMap.distinct_keys_toList.imp fun hne heq => ?_)
      exact hne (Std.compare_eq_iff_eq.mpr heq)

/-- Sound outcomes of the processes that were tracked when the scope began to drain. -/
def SoundOutcomes (h : History) (d : List ProcessId)
    (outcomes : List (ProcessId × TerminationOutcome)) : Prop :=
  ∀ po ∈ outcomes, po.1 ∈ d ∧ (po.2.isVerified = true → HasEvidence h po.1)

/-- Sound outcomes are sound later on. -/
theorem SoundOutcomes.mono {outcomes : List (ProcessId × TerminationOutcome)} (hs : h <:+ h')
    (ho : SoundOutcomes h d outcomes) : SoundOutcomes h' d outcomes := fun po hpo =>
  ⟨(ho po hpo).1, fun hv => ((ho po hpo).2 hv).mono hs⟩

/-- The pending outcomes of a drained scope are sound. -/
theorem Inv.pending_sound (hi : Inv s) (hd : Happened s.history (.drained c d)) :
    SoundOutcomes s.history d (s.pendingOf c) := by
  rintro ⟨q, o⟩ hpo
  have hp := Inner.mem_pendingOf.mp hpo
  obtain ⟨d', hd', hq⟩ := hi.pendings.drained hp
  rw [hi.lawful.drained_unique hd hd']
  exact ⟨hq, (hi.pendings.verified hp).mp⟩

/-- **Every process has a pending outcome** when all workers were joined. -/
theorem Inv.pending_complete (hi : Inv s) (hd : Happened s.history (.drained c d))
    (hn : ¬ Committed s.history c) (hw : Workers c d [] s.history) (hp : p ∈ d) :
    p ∈ (s.pendingOf c).map Prod.fst := by
  have hncl := hi.pending_of_not_committed hn
  have hpend : ∃ o, pendingIn s.pendingOutcomes c p = some o := by
    rcases hw.covered p hp with hev | hpd | ⟨w, hw, -⟩
    · exact hi.pendings.evidence hd hp hev hncl
    · exact hi.pendings.pended hpd hncl
    · cases hw
  obtain ⟨o, ho⟩ := hpend
  exact List.mem_map.mpr ⟨(p, o), Inner.mem_pendingOf.mpr ho, rfl⟩

/-! ### Observing again -/

/-- A second look returns a verified exit only with evidence. -/
theorem wp_reobserveOne {opts : TerminateOptions} (hs : Calm t s₀ s)
    (hu : Await (fun ev => ev.calm = true) t u s₀) :
    WP t u (reobserveOne opts p) (fun v s' => Calm t s₀ s' ∧
      ∀ e, v = some (.ok e) → e.Verified → HasEvidence s'.history p) s := by
  rw [reobserveOne]
  cases opts.forceTimeout with
  | some _ =>
      refine wp_within (Protocol.wp_mono (fun v s' hx => ?_) (wp_wait hs fun s' hs' hi ht => ?_))
      · refine ⟨hx.1, fun e heq => hx.2.1 e (Option.some.inj heq)⟩
      · exact ⟨hu s' hs' hi ht, hs', nofun⟩
  | none =>
      refine wp_seq _ (wp_wait hs hu) fun v s' hx => ?_
      exact ⟨hx.1, fun e heq => hx.2.1 e (Option.some.inj heq)⟩

/-- **Observing again** keeps the processes, and finds only what has evidence; by induction on the
outcomes. -/
theorem wp_reobserve {opts : TerminateOptions} {outcomes : List (ProcessId × TerminationOutcome)}
    (ho : SoundOutcomes s.history d outcomes) (hs : Calm t s₀ s)
    (hu : Await (fun ev => ev.calm = true) t u s₀) :
    WP t u (reobserve opts outcomes) (fun outcomes' s' => Calm t s₀ s' ∧
      s.history <:+ s'.history ∧ SoundOutcomes s'.history d outcomes') s := by
  induction outcomes generalizing s with
  | nil => exact ⟨hs, List.suffix_refl _, fun _ hpo => by cases hpo⟩
  | cons po rest ih =>
      obtain ⟨q, o⟩ := po
      obtain ⟨hq, hqo⟩ := ho _ List.mem_cons_self
      have hrest : ∀ {s₁ : Inner} (o' : TerminationOutcome), Calm t s₀ s₁ →
          s.history <:+ s₁.history → (o'.isVerified = true → HasEvidence s₁.history q) →
          WP t u (do let rest ← reobserve opts rest; return (q, o') :: rest)
            (fun outcomes' s' => Calm t s₀ s' ∧ s.history <:+ s'.history ∧
              SoundOutcomes s'.history d outcomes') s₁ := by
        intro s₁ o' hs₁ h₁ ho'
        have hor : SoundOutcomes s₁.history d rest :=
          SoundOutcomes.mono h₁ fun po hpo => ho po (List.mem_cons_of_mem _ hpo)
        refine wp_seq _ (ih hor hs₁) fun outcomes' s₂ ⟨hs₂, h₂, hsound⟩ => ?_
        refine ⟨hs₂, h₁.trans h₂, fun po hpo => ?_⟩
        rcases List.mem_cons.mp hpo with rfl | hpo
        · exact ⟨hq, fun hv => (ho' hv).mono h₂⟩
        · exact hsound po hpo
      rw [reobserve]
      split
      · exact hrest o hs (List.suffix_refl _) hqo
      · refine wp_seq _ (wp_reobserveOne (Since.refl t s) (hu.since hs))
          fun v s₁ ⟨hs₁, hv⟩ => ?_
        have hkeep := hrest o (hs.trans hs₁) hs₁.suffix fun hx => (hqo hx).mono hs₁.suffix
        rcases v with _ | (e | e)
        · exact hkeep
        · exact hkeep
        · exact hrest e.outcome (hs.trans hs₁) hs₁.suffix (hv e rfl)

end Shepherd
