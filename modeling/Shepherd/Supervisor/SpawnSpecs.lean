import Shepherd.Supervisor.ProcessSpecs

/-!
# Spawning

The specification of `spawn_owned`. Under the operation lock of a scope that is not
committed, the scope is neither removed nor drained by anybody else, so a spawn that was
admitted attaches its process and starts the monitor before it releases the lock, unless
the owners are gone.
-/

open Std

namespace Shepherd

open Conc

variable {t : Tid} {s s' s₀ : Inner} {c : ProcessScopeId} {p : ProcessId} {os : OsIdentity}
  {h h' : History}

/-- What the other tasks do adds no event of `t`. -/
theorem Since.own_rely {ev : Event} (hr : Rely t s s') (hm : (t, ev) ∈ s'.history) :
    (t, ev) ∈ s.history :=
  hr.own_mem (fun hf => hf) hm

/-! ### What is due before the lock is released -/

/-- Of a task's own, a lawful history has one return of `backend.spawn`. -/
theorem Lawful.spawnReturned_unique {c c' : ProcessScopeId}
    {r r' : Except SpawnError OsIdentity} {mid mid' past past' : History}
    (hl : Lawful (mid ++ (t, .spawnReturned c r) :: past))
    (heq : mid ++ (t, .spawnReturned c r) :: past =
      mid' ++ (t, .spawnReturned c' r') :: past') :
    mid = mid' ∧ c = c' ∧ r = r' ∧ past = past' := by
  have hnot : ∀ {m : History} {c r past}, Lawful (m ++ (t, .spawnReturned c r) :: past) →
      ∀ c' r', (t, .spawnReturned c' r') ∉ past := fun hl => (Chronicle.justified hl).2.2
  rcases List.append_eq_append_iff.mp heq with ⟨x, rfl, hx⟩ | ⟨x, rfl, hx⟩
  · cases x with
    | nil =>
        obtain ⟨h₁, h₂⟩ := List.cons.inj hx
        injection h₁ with _ h₁
        injection h₁ with h₁ h₃
        exact ⟨by simp, h₁, h₃, h₂⟩
    | cons y x =>
        obtain ⟨rfl, rfl⟩ := List.cons.inj hx
        exact absurd (List.mem_append_right x List.mem_cons_self) (hnot hl c' r')
  · cases x with
    | nil =>
        obtain ⟨h₁, h₂⟩ := List.cons.inj hx
        injection h₁ with _ h₁
        injection h₁ with h₁ h₃
        exact ⟨by simp, h₁.symm, h₃.symm, h₂.symm⟩
    | cons y x =>
        obtain ⟨rfl, rfl⟩ := List.cons.inj hx
        rw [heq] at hl
        exact absurd (List.mem_append_right x List.mem_cons_self) (hnot hl c r)

/-- A spawn whose process is settled stays settled. -/
theorem Settled.mono {mid : History} (ext : History) (hs : Settled t c os mid h) :
    Settled t c os (ext ++ mid) (ext ++ h) := by
  rcases hs with ⟨p, m, h₁, h₂⟩ | ⟨h₁, h₂, h₃, h₄, r, h₅⟩
  · exact .inl ⟨p, m, List.mem_append_right _ h₁, List.mem_append_right _ h₂⟩
  · exact .inr ⟨h₁.mono (List.suffix_append _ _), List.mem_append_right _ h₂,
      List.mem_append_right _ h₃, List.mem_append_right _ h₄, r, List.mem_append_right _ h₅⟩

/-- A task that got nothing from `backend.spawn` can release the lock. -/
theorem released_of_none (hn : ∀ c r, (t, .spawnReturned c r) ∉ h) :
    Justified t (.released c) h := by
  rintro mid os past rfl
  exact absurd (List.mem_append_right mid List.mem_cons_self) (hn c (.ok os))

/-- What can be released now can be released later, if no process was spawned since. -/
theorem released_of_since {own : Event → Prop} (hn : ∀ r, ¬ own (.spawnReturned c r))
    (hs : Since own t s s') (hj : Justified t (.released c) s.history) :
    Justified t (.released c) s'.history := by
  intro mid os past heq
  obtain ⟨⟨ext, he, hx⟩, -⟩ := hs
  rw [he] at heq ⊢
  rcases List.append_eq_append_iff.mp heq with ⟨x, rfl, hx'⟩ | ⟨x, rfl, hx'⟩
  · exact (hj x os past hx').mono _
  · cases x with
    | nil => simpa using (hj [] os past hx'.symm).mono mid
    | cons y x =>
        obtain ⟨rfl, -⟩ := List.cons.inj hx'
        exact absurd ((hx (t, .spawnReturned c (.ok os)) (by simp)).1 rfl) (hn _)

/-- `backend.spawn` returned a process to `t`, and `t` has caused some events since. -/
def Spawned (t : Tid) (c : ProcessScopeId) (os : OsIdentity) (done : List Event)
    (h : History) : Prop :=
  ∃ mid past, h = mid ++ (t, .spawnReturned c (.ok os)) :: past ∧ ∀ ev ∈ done, (t, ev) ∈ mid

/-- What a spawn has done stays done. -/
theorem Spawned.mono {done : List Event} (hs : h <:+ h') (hd : Spawned t c os done h) :
    Spawned t c os done h' := by
  obtain ⟨ext, rfl⟩ := hs
  obtain ⟨mid, past, rfl, hm⟩ := hd
  exact ⟨ext ++ mid, past, by simp, fun ev hev => List.mem_append_right _ (hm ev hev)⟩

/-- A spawn that has done one thing more. -/
theorem Spawned.cons {done : List Event} (hd : Spawned t c os done h) (ev : Event) :
    Spawned t c os (ev :: done) ((t, ev) :: h) := by
  obtain ⟨mid, past, rfl, hm⟩ := hd
  refine ⟨(t, ev) :: mid, past, rfl, fun ev' hev' => ?_⟩
  rcases List.mem_cons.mp hev' with rfl | hev'
  · exact List.mem_cons_self
  · exact List.mem_cons_of_mem _ (hm ev' hev')

/-- A task that settled its spawn can release the lock. -/
theorem Spawned.released {done : List Event} (hl : Lawful h) (hd : Spawned t c os done h)
    (hset : ∀ mid, (∀ ev ∈ done, (t, ev) ∈ mid) → Settled t c os mid h) :
    Justified t (.released c) h := by
  obtain ⟨mid, past, rfl, hm⟩ := hd
  intro mid' os' past' heq
  obtain ⟨rfl, -, hr, -⟩ := hl.spawnReturned_unique heq
  obtain rfl := Except.ok.inj hr
  exact hset mid hm

/-! ### The serialised part -/

/-- The events of a spawn under the operation lock. -/
def Event.spawning : Event → Bool
  | .lookedUp _ | .spawnCalled _ | .spawnReturned _ _ | .attached _ _ _ | .attachFailed _ _
  | .monitorStarted _ _ _ => true
  | ev => ev.calm

/-- A later state in which `t` caused only events of a spawn. -/
abbrev Spawning (t : Tid) : Inner → Inner → Prop :=
  Since (fun ev => ev.spawning = true) t

/-- A calm event is one of a spawn. -/
theorem Event.spawning_of_calm {ev : Event} (hc : ev.calm = true) : ev.spawning = true := by
  cases ev <;> first | rfl | cases hc

/-- What a spawn leaves when it comes to release the lock. -/
def SpawnDone (t : Tid) (c : ProcessScopeId) (s₀ : Inner) (v : Except SpawnError ProcessId)
    (s : Inner) : Prop :=
  Spawning t s₀ s ∧ Justified t (.released c) s.history ∧
    ∀ p, v = .ok p → ∃ os, (t, .attached c p os) ∈ s.history

/-- A spawn may return an error when its lock can be released. -/
theorem SpawnDone.error {e : SpawnError} (hs : Spawning t s₀ s)
    (hj : Justified t (.released c) s.history) : SpawnDone t c s₀ (.error e) s :=
  ⟨hs, hj, fun _ heq => by cases heq⟩

namespace Spawning

/-- Calm steps are steps of a spawn. -/
theorem of_calm (hs : Calm t s s') : Spawning t s s' :=
  hs.mono fun _ => Event.spawning_of_calm

/-- What the other tasks do is a stretch of a spawn. -/
theorem of_rely (hr : Rely t s s') : Spawning t s s' :=
  hr.mono fun _ hf => hf.elim

/-- A scope that a spawn holds is not committed by it. -/
theorem committed (hs : Spawning t s s') (hh : (s.operations c).holder = some t)
    (hp : Committed s'.history c) : Committed s.history c := by
  obtain ⟨r, hr⟩ := hp
  exact ⟨r, hs.frozen hh rfl (by simp [Event.spawning, Event.calm]) hr⟩

/-- A scope that a spawn holds is there, and stays open. -/
theorem admits (hs : Spawning t s s') (hh : (s.operations c).holder = some t)
    (ha : Justified t (.spawnCalled c) s.history) : Justified t (.spawnCalled c) s'.history := by
  obtain ⟨hc, hr, hd⟩ := ha
  refine ⟨hc.mono hs.suffix, fun ⟨l, hl⟩ => hr ⟨l, ?_⟩, fun ⟨d, hd'⟩ => hd ⟨d, ?_⟩⟩
  · exact hs.frozen hh rfl (by simp [Event.spawning, Event.calm]) hl
  · exact hs.frozen hh rfl (by simp [Event.spawning, Event.calm]) hd'

end Spawning

section Spawn

variable {α : Type} {Q : α → Inner → Prop}

/-- The rule for an operation of a spawn that changes no lock. Nobody can drop a spawn. -/
theorem wp_spawning {o : Op} {k : Res o → Code α}
    (hown : ∀ ev, o.Emits ev → ev.spawning = true) (hl : o.locks = false)
    (hn : ∀ r, spawns o r = none) (hs : Spawning t s₀ s)
    (h : ∀ s₁, Rely t s s₁ → Spawning t s₀ s₁ → Inv s₁ → o.Allowed t s₁ ∧
      ∀ a r s₂, exec t o a s₁ = some (r, s₂) → Inv s₂ → Spawning t s₀ s₂ →
        WP t (fun _ => True) (k r) Q s₂) :
    WP t (fun _ => True) (.op o k) Q s :=
  wp_since hown hl hn hs (fun _ _ _ _ => trivial) h

end Spawn

/-- An orphan is killed and waited for. -/
theorem wp_killOrphan {done : List Event} (hd : Spawned t c os done s.history)
    (hs : Spawning t s₀ s) :
    WP t (fun _ => True) (killOrphan os) (fun _ s' => Inv s' ∧ Spawning t s₀ s' ∧
      s.history <:+ s'.history ∧ ∃ r, Spawned t c os
        (.waitReturned os r :: .waitCalled os :: .signalSent os .kill :: done) s'.history) s := by
  rw [killOrphan, act_bind]
  refine wp_spawning (fun ev hev => ?_) rfl (fun _ => rfl) hs fun s₁ hr₁ hs₁ hi₁ =>
    ⟨.of_guard rfl trivial, fun a r s₂ he hi₂ hs₂ => ?_⟩
  · obtain rfl := hev
    rfl
  obtain ⟨-, rfl⟩ := Prod.mk.inj (Option.some.inj he)
  have hd₂ := (hd.mono hr₁.suffix).cons (.signalSent os .kill)
  rw [act_bind]
  refine wp_spawning (fun ev hev => ?_) rfl (fun _ => rfl) hs₂ fun s₃ hr₃ hs₃ hi₃ =>
    ⟨.of_guard rfl trivial, fun a r s₄ he hi₄ hs₄ => ?_⟩
  · obtain rfl := hev
    rfl
  obtain ⟨-, rfl⟩ := Prod.mk.inj (Option.some.inj he)
  have hd₄ := (Spawned.mono hr₃.suffix hd₂).cons (.waitCalled os)
  rw [act_bind]
  refine wp_spawning (fun ev hev => ?_) rfl (fun _ => rfl) hs₄ fun s₅ hr₅ hs₅ hi₅ =>
    ⟨.of_guard rfl trivial, fun a r s₆ he hi₆ hs₆ => ?_⟩
  · obtain ⟨r, rfl⟩ := hev
    rfl
  have hd₅ := Spawned.mono hr₅.suffix hd₄
  have hsuf := hr₁.suffix.trans ((List.suffix_cons _ _).trans (hr₃.suffix.trans
    ((List.suffix_cons _ _).trans (hr₅.suffix.trans (exec_suffix he)))))
  simp only [exec] at he
  split at he
  · obtain ⟨rfl, rfl⟩ := Prod.mk.inj (Option.some.inj he)
    exact ⟨hi₆, hs₆, hsuf, _, hd₅.cons _⟩
  · cases he

/-- The sampler is started or was running, or its mutex was busy. -/
theorem wp_startSampler (hh : (s₀.operations c).holder = some t) (hc : Created s₀.history c)
    (hr : ¬ Removed s₀.history c) (hs : Calm t s₀ s) :
    WP t (fun _ => True) startSampler (fun _ s' => Calm t s₀ s') s := by
  have hu : Await (fun ev => ev.calm = true) t (fun _ => True) s₀ := fun _ _ _ _ => trivial
  rw [startSampler, act_bind]
  refine wp_skip rfl (fun _ => rfl) (fun _ => .of_guard rfl trivial) hs hu
    fun started s₁ hs₁ h₁ => ?_
  split
  · exact hs₁
  · refine wp_calm rfl (fun _ => rfl) hs₁ hu fun s₂ hr₂ hs₂ hi₂ => ?_
    exact ⟨⟨nofun, c, hc.mono hs₂.suffix, fun hx => hr (Calm.removed hs₂ hh hx)⟩,
      fun a r s₃ he hi₃ hs₃ => hs₃⟩

/-- The process that was just attached has no monitor, also after steps of the others: a monitor is
started under the lock of the scope, which is ours. -/
theorem Inv.not_monitored {c' : ProcessScopeId} {m : Tid} (hi : Inv s)
    (hh : (s.operations c).holder = some t) (hhist : s.history = (t, .attached c p os) :: h)
    (hr : Rely t s s') (hi' : Inv s') : ¬ Happened s'.history (.monitorStarted c' p m) := by
  intro hm
  have hat : Happened s.history (.attached c p os) := by
    rw [hhist]
    exact happened_cons.mpr (.inl rfl)
  obtain ⟨_, l, hs, ⟨os', ha'⟩, -⟩ := hi'.lawful.of_happened hm
  obtain ⟨rfl, -⟩ := hi'.lawful.attached_unique (hat.mono hr.suffix) ⟨_, hs.mem ha'⟩
  have hm' := hr.frozen hh rfl (fun hf => hf) hm
  have hl := hi.lawful
  rw [hhist] at hl hm'
  rcases happened_cons.mp hm' with heq | hm'
  · cases heq
  · obtain ⟨_, l, hs, ⟨os', ha'⟩, -⟩ := hl.2.of_happened hm'
    exact hl.1.2.2.2.1 c os' ⟨_, hs.mem ha'⟩

/-- **An attached process gets its monitor** before the lock is released. From then on the lock can
be released, also after calm steps. -/
theorem wp_superviseSpawned {events : List DomainEvent} {admission : Bool} (hi : Inv s)
    (hh : (s₀.operations c).holder = some t) (ha : Justified t (.spawnCalled c) s₀.history)
    (hhist : s.history = (t, .attached c p os) :: h)
    (hd : Spawned t c os [.attached c p os] s.history) (hev : Dispatchable s.history events)
    (hs : Spawning t s₀ s) :
    WP t (fun _ => True) (superviseSpawned c p os events admission) (SpawnDone t c s₀) s := by
  have hstill : ∀ {o : Op} {s₁ s₂ : Inner} {a r}, Rely t s s₁ → exec t o a s₁ = some (r, s₂) →
      (∀ ev, ¬ o.Emits ev) → o.locks = false → Rely t s s₂ := fun hr he hem hl =>
    hr.trans (exec_since (fun ev hx => hem ev hx) hl he)
  rw [superviseSpawned, act_bind]
  refine wp_act (fun _ => rfl) fun s₁ hr₁ _ _ => ⟨fun _ => trivial, .of_guard rfl trivial, ?_⟩
  intro a r s₂ he _
  have hr₂ := hstill hr₁ he (fun _ hx => hx) rfl
  rw [act_bind]
  refine wp_act (fun _ => rfl) fun s₃ hr₃ _ _ => ⟨fun _ => trivial, .of_guard rfl trivial, ?_⟩
  intro a r s₄ he _
  have hr₄ := hstill (hr₂.trans hr₃) he (fun _ hx => hx) rfl
  rw [act_bind]
  refine wp_act (fun _ => rfl) fun s₅ hr₅ _ _ => ⟨fun _ => trivial, .of_guard rfl trivial, ?_⟩
  intro a r s₆ he _
  have hr₆ := hstill (hr₄.trans hr₅) he (fun _ hx => hx) rfl
  rw [act_bind]
  refine wp_step fun s₇ hr₇ hi₇ ht₇ => ?_
  have hrs : Rely t s s₇ := hr₆.trans hr₇
  have hheld : (s.operations c).holder = some t := (hs.holder c).mpr hh
  have hown : (t, .attached c p os) ∈ s₇.history := by
    refine hrs.suffix.mem ?_
    rw [hhist]
    exact List.mem_cons_self
  refine ⟨fun _ => trivial, ⟨fun c' hc' => ?_, fun m => ⟨⟨os, hown⟩, fun c' m' => ?_⟩⟩, ?_⟩
  · obtain rfl := Option.some.inj hc'
    exact (hrs.holder c).mpr hheld
  · exact hi.not_monitored hheld hhist hrs hi₇
  intro a r s₈ he hi₈
  have hs₈ : Spawning t s₀ s₈ := (hs.trans (Spawning.of_rely hrs)).trans
    (exec_since (fun ev hx => by obtain ⟨m, rfl⟩ := hx; rfl) rfl he)
  obtain ⟨-, rfl⟩ := Prod.mk.inj (Option.some.inj he)
  refine ⟨fun role hrole => ?_, ?_⟩
  · obtain rfl := Option.some.inj hrole
    refine ⟨fun ev hmem => ?_, by simp, Happened.mono (List.suffix_cons _ _) ⟨t, hown⟩⟩
    rcases List.mem_cons.mp hmem with heq | hmem
    · exact absurd (Prod.mk.inj heq).1 (Nat.ne_of_gt ht₇)
    · exact Nat.lt_irrefl _ (hi₇.tasks.below hmem)
  have hd₈ := (Spawned.mono hrs.suffix hd).cons (.monitorStarted c p s₇.nextTask)
  have hrel := hd₈.released hi₈.lawful fun mid hm =>
    .inl ⟨p, s₇.nextTask, hm _ (by simp), hm _ (by simp)⟩
  have hrel' : ∀ {s'}, Calm t _ s' → Justified t (.released c) s'.history := fun hs' =>
    released_of_since (by simp [Event.calm]) hs' hrel
  obtain ⟨hc, hnr, -⟩ := Spawning.admits hs₈ hh ha
  have hh₈ := (hs₈.holder c).mpr hh
  refine wp_seq _ (wp_startSampler hh₈ hc hnr (Since.refl t _)) fun started s₉ hs₉ => ?_
  split
  · have hev₉ := (hev.mono hrs.suffix).mono ((List.suffix_cons _ _).trans hs₉.suffix)
    refine wp_seq _ (wp_dispatch hev₉ hs₉ fun _ _ _ _ => trivial) fun _ s' hs' => ?_
    refine ⟨hs₈.trans (Spawning.of_calm hs'.1), hrel' hs'.1, fun q hq => ⟨os, ?_⟩⟩
    obtain rfl := Except.ok.inj hq
    exact hs'.1.suffix.mem (List.mem_cons_of_mem _ hown)
  · exact .error (hs₈.trans (Spawning.of_calm hs₉)) (hrel' hs₉)

/-- **A spawn that was admitted settles its process** before the lock is released. It has called
`backend.spawn` once. -/
theorem wp_spawnProcess {spec : ProcessSpec} {admission : Bool}
    (hh : (s.operations c).holder = some t) (ha : Justified t (.spawnCalled c) s.history)
    (hn : ∀ c r, (t, .spawnReturned c r) ∉ s.history) (hnr : (t, .released c) ∉ s.history) :
    WP t (fun _ => True) (spawnProcess c spec admission) (SpawnDone t c s) s := by
  rw [spawnProcess, act_bind]
  refine wp_spawning (fun ev hev => ?_) rfl (fun _ => rfl) (Since.refl t s)
    fun s₁ hr₁ hs₁ hi₁ => ⟨⟨?_, Spawning.admits hs₁ hh ha⟩, fun a r s₂ he hi₂ hs₂ => ?_⟩
  · obtain rfl := hev
    rfl
  · intro c' hc'
    obtain rfl := Option.some.inj hc'
    exact (hs₁.holder c).mpr hh
  obtain ⟨-, rfl⟩ := Prod.mk.inj (Option.some.inj he)
  rw [act_bind]
  refine wp_spawning (fun ev hev => ?_) rfl (fun _ => rfl) hs₂ fun s₃ hr₃ hs₃ hi₃ =>
    ⟨.of_guard rfl fun _ => ⟨hi₃.tasks.holder ((hs₃.holder c).mpr hh), fun hmem => ?_,
      fun c' r' hmem => ?_⟩, fun a result s₄ he hi₄ hs₄ => ?_⟩
  · obtain ⟨r, rfl⟩ := hev
    rfl
  · exact hnr (hs₃.own_mem (by simp [Event.spawning, Event.calm]) hmem)
  · rcases List.mem_cons.mp (Since.own_rely hr₃ hmem) with heq | hmem
    · cases heq
    · exact hn c' r' (Since.own_rely hr₁ hmem)
  simp only [exec] at he
  split at he
  case h_2 => cases he
  next result =>
  obtain ⟨rfl, rfl⟩ := Prod.mk.inj (Option.some.inj he)
  cases result with
  | error e =>
      refine .error hs₄ fun mid os past heq => ?_
      have hl : Lawful ([] ++ (t, .spawnReturned c (.error e)) :: s₃.history) := hi₄.lawful
      obtain ⟨-, -, hr, -⟩ := hl.spawnReturned_unique heq
      cases hr
  | ok os =>
      have hd₄ : Spawned t c os [] (s₃.log t (.spawnReturned c (.ok os))).history :=
        ⟨[], s₃.history, rfl, by simp⟩
      dsimp only
      rw [act_bind]
      refine wp_spawning (fun ev hev => (by cases hev)) rfl (fun _ => rfl) hs₄
        fun s₅ hr₅ hs₅ hi₅ => ⟨.of_guard rfl trivial, fun a r s₆ he hi₆ hs₆ => ?_⟩
      obtain ⟨rfl, rfl⟩ := Prod.mk.inj (Option.some.inj he)
      have hd₅ := Spawned.mono hr₅.suffix hd₄
      split
      · next hod =>
          have hdropped := hi₅.flags.dropped hod
          rw [act_bind]
          refine wp_spawning (fun ev hev => ?_) rfl (fun _ => rfl) hs₆ fun s₇ hr₇ hs₇ hi₇ =>
            ⟨.of_guard rfl trivial, fun a r s₈ he hi₈ hs₈ => ?_⟩
          · obtain rfl := hev
            rfl
          obtain ⟨-, rfl⟩ := Prod.mk.inj (Option.some.inj he)
          have hd₈ := (Spawned.mono hr₇.suffix hd₅).cons .hardKilledAll
          refine wp_seq _ (wp_killOrphan hd₈ hs₈) fun _ s' hkilled => ?_
          obtain ⟨hi', hs', h', r, hd'⟩ := hkilled
          refine .error hs' (hd'.released hi'.lawful fun mid hm => .inr ⟨?_, ?_, ?_, ?_, r, ?_⟩)
          · exact hdropped.mono (hr₇.suffix.trans ((List.suffix_cons _ _).trans h'))
          · exact hm _ (by simp)
          · exact hm _ (by simp)
          · exact hm _ (by simp)
          · exact hm _ (by simp)
      · rw [act_bind]
        refine wp_spawning (fun ev hev => ?_) rfl (fun _ => rfl) hs₆ fun s₇ hr₇ hs₇ hi₇ => ?_
        · rcases hev with ⟨p, rfl⟩ | rfl <;> rfl
        have hown : (t, .spawnReturned c (.ok os)) ∈ s₇.history :=
          hr₇.suffix.mem (hr₅.suffix.mem List.mem_cons_self)
        have hadm := Spawning.admits hs₇ hh ha
        obtain ⟨hc, hnr, hnd⟩ := hadm
        refine ⟨⟨fun c' hc' => ?_, hc, hnr, hnd, hown⟩, fun a r s₈ he hi₈ hs₈ => ?_⟩
        · obtain rfl := Option.some.inj hc'
          exact (hs₇.holder c).mpr hh
        simp only [exec] at he
        split at he
        case isFalse => cases he
        next hb =>
        obtain ⟨sc, -, -, heq⟩ := hi₇.attach_eq hb hc hnr hnd t os spec
        rw [heq] at he
        obtain ⟨rfl, rfl⟩ := Prod.mk.inj (Option.some.inj he)
        have hd₈ := (Spawned.mono hr₇.suffix hd₅).cons
          (.attached c (s₇.registry.nextProcess + 1) os)
        refine wp_superviseSpawned hi₈ hh ha rfl hd₈ (fun ev hev => ?_) hs₈
        obtain rfl := List.mem_singleton.mp hev
        exact ⟨fun c' heq => (by cases heq), fun c' p e heq => (by cases heq)⟩

/-- **The specification of a spawn under the operation lock**: the scope is open when the backend is
called, and the lock can be released at the end, also when no process was spawned. -/
theorem wp_spawnSerialized {spec : ProcessSpec} {admission : Bool}
    (hh : (s.operations c).holder = some t)
    (hn : ∀ c r, (t, .spawnReturned c r) ∉ s.history) (hnr : (t, .released c) ∉ s.history) :
    WP t (fun _ => True) (spawnSerialized c spec admission) (SpawnDone t c s) s := by
  have hsp : ∀ {s₁}, Since (fun ev => ev = .lookedUp c) t s s₁ → Spawning t s s₁ := fun hs =>
    hs.mono fun ev hev => by
      obtain rfl := hev
      rfl
  have hown : ∀ {s₁}, Since (fun ev => ev = .lookedUp c) t s s₁ →
      ∀ c r, (t, .spawnReturned c r) ∉ s₁.history := fun hs c r hmem =>
    hn c r (hs.own_mem (by simp) hmem)
  have hfail : ∀ {s₁ e}, Since (fun ev => ev = .lookedUp c) t s s₁ →
      SpawnDone t c s (.error e) s₁ := fun hs => .error (hsp hs) (released_of_none (hown hs))
  have hu : Await (fun ev => ev = .lookedUp c) t (fun _ => True) s := fun _ _ _ _ => trivial
  rw [spawnSerialized, act_bind]
  refine wp_since (fun ev hev => by cases hev) rfl (fun _ => rfl) (Since.refl t s) hu
    fun s₁ hr₁ hs₁ hi₁ => ⟨.of_guard rfl trivial, fun a r s₂ he hi₂ hs₂ => ?_⟩
  split
  · exact hfail hs₂
  rw [act_bind]
  refine wp_since (fun ev hev => hev) rfl (fun _ => rfl) hs₂ hu
    fun s₃ hr₃ hs₃ hi₃ => ⟨.of_guard rfl trivial, fun a r s₄ he hi₄ hs₄ => ?_⟩
  cases r with
  | some report => exact hfail hs₄
  | none =>
      dsimp only
      rw [act_bind]
      refine wp_since (fun ev hev => by cases hev) rfl (fun _ => rfl) hs₄ hu
        fun s₅ hr₅ hs₅ hi₅ => ⟨.of_guard rfl trivial, fun a r s₆ he hi₆ hs₆ => ?_⟩
      obtain ⟨rfl, rfl⟩ := Prod.mk.inj (Option.some.inj he)
      cases hget : s₅.registry.get c with
      | none => exact hfail hs₆
      | some sc =>
          cases hopen : sc.isOpen with
          | false =>
              simp only [Option.map_some, hopen]
              exact hfail hs₆
          | true =>
              simp only [Option.map_some, hopen]
              obtain ⟨hc, hr⟩ := (hi₅.catalogue.registered c).mp ⟨sc, hget⟩
              have hd := (hi₅.processes.open_iff hget).mp hopen
              have hh₅ := (hs₅.holder c).mpr hh
              refine Protocol.wp_mono (fun v s' hdone => ?_)
                (wp_spawnProcess hh₅ ⟨hc, hr, hd⟩ (hown hs₅)
                  fun hmem => hnr (hs₅.own_mem nofun hmem))
              exact ⟨(hsp hs₅).trans hdone.1, hdone.2⟩

/-! ### The whole call -/

/-- Only a task that took the lock can have taken it late. -/
theorem not_lateLock (hn : (t, .acquired c) ∉ h) : ¬ LateLock h t c := by
  rintro ⟨newer, older, t', r, rfl, hm⟩
  exact hn (List.mem_append_left _ hm)

/-- The operation lock of a committed scope is free only after the commit. -/
theorem Inv.handed_of_free (hi : Inv s) (hfree : (s.operations c).holder = none)
    (hc : Committed s.history c) : Handed s.history c := by
  by_contra hn
  obtain ⟨t', r, hh, -⟩ := hi.commits.inProgress hc hn
  rw [hfree] at hh
  cases hh

/-- **The specification of `spawn_owned`.** The lock is taken before any commit, or after one is
over, and then the spawn is refused. -/
theorem wp_spawnOwned {spec : ProcessSpec} {admission : Bool}
    (hfresh : ∀ ev, (t, ev) ∉ s.history) :
    WP t (fun _ => True) (spawnOwned c spec admission)
      (fun v s' => JustifiedReturn t (.spawned c v) s'.history) s := by
  have hfail : ∀ {s' : Inner} {e}, (t, .acquired c) ∉ s'.history →
      JustifiedReturn t (.spawned c (.error e)) s'.history := fun hn =>
    ⟨fun p heq => (by cases heq), fun hl => absurd hl (not_lateLock hn)⟩
  rw [spawnOwned, act_bind]
  refine wp_act (fun _ => rfl) fun s₁ hr₁ hi₁ ht₁ =>
    ⟨fun _ => trivial, .of_guard rfl trivial, fun a r s₂ he hi₂ => ?_⟩
  obtain ⟨rfl, rfl⟩ := Prod.mk.inj (Option.some.inj he)
  have hown : ∀ {s₃ ev}, Rely t (s₁.log t (.lookedUp c)) s₃ → (t, ev) ∈ s₃.history →
      ev = .lookedUp c := by
    intro s₃ ev hr₃ hmem
    rcases List.mem_cons.mp (Since.own_rely hr₃ hmem) with heq | hmem
    · exact (Prod.mk.inj heq).2
    · exact absurd (Since.own_rely hr₁ hmem) (hfresh ev)
  split
  · next hop =>
      have hc := ((hi₁.catalogue.operation c).mp hop).1
      rw [act_bind]
      refine wp_act (fun _ => rfl) fun s₃ hr₃ hi₃ ht₃ => ⟨fun _ => trivial,
        .of_guard rfl (hc.mono ((List.suffix_cons _ _).trans hr₃.suffix)), fun a r s₄ he hi₄ => ?_⟩
      rw [exec] at he
      split at he
      case isFalse => cases he
      next hfree =>
      obtain ⟨rfl, rfl⟩ := Prod.mk.inj (Option.some.inj he)
      have hown₄ : ∀ {ev}, (t, ev) ∈ (s₃.lockOperation t c).history →
          ev = .acquired c ∨ ev = .lookedUp c := fun hmem => by
        rcases List.mem_cons.mp hmem with heq | hmem
        · exact .inl (Prod.mk.inj heq).2
        · exact .inr (hown hr₃ hmem)
      have hh₄ : ((s₃.lockOperation t c).operations c).holder = some t := by
        simp [Inner.lockOperation]
      have hnone : ∀ c' r', (t, .spawnReturned c' r') ∉ (s₃.lockOperation t c).history :=
        fun c' r' hmem => by rcases hown₄ hmem with heq | heq <;> cases heq
      cases hser : (s₃.operations c).serial with
      | some report =>
          dsimp only
          have hcm : Committed s₃.history c := ⟨report, hi₃.commits.serial.mp hser⟩
          have hhd := (hi₃.handed_of_free hfree hcm).mono
            (List.suffix_cons (t, Event.acquired c) s₃.history)
          rw [act_bind]
          refine wp_act (fun _ => rfl) fun s₅ hr₅ hi₅ ht₅ => ⟨fun _ => trivial, ⟨?_, ?_, ?_⟩, ?_⟩
          · intro c' hc'
            obtain rfl := Option.some.inj hc'
            exact (hr₅.holder c).mpr hh₄
          · exact released_of_none fun c' r' hmem => hnone c' r' (Since.own_rely hr₅ hmem)
          · exact fun _ => Handed.mono hr₅.suffix hhd
          intro a r s₆ he hi₆
          obtain ⟨-, rfl⟩ := Prod.mk.inj (Option.some.inj he)
          refine ⟨fun p heq => (by cases heq), fun _ => ⟨rfl, fun hmem => ?_⟩⟩
          rcases List.mem_cons.mp hmem with heq | hmem
          · cases heq
          · rcases hown₄ (Since.own_rely hr₅ hmem) with heq | heq <;> cases heq
      | none =>
          dsimp only
          have hncm : ¬ Committed s₃.history c := by
            rintro ⟨r, hr⟩
            rw [hi₃.commits.serial.mpr hr] at hser
            cases hser
          have hnl : ¬ LateLock (s₃.lockOperation t c).history t c := fun hl => by
            rcases lateLock_cons.mp hl with ⟨-, -, hcm⟩ | hl
            · exact hncm hcm
            · refine not_lateLock (fun hmem => ?_) hl
              cases hown hr₃ hmem
          have hnr : (t, .released c) ∉ (s₃.lockOperation t c).history := fun hmem => by
            rcases hown₄ hmem with heq | heq <;> cases heq
          refine wp_seq _ (wp_spawnSerialized hh₄ hnone hnr) fun v s₅ hserialized => ?_
          obtain ⟨hs₅, hj₅, hv⟩ := hserialized
          rw [act_bind]
          refine wp_act (fun _ => rfl) fun s₆ hr₆ hi₆ ht₆ => ⟨fun _ => trivial, ⟨?_, ?_, ?_⟩, ?_⟩
          · intro c' hc'
            obtain rfl := Option.some.inj hc'
            exact (hr₆.holder c).mpr ((hs₅.holder c).mpr hh₄)
          · exact released_of_since (fun _ hf => hf) hr₆ hj₅
          · intro hcm
            have hcm₄ := Spawning.committed (hs₅.trans (Spawning.of_rely hr₆)) hh₄ hcm
            refine absurd ((committed_cons.mp hcm₄).resolve_left ?_) hncm
            rintro ⟨r, heq⟩
            cases heq
          intro a r s₇ he hi₇
          obtain ⟨-, rfl⟩ := Prod.mk.inj (Option.some.inj he)
          refine ⟨fun p hp => ?_, fun hl => ?_⟩
          · obtain ⟨os, hos⟩ := hv p hp
            exact ⟨os, List.mem_cons_of_mem _ (hr₆.suffix.mem hos)⟩
          · refine absurd ?_ hnl
            rcases lateLock_cons.mp hl with ⟨-, heq, -⟩ | hl
            · cases heq
            · exact (hs₅.trans (Spawning.of_rely hr₆)).caused.lateLock
                (by simp [Event.spawning, Event.calm]) hl
  · rw [act_bind]
    refine wp_act (fun _ => rfl) fun s₃ hr₃ hi₃ ht₃ =>
      ⟨fun _ => trivial, .of_guard rfl trivial, fun a r s₄ he hi₄ => ?_⟩
    have hn : (t, .acquired c) ∉ s₄.history := by
      obtain ⟨-, rfl⟩ := Prod.mk.inj (Option.some.inj he)
      intro hmem
      rcases List.mem_cons.mp hmem with heq | hmem
      · cases heq
      · cases hown hr₃ hmem
    cases r with
    | some report => exact hfail hn
    | none => exact hfail hn

end Shepherd
