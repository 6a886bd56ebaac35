import Shepherd.Background.Task

/-!
# The Supervisor Calls of a Background Task

What a background task needs to know of its two supervisor calls, beside what every call
guarantees, is about the moments in between.

* `Admission` — what its spawn has handed over. A process that was attached but not handed
  over yet keeps the operation lock with the spawn and the scope from draining
  (`tracked_spawn`).
* Its `finish` has drained the scope before it can suspend anywhere but at the operation
  lock, and before it returns (`tracked_finish`).
-/

open Std

namespace Shepherd

open Conc

variable {t : Tid} {c : ProcessScopeId} {p : ProcessId} {os : OsIdentity} {s s' : Inner}
  {h : History} {x : Option SpawnObservation}

/-! ### The spawn -/

/-- The task has attached this process to this scope, and nothing else. -/
def AttachedBy (t : Tid) (c : ProcessScopeId) (p : ProcessId) (os : OsIdentity) (h : History) :
    Prop :=
  ∀ c' p' os', (t, .attached c' p' os') ∈ h ↔ c' = c ∧ p' = p ∧ os' = os

/-- The task has attached nothing. -/
def AttachedNone (t : Tid) (h : History) : Prop :=
  ∀ c p os, (t, .attached c p os) ∉ h

/-- What a spawn into the scope has handed over. -/
inductive Admission (t : Tid) (c : ProcessScopeId) (x : Option SpawnObservation) (s : Inner) :
    Prop
  | before (none : x = none) (own : AttachedNone t s.history)
  | attached (p : ProcessId) (os : OsIdentity) (none : x = none)
      (own : AttachedBy t c p os s.history)
      (holder : (s.operations c).holder = some t) (drained : ¬ Drained s.history c)
  | sent (observed : SpawnObservation) (os : OsIdentity) (some : x = some observed)
      (own : AttachedBy t c observed.pid os s.history)

/-- Other tasks attach nothing for `t`. -/
theorem AttachedNone.rely (ha : AttachedNone t s.history) (hr : Rely t s s') :
    AttachedNone t s'.history :=
  fun c p os hm => ha c p os (Since.own_rely hr hm)

/-- What `t` attached is not changed by others. -/
theorem AttachedBy.rely (ha : AttachedBy t c p os s.history) (hr : Rely t s s') :
    AttachedBy t c p os s'.history := by
  intro c' p' os'
  rw [← ha c' p' os']
  exact ⟨Since.own_rely hr, hr.suffix.mem⟩

/-- Other tasks do not drain the scope whose lock `t` holds. -/
theorem Rely.not_drained (hr : Rely t s s') (hh : (s.operations c).holder = some t)
    (hd : ¬ Drained s.history c) : ¬ Drained s'.history c :=
  fun hx => hd (Calm.drained (Calm.of_rely hr) hh hx)

/-- The steps of the others do not matter. -/
theorem Admission.rely (ha : Admission t c x s) (hr : Rely t s s') : Admission t c x s' := by
  cases ha with
  | before hx own => exact .before hx (own.rely hr)
  | attached p os hx own hh hd =>
      exact .attached p os hx (own.rely hr) ((hr.holder c).mpr hh) (hr.not_drained hh hd)
  | sent observed os hx own => exact .sent observed os hx (own.rely hr)

/-- **A drained scope**: what was attached was handed over. -/
theorem Admission.of_drained (ha : Admission t c x s) (hd : Drained s.history c) :
    (∃ p os, (t, .attached c p os) ∈ s.history ∧ x.map (fun o => o.pid) = some p) ∨
      x = none ∧ AttachedNone t s.history := by
  cases ha with
  | before hx own => exact .inr ⟨hx, own⟩
  | attached p os hx own hh hn => exact absurd hd hn
  | sent observed os hx own =>
      exact .inl ⟨observed.pid, os, (own c observed.pid os).mpr ⟨rfl, rfl, rfl⟩, by rw [hx]; rfl⟩

/-- No exit was signalled yet of the process whose observation is handed over. -/
def Op.HandsFresh (s : Inner) : Op → Prop
  | .keepOutput p true => ¬ Signalled s.history p
  | _ => True

/-- What has to hold at an operation of a spawn: it hands over once. -/
structure HandsOver (t : Tid) (c : ProcessScopeId) (o : Op) (x : Option SpawnObservation)
    (s : Inner) : Prop where
  admission : Admission t c x s
  fresh : o.HandsFresh s
  once : ∀ observed, x = some observed → ∀ a, transfer o a s x = x

/-- The watch of a spawn. -/
def spawnWatch (t : Tid) (c : ProcessScopeId) : Watch Op Answer Inner (Option SpawnObservation)
    where
  update := transfer
  holds o x s := HandsOver t c o x s

/-- The spawn has handed its process over, or has none. -/
inductive SpawnOver (t : Tid) (c : ProcessScopeId) (x : Option SpawnObservation) (s : Inner) :
    Prop
  | none (none : x = none) (own : AttachedNone t s.history)
  | sent (observed : SpawnObservation) (os : OsIdentity) (some : x = some observed)
      (own : AttachedBy t c observed.pid os s.history)

/-- A spawn that is over has admitted its process, or has none. -/
theorem SpawnOver.admission (h : SpawnOver t c x s) : Admission t c x s := by
  cases h with
  | none hx own => exact .before hx own
  | sent observed os hx own => exact .sent observed os hx own

/-- A spawn that is over stays so. -/
theorem SpawnOver.rely (h : SpawnOver t c x s) (hr : Rely t s s') : SpawnOver t c x s' := by
  cases h with
  | none hx own => exact .none hx (own.rely hr)
  | sent observed os hx own => exact .sent observed os hx (own.rely hr)

/-- The spawn keeps to its watch. -/
abbrev TracksSpawn {α : Type} (t : Tid) (c : ProcessScopeId) (p : Code α)
    (x : Option SpawnObservation) (s : Inner) : Prop :=
  protocol.tracked (spawnWatch t c) t p (fun _ x s => SpawnOver t c x s) x s

/-- The rule for sequencing. -/
theorem tracksSpawn_bind {α β : Type} {p : Code α} {f : α → Code β} (hp : TracksSpawn t c p x s)
    (hf : ∀ v x s, SpawnOver t c x s → TracksSpawn t c (f v) x s) :
    TracksSpawn t c (p.bind f) x s :=
  Protocol.tracked_bind (Protocol.tracked_mono hf hp)

/-- An operation that attaches nothing leaves the own attachments alone. -/
theorem exec_attached {o : Op} {a : Answer} {r : Res o}
    (ho : ∀ c p os, ¬ o.Emits (.attached c p os)) (he : exec t o a s = some (r, s'))
    (c : ProcessScopeId) (p : ProcessId) (os : OsIdentity) :
    (t, .attached c p os) ∈ s'.history ↔ (t, .attached c p os) ∈ s.history := by
  obtain ⟨-, evs, hh, hk⟩ := exec_ext he
  rw [hh, List.mem_append, or_iff_right]
  intro hm
  obtain ⟨ev, hev, heq⟩ := List.mem_map.mp hm
  obtain ⟨-, rfl⟩ := Prod.mk.inj heq
  exact ho c p os (hk _ hev)

/-- An operation that attaches nothing. -/
theorem AttachedNone.exec {o : Op} {a : Answer} {r : Res o} (h : AttachedNone t s.history)
    (ho : ∀ c p os, ¬ o.Emits (.attached c p os)) (he : exec t o a s = some (r, s')) :
    AttachedNone t s'.history :=
  fun c p os hm => h c p os ((exec_attached ho he c p os).mp hm)

/-- An operation that attaches nothing more. -/
theorem AttachedBy.exec {o : Op} {a : Answer} {r : Res o} (h : AttachedBy t c p os s.history)
    (ho : ∀ c p os, ¬ o.Emits (.attached c p os)) (he : exec t o a s = some (r, s')) :
    AttachedBy t c p os s'.history := by
  intro c' p' os'
  rw [← h c' p' os']
  exact exec_attached ho he c' p' os'

/-- An operation that hands nothing over. -/
theorem handsFresh {o : Op} (hx : ∀ a s, transfer o a s x = x) (s : Inner) : o.HandsFresh s := by
  cases o with
  | keepOutput p admission =>
      cases admission with
      | false => trivial
      | true =>
          have heq := (hx (.output none) s).trans (hx (.output (some 0)) s).symm
          simp [transfer] at heq
  | _ => trivial

/-- **The rule for an operation that keeps a phase** of the spawn. -/
theorem tracksSpawn_keep {α : Type} {F : Inner → Prop} {o : Op} {k : Res o → Code α}
    (hF : ∀ s, F s → Admission t c x s) (hrely : ∀ s s', F s → Rely t s s' → F s')
    (hexec : ∀ a r s s', F s → exec t o a s = some (r, s') → F s')
    (hx : ∀ a s, transfer o a s x = x) (h : F s)
    (hk : ∀ r s', F s' → TracksSpawn t c (k r) x s') : TracksSpawn t c (.op o k) x s := by
  refine Protocol.tracked_op fun s₁ hr hi => ?_
  have h₁ := hrely s s₁ h hr
  refine ⟨⟨hF s₁ h₁, handsFresh hx s₁, fun _ _ a => hx a s₁⟩, fun a r s₂ he _ => ?_⟩
  have hx' : (spawnWatch t c).update o a s₁ x = x := hx a s₁
  rw [hx']
  exact hk r s₂ (hexec a r s₁ s₂ h₁ he)

/-- Before it attaches and after the hand-over, a spawn only has to attach nothing. -/
theorem tracksSpawn_over {α : Type} {o : Op} {k : Res o → Code α}
    (ho : ∀ c p os, ¬ o.Emits (.attached c p os)) (hx : ∀ a s, transfer o a s x = x)
    (h : SpawnOver t c x s) (hk : ∀ r s', SpawnOver t c x s' → TracksSpawn t c (k r) x s') :
    TracksSpawn t c (.op o k) x s := by
  refine tracksSpawn_keep (F := SpawnOver t c x) (fun _ hs => hs.admission)
    (fun _ _ hs hr => hs.rely hr) (fun a r s₁ s₂ hs he => ?_) hx h hk
  cases hs with
  | none hx own => exact .none hx (own.exec ho he)
  | sent observed os hx own => exact .sent observed os hx (own.exec ho he)

/-- The spawn holds the lock and has attached nothing. -/
def Admitting (t : Tid) (c : ProcessScopeId) (s : Inner) : Prop :=
  AttachedNone t s.history ∧ (s.operations c).holder = some t

/-- A spawn that gives up before it attaches is over. -/
theorem Admitting.over (h : Admitting t c s) : SpawnOver t c none s :=
  .none rfl h.1

/-- The same with the operation lock held. -/
theorem tracksSpawn_admitting {α : Type} {o : Op} {k : Res o → Code α}
    (ho : ∀ c p os, ¬ o.Emits (.attached c p os)) (hl : o.locks = false)
    (hx : ∀ a s, transfer o a s none = none) (h : Admitting t c s)
    (hk : ∀ r s', Admitting t c s' → TracksSpawn t c (k r) none s') :
    TracksSpawn t c (.op o k) none s := by
  refine tracksSpawn_keep (F := Admitting t c) (fun _ hs => .before rfl hs.1)
    (fun _ _ hs hr => ⟨hs.1.rely hr, (hr.holder c).mpr hs.2⟩) (fun _ _ s₁ s₂ hs he => ?_) hx h hk
  refine ⟨hs.1.exec ho he, ?_⟩
  rw [exec_operations hl he]
  exact hs.2

/-- The spawn has attached the process, under the lock, and no monitor runs yet. -/
structure Attaching (t : Tid) (c : ProcessScopeId) (p : ProcessId) (os : OsIdentity)
    (s : Inner) : Prop where
  own : AttachedBy t c p os s.history
  holder : (s.operations c).holder = some t
  drained : ¬ Drained s.history c
  unmonitored : ∀ c p m, (t, .monitorStarted c p m) ∉ s.history

/-- A spawn that has attached its process holds the lock on, whatever others do. -/
theorem Attaching.rely (ha : Attaching t c p os s) (hr : Rely t s s') :
    Attaching t c p os s' where
  own := ha.own.rely hr
  holder := (hr.holder c).mpr ha.holder
  drained := hr.not_drained ha.holder ha.drained
  unmonitored c p m hm := ha.unmonitored c p m (Since.own_rely hr hm)

/-- A spawn that has attached its process and not sent it yet. -/
theorem Attaching.admission (ha : Attaching t c p os s) : Admission t c none s :=
  .attached p os rfl ha.own ha.holder ha.drained

/-- **No exit is signalled before the monitor runs.** -/
theorem Attaching.not_signalled (ha : Attaching t c p os s) (hi : Inv s) :
    ¬ Signalled s.history p := by
  intro hp
  obtain ⟨c', e, he⟩ := hi.lawful.reaped_of_signalled hp
  obtain ⟨_, _, hs, -, hm, -⟩ := hi.lawful.of_happened he
  obtain ⟨t', ht'⟩ := hm.mono hs
  obtain ⟨l₁, l₂, heq, ⟨os', ha'⟩, -⟩ := hi.lawful.of_mem ht'
  have hmem : (t', .attached c' p os') ∈ s.history := by
    rw [heq]
    exact List.mem_append_right _ (List.mem_cons_of_mem _ ha')
  obtain rfl := hi.lawful.attacher_unique ((ha.own c p os).mpr ⟨rfl, rfl, rfl⟩) hmem
  exact ha.unmonitored _ _ _ ht'

/-- Between the attachment and the hand-over there are only calm operations. -/
theorem tracksSpawn_attaching {α : Type} {o : Op} {k : Res o → Code α} (ho : o.calm = true)
    (hx : ∀ a s, transfer o a s none = none) (h : Attaching t c p os s)
    (hk : ∀ r s', Attaching t c p os s' → TracksSpawn t c (k r) none s') :
    TracksSpawn t c (.op o k) none s := by
  refine tracksSpawn_keep (F := Attaching t c p os) (fun _ hs => hs.admission)
    (fun _ _ hs hr => hs.rely hr) (fun _ _ s₁ s₂ hs he => ?_) hx h hk
  have hcalm : Calm t s₁ s₂ := exec_since (fun _ hev => hev.calm ho) (Op.locks_of_calm ho) he
  refine ⟨hs.own.exec (fun c p os hev => absurd (hev.calm ho) (by simp [Event.calm])) he,
    (hcalm.holder c).mpr hs.holder, fun hd => hs.drained (hcalm.drained hs.holder hd),
    fun c p m hm => hs.unmonitored c p m (hcalm.own rfl hm)⟩

/-- Dispatching events keeps the watch of a spawn that is over. -/
theorem tracks_dispatch (events : List DomainEvent) (h : SpawnOver t c x s) :
    TracksSpawn t c (dispatch events) x s := by
  induction events generalizing s with
  | nil => exact h
  | cons ev rest ih =>
      refine tracksSpawn_over (by simp [Op.Emits]) (fun _ _ => rfl) h fun _ s₁ h₁ => ?_
      refine tracksSpawn_over (by simp [Op.Emits]) (fun _ _ => rfl) h₁ fun _ s₂ h₂ => ?_
      refine tracksSpawn_over (by simp [Op.Emits]) (fun _ _ => rfl) h₂ fun _ s₃ h₃ => ?_
      exact ih h₃

/-- The kill of an orphan keeps the watch of a spawn that is over. -/
theorem tracks_killOrphan (h : SpawnOver t c x s) : TracksSpawn t c (killOrphan os) x s := by
  refine tracksSpawn_over (by simp [Op.Emits]) (fun _ _ => rfl) h fun _ s₁ h₁ => ?_
  refine tracksSpawn_over (by simp [Op.Emits]) (fun _ _ => rfl) h₁ fun _ s₂ h₂ => ?_
  exact tracksSpawn_over (by simp [Op.Emits]) (fun _ _ => rfl) h₂ fun _ s₃ h₃ => h₃

/-- The start of the sampler keeps the watch of a spawn that is over. -/
theorem tracks_startSampler (h : SpawnOver t c x s) : TracksSpawn t c startSampler x s := by
  refine tracksSpawn_over (by simp [Op.Emits]) (fun _ _ => rfl) h fun started s₁ h₁ => ?_
  cases started with
  | true => exact h₁
  | false => exact tracksSpawn_over (by simp [Op.Emits]) (fun _ _ => rfl) h₁ fun _ s₂ h₂ => h₂

/-- **An attached process is handed over.** -/
theorem tracks_superviseSpawned {events : List DomainEvent} (h : Attaching t c p os s) :
    TracksSpawn t c (superviseSpawned c p os events true) none s := by
  refine tracksSpawn_attaching rfl (fun _ _ => rfl) h fun _ s₁ h₁ => ?_
  refine tracksSpawn_attaching rfl (fun _ _ => rfl) h₁ fun _ s₂ h₂ => ?_
  refine Protocol.tracked_op fun s₃ hr₃ hi₃ => ?_
  have h₃ := h₂.rely hr₃
  refine ⟨⟨h₃.admission, h₃.not_signalled hi₃, nofun⟩, fun a r s₄ he _ => ?_⟩
  have hown := h₃.own.exec (by simp [Op.Emits]) he
  have h₄ : SpawnOver t c ((spawnWatch t c).update (.keepOutput p true) a s₃ none) s₄ := by
    cases a with
    | output output => exact .sent ⟨p, output, (s₃.waiters.wait p).1⟩ os rfl hown
    | _ => cases he
  refine tracksSpawn_over (by simp [Op.Emits]) (fun _ _ => rfl) h₄ fun _ s₅ h₅ => ?_
  refine tracksSpawn_bind (p := startSampler) (tracks_startSampler h₅) fun started x s₆ h₆ => ?_
  cases started with
  | true => exact tracksSpawn_bind (tracks_dispatch events h₆) fun _ _ _ h₇ => h₇
  | false => exact h₆

/-- What `attach` leaves in the history. -/
theorem attach_history (s : Inner) (t : Tid) (c : ProcessScopeId) (os : OsIdentity)
    (spec : ProcessSpec) :
    (∃ p events, (s.attach t c os spec).1 = .ok p events ∧
      (s.attach t c os spec).2.history = (t, .attached c p os) :: s.history) ∨
    ((s.attach t c os spec).1 = .closed ∨ (s.attach t c os spec).1 = .unknown) ∧
      (s.attach t c os spec).2.history = (t, .attachFailed c os) :: s.history := by
  simp only [Inner.attach]
  split
  · exact .inr ⟨.inr rfl, rfl⟩
  · split
    · exact .inl ⟨_, _, rfl, rfl⟩
    · exact .inr ⟨.inl rfl, rfl⟩

/-- A process attached by a spawn that had attached nothing. -/
theorem Admitting.attached (h : Admitting t c s) (hi : Inv s) (hi' : Inv s')
    (hh : s'.history = (t, .attached c p os) :: s.history)
    (ho : s'.operations = s.operations) : Attaching t c p os s' where
  own c' p' os' := by
    rw [hh, List.mem_cons, or_iff_left (h.1 c' p' os')]
    simp only [Prod.mk.injEq, true_and, Event.attached.injEq]
  holder := by
    rw [ho]
    exact h.2
  drained hd := by
    have hl := hi'.lawful
    rw [hh] at hl hd
    rcases drained_cons.mp hd with ⟨_, heq⟩ | hd
    · cases heq
    · exact hl.1.2.2.1 hd
  unmonitored c' p' m hm := by
    rw [hh] at hm
    rcases List.mem_cons.mp hm with heq | hm
    · cases heq
    · obtain ⟨l₁, l₂, heq, ⟨os', ha⟩, -⟩ := hi.lawful.of_mem hm
      refine h.1 c' p' os' ?_
      rw [heq]
      exact List.mem_append_right _ (List.mem_cons_of_mem _ ha)

/-- A spawn keeps its watch from its call of the backend on. -/
theorem tracks_spawnProcess {spec : ProcessSpec} (h : Admitting t c s) :
    TracksSpawn t c (spawnProcess c spec true) none s := by
  refine tracksSpawn_admitting (by simp [Op.Emits]) rfl (fun _ _ => rfl) h fun _ s₁ h₁ => ?_
  refine tracksSpawn_admitting (by simp [Op.Emits]) rfl (fun _ _ => rfl) h₁ fun r s₂ h₂ => ?_
  cases r with
  | error e => exact h₂.over
  | ok os =>
      refine tracksSpawn_admitting (by simp [Op.Emits]) rfl (fun _ _ => rfl) h₂
        fun dropped s₃ h₃ => ?_
      cases dropped with
      | true =>
          refine tracksSpawn_over (by simp [Op.Emits]) (fun _ _ => rfl) h₃.over fun _ s₄ h₄ => ?_
          exact tracksSpawn_bind (p := killOrphan os) (tracks_killOrphan h₄) fun _ _ _ h₅ => h₅
      | false =>
          refine Protocol.tracked_op fun s₄ hr₄ hi₄ => ?_
          have h₄ : Admitting t c s₄ := ⟨h₃.1.rely hr₄, (hr₄.holder c).mpr h₃.2⟩
          refine ⟨⟨.before rfl h₄.1, trivial, by rintro _ ⟨⟩⟩, fun a r s₅ he hi₅ => ?_⟩
          simp only [supervisor, exec] at he
          split at he
          case isFalse => cases he
          obtain heq := Option.some.inj he
          have hr : (s₄.attach t c os spec).1 = r := congrArg Prod.fst heq
          have hs : (s₄.attach t c os spec).2 = s₅ := congrArg Prod.snd heq
          rcases attach_history s₄ t c os spec with ⟨p, events, hok, hh⟩ | ⟨hbad, hh⟩
          · obtain rfl := hr.symm.trans hok
            rw [hs] at hh
            refine tracks_superviseSpawned (h₄.attached hi₄ hi₅ hh ?_)
            rw [← hs, Inner.attach_operations]
          · have h₅ : SpawnOver t c none s₅ := by
              refine .none rfl fun c' p' os' hm => ?_
              rw [← hs, hh] at hm
              rcases List.mem_cons.mp hm with heq | hm
              · cases heq
              · exact h₄.1 c' p' os' hm
            rcases hbad with hbad | hbad
            · obtain rfl := hr.symm.trans hbad
              exact tracksSpawn_bind (p := killOrphan os) (tracks_killOrphan h₅) fun _ _ _ h₆ => h₆
            · obtain rfl := hr.symm.trans hbad
              exact tracksSpawn_bind (p := killOrphan os) (tracks_killOrphan h₅) fun _ _ _ h₆ => h₆

/-- A spawn under the operation lock keeps its watch. -/
theorem tracks_spawnSerialized {spec : ProcessSpec} (h : Admitting t c s) :
    TracksSpawn t c (spawnSerialized c spec true) none s := by
  refine tracksSpawn_admitting (by simp [Op.Emits]) rfl (fun _ _ => rfl) h
    fun closed s₁ h₁ => ?_
  cases closed with
  | true => exact h₁.over
  | false =>
      refine tracksSpawn_admitting (by simp [Op.Emits]) rfl (fun _ _ => rfl) h₁
        fun report s₂ h₂ => ?_
      cases report with
      | some report => exact h₂.over
      | none =>
          refine tracksSpawn_admitting (by simp [Op.Emits]) rfl (fun _ _ => rfl) h₂
            fun admits s₃ h₃ => ?_
          rcases admits with _ | _ | _
          · exact h₃.over
          · exact h₃.over
          · exact tracks_spawnProcess h₃

/-- **A spawn with an admission keeps its watch.** -/
theorem tracks_spawnOwned {spec : ProcessSpec} (h : AttachedNone t s.history) :
    TracksSpawn t c (spawnOwned c spec true) none s := by
  refine tracksSpawn_over (by simp [Op.Emits]) (fun _ _ => rfl) (.none rfl h)
    fun found s₁ h₁ => ?_
  cases found with
  | false =>
      refine tracksSpawn_over (by simp [Op.Emits]) (fun _ _ => rfl) h₁ fun report s₂ h₂ => ?_
      cases report with
      | some report => exact h₂
      | none => exact h₂
  | true =>
      refine Protocol.tracked_op fun s₂ hr₂ hi₂ => ?_
      have h₂ := h₁.rely hr₂
      refine ⟨⟨h₂.admission, trivial, by rintro _ ⟨⟩⟩, fun a r s₃ he _ => ?_⟩
      have hown : AttachedNone t s₂.history := by
        cases h₂ with
        | none _ own => exact own
        | sent observed os hx own => cases hx
      have h₃ := hown.exec (by simp [Op.Emits]) he
      cases r with
      | some report =>
          exact tracksSpawn_over (by simp [Op.Emits]) (fun _ _ => rfl) (.none rfl h₃)
            fun _ _ h₄ => h₄
      | none =>
          simp only [supervisor, exec] at he
          split at he
          case isFalse => cases he
          obtain ⟨-, rfl⟩ := Prod.mk.inj (Option.some.inj he)
          have hh : ((s₂.lockOperation t c).operations c).holder = some t := by
            simp [Inner.lockOperation]
          refine tracksSpawn_bind (p := spawnSerialized c spec true)
            (tracks_spawnSerialized ⟨h₃, hh⟩) fun _ _ s₄ h₄ => ?_
          exact tracksSpawn_over (by simp [Op.Emits]) (fun _ _ => rfl) h₄ fun _ _ h₅ => h₅

/-- **The spawn of a background task keeps to its watch.** -/
theorem tracks_spawn {spec : ProcessSpec} (h : AttachedNone t s.history) :
    TracksSpawn t c (Call.spawn c spec true).code none s :=
  tracksSpawn_bind (p := spawnOwned c spec true) (tracks_spawnOwned h) fun _ _ _ h₁ => h₁

/-! ### The cleanup -/

/-- The watch of a `finish`: it suspends at the operation lock only, until the scope
drained. -/
def finishWatch (c : ProcessScopeId) : Watch Op Answer Inner Unit where
  update _ _ _ x := x
  holds o _ s := o.awaits = true → (∀ c', o ≠ .lockOperation c') → Drained s.history c

/-- The cleanup keeps to its watch, and drains the scope. -/
abbrev TracksFinish {α : Type} (t : Tid) (c : ProcessScopeId) (p : Code α) (s : Inner) : Prop :=
  protocol.tracked (finishWatch c) t p (fun _ _ s => Drained s.history c) () s

/-- A drained scope stays so, whatever runs. -/
theorem tracksFinish_drained {α : Type} (p : Code α) (h : Drained s.history c) :
    TracksFinish t c p s :=
  Protocol.tracked_of_stable (F := fun _ s => Drained s.history c) p
    (fun _ _ _ hd hr => hd.mono hr.suffix) (fun _ _ _ _ _ _ hd he => hd.mono (exec_suffix he))
    (fun _ _ _ hd _ _ => hd) (fun _ _ _ hd => hd) h

/-- The rule for sequencing. -/
theorem tracksFinish_bind {α β : Type} {p : Code α} {f : α → Code β}
    (hp : TracksFinish t c p s) : TracksFinish t c (p.bind f) s :=
  Protocol.tracked_bind (Protocol.tracked_mono (fun v _ _ hd => tracksFinish_drained (f v) hd) hp)

/-- **The rule for an operation on a scope that was created.** -/
theorem tracksFinish_op {α : Type} {o : Op} {k : Res o → Code α}
    (ho : o.awaits = true → ∃ c', o = .lockOperation c') (h : Created s.history c)
    (hk : ∀ a r s₁ s₂, Inv s₁ → exec t o a s₁ = some (r, s₂) → Created s₁.history c →
      Created s₂.history c → TracksFinish t c (k r) s₂) : TracksFinish t c (.op o k) s := by
  refine Protocol.tracked_op fun s₁ hr hi => ⟨fun ha hn => ?_, fun a r s₂ he _ => ?_⟩
  · obtain ⟨c', rfl⟩ := ho ha
    exact absurd rfl (hn c')
  · have h₁ := h.mono hr.suffix
    exact hk a r s₁ s₂ hi he h₁ (h₁.mono (exec_suffix he))

/-- A report of the scope says that it drained. -/
theorem Inv.drained_of_report (hi : Inv s) {report : ScopeTerminationReport}
    (hr : s.reportOf c = some report) : Drained s.history c := by
  obtain ⟨rr, hrr, -⟩ := Option.map_eq_some_iff.mp hr
  obtain ⟨r, -, hc⟩ := hi.commits.report hrr
  exact hi.lawful.drained_of_committed ⟨r, hc⟩

/-- A scope has drained once `drain` was called on it. -/
theorem Inv.drained_of_drain (hi : Inv s) (hc : Created s.history c) (t : Tid) :
    Drained (s.drain t c).2.history c := by
  rw [Inner.drain]
  split
  · next hnone =>
      have hr : Removed s.history c := by
        by_contra hn
        obtain ⟨sc, hsc⟩ := (hi.catalogue.registered c).mpr ⟨hc, hn⟩
        rw [hnone] at hsc
        cases hsc
      exact hi.lawful.drained_of_committed (hi.lawful.committed_of_removed hr)
  · next sc hsc =>
      dsimp only
      split
      · exact drained_cons.mpr (.inl ⟨_, rfl⟩)
      · next ho =>
          by_contra hn
          exact ho ((hi.processes.open_iff hsc).mpr hn)

/-- A termination under the lock has drained its scope when it returns. -/
theorem tracks_terminateScopeSerialized {opts : TerminateOptions} (h : Created s.history c) :
    TracksFinish t c (terminateScopeSerialized c opts) s := by
  refine tracksFinish_op nofun h fun a r s₁ s₂ hi he _ h₂ => ?_
  obtain ⟨hrep, hs₂⟩ := Prod.mk.inj (Option.some.inj he)
  cases r with
  | some report =>
      have hd := hi.drained_of_report hrep
      exact hd.mono (exec_suffix he)
  | none =>
      refine tracksFinish_op nofun h₂ fun a r s₃ s₄ hi₃ he₃ h₃ _ => ?_
      refine tracksFinish_drained _ ?_
      obtain ⟨-, rfl⟩ := Prod.mk.inj (Option.some.inj he₃)
      exact hi₃.drained_of_drain h₃ t

/-- A termination that takes the lock has drained its scope when it returns. -/
theorem tracks_terminateScopeOperation {opts : TerminateOptions} (h : Created s.history c) :
    TracksFinish t c (terminateScopeOperation c opts) s := by
  refine tracksFinish_op (fun _ => ⟨c, rfl⟩) h fun a r s₁ s₂ hi he _ h₂ => ?_
  cases r with
  | some report =>
      refine tracksFinish_drained _ (Drained.mono (exec_suffix he) ?_)
      simp only [exec] at he
      split at he
      case isFalse => cases he
      obtain ⟨hser, -⟩ := Prod.mk.inj (Option.some.inj he)
      exact hi.lawful.drained_of_committed ⟨report, hi.commits.serial.mp hser⟩
  | none =>
      exact tracksFinish_bind (p := terminateScopeSerialized c opts)
        (tracks_terminateScopeSerialized h₂)

/-- **A termination of a scope that was created has drained it when it returns.** Where the
operation was retired in between, the scope was committed. -/
theorem tracks_terminateScope {opts : TerminateOptions} (h : Created s.history c) :
    TracksFinish t c (terminateScope c opts) s := by
  refine tracksFinish_op nofun h fun a r s₁ s₂ hi he _ h₂ => ?_
  obtain ⟨hrep, -⟩ := Prod.mk.inj (Option.some.inj he)
  cases r with
  | some report => exact tracksFinish_drained _ ((hi.drained_of_report hrep).mono (exec_suffix he))
  | none =>
      refine tracksFinish_op nofun h₂ fun a r s₃ s₄ hi₃ he₃ h₃ h₄ => ?_
      obtain ⟨hop, -⟩ := Prod.mk.inj (Option.some.inj he₃)
      cases r with
      | true => exact tracks_terminateScopeOperation h₄
      | false =>
          have hret : Happened s₃.history (.operationRetired c) := by
            by_contra hn
            cases hop.symm.trans ((hi₃.catalogue.operation c).mpr ⟨h₃, hn⟩)
          have hd := hi₃.lawful.drained_of_committed
            (hi₃.lawful.committed_of_removed (hi₃.lawful.removed_of_retired hret))
          exact tracksFinish_drained _ (hd.mono (exec_suffix he₃))

/-- A cleanup has drained its scope when it returns. -/
theorem tracks_finishScopeCleanup {opts : TerminateOptions} (h : Created s.history c) :
    TracksFinish t c (finishScopeCleanup c opts) s := by
  refine tracksFinish_op nofun h fun a r s₁ s₂ hi he _ h₂ => ?_
  cases r with
  | some report =>
      have hver := congrArg Prod.fst (Option.some.inj he)
      have hd := hi.lawful.drained_of_committed ⟨report, hi.committed_of_verifiedReport hver⟩
      exact tracksFinish_drained _ (hd.mono (exec_suffix he))
  | none => exact tracksFinish_bind (p := terminateScope c opts) (tracks_terminateScope h₂)

/-- **The cleanup of a background task keeps to its watch.** -/
theorem tracks_finish {opts : TerminateOptions} (t : Tid) (s : Inner) :
    protocol.tracked (finishWatch c) t (Call.finish c opts false).code
      (fun v _ s => Drained s.history c ∧ ∃ result, v = .finished c result) () s := by
  refine Protocol.tracked_op fun s₁ hr hi => ⟨nofun, fun a r s₂ he _ => ?_⟩
  have hc : Created s₂.history c := by
    refine Created.mono (exec_suffix he) ⟨true, ?_⟩
    simp only [supervisor, exec] at he
    split at he
    case isFalse => cases he
    next how => exact hi.results.owner how
  exact Protocol.tracked_bind (p := finishScopeCleanup c opts)
    (Protocol.tracked_mono (fun result _ _ hd => ⟨hd, result, rfl⟩)
      (tracks_finishScopeCleanup hc))

/-- A cleanup that is unwinding returns nothing. -/
theorem tracks_unwoundFinish {withScope : Bool} (t : Tid) (s : Inner) :
    protocol.tracked Watch.idle t (unwoundFinish c withScope) (fun v _ _ => v = .done) () s := by
  refine Protocol.tracked_op fun s₁ _ _ => ⟨trivial, fun _ _ s₂ _ _ => ?_⟩
  refine Protocol.tracked_bind (p := dropBackstop c)
    (Protocol.tracked_mono (fun _ _ s₃ _ => ?_) (Protocol.tracked_idle _ s₂))
  exact Protocol.tracked_bind (p := publishWorkerError c withScope)
    (Protocol.tracked_mono (fun _ _ _ _ => rfl) (Protocol.tracked_idle _ s₃))

/-! ### The two calls in a configuration -/

/-- The spawn of a configuration keeps to its watch. -/
abbrev SpawnWatched (t : Tid) (c : ProcessScopeId) (cfg : Config Res Ret Inner)
    (x : Option SpawnObservation) : Prop :=
  protocol.Watched (spawnWatch t c) t none (fun _ x s => SpawnOver t c x s) (SpawnOver t c) cfg x

/-- A spawn that starts keeps its watch. -/
theorem SpawnWatched.start {cfg cfg' : Config Res Ret Inner} {spec : ProcessSpec}
    (hi : Inv cfg.shared) (hs : supervisor.step cfg (.start (.spawn c spec true)) = some cfg') :
    SpawnWatched cfg.shared.nextTask c cfg' none := by
  cases supervisor.step_shared hs with
  | start hsh hentry =>
      refine Protocol.Watched.start hentry ?_
      rw [hsh]
      exact tracks_spawn fun _ _ _ hm => Nat.lt_irrefl _ (hi.tasks.below hm)

/-- A spawn cannot be dropped: it goes on in a worker of its own. -/
theorem SpawnWatched.not_dropped {cfg cfg' : Config Res Ret Inner} (hr : Reachable cfg)
    (hw : SpawnWatched t c cfg x) : supervisor.step cfg (.drop t) ≠ some cfg' := by
  intro hs
  obtain ⟨_, _, _, -, hu, -⟩ := hw.dropped (good_of_reachable hr) hs
  cases hu

/-- A spawn keeps its watch, whatever happens beside it. -/
theorem SpawnWatched.step {cfg cfg' : Config Res Ret Inner} {l : Label Answer Call}
    (hr : Reachable cfg) (hw : SpawnWatched t c cfg x) (hs : supervisor.step cfg l = some cfg')
    (hlt : t < cfg.shared.nextTask) : SpawnWatched t c cfg' (cfg.record transfer t l x) := by
  refine Protocol.Watched.step (good_of_reachable hr) guar_enter (fun _ _ _ h hr => h.rely hr)
    (fun v x s h => ?_) hw hs (fun heq => ?_) (Nat.ne_of_lt hlt)
  · cases h with
    | none hx own =>
        refine .none hx fun c p os hm => ?_
        rcases List.mem_cons.mp hm with heq | hm
        · cases heq
        · exact own c p os hm
    | sent observed os hx own =>
        refine .sent observed os hx fun c' p' os' => ?_
        rw [← own c' p' os']
        exact ⟨fun hm => (List.mem_cons.mp hm).resolve_left (by simp), List.mem_cons_of_mem _⟩
  · subst heq
    exact hw.not_dropped hr hs

/-- What the watch of a spawn says of its admission. -/
theorem SpawnWatched.admission {cfg : Config Res Ret Inner} (hr : Reachable cfg)
    (hw : SpawnWatched t c cfg x) : Admission t c x cfg.shared := by
  cases ht : cfg.tasks t with
  | none => exact (hw.over ht).admission
  | some task =>
      have hw' := hw
      rw [SpawnWatched, Protocol.Watched, ht] at hw'
      obtain ⟨o, k, rfl, -⟩ := hw'
      exact (hw.holds (good_of_reachable hr) ht).2.admission

/-- **A handed over observation stays.** -/
theorem SpawnWatched.keeps {cfg cfg' : Config Res Ret Inner} {l : Label Answer Call}
    {observed : SpawnObservation} (hr : Reachable cfg)
    (hw : SpawnWatched t c cfg (some observed)) (hs : supervisor.step cfg l = some cfg') :
    cfg.record transfer t l (some observed) = some observed := by
  cases supervisor.step_shared hs with
  | @run t' a o k u r s' htask =>
      by_cases hne : t' = t
      · subst hne
        simp only [Config.record, htask, if_true]
        exact (hw.holds (good_of_reachable hr) htask).2.once observed rfl a
      · simp only [Config.record, if_neg hne]
  | drop => rfl
  | start => rfl

/-- What the history says a task has returned. -/
theorem mem_of_returnOf {v : Ret} (hv : returnOf h t = some v) : (t, .returned v) ∈ h := by
  obtain ⟨⟨t', ev⟩, hm, hx⟩ := List.exists_of_findSome?_eq_some hv
  cases ev with
  | returned v' =>
      obtain ⟨rfl, rfl⟩ : t' = t ∧ v' = v := by simpa using hx
      exact hm
  | _ => cases hx

/-- A task that has returned has a return. -/
theorem returnOf_of_mem {v : Ret} (hm : (t, .returned v) ∈ h) : ∃ v', returnOf h t = some v' := by
  rw [← Option.isSome_iff_exists, returnOf, List.findSome?_isSome_iff]
  exact ⟨_, hm, by simp⟩

/-- The newest return of a task is its return. -/
@[simp] theorem returnOf_returned (v : Ret) : returnOf ((t, .returned v) :: h) t = some v := by
  simp [returnOf]

/-- Other tasks do not return for `t`. -/
theorem returnOf_rely (hr : Rely t s s') : returnOf s'.history t = returnOf s.history t := by
  obtain ⟨newer, hh, hall⟩ := hr.caused
  rw [hh]
  clear hh
  induction newer with
  | nil => rfl
  | cons x newer ih =>
      obtain ⟨t', ev⟩ := x
      have hne : t' ≠ t := fun heq => hall _ List.mem_cons_self heq
      rw [← ih fun x hx => hall x (List.mem_cons_of_mem _ hx)]
      cases ev <;> simp [returnOf, hne]

/-- The cleanup of a configuration keeps to its watch, or was dropped in a drained scope. -/
inductive FinishWatched (t : Tid) (c : ProcessScopeId) (cfg : Config Res Ret Inner) : Prop
  | running (watched : protocol.Watched (finishWatch c) t (some (unwoundFinish c false))
      (fun v _ s => Drained s.history c ∧ ∃ result, v = .finished c result)
      (fun _ s => Drained s.history c ∧ ∃ result, returnOf s.history t = some (.finished c result))
      cfg ())
  | unwinding (drained : Drained cfg.shared.history c)
      (watched : protocol.Watched Watch.idle t none (fun v _ _ => v = .done)
        (fun _ s => returnOf s.history t = some .done) cfg ())

/-- A `finish` that starts keeps its watch. -/
theorem FinishWatched.start {cfg cfg' : Config Res Ret Inner} {opts : TerminateOptions}
    (hs : supervisor.step cfg (.start (.finish c opts false)) = some cfg') :
    FinishWatched cfg.shared.nextTask c cfg' := by
  cases supervisor.step_shared hs with
  | start hsh hentry => exact .running (.start hentry (tracks_finish _ _))

/-- A `finish` that is not dropped keeps its watch, whatever happens beside it. -/
theorem FinishWatched.step {cfg cfg' : Config Res Ret Inner} {l : Label Answer Call}
    (hr : Reachable cfg) (hw : FinishWatched t c cfg) (hs : supervisor.step cfg l = some cfg')
    (hd : l ≠ .drop t) (hlt : t < cfg.shared.nextTask) : FinishWatched t c cfg' := by
  cases hw with
  | running hw =>
      refine .running (Protocol.Watched.step (good_of_reachable hr) guar_enter ?_ ?_ hw hs hd
        (Nat.ne_of_lt hlt))
      · rintro _ s s' ⟨hdr, result, hret⟩ hrely
        exact ⟨hdr.mono hrely.suffix, result, (returnOf_rely hrely).trans hret⟩
      · rintro _ _ s ⟨hdr, result, rfl⟩
        exact ⟨hdr.mono (List.suffix_cons _ _), result, returnOf_returned _⟩
  | unwinding hdr hw =>
      refine .unwinding (hdr.mono (step_suffix hs)) (Protocol.Watched.step
        (good_of_reachable hr) guar_enter ?_ ?_ hw hs hd (Nat.ne_of_lt hlt))
      · exact fun _ s s' hret hrely => (returnOf_rely hrely).trans hret
      · rintro _ _ s rfl
        exact returnOf_returned _

/-- **A panic of the cleanup**, anywhere but at the operation lock, finds the scope drained. -/
theorem FinishWatched.panics {cfg cfg' : Config Res Ret Inner} (hr : Reachable cfg)
    (hw : FinishWatched t c cfg) (hs : supervisor.step cfg (.drop t) = some cfg')
    (hn : ∀ c' k u, cfg.tasks t ≠ some ⟨.op (.lockOperation c') k, u⟩) :
    FinishWatched t c cfg' := by
  cases hw with
  | running hw =>
      obtain ⟨o, k, p, ht, hp, haw, hh, hsh, hun⟩ := hw.dropped (good_of_reachable hr) hs
      obtain rfl := Option.some.inj hp
      have hdr : Drained cfg.shared.history c := hh haw fun c' heq => by
        subst heq
        exact hn c' k _ ht
      refine .unwinding (hsh ▸ hdr) (.start hun (tracks_unwoundFinish _ _))
  | unwinding hdr hw =>
      obtain ⟨_, _, _, -, hu, -⟩ := hw.dropped (good_of_reachable hr) hs
      cases hu

/-- The end of a cleanup: it returned its result, or its unwinding is over. -/
inductive CleanupOver (t : Tid) (c : ProcessScopeId) (h : History) (cleanup : CleanupResult) :
    Prop
  | returned (drained : Drained h c) (returned : (t, .returned (.finished c cleanup)) ∈ h)
  | panicked (drained : Drained h c) (returned : (t, .returned .done) ∈ h)
      (cleanup : cleanup = .error (.signal "background cleanup worker panicked"))

/-- A cleanup that is over has drained its scope. -/
theorem CleanupOver.drained {cleanup : CleanupResult} (ho : CleanupOver t c h cleanup) :
    Drained h c := by
  cases ho with
  | returned hd => exact hd
  | panicked hd => exact hd

/-- A cleanup that is over is so ever after. -/
theorem CleanupOver.mono {cleanup : CleanupResult} {h' : History} (hs : h <:+ h')
    (ho : CleanupOver t c h cleanup) : CleanupOver t c h' cleanup := by
  cases ho with
  | returned hd hm => exact .returned (hd.mono hs) (hs.mem hm)
  | panicked hd hm heq => exact .panicked (hd.mono hs) (hs.mem hm) heq

/-- A cleanup that has returned is over. -/
theorem FinishWatched.over {cfg : Config Res Ret Inner} {v : Ret} (hr : Reachable cfg)
    (hw : FinishWatched t c cfg) (hv : returnOf cfg.shared.history t = some v) :
    (∃ result, v = .finished c result ∧ CleanupOver t c cfg.shared.history result) ∨
      v = .done ∧ CleanupOver t c cfg.shared.history
        (.error (.signal "background cleanup worker panicked")) := by
  have hnone : cfg.tasks t = none := by
    cases ht : cfg.tasks t with
    | none => rfl
    | some task => exact absurd (mem_of_returnOf hv) (not_returned_of_running hr ht v)
  have hm := mem_of_returnOf hv
  cases hw with
  | running hw =>
      obtain ⟨hdr, result, hret⟩ := hw.over hnone
      obtain rfl := Option.some.inj (hv.symm.trans hret)
      exact .inl ⟨result, rfl, .returned hdr hm⟩
  | unwinding hdr hw =>
      obtain rfl := Option.some.inj (hv.symm.trans (hw.over hnone))
      exact .inr ⟨rfl, .panicked hdr hm rfl⟩

end Shepherd
