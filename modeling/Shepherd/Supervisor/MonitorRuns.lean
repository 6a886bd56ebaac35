import Shepherd.Supervisor.Bookkeeping

/-!
# Runs of Monitors

Every run keeps a log of the operations that were performed (`OpRun`). A monitor records first,
removes the sample, dispatches and removes the spawn time at the end (`noteWatch`), and it is
never too late for its record: nobody has evidence of an exit before the monitor does. So what
it removes is gone for good (`monitor_leaves_no_bookkeeping`).
-/

open Std

namespace Shepherd

open Conc

variable {t : Tid} {s s' : Inner} {c : ProcessScopeId} {p : ProcessId} {os : OsIdentity}

/-! ### The log of a run -/

/-- The operations that were performed, newest first. -/
abbrev OpLog := List (Tid × Op)

/-- A run with the log of its operations. -/
abbrev OpRun (cfg : Config Res Ret Inner) (g : OpLog) : Prop :=
  supervisor.Recorded (fun t o _ _ g => (t, o) :: g) Inner.new [] cfg g

/-- The operations of one task. -/
def ownOps (g : OpLog) (t : Tid) : List Op :=
  g.filterMap fun x => if x.1 = t then some x.2 else none

/-- An own operation is one of the log, by its task. -/
theorem mem_ownOps {g : OpLog} {o : Op} : o ∈ ownOps g t ↔ (t, o) ∈ g := by
  simp only [ownOps, List.mem_filterMap, Prod.exists]
  constructor
  · rintro ⟨t', o', hm, heq⟩
    split at heq
    · next ht =>
        obtain rfl := Option.some.inj heq
        obtain rfl : t' = t := ht
        exact hm
    · cases heq
  · exact fun hm => ⟨t, o, hm, if_pos rfl⟩

/-! ### The watch of a task -/

/-- Neither notes a spawn time, nor records an exit, nor removes a note. -/
def Op.quiet : Op → Bool
  | .insertSpawnTime _ | .recordMonitored _ _ _ | .removeSample _ | .removeSpawnTime _ => false
  | .orObserve _ o | .orElapsed o => o.quiet
  | _ => true

/-- A plain operation is quiet. -/
theorem quiet_of_plain {o : Op} (ho : o.plain = true) : o.quiet = true := by
  induction o with
  | orObserve f o ih => exact ih ho
  | orElapsed o ih => exact ih ho
  | _ => first | rfl | cases ho

/-- A quiet operation notes no spawn. -/
theorem notesSpawn_of_quiet {o : Op} (ho : o.quiet = true) (p : ProcessId) :
    o.notesSpawn p = false := by
  induction o with
  | orObserve f o ih => exact ih ho
  | orElapsed o ih => exact ih ho
  | _ => first | rfl | cases ho

/-- When the notes of a process may change: its spawn notes the time before it starts the
monitor, and the monitor, once it has recorded the exit, removes what was noted. -/
inductive MayNote (t : Tid) (x : List Op) (s : Inner) : Op → Prop
  | quiet {o : Op} : o.quiet = true → MayNote t x s o
  | insert {p : ProcessId} : (∀ c m, ¬ Happened s.history (.monitorStarted c p m)) →
      MayNote t x s (.insertSpawnTime p)
  | record {c : ProcessScopeId} {p : ProcessId} {os : OsIdentity} {result : Option RawExit} :
      Happened s.history (.attached c p os) → ¬ Reaped s.history p → (∀ ev, .prune ev ∉ x) →
      MayNote t x s (.recordMonitored c p result)
  | removeSample {p : ProcessId} : Reaped s.history p → MayNote t x s (.removeSample p)
  | removeSpawnTime {c : ProcessScopeId} {p : ProcessId} {m : Tid} :
      Happened s.history (.monitorStarted c p m) → MayNote t x s (.removeSpawnTime p)

/-- A task remembers its operations. -/
def noteWatch (t : Tid) : Watch Op Answer Inner (List Op) where
  update o _ _ x := o :: x
  holds o x s := MayNote t x s o

/-- A monitor that recorded an exit after a wait that returned `Ok` has removed everything. -/
def Tidied (x : List Op) : Prop :=
  ∀ c p raw, .recordMonitored c p (some raw) ∈ x → .removeSample p ∈ x ∧
    .removeSpawnTime p ∈ x ∧ ∃ e, e.Verified ∧ .prune (.processReaped c p e) ∈ x

/-- The task has recorded nothing. -/
def Recordless (x : List Op) : Prop :=
  ∀ c p result, .recordMonitored c p result ∉ x

/-- A task that has recorded nothing has left nothing behind. -/
theorem Recordless.tidied {x : List Op} (hx : Recordless x) : Tidied x :=
  fun c p raw hm => absurd hm (hx c p (some raw))

/-- A quiet operation records nothing. -/
theorem Recordless.cons {x : List Op} {o : Op} (hx : Recordless x) (ho : o.quiet = true) :
    Recordless (o :: x) := by
  intro c p result hm
  rcases List.mem_cons.mp hm with rfl | hm
  · cases ho
  · exact hx c p result hm

/-! ### The record of a monitor -/

/-- The exit that a monitor records after a successful wait is verified. -/
theorem verified_monitoredExit (proc : Process) (p : ProcessId) (raw : RawExit) :
    (monitoredExit proc p (some raw)).Verified := by
  simp only [ProcessExit.Verified, monitoredExit]
  repeat' split
  all_goals first | rfl | contradiction

/-- The record of a process without an exit reports its reap. -/
theorem ProcessScope.reap_recordMonitored {sc : ProcessScope} {proc : Process}
    (hp : sc.get p = some proc) (hn : proc.exit = none) (e : ProcessExit) :
    .processReaped sc.id p e ∈ (sc.recordMonitored p e).1 := by
  have hp' : (sc.recordExit p).2.get p = some proc.markExited.2 := by
    rw [recordExit_get, if_pos rfl, hp]
    rfl
  have hreap : (proc.markExited.2.markReaped e).1 = true := by
    rcases proc.markExited.2.markReaped_cases e with ⟨-, hm, -⟩ | ⟨⟨e', he, -⟩, -⟩
    · exact hm
    · rw [Process.markExited_exit, hn] at he
      cases he
  rw [ProcessScope.recordMonitored]
  refine List.mem_append_right _ ?_
  rcases (sc.recordExit p).2.recordReaped_cases p e hp' with ⟨hm, -⟩ | ⟨-, -, heq⟩ | ⟨-, -, -, heq⟩
  · rw [hreap] at hm
    cases hm
  · rw [heq]
    simp [Except.toOption]
  · rw [heq]
    simp [Except.toOption]

/-- **A monitor is never too late**: while nobody has recorded an exit, its scope and its
process are there, and its record reports the reap. -/
theorem Inv.recordMonitored_some (hi : Inv s) (ha : Happened s.history (.attached c p os))
    (hn : ¬ Reaped s.history p) (t : Tid) (result : Option RawExit) :
    ∃ proc events, Tracked s.registry c p proc ∧ proc.exit = none ∧
      (s.recordMonitored t c p result).1 = some events ∧
      (s.recordMonitored t c p result).2.history =
        (t, .reaped c p (monitoredExit proc p result)) :: s.history ∧
      .processReaped c p (monitoredExit proc p result) ∈ events := by
  have hnev : ¬ HasEvidence s.history p := fun hx => hn (hi.lawful.reaped_of_evidence hx)
  obtain ⟨proc, sc, hsc, hp⟩ := (hi.processes.tracked ha).resolve_left hnev
  have hnone : proc.exit = none := by
    cases hex : proc.exit with
    | none => rfl
    | some e =>
        rcases hi.processes.exit ⟨sc, hsc, hp⟩ hex with hx | hx
        · exact absurd ⟨c, e, hx⟩ hn
        · obtain ⟨_, l, hs, -, -, -, hr, -⟩ := hi.lawful.of_happened hx
          exact absurd (hr.mono hs) hn
  have hid : sc.id = c := s.registry.keyed c sc hsc
  have hreap := ProcessScope.reap_recordMonitored hp hnone (monitoredExit proc p result)
  rw [hid] at hreap
  refine ⟨proc, withoutScopeClosed (sc.recordMonitored p (monitoredExit proc p result)).1,
    ⟨sc, hsc, hp⟩, hnone, ?_, ?_, List.mem_filter.mpr ⟨hreap, rfl⟩⟩
  · simp only [Inner.recordMonitored, hsc, hp]
  · simp only [Inner.recordMonitored, hsc, hp, Inner.log_history]

/-! ### Programs -/

section Programs

variable {α β : Type} {x : List Op}

/-- The watch of a task that has recorded nothing admits whatever happens beside it. -/
theorem admits_recordless (t : Tid) : Admits (noteWatch t) Recordless where
  holds _ ho _ := .quiet (quiet_of_plain ho)
  update _ _ ho hx := hx.cons (quiet_of_plain ho)

/-- A program of quiet operations. -/
theorem recordless_all {q : Code α} (hq : q.All (fun o => o.quiet = true) fun _ => True)
    (hx : Recordless x) : protocol.tracked (noteWatch t) t q (fun _ y _ => Recordless y) x s :=
  Protocol.tracked_mono (fun _ _ _ h => h.2)
    (Protocol.tracked_of_all (F := fun x _ => Recordless x) hq (fun _ _ _ hx _ => hx)
      (fun _ _ _ _ _ _ ho hx _ => hx.cons ho) (fun _ _ _ ho _ => .quiet ho) hx)

/-- **A spawn notes the time** before the monitor is started, when it has only attached its
process. -/
theorem recordless_superviseSpawned {events : List DomainEvent} {admission : Bool}
    (hx : Recordless x) (hi : Inv s) (hh : s.history = (t, .attached c p os) :: s'.history) :
    protocol.tracked (noteWatch t) t (superviseSpawned c p os events admission)
      (fun _ y _ => Recordless y) x s := by
  refine Protocol.tracked_op fun s₁ hr₁ hi₁ => ⟨.insert fun c' m hm => ?_, fun a r s₂ _ _ => ?_⟩
  · obtain ⟨t', hm⟩ := hm
    obtain ⟨l₁, l₂, hsplit, ⟨os', ha⟩, -⟩ := hi₁.lawful.of_mem hm
    have hat : (t, .attached c p os) ∈ s₁.history :=
      (Since.suffix hr₁).mem (hh ▸ List.mem_cons_self)
    have hat' : (t', .attached c' p os') ∈ s₁.history := by
      rw [hsplit]
      simp [ha]
    obtain rfl : t = t' := hi₁.lawful.attacher_unique hat hat'
    have hold : (t, .monitorStarted c' p m) ∈ s.history := Since.own_mem hr₁ id hm
    rw [hh] at hold
    have hold := (List.mem_cons.mp hold).resolve_left nofun
    have hl := hi.lawful
    rw [hh] at hl
    obtain ⟨l₁', l₂', hsplit', ⟨os'', ha'⟩, -⟩ := hl.2.of_mem hold
    refine hl.1.2.2.2.1 c' os'' ⟨t, ?_⟩
    rw [hsplit']
    simp [ha']
  · refine recordless_all ?_ (show Recordless (.insertSpawnTime p :: x) from ?_)
    · refine all_step rfl fun _ => all_step rfl fun _ => all_step rfl fun _ => ?_
      refine all_bind ((Plain.startSampler).mono (fun _ => quiet_of_plain) fun _ _ => trivial)
        fun r => ?_
      split
      · exact all_bind ((Plain.dispatch events).mono (fun _ => quiet_of_plain)
          fun _ _ => trivial) fun _ => trivial
      · trivial
    · intro c' p' result hm
      exact hx c' p' result ((List.mem_cons.mp hm).resolve_left nofun)

/-- A dispatch prunes for every event, and does nothing else that is remembered. -/
theorem prunes_dispatch (events : List DomainEvent) (x : List Op) (s : Inner) :
    protocol.tracked (noteWatch t) t (dispatch events)
      (fun _ y s' => s.history <:+ s'.history ∧ x ⊆ y ∧ (∀ o ∈ y, o ∈ x ∨ o.quiet = true) ∧
        ∀ ev ∈ events, .prune ev ∈ y) x s := by
  induction events generalizing x s with
  | nil => exact ⟨List.suffix_refl _, List.Subset.refl x, fun _ ho => .inl ho, nofun⟩
  | cons ev rest ih =>
      refine Protocol.tracked_op fun _ hr₁ _ => ⟨.quiet rfl, fun _ _ _ he₁ _ => ?_⟩
      refine Protocol.tracked_op fun _ hr₂ _ => ⟨.quiet rfl, fun _ _ _ he₂ _ => ?_⟩
      refine Protocol.tracked_op fun _ hr₃ _ => ⟨.quiet rfl, fun _ _ s₁ he₃ _ => ?_⟩
      have hs₁ := ((Since.suffix hr₁).trans (exec_suffix he₁)).trans
        (((Since.suffix hr₂).trans (exec_suffix he₂)).trans
          ((Since.suffix hr₃).trans (exec_suffix he₃)))
      refine Protocol.tracked_mono (fun _ y _ hy => ?_) (ih _ s₁)
      obtain ⟨hs', hsub, hnew, hprune⟩ := hy
      refine ⟨hs₁.trans hs', fun o ho => hsub (by simp [noteWatch, ho]), fun o ho => ?_,
        fun ev' hev => ?_⟩
      · rcases hnew o ho with hm | hq
        · simp only [noteWatch, List.mem_cons] at hm
          rcases hm with rfl | rfl | rfl | hm
          · exact .inr rfl
          · exact .inr rfl
          · exact .inr rfl
          · exact .inl hm
        · exact .inr hq
      · rcases List.mem_cons.mp hev with rfl | hev
        · exact hsub (by simp [noteWatch])
        · exact hprune ev' hev

/-- The end of a monitor, after its record. -/
theorem tidied_dispatch {e : ProcessExit} {events : List DomainEvent} {m : Tid}
    (hm : Happened s.history (.monitorStarted c p m)) (hev : .processReaped c p e ∈ events)
    (hsample : .removeSample p ∈ x)
    (hx : ∀ c' q raw, .recordMonitored c' q (some raw) ∈ x → c' = c ∧ q = p ∧ e.Verified) :
    protocol.tracked (noteWatch t) t (do dispatch events; act (.removeSpawnTime p))
      (fun _ y _ => Tidied y) x s := by
  refine Protocol.tracked_bind (Protocol.tracked_mono (fun _ y s₁ hy => ?_)
    (prunes_dispatch events x s))
  obtain ⟨hs₁, hsub, hnew, hprune⟩ := hy
  refine Protocol.tracked_op fun s₂ hr₂ _ =>
    ⟨.removeSpawnTime (hm.mono (hs₁.trans (Since.suffix hr₂))), fun _ _ _ _ _ => ?_⟩
  intro c' q raw hrec
  rcases hnew _ ((List.mem_cons.mp hrec).resolve_left nofun) with hrec | hq
  · obtain ⟨rfl, rfl, hv⟩ := hx c' q raw hrec
    exact ⟨List.mem_cons_of_mem _ (hsub hsample), List.mem_cons_self, e, hv,
      List.mem_cons_of_mem _ (hprune _ hev)⟩
  · cases hq

/-- **A monitor records, and removes what was noted.** Before its record it has only waited. -/
theorem tidied_monitor (hm : Happened s.history (.monitorStarted c p t))
    (ha : Happened s.history (.attached c p os)) (hn : ∀ ev, (t, ev) ∉ s.history) :
    protocol.tracked (noteWatch t) t (monitor c p os) (fun _ y _ => Tidied y) [] s := by
  refine Protocol.tracked_op fun s₁ hr₁ _ => ⟨.quiet rfl, fun a r s₂ he₁ _ => ?_⟩
  obtain ⟨-, rfl⟩ := Prod.mk.inj (Option.some.inj he₁)
  refine Protocol.tracked_op fun s₃ hr₃ _ => ⟨.quiet rfl, fun a result s₄ he₃ _ => ?_⟩
  have hh₄ : s₄.history = (t, .waitReturned os result) :: s₃.history := by
    simp only [supervisor, exec] at he₃
    split at he₃
    · obtain ⟨rfl, rfl⟩ := Prod.mk.inj (Option.some.inj he₃)
      rfl
    · cases he₃
  have hsuf : s.history <:+ s₄.history := by
    rw [hh₄]
    exact (Since.suffix hr₁).trans ((List.suffix_cons _ _).trans
      ((Since.suffix hr₃).trans (List.suffix_cons _ _)))
  refine Protocol.tracked_op fun s₅ hr₅ hi₅ => ?_
  have hs₅ : s.history <:+ s₅.history := hsuf.trans (Since.suffix hr₅)
  have hnr : ¬ Reaped s₅.history p := by
    refine hi₅.not_reaped (hm.mono hs₅) fun c' e hmem => ?_
    have h₄ := Since.own_mem hr₅ id hmem
    rw [hh₄] at h₄
    have h₃ := Since.own_mem hr₃ id ((List.mem_cons.mp h₄).resolve_left (by rintro ⟨⟩))
    exact hn _ (Since.own_mem hr₁ id ((List.mem_cons.mp h₃).resolve_left (by rintro ⟨⟩)))
  refine ⟨.record (ha.mono hs₅) hnr (by simp [noteWatch]), fun a r s₆ he₅ hi₆ => ?_⟩
  obtain ⟨proc, events, -, -, hsome, hh, hreap⟩ :=
    hi₅.recordMonitored_some (ha.mono hs₅) hnr t result
  have heq : s₅.recordMonitored t c p result = (r, s₆) := Option.some.inj he₅
  obtain rfl : some events = r := hsome.symm.trans (congrArg Prod.fst heq)
  have hm₆ : Happened s₆.history (.monitorStarted c p t) := (hm.mono hs₅).mono (exec_suffix he₅)
  have hh₆ : s₆.history = (t, .reaped c p (monitoredExit proc p result)) :: s₅.history :=
    (congrArg (fun x => x.2.history) heq).symm.trans hh
  have hr₆ : Reaped s₆.history p := ⟨c, _, t, hh₆ ▸ List.mem_cons_self⟩
  refine Protocol.tracked_op fun s₇ hr₇ _ =>
    ⟨.removeSample (hr₆.mono (Since.suffix hr₇)), fun a r s₈ he₇ _ => ?_⟩
  have hs₈ : s₆.history <:+ s₈.history := (Since.suffix hr₇).trans (exec_suffix he₇)
  cases result with
  | none =>
      refine tidied_dispatch (hm₆.mono hs₈) hreap (by simp [noteWatch]) fun c' q raw hrec => ?_
      simp [noteWatch] at hrec
  | some raw =>
      have hv := verified_monitoredExit proc p raw
      refine Protocol.tracked_op fun s₉ hr₉ _ => ⟨.quiet rfl, fun a r s₁₀ he₉ _ => ?_⟩
      have hs₁₀ : s₆.history <:+ s₁₀.history :=
        hs₈.trans ((Since.suffix hr₉).trans (exec_suffix he₉))
      refine tidied_dispatch (hm₆.mono hs₁₀) hreap (by simp [noteWatch])
        fun c' q raw' hrec => ?_
      simp only [noteWatch, List.mem_cons, List.not_mem_nil, or_false, reduceCtorEq, false_or,
        Op.recordMonitored.injEq] at hrec
      exact ⟨hrec.1, hrec.2.1, hv⟩

end Programs

/-! ### Tasks -/

/-- Only a spawn and a monitor do more than quiet operations. -/
theorem quiet_of_performs {role : Role} {o : Op} (ho : role.performs o) :
    o.quiet = true ∨ (∃ c spec admission, role = .call (.spawn c spec admission)) ∨
      ∃ c p os, role = .monitor c p os := by
  rcases ho with ho | ho
  · exact .inl (quiet_of_plain ho)
  · split at ho
    · exact .inr (.inl ⟨_, _, _, rfl⟩)
    · exact .inl (ho ▸ rfl)
    · exact .inl (ho ▸ rfl)
    · exact .inr (.inr ⟨_, _, _, rfl⟩)
    · exact ho.elim

/-- A task keeps to the watch, and so does what runs when it is dropped. -/
abbrev NotesWell (t : Tid) (task : Task Res Ret) (x : List Op) (s : Inner) : Prop :=
  protocol.TracksTask noteWatch (fun _ _ _ _ => True) (fun _ _ x _ => Tidied x) t task x s

/-- A task that cannot be dropped. -/
theorem notesWell_detached {role : Role} (hu : role.task.unwind = none)
    (h : protocol.tracked (noteWatch t) t role.task.prog (fun _ y _ => Tidied y) [] s) :
    NotesWell t role.task [] s := by
  refine ⟨role_op role, Protocol.tracked_holds ?_ (fun o y s₁ ho => ⟨ho, ?_⟩) h⟩
  · rfl
  · rw [hu]
    trivial

/-- A task of quiet operations, which never records anything. -/
theorem notesWell_quiet {role : Role}
    (hall : role.task.prog.All (fun o => o.quiet = true) fun _ => True) :
    NotesWell t role.task [] s := by
  refine ⟨role_op role, Protocol.tracked_mono (fun _ _ _ h => Recordless.tidied h.2)
    (Protocol.tracked_of_all (F := fun y _ => Recordless y) hall (fun _ _ _ hy _ => hy)
      (fun _ _ _ _ _ _ ho hy _ => hy.cons ho) (fun o y s₁ ho hy => ⟨.quiet ho, ?_⟩) nofun)⟩
  cases hu : role.task.unwind with
  | none => trivial
  | some q =>
      obtain ⟨hop, hq⟩ := all_unwind hu
      refine fun _ => ⟨hop, Protocol.tracked_holds ?_ (fun _ _ _ ho => ⟨ho, trivial⟩)
        (Protocol.tracked_mono (fun _ _ _ h => Recordless.tidied h)
          (recordless_all (hq.mono (fun _ => quiet_of_plain) fun _ _ => trivial) hy))⟩
      rfl

/-- **Every role keeps to the watch**, and is tidy when it returns. -/
theorem notesWell_role {role : Role} (hr : Ready t role s) : NotesWell t role.task [] s := by
  by_cases hspawn : ∃ c spec admission, role = .call (.spawn c spec admission)
  · obtain ⟨c, spec, admission, rfl⟩ := hspawn
    refine notesWell_detached rfl (Protocol.tracked_bind (Protocol.tracked_mono
      (fun _ _ _ hy => Recordless.tidied hy) (tracked_spawnOwned (admits_recordless t)
        (admits_recordless t) (fun _ hy => hy) (fun a _ hi hy he => ?_) nofun)))
    exact recordless_superviseSpawned (hy.cons rfl) hi (attached_of_attach he)
  by_cases hmonitor : ∃ c p os, role = .monitor c p os
  · obtain ⟨c, p, os, rfl⟩ := hmonitor
    exact notesWell_detached rfl
      (Protocol.tracked_bind (tidied_monitor hr.role.1 hr.role.2 hr.fresh))
  · exact notesWell_quiet ((all_role role).mono (fun o ho => (quiet_of_performs ho).resolve_right
      (not_or.mpr ⟨hspawn, hmonitor⟩)) fun _ _ => trivial)

/-- The whole supervisor keeps to the watch of notes. -/
theorem tracks_notes :
    Protocol.Tracks protocol noteWatch (fun _ _ _ _ => True) (fun _ _ x _ => Tidied x)
      (fun _ x _ => Tidied x) [] where
  enter call s hi :=
    ⟨guar_enter s hi, .call call, rfl, fun ev hm => Nat.lt_irrefl _ (hi.tasks.below hm), trivial⟩
  ready := by
    rintro t task s ⟨role, rfl, hr⟩
    exact notesWell_role hr
  rely _ _ _ _ h _ := h
  absent _ _ := nofun
  finish _ _ _ _ h := h

/-! ### Runs -/

variable {cfg : Config Res Ret Inner} {g : OpLog}

/-- Every task remembers its part of the log. -/
theorem recorded_ownOps (h : OpRun cfg g) :
    supervisor.Recorded (Protocol.ownMemory noteWatch) Inner.new (fun _ => []) cfg (ownOps g) := by
  refine Machine.Recorded.map (f := ownOps) (fun t o a s g => ?_) h
  funext t'
  rw [Protocol.ownMemory, Function.update_apply]
  by_cases ht : t' = t
  · subst ht
    simp [ownOps, noteWatch]
  · simp [ownOps, ht, Ne.symm ht]

/-- **Every task of a run keeps to the watch of notes**, with its own part of the log. -/
theorem allTracked_notes (h : OpRun cfg g) :
    protocol.AllTracked noteWatch (fun _ _ _ _ => True) (fun _ _ x _ => Tidied x)
      (fun _ x _ => Tidied x) [] cfg (ownOps g) :=
  .of_recorded tracks_notes (fun _ => good_of_reachable) (recorded_ownOps h)

/-- What a task may note, where it is. -/
theorem mayNote (h : OpRun cfg g) {o : Op} {k : Res o → Code Ret} {u : Option (Code Ret)}
    (htask : cfg.tasks t = some ⟨.op o k, u⟩) : MayNote t (ownOps g t) cfg.shared o :=
  ((allTracked_notes h).holds (good_of_reachable h.reachable) htask).1

/-- What was removed is gone for good. -/
structure Cleared (g : OpLog) (s : Inner) : Prop where
  recorded : ∀ {t c p raw}, (t, .recordMonitored c p (some raw)) ∈ g →
    HasEvidence s.history p ∧ ∃ os, Happened s.history (.attached c p os)
  samples : ∀ {t p}, (t, .removeSample p) ∈ g → Reaped s.history p ∧ s.samples[p]? = none
  spawnTimes : ∀ {t p}, (t, .removeSpawnTime p) ∈ g →
    (∃ c m, Happened s.history (.monitorStarted c p m)) ∧ s.spawnTimes[p]? = none
  pruned : ∀ {t c p raw e}, (t, .recordMonitored c p (some raw)) ∈ g → e.Verified →
    (t, .prune (.processReaped c p e)) ∈ g → Gone s.registry p

/-- A process with evidence is gone after the prune of its verified reap. -/
theorem Inv.gone_of_prune {e : ProcessExit} (hi : Inv s)
    (ha : Happened s.history (.attached c p os)) (hev : HasEvidence s.history p)
    (hv : e.Verified) :
    Gone (s.prune (.processReaped c p e)).registry p := by
  intro c' proc' ht
  obtain ⟨proc, ht', -⟩ := Inner.Ages.prune _ p ⟨c, os, ha⟩ c' proc' ht
  obtain ⟨rfl, -⟩ := hi.lawful.attached_unique ha (hi.processes.attached ht')
  obtain ⟨sc', hsc', hp⟩ := ht
  rw [Inner.prune, if_pos (show e.outcome.isVerified = true from hv)] at hsc'
  rw [ScopeRegistry.get_modify, if_pos rfl] at hsc'
  obtain ⟨sc, hsc, rfl⟩ := Option.map_eq_some_iff.mp hsc'
  rw [ProcessScope.prune_get] at hp
  split at hp
  · cases hp
  · next hn =>
      obtain ⟨e', hex, hv'⟩ := hi.processes.evidence ⟨sc, hsc, hp⟩ hev
      exact hn ⟨rfl, e', by rw [ProcessScope.exitOf, hp]; exact hex, hv'⟩

/-- What the notes allow. -/
theorem MayNote.notesSpawn {x : List Op} {o : Op} (h : MayNote t x s o)
    (hm : ∃ c m, Happened s.history (.monitorStarted c p m)) : o.notesSpawn p = false := by
  cases h with
  | quiet ho => exact notesSpawn_of_quiet ho p
  | @insert q hn =>
      obtain ⟨c, m, hm⟩ := hm
      refine decide_eq_false fun hq => ?_
      exact hn c m (hq ▸ hm)
  | _ => rfl

namespace Cleared

/-- Before the first operation there is nothing to clear. -/
theorem empty (s : Inner) : Cleared [] s :=
  ⟨nofun, nofun, nofun, nofun⟩

/-- A return changes nothing. -/
theorem finish (h : Cleared g s) (t : Tid) (v : Ret) : Cleared g (s.finish t v) := by
  have hs : s.history <:+ (s.finish t v).history := List.suffix_cons _ _
  refine ⟨fun hm => ?_, fun hm => ?_, fun hm => ?_, fun hm hv hp => h.pruned hm hv hp⟩
  · obtain ⟨hev, os, ha⟩ := h.recorded hm
    exact ⟨hev.mono hs, os, ha.mono hs⟩
  · exact ⟨(h.samples hm).1.mono hs, (h.samples hm).2⟩
  · obtain ⟨⟨c, m, hstart⟩, hn⟩ := h.spawnTimes hm
    exact ⟨⟨c, m, hstart.mono hs⟩, hn⟩

/-- **An operation brings nothing back**, if its task may note what it does. -/
theorem exec {o : Op} {a : Answer} {r : Res o} (hi : Inv s)
    (hdead : ∀ p, Reaped s.history p → Dead s.registry p)
    (hmay : MayNote t (ownOps g t) s o) (he : exec t o a s = some (r, s')) (h : Cleared g s) :
    Cleared ((t, o) :: g) s' := by
  have hs := exec_suffix he
  refine ⟨fun {t' c p raw} hm => ?_, fun {t' p} hm => ?_, fun {t' p} hm => ?_,
    fun {t' c p raw e} hm hv hp => ?_⟩
  · rcases List.mem_cons.mp hm with heq | hm
    · obtain ⟨-, rfl⟩ := Prod.mk.inj heq
      cases hmay with
      | quiet ho => cases ho
      | @record _ _ os _ ha hn _ =>
          obtain ⟨proc, _, -, -, -, hh, -⟩ := hi.recordMonitored_some ha hn t (some raw)
          have hh' : s'.history = (t, .reaped c p (monitoredExit proc p (some raw))) :: s.history :=
            (congrArg (fun x => x.2.history) (Option.some.inj he)).symm.trans hh
          exact ⟨⟨c, _, verified_monitoredExit proc p raw, .inl ⟨t, hh' ▸ List.mem_cons_self⟩⟩,
            os, ha.mono hs⟩
    · obtain ⟨hev, os, ha⟩ := h.recorded hm
      exact ⟨hev.mono hs, os, ha.mono hs⟩
  · rcases List.mem_cons.mp hm with heq | hm
    · obtain ⟨-, rfl⟩ := Prod.mk.inj heq
      obtain ⟨-, rfl⟩ := Prod.mk.inj (Option.some.inj he)
      cases hmay with
      | quiet ho => cases ho
      | removeSample hr => exact ⟨hr, by simp⟩
    · obtain ⟨hr, hn⟩ := h.samples hm
      exact ⟨hr.mono hs, exec_samples (hdead p hr) hn he⟩
  · rcases List.mem_cons.mp hm with heq | hm
    · obtain ⟨-, rfl⟩ := Prod.mk.inj heq
      obtain ⟨-, rfl⟩ := Prod.mk.inj (Option.some.inj he)
      cases hmay with
      | quiet ho => cases ho
      | @removeSpawnTime c _ m hstart => exact ⟨⟨c, m, hstart⟩, by simp⟩
    · obtain ⟨⟨c, m, hstart⟩, hn⟩ := h.spawnTimes hm
      exact ⟨⟨c, m, hstart.mono hs⟩, exec_spawnTimes (hmay.notesSpawn ⟨c, m, hstart⟩) hn he⟩
  · rcases List.mem_cons.mp hm with heq | hm
    · obtain ⟨rfl, rfl⟩ := Prod.mk.inj heq
      have hp := (List.mem_cons.mp hp).resolve_left nofun
      cases hmay with
      | quiet ho => cases ho
      | record _ _ hn => exact absurd (mem_ownOps.mpr hp) (hn _)
    · obtain ⟨hev, os, ha⟩ := h.recorded hm
      rcases List.mem_cons.mp hp with heq | hp
      · obtain ⟨-, rfl⟩ := Prod.mk.inj heq
        obtain ⟨-, rfl⟩ := Prod.mk.inj (Option.some.inj he)
        exact hi.gone_of_prune ha hev hv
      · exact (exec_ages hi he p ⟨c, os, ha⟩).gone (h.pruned hm hv hp)

end Cleared

/-- **What was removed is gone for good**, in every run. -/
theorem cleared_of_run (h : OpRun cfg g) : Cleared g cfg.shared := by
  induction h with
  | initial => exact .empty _
  | @step cfg cfg' g l h hs ih =>
      cases supervisor.step_shared hs with
      | @run t a o k u r s' htask hexec hsh =>
          have hi := inv_of_reachable h.reachable
          have hc := ih.exec hi (fun p => dead_of_reaped h.reachable) (mayNote h htask) hexec
          have hmem : cfg.remember (fun t o _ _ g => (t, o) :: g) (.run t a : Label Answer Call) g =
              (t, o) :: g := by
            simp only [Config.remember, htask]
          rw [hmem]
          rcases hsh with ⟨_, _, -, hsh, -⟩ | ⟨v, -, hsh, -⟩
          · rw [hsh]
            exact hc
          · rw [hsh]
            exact hc.finish t v
      | drop _ _ hsh =>
          rw [hsh]
          exact ih
      | start hsh =>
          rw [hsh]
          exact ⟨ih.recorded, ih.samples, ih.spawnTimes, ih.pruned⟩

/-- **A monitor reaches its record, and leaves no bookkeeping behind.** When it is about to
record, its scope and its process are in the registry. Once it has removed the sample of the
process, none is stored again. When it is over after a wait that returned `Ok`, the registry,
the samples and the spawn times know nothing of the process, now and ever after: the log only
grows. -/
theorem monitor_leaves_no_bookkeeping (h : OpRun cfg g) :
    (∀ t c p result k u, cfg.tasks t = some ⟨.op (.recordMonitored c p result) k, u⟩ →
      ∃ proc events, Tracked cfg.shared.registry c p proc ∧ proc.exit = none ∧
        (cfg.shared.recordMonitored t c p result).1 = some events) ∧
    (∀ t p, (t, .removeSample p) ∈ g → cfg.shared.samples[p]? = none ∧
      ∀ x, (cfg.shared.storeSample p x).samples[p]? = none) ∧
    (∀ t c p raw, (t, .recordMonitored c p (some raw)) ∈ g → cfg.tasks t = none →
      Gone cfg.shared.registry p ∧ cfg.shared.samples[p]? = none ∧
        cfg.shared.spawnTimes[p]? = none) := by
  have hc := cleared_of_run h
  have hi := inv_of_reachable h.reachable
  refine ⟨fun t c p result k u htask => ?_, fun t p hm => ?_, fun t c p raw hm hover => ?_⟩
  · cases mayNote h htask with
    | quiet ho => cases ho
    | record ha hn _ =>
        obtain ⟨proc, events, htr, hex, hsome, -⟩ := hi.recordMonitored_some ha hn t result
        exact ⟨proc, events, htr, hex, hsome⟩
  · obtain ⟨hr, hn⟩ := hc.samples hm
    exact ⟨hn, cfg.shared.storeSample_of_dead (dead_of_reaped h.reachable hr) hn p⟩
  · obtain ⟨hsample, htime, e, hv, hprune⟩ :=
      (allTracked_notes h).ended t hover c p raw (mem_ownOps.mpr hm)
    exact ⟨hc.pruned hm hv (mem_ownOps.mp hprune), (hc.samples (mem_ownOps.mp hsample)).2,
      (hc.spawnTimes (mem_ownOps.mp htime)).2⟩

/-- The task recorded an exit of the process after a wait that returned `Ok`. -/
def recordedOk (t : Tid) (c : ProcessScopeId) (p : ProcessId) : Tid × Op → Bool
  | (t', .recordMonitored c' p' (some _)) => t' = t ∧ c' = c ∧ p' = p
  | _ => false

/-- What the check finds is the record of an exit. -/
theorem of_recordedOk {x : Tid × Op} (h : recordedOk t c p x = true) :
    ∃ raw, x = (t, .recordMonitored c p (some raw)) := by
  rw [recordedOk.eq_def] at h
  split at h
  · obtain ⟨rfl, rfl, rfl⟩ := of_decide_eq_true h
    exact ⟨_, rfl⟩
  · cases h

set_option maxRecDepth 10000 in
/-- The schedule in which a monitor records the exit and comes to its end. -/
theorem spawnAndExit_finishes :
    (supervisor.record (fun t o _ _ g => (t, o) :: g) (Machine.initial Inner.new, [])
      (spawnAndExit ++ steps 2 9)).any (fun cg =>
        cg.2.any (recordedOk 2 1 1) && (cg.1.tasks 2).isNone) = true := by
  decide +kernel

/-- After its monitor, the process is in no scope, has no sample and no spawn time. -/
theorem finished_monitor_leaves_no_bookkeeping : ∃ cfg g raw, OpRun cfg g ∧
    (2, .recordMonitored 1 1 (some raw)) ∈ g ∧ cfg.tasks 2 = none ∧
    Gone cfg.shared.registry 1 ∧ cfg.shared.samples[1]? = none ∧
    cfg.shared.spawnTimes[1]? = none := by
  obtain ⟨cg, hf, hP⟩ := (Option.any_eq_true _ _).mp spawnAndExit_finishes
  obtain ⟨hrec, hover⟩ := Bool.and_eq_true_iff.mp hP
  obtain ⟨x, hm, hx⟩ := List.any_eq_true.mp hrec
  obtain ⟨raw, rfl⟩ := of_recordedOk hx
  have h : OpRun cg.1 cg.2 := Machine.Recorded.record .initial hf
  have hnone := Option.isNone_iff_eq_none.mp hover
  exact ⟨cg.1, cg.2, raw, h, hm, hnone,
    (monitor_leaves_no_bookkeeping h).2.2 2 1 1 raw hm hnone⟩

end Shepherd
