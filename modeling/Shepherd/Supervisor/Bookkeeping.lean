import Shepherd.Supervisor.Evidence
import Shepherd.Supervisor.Plain

/-!
# Bookkeeping

A process is noted in the registry, in the samples and in the spawn times. This module says
what every step keeps of these notes.

* `Inner.Ages` — the registry gets no process back, and no process loses its exit. So a process
  that is gone stays gone, and once its monitor has recorded an exit it is never live again
  (`dead_of_reaped`).
* `exec_samples`, `exec_spawnTimes` — what is removed is not noted again: a sample is stored for
  a live process only, and a spawn time by a spawn alone.
-/

open Std

namespace Shepherd

open Conc

variable {t : Tid} {s s' : Inner} {c : ProcessScopeId} {p : ProcessId} {o : Op} {a : Answer}
  {r : Res o}

/-! ### The registry ages -/

/-- No process comes back, and none loses its exit. -/
def ProcessScope.Ages (sc sc' : ProcessScope) : Prop :=
  ∀ p proc', sc'.get p = some proc' →
    ∃ proc, sc.get p = some proc ∧ (proc.exit.isSome = true → proc'.exit.isSome = true)

/-- A process that the later registry tracks was tracked before, and has its exit still. -/
def ScopeRegistry.Ages (r r' : ScopeRegistry) (p : ProcessId) : Prop :=
  ∀ c proc', Tracked r' c p proc' →
    ∃ proc, Tracked r c p proc ∧ (proc.exit.isSome = true → proc'.exit.isSome = true)

/-- The registry of a later state ages, as far as it is about processes attached before. -/
def Inner.Ages (s s' : Inner) : Prop :=
  ∀ p, (∃ c os, Happened s.history (.attached c p os)) → s.registry.Ages s'.registry p

/-- A reaped process keeps its exit when it is reaped again. -/
theorem Process.exit_markReaped {x : Process} (e : ProcessExit) (hx : x.exit.isSome = true) :
    (x.markReaped e).2.exit.isSome = true := by
  rcases x.markReaped_cases e with ⟨-, -, -, he⟩ | ⟨-, heq⟩
  · rw [he]
    rfl
  · rw [heq]
    exact hx

namespace ProcessScope.Ages

/-- A scope with the same processes and exits has aged. -/
theorem of_agrees {sc sc' : ProcessScope} (h : sc.Agrees sc') : sc.Ages sc' := by
  intro p proc' hp
  obtain ⟨proc, hproc, -, hex⟩ := h.back hp
  exact ⟨proc, hproc, fun hx => hex ▸ hx⟩

/-- A change of one process that keeps its exit. -/
theorem of_get {sc sc' : ProcessScope} {g : Process → Process}
    (hg : ∀ x : Process, x.exit.isSome = true → (g x).exit.isSome = true)
    (h : ∀ q, sc'.get q = if p = q then (sc.get q).map g else sc.get q) : sc.Ages sc' := by
  intro q proc' hq
  rw [h] at hq
  split at hq
  · obtain ⟨proc, hproc, rfl⟩ := Option.map_eq_some_iff.mp hq
    exact ⟨proc, hproc, hg proc⟩
  · exact ⟨proc', hq, fun hx => hx⟩

/-- Recording an exit takes no exit away. -/
theorem recordReaped (sc : ProcessScope) (p : ProcessId) (e : ProcessExit) :
    sc.Ages (sc.recordReaped p e).2 :=
  of_get (fun _ hx => Process.exit_markReaped e hx) fun q => recordReaped_get sc p q e

/-- The record of a monitor takes no exit away: it records that the process exited, and then the
exit. -/
theorem recordMonitored (sc : ProcessScope) (p : ProcessId) (e : ProcessExit) :
    sc.Ages (sc.recordMonitored p e).2 := by
  intro q proc' hq
  obtain ⟨proc₁, h₁, hex₁⟩ := recordReaped (sc.recordExit p).2 p e q proc' hq
  rw [recordExit_get] at h₁
  split at h₁
  · obtain ⟨proc, hproc, rfl⟩ := Option.map_eq_some_iff.mp h₁
    exact ⟨proc, hproc, fun hx => hex₁ (by rwa [Process.markExited_exit])⟩
  · exact ⟨proc₁, h₁, hex₁⟩

/-- Pruning brings no process back. -/
theorem prune (sc : ProcessScope) (p : ProcessId) : sc.Ages (sc.prune p) := by
  intro q proc' hq
  rw [ProcessScope.prune_get] at hq
  split at hq
  · cases hq
  · exact ⟨proc', hq, fun hx => hx⟩

end ProcessScope.Ages

/-- An attachment changes nothing of another process. -/
theorem ProcessScope.get_attachSpawned {sc : ProcessScope} {p q : ProcessId} (hne : p ≠ q)
    (os : OsIdentity) (spec : ProcessSpec) : (sc.attachSpawned p os spec).2.get q = sc.get q := by
  rcases sc.attachSpawned_cases p os spec with ⟨-, -, heq⟩ | ⟨-, err, heq⟩
  · rw [heq]
    simp [ProcessScope.get, ProcessScope.insert, ExtTreeMap.getElem?_insert, Process.running, hne]
  · rw [heq]

/-- A change of one scope. -/
theorem ScopeRegistry.ages_modify {r : ScopeRegistry} {f : ProcessScope → ProcessScope}
    {hf : ∀ sc, (f sc).id = sc.id} (h : ∀ sc : ProcessScope, sc.Ages (f sc)) (p : ProcessId) :
    r.Ages (r.modify c f hf) p := by
  rintro c' proc' ⟨sc', hsc', hp⟩
  rw [get_modify] at hsc'
  split at hsc'
  · obtain ⟨sc, hsc, rfl⟩ := Option.map_eq_some_iff.mp hsc'
    obtain ⟨proc, hproc, hex⟩ := h sc p proc' hp
    exact ⟨proc, ⟨sc, hsc, hproc⟩, hex⟩
  · exact ⟨proc', ⟨sc', hsc', hp⟩, id⟩

namespace Inner.Ages

/-- A step that leaves the registry alone ages it. -/
theorem same (hr : s'.registry = s.registry) : s.Ages s' :=
  fun _ _ _ proc' ht => ⟨proc', hr ▸ ht, id⟩

/-- A change of one scope, whatever else changes. -/
theorem modify {f : ProcessScope → ProcessScope}
    (hf : ∀ sc, (f sc).id = sc.id) (hr : s'.registry = s.registry.modify c f hf)
    (h : ∀ sc : ProcessScope, sc.Ages (f sc)) : s.Ages s' :=
  fun p _ => hr ▸ ScopeRegistry.ages_modify h p

/-- A new scope tracks no process. -/
theorem createScope (t : Tid) (observed : Bool) : s.Ages (s.createScope t observed).2 := by
  rw [Inner.createScope]
  split
  · exact same rfl
  · rintro p - c' proc' ⟨sc', hsc', hp⟩
    have hget : s.registry.createScope.2.get c' = some sc' := hsc'
    rw [ScopeRegistry.get_createScope] at hget
    split at hget
    · obtain rfl := Option.some.inj hget
      cases hp
    · exact ⟨proc', ⟨sc', hget, hp⟩, id⟩

/-- An attachment brings a new process only: its identifier is ahead of all that were attached. -/
theorem attach (hb : s.registry.nextProcess + 1 < 2 ^ 64) (hi : Inv s) (t : Tid)
    (c : ProcessScopeId) (os : OsIdentity) (spec : ProcessSpec) :
    s.Ages (s.attach t c os spec).2 := by
  rintro p ⟨c₀, os₀, ha⟩
  have hne : s.registry.nextProcessId.1 ≠ p := fun heq => by
    have hle := hi.catalogue.processes_le c₀ p os₀ ha
    rw [← heq, ScopeRegistry.nextProcessId_fst hb] at hle
    exact Nat.not_succ_le_self _ hle
  have hages : s.registry.nextProcessId.2.Ages
      (s.registry.nextProcessId.2.modify c
        (fun sc => (sc.attachSpawned s.registry.nextProcessId.1 os spec).2)
        fun sc => sc.attachSpawned_id _ os spec) p := by
    rintro c' proc' ⟨sc', hsc', hp⟩
    rw [ScopeRegistry.get_modify] at hsc'
    split at hsc'
    · obtain ⟨sc, hsc, rfl⟩ := Option.map_eq_some_iff.mp hsc'
      rw [ProcessScope.get_attachSpawned hne] at hp
      exact ⟨proc', ⟨sc, hsc, hp⟩, id⟩
    · exact ⟨proc', ⟨sc', hsc', hp⟩, id⟩
  rw [Inner.attach]
  split
  · exact fun _ proc' ht => ⟨proc', ht, id⟩
  · split
    · exact hages
    · exact fun _ proc' ht => ⟨proc', ht, id⟩

/-- The record of a monitor ages the registry. -/
theorem recordMonitored (t : Tid) (c : ProcessScopeId) (p : ProcessId)
    (result : Option RawExit) : s.Ages (s.recordMonitored t c p result).2 := by
  rw [Inner.recordMonitored]
  split
  · exact same rfl
  · split
    · exact same rfl
    · exact modify (fun sc => by simp [ProcessScope.recordMonitored]) rfl fun sc =>
        .recordMonitored sc p _

/-- The exit that a retry stores replaces one. -/
theorem storeRecovered (t : Tid) (c : ProcessScopeId) (p : ProcessId) (e : ProcessExit) :
    s.Ages (s.storeRecovered t c p e).2 := by
  rw [Inner.storeRecovered]
  repeat' split
  all_goals first
    | exact same rfl
    | exact modify (fun sc => sc.recordReaped_id p e) rfl fun sc => .recordReaped sc p e

/-- The record of a retry, with its signal, ages the registry. -/
theorem recordRecovered (t : Tid) (c : ProcessScopeId) (p : ProcessId) (raw : RawExit) :
    s.Ages (s.recordRecovered t c p raw).2 := by
  have hst := @storeRecovered s t c p (recoveredExit p raw)
  rw [Inner.recordRecovered]
  split
  · exact hst
  · intro q hq
    refine fun c' proc' ht => hst q hq c' proc' ?_
    rw [Inner.signalExit, Inner.retainCompletedOutput] at ht
    split at ht
    · exact ht
    · exact ht

/-- Pruning ages the registry. -/
theorem prune (ev : DomainEvent) : s.Ages (s.prune ev) := by
  cases ev with
  | processReaped c p e =>
      rw [Inner.prune]
      split
      · exact modify (fun sc => sc.prune_id p) rfl fun sc => .prune sc p
      · exact same rfl
  | _ => exact same rfl

/-- The start of a termination changes no exit. -/
theorem beginTermination (p : ProcessId) : s.Ages (s.beginTermination p).2 := by
  rw [Inner.beginTermination]
  repeat' split
  all_goals first
    | exact same rfl
    | exact modify (fun sc => sc.requestTermination_id p) rfl fun sc =>
        .of_agrees (sc.agrees_requestTermination p)

/-- An escalation changes no exit. -/
theorem escalate (c : ProcessScopeId) (p : ProcessId) : s.Ages (s.escalate c p) :=
  modify (fun sc => sc.escalateTermination_id p) rfl fun sc =>
    .of_agrees (sc.agrees_escalateTermination p)

/-- Draining changes no exit. -/
theorem drain (t : Tid) (c : ProcessScopeId) : s.Ages (s.drain t c).2 := by
  rw [Inner.drain]
  split
  · exact same rfl
  · dsimp only
    split
    all_goals exact modify (fun sc => sc.beginScopeTermination_id) rfl fun sc =>
      .of_agrees sc.agrees_beginScopeTermination

/-- The removal of a scope brings no process back. -/
theorem removeScope (t : Tid) (c : ProcessScopeId) : s.Ages (s.removeScope t c) := by
  rintro p - c' proc' ⟨sc', hsc', hp⟩
  have hget : (s.registry.remove c).get c' = some sc' := hsc'
  rw [ScopeRegistry.get_remove] at hget
  split at hget
  · cases hget
  · exact ⟨proc', ⟨sc', hget, hp⟩, id⟩

end Inner.Ages

/-- **The registry ages with every step.** Most operations leave it alone. -/
theorem exec_ages (hi : Inv s) (he : exec t o a s = some (r, s')) : s.Ages s' := by
  induction o generalizing a s s' with
  | orObserve f o ih =>
      obtain ⟨_, -, rfl⟩ | ⟨_, -, hrs⟩ := exec_orObserve he
      · exact .same rfl
      · exact ih hi hrs
  | orElapsed o ih =>
      obtain ⟨-, rfl⟩ | ⟨_, -, hrs⟩ := exec_orElapsed he
      · exact .same rfl
      · exact ih hi hrs
  | createScope observed =>
      rw [exec] at he
      split at he
      · exact of_some (P := s.Ages) he (.createScope t observed)
      · cases he
  | attach c os spec =>
      rw [exec] at he
      split at he
      · next hb => exact of_some (P := s.Ages) he (.attach hb hi t c os spec)
      · cases he
  | recordMonitored c p result => exact of_some (P := s.Ages) he (.recordMonitored t c p result)
  | recordRecovered c p raw => exact of_some (P := s.Ages) he (.recordRecovered t c p raw)
  | prune ev => exact of_some (P := s.Ages) he (.prune ev)
  | beginTermination p => exact of_some (P := s.Ages) he (.beginTermination p)
  | escalate c p => exact of_some (P := s.Ages) he (.escalate c p)
  | drain c => exact of_some (P := s.Ages) he (.drain t c)
  | removeScope c => exact of_some (P := s.Ages) he (.removeScope t c)
  | _ =>
      refine .same ?_
      simp only [exec] at he
      repeat' split at he
      all_goals first
        | (cases he; done)
        | exact of_some (P := fun s' => s'.registry = s.registry) he rfl
        | exact of_map (P := fun s' => s'.registry = s.registry) he fun _ => rfl
        | (refine of_some (P := fun s' => s'.registry = s.registry) he ?_
           simp only [Inner.keepOutput, Inner.retainCompletedOutput, Inner.notify,
             Inner.signalExit, Inner.registerWait, Inner.publish, Inner.storeSample]
           repeat' split
           all_goals rfl)
        | (refine of_map (P := fun s' => s'.registry = s.registry) he fun _ => ?_
           rw [Inner.settleFor]
           split
           all_goals rfl)

/-! ### Dead and gone -/

/-- Wherever the process is tracked, its exit is recorded. -/
def Dead (r : ScopeRegistry) (p : ProcessId) : Prop :=
  ∀ c proc, Tracked r c p proc → proc.exit.isSome = true

/-- No scope tracks the process. -/
def Gone (r : ScopeRegistry) (p : ProcessId) : Prop :=
  ∀ c proc, ¬ Tracked r c p proc

/-- What is dead stays dead. -/
theorem ScopeRegistry.Ages.dead {r r' : ScopeRegistry} (h : r.Ages r' p) (hd : Dead r p) :
    Dead r' p := by
  intro c proc' ht
  obtain ⟨proc, ht', hex⟩ := h c proc' ht
  exact hex (hd c proc ht')

/-- What is gone stays gone. -/
theorem ScopeRegistry.Ages.gone {r r' : ScopeRegistry} (h : r.Ages r' p) (hg : Gone r p) :
    Gone r' p := by
  intro c proc' ht
  obtain ⟨proc, ht', -⟩ := h c proc' ht
  exact hg c proc ht'

/-- A process is tracked in one scope at most. -/
theorem Inv.tracked_unique (hi : Inv s) {c' : ProcessScopeId} {proc proc' : Process}
    (h : Tracked s.registry c p proc) (h' : Tracked s.registry c' p proc') : c = c' :=
  (hi.lawful.attached_unique (hi.processes.attached h) (hi.processes.attached h')).1

/-- After the record of its monitor, a tracked process has an exit. -/
theorem ProcessScope.exit_recordMonitored {sc : ProcessScope} {e : ProcessExit} {proc : Process}
    (h : (sc.recordMonitored p e).2.get p = some proc) : proc.exit.isSome = true := by
  have hget : (sc.recordMonitored p e).2.get p =
      ((sc.recordExit p).2.get p).map fun x => (x.markReaped e).2 := by
    rw [ProcessScope.recordMonitored, recordReaped_get, if_pos rfl]
  obtain ⟨x, -, rfl⟩ := Option.map_eq_some_iff.mp (hget.symm.trans h)
  rcases x.markReaped_cases e with ⟨-, -, -, he⟩ | ⟨⟨e', he, -⟩, heq⟩
  · rw [he]
    rfl
  · rw [heq, he]
    rfl

/-- Only the record of a monitor is a reap. -/
theorem reaped_of_exec (he : exec t o a s = some (r, s')) (hr : Reaped s'.history p)
    (hn : ¬ Reaped s.history p) : ∃ c e, o.Emits (.reaped c p e) := by
  obtain ⟨-, evs, hh, hem⟩ := exec_ext he
  obtain ⟨c, e, t', hm⟩ := hr
  rw [hh] at hm
  rcases List.mem_append.mp hm with hm | hm
  · obtain ⟨ev, hev, heq⟩ := List.mem_map.mp hm
    obtain ⟨rfl, rfl⟩ := Prod.mk.inj heq
    exact ⟨c, e, hem _ hev⟩
  · exact absurd ⟨c, e, t', hm⟩ hn

/-- **A reap leaves the process dead.** -/
theorem exec_reaped (hi : Inv s) (he : exec t o a s = some (r, s')) (hr : Reaped s'.history p)
    (hn : ¬ Reaped s.history p) : Dead s'.registry p := by
  induction o generalizing a s s' with
  | orObserve f o ih =>
      obtain ⟨_, -, rfl⟩ | ⟨_, -, hrs⟩ := exec_orObserve he
      · exact absurd hr hn
      · exact ih hi hrs hr hn
  | orElapsed o ih =>
      obtain ⟨-, rfl⟩ | ⟨_, -, hrs⟩ := exec_orElapsed he
      · exact absurd hr hn
      · exact ih hi hrs hr hn
  | recordMonitored c q result =>
      have hages := exec_ages hi he
      obtain ⟨c', e', hem⟩ := reaped_of_exec he hr hn
      obtain ⟨e'', hem⟩ := hem
      obtain ⟨-, rfl, -⟩ := Event.reaped.inj hem
      obtain rfl : (s.recordMonitored t c p result).2 = s' := congrArg Prod.snd (Option.some.inj he)
      rw [Inner.recordMonitored] at hr hages ⊢
      split at hr
      · exact absurd hr hn
      next sc hsc =>
      split at hr
      · exact absurd hr hn
      next proc hp =>
      intro c₁ proc₁ ht
      have ha : ∃ c os, Happened s.history (.attached c p os) :=
        ⟨c, _, hi.processes.attached ⟨sc, hsc, hp⟩⟩
      simp only [hsc, hp] at hages ht
      obtain ⟨proc₀, ht₀, -⟩ := hages p ha c₁ proc₁ ht
      obtain rfl := hi.tracked_unique ⟨sc, hsc, hp⟩ ht₀
      obtain ⟨sc₁, hsc₁, hp₁⟩ := ht
      rw [Inner.log] at hsc₁
      rw [ScopeRegistry.get_modify, if_pos rfl, hsc] at hsc₁
      obtain rfl := Option.some.inj hsc₁
      exact ProcessScope.exit_recordMonitored hp₁
  | _ =>
      obtain ⟨c', e', hem⟩ := reaped_of_exec he hr hn
      simp [Op.Emits] at hem

/-- **Once its monitor has recorded an exit, a process is dead**, in every run. -/
theorem dead_of_reaped {cfg : Config Res Ret Inner} (h : Reachable cfg)
    (hr : Reaped cfg.shared.history p) : Dead cfg.shared.registry p := by
  induction h with
  | initial =>
      obtain ⟨c, e, t, hm⟩ := hr
      cases hm
  | @step cfg cfg' l h _ hs ih =>
      cases supervisor.step_shared hs with
      | @run t a o k u r s' htask hexec hsh =>
          have hi := inv_of_reachable h
          have hdead : Reaped s'.history p → Dead s'.registry p := fun hr => by
            by_cases hn : Reaped cfg.shared.history p
            · exact (exec_ages hi hexec p (hi.lawful.attached_of_reaped hn)).dead (ih hn)
            · exact exec_reaped hi hexec hr hn
          rcases hsh with ⟨_, _, -, hsh, -⟩ | ⟨v, -, hsh, -⟩
          · rw [hsh] at hr ⊢
            exact hdead hr
          · rw [hsh] at hr ⊢
            refine hdead ((reaped_cons.mp hr).resolve_left ?_)
            rintro ⟨c, e, heq⟩
            cases heq
      | drop _ _ hsh =>
          rw [hsh] at hr ⊢
          exact ih hr
      | start hsh =>
          rw [hsh] at hr ⊢
          exact ih hr

/-! ### Samples and spawn times -/

/-- The operations that change the samples or the spawn times. -/
def Op.notes : Op → Bool
  | .insertSpawnTime _ | .removeSample _ | .removeSpawnTime _ | .storeSample _ _ => true
  | .orObserve _ o | .orElapsed o => o.notes
  | _ => false

/-- The samples and the spawn times are as before. -/
def Inner.SameNotes (s s' : Inner) : Prop :=
  s'.samples = s.samples ∧ s'.spawnTimes = s.spawnTimes

/-- A retry leaves the samples and the spawn times alone. -/
theorem Inner.SameNotes.recordRecovered (t : Tid) (c : ProcessScopeId) (p : ProcessId)
    (raw : RawExit) : s.SameNotes (s.recordRecovered t c p raw).2 := by
  obtain ⟨_, _, _, _, _, _, heq⟩ := s.recordRecovered_frame t c p raw
  rw [heq]
  exact ⟨rfl, rfl⟩

/-- **Every other operation leaves the notes alone.** -/
theorem exec_sameNotes (ho : o.notes = false) (he : exec t o a s = some (r, s')) :
    s.SameNotes s' := by
  induction o generalizing a s s' with
  | orObserve f o ih =>
      obtain ⟨_, -, rfl⟩ | ⟨_, -, hrs⟩ := exec_orObserve he
      · exact ⟨rfl, rfl⟩
      · exact ih ho hrs
  | orElapsed o ih =>
      obtain ⟨-, rfl⟩ | ⟨_, -, hrs⟩ := exec_orElapsed he
      · exact ⟨rfl, rfl⟩
      · exact ih ho hrs
  | recordRecovered c p raw => exact of_some (P := s.SameNotes) he (.recordRecovered t c p raw)
  | _ =>
      simp only [exec] at he
      repeat' split at he
      all_goals first
        | (cases ho; done)
        | (cases he; done)
        | exact of_some (P := s.SameNotes) he ⟨rfl, rfl⟩
        | exact of_map (P := s.SameNotes) he fun _ => ⟨rfl, rfl⟩
        | (refine of_some (P := s.SameNotes) he ?_
           simp only [Inner.createScope, Inner.attach, Inner.keepOutput, Inner.recordMonitored,
             Inner.retainCompletedOutput, Inner.signalExit, Inner.notify, Inner.prune,
             Inner.beginTermination, Inner.registerWait, Inner.drain, Inner.publish]
           repeat' split
           all_goals exact ⟨rfl, rfl⟩)
        | (refine of_map (P := s.SameNotes) he fun _ => ?_
           rw [Inner.settleFor]
           split
           all_goals exact ⟨rfl, rfl⟩)

/-- An erasure from a map adds no entry. -/
theorem getElem?_erase_of_none {β : Type} {m : ExtTreeMap ProcessId β} (q : ProcessId)
    (hn : m[p]? = none) : (m.erase q)[p]? = none := by
  rw [ExtTreeMap.getElem?_erase]
  split
  · rfl
  · exact hn

/-- An insertion under another key adds no entry for this one. -/
theorem getElem?_insert_of_none {β : Type} {m : ExtTreeMap ProcessId β} {q : ProcessId}
    (hne : q ≠ p) (v : β) (hn : m[p]? = none) : (m.insert q v)[p]? = none := by
  rw [ExtTreeMap.getElem?_insert]
  split
  · next heq => exact absurd (by simpa using heq) hne
  · exact hn

/-- A sample is stored only where its process is live. -/
theorem Inner.storeSample_of_dead (hd : Dead s.registry p) (hn : s.samples[p]? = none)
    (q : ProcessId) (x : Sample) : (s.storeSample q x).samples[p]? = none := by
  rw [Inner.storeSample]
  split
  · next hlive =>
      have hne : q ≠ p := by
        rintro rfl
        obtain ⟨sc, hsc, hlive⟩ := (Option.any_eq_true _ _).mp hlive
        obtain ⟨proc, hp, hlive⟩ := (Option.any_eq_true _ _).mp hlive
        obtain ⟨c, -, hc⟩ := Option.bind_eq_some_iff.mp hsc
        rw [proc.exit_iff.mp (hd c proc ⟨sc, hc, hp⟩)] at hlive
        cases hlive
      exact getElem?_insert_of_none hne x hn
  · exact hn

/-- **A removed sample stays away** while the process is dead. -/
theorem exec_samples (hd : Dead s.registry p) (hn : s.samples[p]? = none)
    (he : exec t o a s = some (r, s')) : s'.samples[p]? = none := by
  by_cases ho : o.notes = true
  · induction o generalizing a s s' with
    | orObserve f o ih =>
        obtain ⟨_, -, rfl⟩ | ⟨_, -, hrs⟩ := exec_orObserve he
        · exact hn
        · exact ih hd hn hrs ho
    | orElapsed o ih =>
        obtain ⟨-, rfl⟩ | ⟨_, -, hrs⟩ := exec_orElapsed he
        · exact hn
        · exact ih hd hn hrs ho
    | storeSample q x =>
        exact of_some (P := fun s' => s'.samples[p]? = none) he (s.storeSample_of_dead hd hn q x)
    | removeSample q =>
        exact of_some (P := fun s' => s'.samples[p]? = none) he (getElem?_erase_of_none q hn)
    | removeSpawnTime q => exact of_some (P := fun s' => s'.samples[p]? = none) he hn
    | insertSpawnTime q =>
        simp only [exec] at he
        split at he
        · exact of_some (P := fun s' => s'.samples[p]? = none) he hn
        · cases he
    | _ => cases ho
  · rw [(exec_sameNotes (Bool.eq_false_iff.mpr ho) he).1]
    exact hn

/-- The operation notes the spawn time of the process. -/
def Op.notesSpawn (p : ProcessId) : Op → Bool
  | .insertSpawnTime q => q = p
  | .orObserve _ o | .orElapsed o => o.notesSpawn p
  | _ => false

/-- **A removed spawn time stays away**, as long as no spawn notes one. -/
theorem exec_spawnTimes (hs : o.notesSpawn p = false) (hn : s.spawnTimes[p]? = none)
    (he : exec t o a s = some (r, s')) : s'.spawnTimes[p]? = none := by
  by_cases ho : o.notes = true
  · induction o generalizing a s s' with
    | orObserve f o ih =>
        obtain ⟨_, -, rfl⟩ | ⟨_, -, hrs⟩ := exec_orObserve he
        · exact hn
        · exact ih hs hn hrs ho
    | orElapsed o ih =>
        obtain ⟨-, rfl⟩ | ⟨_, -, hrs⟩ := exec_orElapsed he
        · exact hn
        · exact ih hs hn hrs ho
    | storeSample q x =>
        refine of_some (P := fun s' => s'.spawnTimes[p]? = none) he ?_
        rw [Inner.storeSample]
        split
        · exact hn
        · exact hn
    | removeSample q => exact of_some (P := fun s' => s'.spawnTimes[p]? = none) he hn
    | removeSpawnTime q =>
        exact of_some (P := fun s' => s'.spawnTimes[p]? = none) he (getElem?_erase_of_none q hn)
    | insertSpawnTime q =>
        have hne : q ≠ p := of_decide_eq_false hs
        simp only [exec] at he
        split at he
        · refine of_some (P := fun s' => s'.spawnTimes[p]? = none) he ?_
          exact getElem?_insert_of_none hne _ hn
        · cases he
    | _ => cases ho
  · rw [(exec_sameNotes (Bool.eq_false_iff.mpr ho) he).2]
    exact hn

end Shepherd
