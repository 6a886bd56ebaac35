import Shepherd.Supervisor.Evidence

/-!
# Admission and Shutdown

The operation lock of a scope keeps spawns and cleanups apart: no `backend.spawn` begins
after its scope began to drain, and a process that was spawned is attached and monitored, or
killed, before the lock is released. Once a shutdown has returned `Ok` nothing is left and
nothing can come back. Both are read off the histories of runs, in which every event is
justified.
-/

open Std

namespace Shepherd

open Conc

variable {t : Tid} {c : ProcessScopeId} {p : ProcessId} {os : OsIdentity} {h newer older : History}

/-- The justification of an event in the history of a run. -/
theorem Inv.justified {s : Inner} {ev : Event} (hi : Inv s)
    (heq : s.history = newer ++ (t, ev) :: older) : Justified t ev older := by
  have hl := hi.lawful
  rw [heq] at hl
  exact Chronicle.justified hl

/-! ### Spawns -/

/-- The scope is in the registry, and open. -/
def OpenScope (h : History) (c : ProcessScopeId) : Prop :=
  Created h c ∧ ¬ Removed h c ∧ ¬ Drained h c

/-- **Spawn admission and cleanup exclude each other**, in every run. A `backend.spawn`
begins only in an open scope. What it returned is settled before the operation lock,
which its task took before and cannot lose otherwise, is released; attaching is to an open
scope and never fails, and no process gets a second monitor. A spawn that got the lock after
the commit reports the closed scope and has not called the backend. -/
theorem spawns_and_cleanups_exclude_each_other {cfg : Config Res Ret Inner}
    (hr : Reachable cfg) :
    (∀ newer t c older, cfg.shared.history = newer ++ (t, .spawnCalled c) :: older →
      OpenScope older c) ∧
    (∀ newer t c r older, cfg.shared.history = newer ++ (t, .spawnReturned c r) :: older →
      (t, .acquired c) ∈ older ∧ (t, .released c) ∉ older) ∧
    (∀ newer t c mid os past, cfg.shared.history =
        newer ++ (t, .released c) :: (mid ++ (t, .spawnReturned c (.ok os)) :: past) →
      Settled t c os mid (mid ++ (t, .spawnReturned c (.ok os)) :: past)) ∧
    (∀ newer t older, cfg.shared.history = newer ++ (t, .guardsDropped) :: older →
      ∀ c r, (t, .spawnReturned c r) ∉ older) ∧
    (∀ newer t c p os older, cfg.shared.history = newer ++ (t, .attached c p os) :: older →
      OpenScope older c) ∧
    (∀ newer t c p m older, cfg.shared.history = newer ++ (t, .monitorStarted c p m) :: older →
      ∀ c' m', ¬ Happened older (.monitorStarted c' p m')) ∧
    (∀ c os, ¬ Happened cfg.shared.history (.attachFailed c os)) ∧
    ∀ newer t c v older, cfg.shared.history = newer ++ (t, .returned (.spawned c v)) :: older →
      LateLock older t c → v = .error (.scopeClosed c) ∧ (t, .spawnCalled c) ∉ older := by
  have hi := inv_of_reachable hr
  refine ⟨fun newer t c older heq => hi.justified heq, fun newer t c r older heq => ?_,
    fun newer t c mid os past heq => hi.justified heq mid os past rfl,
    fun newer t older heq => hi.justified heq, fun newer t c p os older heq => ?_,
    fun newer t c p m older heq => (hi.justified heq).2, fun c os hf => ?_,
    fun newer t c v older heq => (hi.justified heq).2⟩
  · obtain ⟨ha, hn, -⟩ := hi.justified heq
    exact ⟨ha, hn⟩
  · obtain ⟨hc, hnr, hnd, -⟩ := hi.justified heq
    exact ⟨hc, hnr, hnd⟩
  · obtain ⟨_, _, -, hj⟩ := hi.lawful.of_happened hf
    exact hj

set_option maxRecDepth 10000 in
/-- The spawn of the schedule is called, and attaches its process. -/
theorem spawnAndExit_attaches :
    (supervisor.follow (Machine.initial Inner.new) spawnAndExit).any (fun cfg =>
      (cfg.shared.history.contains (1, .spawnCalled 1) &&
        cfg.shared.history.contains (1, .attached 1 1 ⟨100, .unavailable⟩))) = true := by
  decide +kernel

/-- A process that was attached was spawned into an open scope, before any shutdown. -/
theorem spawned_process_was_admitted : ∃ cfg newer older, Reachable cfg ∧
    cfg.shared.history = newer ++ (1, .attached 1 1 ⟨100, .unavailable⟩) :: older ∧
    OpenScope older 1 ∧ Happened cfg.shared.history (.spawnCalled 1) := by
  obtain ⟨cfg, hr, hP⟩ := exists_reachable spawnAndExit_attaches
  obtain ⟨hcall, hatt⟩ := Bool.and_eq_true_iff.mp hP
  obtain ⟨newer, older, heq⟩ := List.append_of_mem (List.contains_iff_mem.mp hatt)
  have hopen := (spawns_and_cleanups_exclude_each_other hr).2.2.2.2.1 newer 1 1 1
    ⟨100, .unavailable⟩ older heq
  exact ⟨cfg, newer, older, hr, heq, hopen, .of_mem (List.contains_iff_mem.mp hcall)⟩

/-! ### Shutdown -/

/-- The events that bring something into a supervisor. -/
def Event.admits : Event → Bool
  | .scopeCreated _ _ | .spawnCalled _ | .attached _ _ _ => true
  | _ => false

/-- Once every scope was removed after shutdown started, nothing comes in. -/
theorem Lawful.not_admits_of_shutdown {ev : Event} (hl : Lawful (newer ++ older))
    (hs : Happened older .shutdownStarted) (hrem : ∀ c, Created older c → Removed older c)
    (hm : (t, ev) ∈ newer) : ev.admits = false := by
  obtain ⟨l₁, l₂, rfl⟩ := List.append_of_mem hm
  have hl' : Lawful (l₁ ++ (t, ev) :: (l₂ ++ older)) := by
    rw [List.append_assoc] at hl
    exact hl
  have hj : Justified t ev (l₂ ++ older) := Chronicle.justified hl'
  have hlo : Lawful (l₂ ++ older) := hl'.of_suffix ⟨l₁ ++ [(t, ev)], by simp⟩
  have hgone : ∀ c, Created (l₂ ++ older) c → Removed (l₂ ++ older) c := fun c hc =>
    (hrem c (hlo.created_of_shutdown (List.suffix_append l₂ older) hs hc)).mono
      (List.suffix_append l₂ older)
  cases ev with
  | scopeCreated c b => exact absurd (hs.mono (List.suffix_append l₂ older)) hj.2
  | spawnCalled c => exact absurd (hgone c hj.1) hj.2.1
  | attached c p os => exact absurd (hgone c hj.1) hj.2.1
  | _ => rfl

/-- **Shutdown is complete**, in every run. From the return of a shutdown with `Ok` on, the
registry is empty, every process ever attached has a verified exit, recorded by then, and
nothing is created, spawned or attached. The two `expect`s of the shutdown path and of the
sampler hold always. -/
theorem shutdown_is_complete {cfg : Config Res Ret Inner} (hr : Reachable cfg) :
    (∀ newer t reports older,
      cfg.shared.history = newer ++ (t, .returned (.shutdown (.ok reports))) :: older →
      (∀ c, cfg.shared.registry.get c = none) ∧
      (∀ c p os, Happened cfg.shared.history (.attached c p os) → HasEvidence older p) ∧
      ∀ t' ev, (t', ev) ∈ newer → ev.admits = false) ∧
    (∀ c sc, cfg.shared.registry.get c = some sc →
      cfg.shared.scopeOperations.contains c = true) ∧
    ¬ Happened cfg.shared.history .operationMissing ∧
    ¬ Happened cfg.shared.history .samplerBusy := by
  have hi := inv_of_reachable hr
  refine ⟨fun newer t reports older heq => ?_, fun c sc hsc => ?_, fun hf => ?_, fun hf => ?_⟩
  · obtain ⟨hs, hrem, -⟩ := hi.justified heq
    have hsuf : older <:+ cfg.shared.history :=
      ⟨newer ++ [(t, .returned (.shutdown (.ok reports)))], by rw [heq]; simp⟩
    have hl : Lawful ((newer ++ [(t, .returned (.shutdown (.ok reports)))]) ++ older) := by
      rw [List.append_assoc]
      exact heq ▸ hi.lawful
    have hcreated : ∀ c, Created cfg.shared.history c → Created older c := fun c hc =>
      hi.lawful.created_of_shutdown hsuf hs hc
    refine ⟨fun c => ?_, fun c p os ha => ?_, fun t' ev hm => ?_⟩
    · cases hsc : cfg.shared.registry.get c with
      | none => rfl
      | some sc =>
          obtain ⟨hc, hn⟩ := (hi.catalogue.registered c).mp ⟨sc, hsc⟩
          exact absurd ((hrem c (hcreated c hc)).mono hsuf) hn
    · have hc := hrem c (hcreated c (hi.lawful.created_of_attached ha))
      have hlo : Lawful older := hi.lawful.of_suffix hsuf
      have hat : Happened older (.attached c p os) := by
        obtain ⟨t', hm⟩ := ha
        have hm' : (t', Event.attached c p os) ∈
            (newer ++ [(t, .returned (.shutdown (.ok reports)))]) ++ older := by
          rw [List.append_assoc]
          exact heq ▸ hm
        rcases List.mem_append.mp hm' with hm' | hm'
        · cases hl.not_admits_of_shutdown hs hrem hm'
        · exact ⟨t', hm'⟩
      exact hlo.evidence_of_committed (hlo.committed_of_removed hc) hat
    · exact hl.not_admits_of_shutdown hs hrem (List.mem_append_left _ hm)
  · obtain ⟨hc, hn⟩ := (hi.catalogue.registered c).mp ⟨sc, hsc⟩
    exact (hi.catalogue.operation c).mpr ⟨hc, fun hx => hn (hi.lawful.removed_of_retired hx)⟩
  · obtain ⟨_, _, -, hj⟩ := hi.lawful.of_happened hf
    exact hj
  · obtain ⟨_, _, -, hj⟩ := hi.lawful.of_happened hf
    exact hj

/-- The supervisor is shut down after the process has exited. -/
def shutDown : List (Label Answer Call) :=
  [.start .shutdown] ++ steps 3 7 ++ steps 4 1 ++ [.run 3 (.joined 4)] ++ steps 3 1 ++
  [.run 3 (.cleaned (.ok ())), .run 3 (.order [(1, .exitedNaturally)]),
    .run 3 (.order [(1, .exitedNaturally)])] ++ steps 3 14

set_option maxRecDepth 10000 in
/-- The shutdown of the schedule returns the report of the scope. -/
theorem shutDown_returns :
    (supervisor.follow (Machine.initial Inner.new) (spawnAndExit ++ shutDown)).any (fun cfg =>
      (cfg.shared.history.head? = some (3, .returned (.shutdown (.ok [committedReport]))) &&
        cfg.shared.history.contains (1, .attached 1 1 ⟨100, .unavailable⟩))) = true := by
  decide +kernel

/-- After a shutdown that returned reports, the scope is gone and its process has evidence. -/
theorem shutdown_leaves_nothing : ∃ cfg older, Reachable cfg ∧
    cfg.shared.history = (3, .returned (.shutdown (.ok [committedReport]))) :: older ∧
    cfg.shared.registry.get 1 = none ∧ HasEvidence older 1 := by
  obtain ⟨cfg, hr, hP⟩ := exists_reachable shutDown_returns
  obtain ⟨hhead, hatt⟩ := Bool.and_eq_true_iff.mp hP
  obtain ⟨older, heq⟩ := List.head?_eq_some_iff.mp (of_decide_eq_true hhead)
  obtain ⟨hempty, hev, -⟩ := (shutdown_is_complete hr).1 [] 3 [committedReport] older heq
  have hat : Happened cfg.shared.history (.attached 1 1 ⟨100, .unavailable⟩) :=
    .of_mem (List.contains_iff_mem.mp hatt)
  exact ⟨cfg, older, hr, heq, hempty 1, hev 1 1 _ hat⟩

end Shepherd
