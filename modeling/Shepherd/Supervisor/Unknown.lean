import Shepherd.Supervisor.Commits

/-!
# Owned Processes Reported as Unknown

A lookup of a process goes through two stores: the registry, which has the process until its
scope is removed, and the waiter table, which has its exit once the monitor has dispatched
it. A commit removes the scope on the strength of the exits that the registry recorded; the
monitor may not have come to signal them yet, and then the process is in neither store.

`removesSignalled` rules this step out: a scope leaves the registry only when the exit of
each process it still tracks was signalled. In the runs that keep to it, an owned process is
unknown only when others have displaced it.
-/

open Std

namespace Shepherd

open Conc

variable {t : Tid} {o : Op} {a : Answer} {s s' : Inner} {c : ProcessScopeId} {p : ProcessId}
  {h : History} {lost : List ProcessId}

/-- The operation inside the wrappers. -/
def Op.core : Op → Op
  | .orObserve _ o | .orElapsed o => o.core
  | o => o

/-- A scope is removed only when the exits of the processes it tracks were signalled. -/
def removesSignalled (cfg : Config Res Ret Inner) (l : Label Answer Call) : Bool :=
  match l with
  | .run t _ =>
      match cfg.tasks t with
      | some ⟨.op o _, _⟩ =>
          match o.core with
          | .removeScope c => (cfg.shared.unsignalled c).isEmpty
          | _ => true
      | _ => true
  | _ => true

/-- The call reports the process as unknown. -/
def Ret.reportsUnknown (p : ProcessId) (v : Ret) : Prop :=
  v = .waited p (.error (.unknownProcess p)) ∨ v = .terminated p (.error (.unknownProcess p))

/-- A process whose spawn has returned is reported as unknown only after as many others were
signalled as the waiter table retains. -/
def NeverUnknown (h : History) : Prop :=
  ∀ newer t v older p c, h = newer ++ (t, .returned v) :: older → v.reportsUnknown p →
    Happened older (.returned (.spawned c (.ok p))) →
    Displaced WAITER_HISTORY_BOUND p (signalLog older)

/-! ### The step that loses a process -/

/-- A scope leaves the registry in one operation, with the processes it lost. -/
theorem exec_removed (he : exec t o a s = some (r, s'))
    (hr : Happened s'.history (.scopeRemoved c lost)) :
    Happened s.history (.scopeRemoved c lost) ∨
      o.core = .removeScope c ∧ lost = s.unsignalled c := by
  induction o generalizing a s s' with
  | orObserve f o ih =>
      obtain ⟨_, -, rfl⟩ | ⟨_, -, hrs⟩ := exec_orObserve he
      · exact .inl hr
      · exact ih hrs hr
  | orElapsed o ih =>
      obtain ⟨-, rfl⟩ | ⟨_, -, hrs⟩ := exec_orElapsed he
      · exact .inl hr
      · exact ih hrs hr
  | removeScope c' =>
      obtain ⟨-, rfl⟩ := Prod.mk.inj (Option.some.inj he)
      rcases happened_cons.mp hr with heq | hr
      · injection heq with hc hl
        subst hc
        exact .inr ⟨rfl, hl⟩
      · exact .inl hr
  | _ =>
      obtain ⟨-, evs, hh, hk⟩ := exec_ext he
      rw [hh] at hr
      obtain ⟨t', hm⟩ := hr
      rcases List.mem_append.mp hm with hm | hm
      · obtain ⟨ev, hev, heq⟩ := List.mem_map.mp hm
        obtain ⟨rfl, rfl⟩ := Prod.mk.inj heq
        exact absurd (hk _ hev) (by simp [Op.Emits])
      · exact .inl ⟨t', hm⟩

/-- In a run that keeps to `removesSignalled`, no process is lost. -/
theorem not_lost {cfg : Config Res Ret Inner}
    (hr : supervisor.ReachableUnder Inner.new (fun cfg l => removesSignalled cfg l = true) cfg) :
    ∀ c lost, Happened cfg.shared.history (.scopeRemoved c lost) → lost = [] := by
  induction hr with
  | initial => exact fun c lost hrm => absurd hrm (not_happened_nil _)
  | @step cfg cfg' l _ hcond hs ih =>
      intro c lost hrm
      cases supervisor.step_shared hs with
      | @run t a o k u r s₁ htask hexec hsh =>
          simp only [removesSignalled, htask] at hcond
          have hrm₁ : Happened s₁.history (.scopeRemoved c lost) := by
            rcases hsh with ⟨_, _, -, hsh, -⟩ | ⟨v, -, hsh, -⟩
            · exact hsh ▸ hrm
            · rw [hsh] at hrm
              exact (happened_cons.mp hrm).resolve_left (by simp)
          rcases exec_removed hexec hrm₁ with hold | ⟨hcore, rfl⟩
          · exact ih c lost hold
          · rw [hcore] at hcond
            exact List.isEmpty_iff.mp hcond
      | drop _ _ hsh => exact ih c lost (hsh ▸ hrm)
      | start hsh =>
          rw [hsh] at hrm
          exact ih c lost hrm

/-! ### The law of owned processes -/

/-- **An owned process is never reported as unknown**, in the runs that remove a scope only when the
exits of its processes were signalled. It was attached before its spawn returned. -/
theorem owned_process_is_known {cfg : Config Res Ret Inner}
    (hr : supervisor.ReachableUnder Inner.new (fun cfg l => removesSignalled cfg l = true) cfg) :
    NeverUnknown cfg.shared.history := by
  intro newer t v older p c heq hv hsp
  have hi := inv_of_reachable hr.reachable
  have hsuf : older <:+ cfg.shared.history := ⟨newer ++ [(t, .returned v)], by rw [heq]; simp⟩
  have hu : UnknownReturn p older := by
    have hj : JustifiedReturn t v older := hi.justified heq
    rcases hv with rfl | rfl
    · exact hj.2 p rfl
    · exact hj.2 p rfl
  have hat : ∃ os, Happened older (.attached c p os) := by
    obtain ⟨t', l, hs, hj⟩ := (hi.lawful.of_suffix hsuf).of_happened hsp
    obtain ⟨os, ha⟩ := hj.1 p rfl
    exact ⟨os, (Happened.of_mem ha).mono hs⟩
  obtain ⟨os, ha⟩ := hat
  refine (hu c os ha).resolve_left ?_
  rintro ⟨c', lost, hrm, hm⟩
  rw [not_lost hr c' lost (hrm.mono hsuf)] at hm
  cases hm

/-- The monitor goes on to signal the exit; then the scope is terminated and the process
waited for. -/
def signalThenCommit : List (Label Answer Call) :=
  steps 2 9 ++ [.start (.terminateScope 1 .default)] ++ steps 3 5 ++
  [.run 3 (.cleaned (.ok ())), .run 3 (.order []), .run 3 (.order [])] ++ steps 3 9 ++
  [.start (.wait 1)] ++ steps 5 1

/-- The exit of that process. -/
def naturalExit : ProcessExit :=
  ⟨1, some 0, none, .exitedNaturally, false⟩

set_option maxRecDepth 10000 in
/-- The schedule in which the exit is signalled before the commit: a later `wait` returns the
exit. -/
theorem signalThenCommit_removes_signalled :
    (supervisor.followUnder removesSignalled (Machine.initial Inner.new)
      (spawnAndExit ++ signalThenCommit)).any (fun cfg =>
        cfg.shared.history.head? = some (5, .returned (.waited 1 (.ok naturalExit))) &&
        cfg.shared.history.contains (3, .scopeRemoved 1 [])) = true := by
  decide +kernel

/-- In a run that commits after the signal, no owned process is unknown. -/
theorem signalled_process_is_known : ∃ cfg,
    supervisor.ReachableUnder Inner.new (fun cfg l => removesSignalled cfg l = true) cfg ∧
    Happened cfg.shared.history (.scopeRemoved 1 []) ∧ NeverUnknown cfg.shared.history := by
  obtain ⟨cfg, hf, hP⟩ := (Option.any_eq_true _ _).mp signalThenCommit_removes_signalled
  obtain ⟨-, hrm⟩ := Bool.and_eq_true_iff.mp hP
  have hr : supervisor.ReachableUnder Inner.new (fun cfg l => removesSignalled cfg l = true) cfg :=
    Machine.ReachableUnder.initial.followUnder hf
  exact ⟨cfg, hr, .of_mem (List.contains_iff_mem.mp hrm), owned_process_is_known hr⟩

set_option maxRecDepth 10000 in
/-- The schedule in which the commit overtakes the signal: a later `wait` says that the process is
unknown. -/
theorem wait_after_commit_is_unknown :
    (supervisor.follow (Machine.initial Inner.new) (spawnAndExit ++ commitScope)).any (fun cfg =>
      cfg.shared.history.contains (1, .returned (.spawned 1 (.ok 1))) &&
      (supervisor.follow cfg (.start (.wait 1) :: steps 6 2)).any fun cfg' =>
        cfg'.shared.history =
          (6, .returned (.waited 1 (.error (.unknownProcess 1)))) :: cfg.shared.history &&
        signalLog cfg.shared.history = []) = true := by
  decide +kernel

/-- The spawn of a process has returned, its exit is recorded and its scope is committed
before the monitor signals the exit. A call that then waits for the process hears that it is
unknown, though no exit at all was signalled. -/
theorem committed_process_is_unknown : ∃ cfg cfg', Reachable cfg ∧
    Happened cfg.shared.history (.returned (.spawned 1 (.ok 1))) ∧
    supervisor.follow cfg (.start (.wait 1) :: steps 6 2) = some cfg' ∧
    (6, .returned (.waited 1 (.error (.unknownProcess 1)))) ∈ cfg'.shared.history ∧
    signalLog cfg'.shared.history = [] ∧ ¬ NeverUnknown cfg'.shared.history := by
  obtain ⟨cfg, hr, hP⟩ := exists_reachable wait_after_commit_is_unknown
  obtain ⟨hsp, hP⟩ := Bool.and_eq_true_iff.mp hP
  obtain ⟨cfg', hf, hP⟩ := (Option.any_eq_true _ _).mp hP
  obtain ⟨hh, hlog⟩ := Bool.and_eq_true_iff.mp hP
  have hh := of_decide_eq_true hh
  have hlog := of_decide_eq_true hlog
  have hsp : Happened cfg.shared.history (.returned (.spawned 1 (.ok 1))) :=
    .of_mem (List.contains_iff_mem.mp hsp)
  refine ⟨cfg, cfg', hr, hsp, hf, by simp [hh], by simpa [hh, signalLog, Event.signals] using hlog,
    fun hn => ?_⟩
  obtain ⟨l₁, l₂, heq, -⟩ := hn [] 6 _ cfg.shared.history 1 1 hh (.inl rfl) hsp
  rw [hlog] at heq
  exact absurd heq (by simp)

end Shepherd
