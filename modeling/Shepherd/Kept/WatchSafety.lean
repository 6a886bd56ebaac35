import Shepherd.Kept.WatchRuns

/-!
# What a Kept Process Can Rely On

## Main results

* `WatchState.launched_child_is_reported_once` — a launched child is reaped at most once, its
  targets signal it before that, and everybody is told the same exit.
* `WatchState.signals_after_the_reap` — who signals the number of an inherited child when it is
  free.
* `WatchState.unwatched_is_replaceable` — a watcher that is dropped is replaced, unless it was
  dropped before its first poll.
-/

namespace Shepherd

open Conc

/-- A reap of the leader. -/
def WatchEvent.isReap : WatchEvent → Bool
  | .reaped _ => true
  | _ => false

/-- A publication of the exit. -/
def WatchEvent.isPublication : WatchEvent → Bool
  | .published _ _ => true
  | _ => false

namespace WatchState

variable {k : Setting} {s : WatchState} {h : List (Tid × WatchEvent)}
  {t w : Tid} {id : RegId}

/-! ### What a chronicle says -/

/-- The leader is reaped at most once. -/
theorem countP_isReap (hc : Chronicle (Justified k) h) :
    h.countP (fun x => x.2.isReap) ≤ 1 := by
  induction h with
  | nil => exact Nat.zero_le 1
  | cons x h ih =>
      obtain ⟨t, ev⟩ := x
      obtain ⟨hj, hc⟩ := hc
      rw [List.countP_cons]
      split_ifs with hev
      · cases ev with
        | reaped reaper =>
            have hzero : h.countP (fun x => x.2.isReap) = 0 := by
              refine List.countP_eq_zero.mpr fun x hx hr => hj.1 ?_
              obtain ⟨t', ev'⟩ := x
              cases ev' with
              | reaped r => exact ⟨r, .of_mem hx⟩
              | _ => cases hr
            omega
        | _ => cases hev
      · exact ih hc

/-- What preceded an event. -/
theorem justified_of_eq (hc : Chronicle (Justified k) h)
    {newer older : List (Tid × WatchEvent)} {ev : WatchEvent}
    (heq : h = newer ++ (t, ev) :: older) :
    Justified k t ev older ∧ Chronicle (Justified k) older := by
  subst heq
  exact ⟨hc.justified, hc.of_suffix ⟨newer ++ [(t, ev)], by simp⟩⟩

/-! ### Launched children -/

/-- Whoever finds no registration of a launched child comes after the reap, and nobody registers
the child again. -/
structure LaunchedHistory (h : List (Tid × WatchEvent)) : Prop where
  unfound : Happened h .unfound → Reaped h
  identified : ¬ Happened h .identified
  registered : ∀ id owner late, ¬ Happened h (.registered id owner late)
  attach : ¬ Happened h (.reaped .attach)
  ended : ∀ w id, (w, .ended id) ∈ h → (w, .reaped (.watcher id)) ∈ h

namespace LaunchedHistory

/-- The registration of a launched child is not overtaken. -/
theorem not_overtaken (hl : LaunchedHistory h) (id : RegId) : ¬ Overtaken true h id := by
  rintro (ho | ho | ⟨owner, ho⟩)
  · cases ho
  · exact hl.attach ho
  · exact hl.registered id owner true ho

/-- A launched child has ended when it was reaped. -/
theorem of_ended (hl : LaunchedHistory h) (he : (w, .ended id) ∈ h) : Reaped h :=
  ⟨_, .of_mem (hl.ended w id he)⟩

/-- One event more. An `attach` that identifies the child has found no registration, and so comes
after the reap. -/
theorem cons (hl : LaunchedHistory h) (hc : Chronicle (Justified ⟨1, true, true⟩) h)
    {ev : WatchEvent} (hj : Justified ⟨1, true, true⟩ t ev h) : LaunchedHistory ((t, ev) :: h) := by
  have hs : h <:+ (t, ev) :: h := List.suffix_cons _ _
  have hnew : (t, .identified) ∉ h := fun hm => hl.identified (.of_mem hm)
  refine ⟨fun hu => ?_, fun hi => ?_, fun id owner late hr => ?_, fun hr => ?_, fun w id he => ?_⟩
  · rcases happened_cons.mp hu with rfl | hu
    · obtain ⟨exit, hp⟩ := hj 0 Nat.zero_lt_one
      obtain ⟨t', l, hsl, -, ⟨w, hw⟩, -⟩ := hc.of_happened hp
      exact (hl.of_ended (hsl.mem hw)).mono hs
    · exact (hl.unfound hu).mono hs
  · rcases happened_cons.mp hi with rfl | hi
    · exact hj.2 (hl.unfound (.of_mem hj.1))
    · exact hl.identified hi
  · rcases happened_cons.mp hr with rfl | hr
    · exact hnew hj.1
    · exact hl.registered id owner late hr
  · rcases happened_cons.mp hr with rfl | hr
    · exact hnew (hj.2 rfl)
    · exact hl.attach hr
  · rcases List.mem_cons.mp he with heq | he
    · obtain ⟨rfl, rfl⟩ := Prod.mk.inj heq
      rcases hj with hr | ⟨late, hf⟩ | ho
      · exact hs.mem hr
      · exact absurd hf (hl.registered id .foreign late)
      · exact absurd ho (hl.not_overtaken id)
    · exact hs.mem (hl.ended w id he)

/-- **The history of a launched child**, by induction on its events. -/
theorem of_chronicle (hc : Chronicle (Justified ⟨1, true, true⟩) h) : LaunchedHistory h := by
  induction h with
  | nil => exact ⟨by simp, by simp, by simp, by simp, by simp⟩
  | cons x h ih => exact (ih hc.2).cons hc.2 hc.1

end LaunchedHistory

/-- The leader is reaped once, by one task. -/
theorem reaped_unique {t' : Tid} {r r' : LeaderReaper}
    (hc : Chronicle (Justified k) h) (hr : (t, .reaped r) ∈ h)
    (hr' : (t', .reaped r') ∈ h) : t = t' ∧ r = r' := by
  induction h with
  | nil => cases hr
  | cons x h ih =>
      rcases List.mem_cons.mp hr with rfl | hr₁ <;> rcases List.mem_cons.mp hr' with heq | hr₂
      · cases heq
        exact ⟨rfl, rfl⟩
      · exact absurd ⟨r', .of_mem hr₂⟩ hc.1.1
      · subst heq
        exact absurd ⟨r, .of_mem hr₁⟩ hc.1.1
      · exact ih hc.2 hr₁ hr₂

/-- A watcher that is dropped does not publish. -/
theorem not_published_of_dropped {exit : KeptExit} (hc : Chronicle (Justified k) h)
    (hd : (w, .dropped id) ∈ h) : (w, .published id exit) ∉ h := by
  intro hp
  induction h with
  | nil => cases hd
  | cons x h ih =>
      rcases List.mem_cons.mp hd with rfl | hd₁ <;> rcases List.mem_cons.mp hp with heq | hp₁
      · cases heq
      · exact hc.1 exit (.of_mem hp₁)
      · subst heq
        exact hc.1.2.2.1 hd₁
      · exact ih hc.2 hd₁ hp₁

/-- One registration publishes one exit. -/
theorem countP_isPublication (hc : Chronicle (Justified k) h)
    (hone : ∀ id' exit, Happened h (.published id' exit) → id' = id) :
    h.countP (fun x => x.2.isPublication) ≤ 1 := by
  induction h with
  | nil => exact Nat.zero_le 1
  | cons x h ih =>
      obtain ⟨t, ev⟩ := x
      have hold : ∀ id' exit, Happened h (.published id' exit) → id' = id :=
        fun id' exit hh => hone id' exit (Happened.cons hh)
      rw [List.countP_cons]
      split_ifs with hev
      · cases ev with
        | published id₁ exit =>
            have hid : id₁ = id := hone id₁ exit (happened_cons.mpr (.inl rfl))
            have hzero : h.countP (fun x => x.2.isPublication) = 0 := by
              refine List.countP_eq_zero.mpr fun x hx hr => ?_
              obtain ⟨t', ev'⟩ := x
              cases ev' with
              | published id' exit' =>
                  have hid' : id' = id := hold id' exit' (.of_mem hx)
                  exact hc.1.1 exit' (hid.trans hid'.symm ▸ .of_mem hx)
              | _ => cases hr
            omega
        | _ => cases hev
      · exact ih hc.2 hold

/-- A launched child is reaped and reported once. -/
structure ReportedOnce (h : List (Tid × WatchEvent)) : Prop where
  reaped : h.countP (fun x => x.2.isReap) ≤ 1
  /-- Targets signal before the reap. -/
  signalled : ∀ newer older t id leader,
    h = newer ++ (t, .sent (.target id) leader) :: older → ¬ Reaped older
  /-- An `attach` returns the registration of the launch, nothing once the leader was reaped,
  and fails only after the exit was published. -/
  attached : ∀ t id, (t, .attached (some id)) ∈ h → id = 0
  unattached : ∀ newer older t, h = newer ++ (t, .attached none) :: older → Reaped older
  failed : ∀ newer older t, h = newer ++ (t, .attachFailed) :: older →
    ∃ exit, Happened older (.published 0 exit)
  published : h.countP (fun x => x.2.isPublication) ≤ 1
  /-- Every `exited` returns the exit that was published. -/
  exited : ∀ newer older t id exit, h = newer ++ (t, .exited id exit) :: older →
    id = 0 ∧ Happened older (.published 0 exit)
  /-- The watcher that reports no stragglers has reaped the leader, and seen the group empty
  after that. -/
  swept : ∀ newer older w id exit, h = newer ++ (w, .published id exit) :: older →
    exit.stragglers = false →
    ∃ between before, older = between ++ (w, .emptied id) :: before ∧
      (w, .reaped (.watcher id)) ∈ before
  /-- If that watcher is dropped, stragglers are reported. -/
  dropped : ∀ w id reaper exit, (w, .reaped reaper) ∈ h → (w, .dropped id) ∈ h →
    Happened h (.published id exit) → exit.stragglers = true

/-- The watcher that reports no stragglers. -/
theorem swept_of_chronicle {newer older : List (Tid × WatchEvent)} {exit : KeptExit}
    (hc : Chronicle (Justified ⟨1, true, true⟩) h)
    (heq : h = newer ++ (w, .published id exit) :: older) (hx : exit.stragglers = false) :
    ∃ between before, older = between ++ (w, .emptied id) :: before ∧
      (w, .reaped (.watcher id)) ∈ before := by
  obtain ⟨⟨-, -, -, hempty⟩, hold⟩ := justified_of_eq hc heq
  obtain ⟨between, before, rfl, hended⟩ := hold.of_mem (hempty hx)
  have hbefore := hold.of_suffix (h := before) ⟨between ++ [(w, .emptied id)], by simp⟩
  exact ⟨between, before, rfl, (LaunchedHistory.of_chronicle hbefore).ended w id hended⟩

/-- A launched child is reported once. -/
theorem Log.reportedOnce (hi : Log ⟨1, true, true⟩ s) : ReportedOnce s.log := by
  have hc := hi.chronicle
  have hl := LaunchedHistory.of_chronicle hc
  have hzero : ∀ id exit, Happened s.log (.published id exit) → id = 0 := by
    intro id exit hp
    obtain ⟨g, hg, -⟩ := hi.published id exit hp
    rcases (hi.reg id g hg).owner with ⟨hid, -⟩ | ⟨late, hr⟩
    · exact Nat.lt_one_iff.mp hid
    · exact absurd hr (hl.registered id g.owner late)
  refine ⟨countP_isReap hc, fun newer older t id leader heq hr => ?_, fun t id hm => ?_,
    fun newer older t heq => ?_, fun newer older t heq => ?_, countP_isPublication hc hzero,
    fun newer older t id exit heq => ?_, fun newer older w id exit heq hx =>
      swept_of_chronicle hc heq hx, fun w id reaper exit hr hd hp => ?_⟩
  · obtain ⟨⟨hgone, hj⟩, hold⟩ := justified_of_eq hc heq
    exact (LaunchedHistory.of_chronicle hold).not_overtaken id (hj (hgone hr))
  · obtain ⟨newer, older, heq, hj⟩ := hc.of_mem hm
    rcases hj with hid | ⟨owner, late, hr⟩
    · exact Nat.lt_one_iff.mp hid
    · have hs : older <:+ s.log := ⟨newer ++ [(t, .attached (some id))], by simp [heq]⟩
      exact absurd (hr.mono hs) (hl.registered id owner late)
  · obtain ⟨hj, hold⟩ := justified_of_eq hc heq
    have hlo := LaunchedHistory.of_chronicle hold
    rcases hj with ⟨id, w, hw⟩ | hu
    · exact hlo.of_ended hw
    · exact hlo.unfound (.of_mem hu)
  · obtain ⟨hj, hold⟩ := justified_of_eq hc heq
    obtain ⟨t', l, hs, hpub⟩ := hold.of_happened (.of_mem hj)
    obtain ⟨exit, hp⟩ := hpub 0 Nat.zero_lt_one
    exact ⟨exit, hp.mono hs⟩
  · obtain ⟨hj, hold⟩ := justified_of_eq hc heq
    have hs : older <:+ s.log := ⟨newer ++ [(t, .exited id exit)], by simp [heq]⟩
    obtain rfl := hzero id exit (Happened.mono hs hj)
    exact ⟨rfl, hj⟩
  · by_contra hx
    obtain ⟨w', hw'⟩ := hp
    obtain ⟨newer, older, heq, -⟩ := hc.of_mem hw'
    obtain ⟨between, before, hold, hr'⟩ := swept_of_chronicle hc heq (by simpa using hx)
    have hmem : (w', .reaped (.watcher id)) ∈ s.log := by
      rw [heq, hold]
      simp [hr']
    obtain ⟨rfl, -⟩ := reaped_unique hc hr hmem
    exact not_published_of_dropped hc hd hw'

/-- **A launched child is reaped and reported exactly once.** -/
theorem launched_child_is_reported_once (h : Reaches step launched s) : ReportedOnce s.log :=
  (log_of_reaches Inv.launched (Log.launched true) (fun _ _ _ hl => nomatch hl) h).reportedOnce

/-- What a process answers; with `yes`, to the question that the step asks. -/
def answer (yes : Bool) : WatchAnswer :=
  ⟨yes, false, some 0, none⟩

/-- A child is launched, exits, and is watched to the end. -/
def watchedLaunch : List WatchAction :=
  [.call 0 (answer false), .call 0 (answer false), .call 0 (answer false), .call 0 (answer false),
    .start 1 (.exited 0), .watcher 0 (answer false), .exits, .watcher 0 (answer false),
    .watcher 0 (answer false), .watcher 0 (answer false), .watcher 0 (answer false),
    .watcher 0 (answer false), .watcher 0 (answer true), .watcher 0 (answer false),
    .call 1 (answer false), .call 1 (answer false), .call 1 (answer false)]

/-- A launched child whose exit is awaited by another call is reported once. -/
theorem watched_launch_is_reported_once :
    ∃ s, Reaches step launched s ∧ (1, .exited 0 ⟨some 0, none, false⟩) ∈ s.log ∧
      ReportedOnce s.log := by
  obtain ⟨s, hs, hp⟩ := Reaches.exists_of_follow step launched watchedLaunch
    (fun s => decide ((1, .exited 0 ⟨some 0, none, false⟩) ∈ s.log)) (by decide +kernel)
  exact ⟨s, hs, of_decide_eq_true hp, launched_child_is_reported_once hs⟩

/-! ### Inherited children -/

/-- Who signals the number after the reap: the sweep of a watcher that has ended the process, an
`attach` that has found the process before the reap, and a registration that was overtaken. -/
def SignalsAfterReap (older : List (Tid × WatchEvent)) (t : Tid) : SignalSource → Prop
  | .sweep id => (t, .ended id) ∈ older
  | .attach => ∃ between before, older = between ++ (t, .identified) :: before ∧ ¬ Reaped before
  | .finish id | .target id =>
      Happened older (.reaped .attach) ∨ ∃ owner, Happened older (.registered id owner true)

/-- A justified signal after the reap is one of those allowed. -/
theorem SignalsAfterReap.of_justified {older : List (Tid × WatchEvent)} {source : SignalSource}
    (hc : Chronicle (Justified k) older) (hj : SignalJustified true t older source) :
    SignalsAfterReap older t source := by
  cases source with
  | sweep id => exact hj
  | attach =>
      obtain ⟨between, before, heq, -, hn⟩ := hc.of_mem hj
      exact ⟨between, before, heq, hn⟩
  | finish id => exact hj.resolve_left (by simp)
  | target id => exact hj.resolve_left (by simp)

/-- **Signals to the number of an inherited child.** -/
theorem signals_after_the_reap (h : Reaches step (unregistered true) s) :
    s.log.countP (fun x => x.2.isReap) ≤ 1 ∧
      ∀ newer older t source leader, s.log = newer ++ (t, .sent source leader) :: older →
        Reaped older → SignalsAfterReap older t source := by
  have hc := (log_of_reaches (Inv.unregistered true) (Log.unregistered true true)
    (fun _ _ _ hl => nomatch hl) h).chronicle
  refine ⟨countP_isReap hc, fun newer older t source leader heq hr => ?_⟩
  obtain ⟨⟨hgone, hj⟩, hold⟩ := justified_of_eq hc heq
  exact .of_justified hold (hj (hgone hr))

/-- The newest event is a signal after the reap. -/
def signalledAfterReap (source : SignalSource) : List (Tid × WatchEvent) → Bool
  | (_, .sent source' _) :: older => source' == source && older.any (fun x => x.2.isReap)
  | _ => false

/-- What the check finds is a signal after the reap. -/
theorem exists_of_signalledAfterReap {source : SignalSource}
    (hs : signalledAfterReap source h = true) :
    ∃ t leader older, h = (t, .sent source leader) :: older ∧ Reaped older := by
  cases h with
  | nil => cases hs
  | cons x older =>
      obtain ⟨t, ev⟩ := x
      cases ev with
      | sent source' leader =>
          simp only [signalledAfterReap, Bool.and_eq_true, beq_iff_eq, List.any_eq_true] at hs
          obtain ⟨rfl, ⟨t', ev'⟩, hx, hr⟩ := hs
          cases ev' with
          | reaped reaper => exact ⟨t, leader, older, rfl, reaper, .of_mem hx⟩
          | _ => cases hr
      | _ => cases hs

/-- An inherited child is attached to, exits, and is reaped by its watcher, which sweeps. -/
def sweptAttach : List WatchAction :=
  [.start 0 .attach, .call 0 (answer false), .call 0 (answer true), .call 0 (answer true),
    .call 0 (answer false), .call 0 (answer false), .call 0 (answer false), .call 0 (answer false),
    .call 0 (answer false), .watcher 0 (answer false), .exits, .watcher 0 (answer false),
    .watcher 0 (answer false), .watcher 0 (answer false), .watcher 0 (answer false),
    .watcher 0 (answer false)]

/-- Two calls find an inherited child that has exited. -/
def attachedTwice : List WatchAction :=
  [.start 0 .attach, .call 0 (answer false), .call 0 (answer true), .call 0 (answer true),
    .start 1 .attach, .call 1 (answer false), .call 1 (answer true), .call 1 (answer true), .exits,
    .call 0 (answer true), .call 1 (answer true), .call 0 (answer false), .call 0 (answer false),
    .call 1 (answer false)]

/-- The sweep of the watcher comes after its reap. -/
theorem sweptAttach_signals : ∃ s, Reaches step (unregistered true) s ∧
    signalledAfterReap (.sweep 0) s.log = true :=
  Reaches.exists_of_follow step (unregistered true) sweptAttach _ (by decide +kernel)

/-- The sweep signals the number after the reap, and so does the slower of two calls. -/
theorem inherited_child_is_signalled_after_the_reap :
    (∃ s t id leader older, Reaches step (unregistered true) s ∧
        s.log = (t, .sent (.sweep id) leader) :: older ∧ Reaped older) ∧
      ∃ s t leader older, Reaches step (unregistered true) s ∧
        s.log = (t, .sent .attach leader) :: older ∧ Reaped older := by
  constructor
  · obtain ⟨s, hs, hp⟩ := sweptAttach_signals
    obtain ⟨t, leader, older, heq, hr⟩ := exists_of_signalledAfterReap hp
    exact ⟨s, t, 0, leader, older, hs, heq, hr⟩
  · obtain ⟨s, hs, hp⟩ := Reaches.exists_of_follow step (unregistered true) attachedTwice
      (fun s => signalledAfterReap .attach s.log) (by decide +kernel)
    obtain ⟨t, leader, older, heq, hr⟩ := exists_of_signalledAfterReap hp
    exact ⟨s, t, leader, older, hs, heq, hr⟩

/-- A sweep after the reap is one of a watcher that has ended the process. -/
theorem sweep_after_the_reap_has_ended :
    ∃ s, Reaches step (unregistered true) s ∧ s.log.countP (fun x => x.2.isReap) ≤ 1 ∧
      ∃ t leader older, s.log = (t, .sent (.sweep 0) leader) :: older ∧ Reaped older ∧
        (t, .ended 0) ∈ older := by
  obtain ⟨s, hs, hp⟩ := sweptAttach_signals
  obtain ⟨t, leader, older, heq, hr⟩ := exists_of_signalledAfterReap hp
  obtain ⟨hcount, hsig⟩ := signals_after_the_reap hs
  exact ⟨s, hs, hcount, t, leader, older, heq, hr, hsig [] older t (.sweep 0) leader heq hr⟩

/-! ### Replaced watchers -/

/-- A registration without a watcher, whose exit is unpublished. -/
structure Unwatched (s : WatchState) (id : RegId) (g : Registration) : Prop where
  reg : s.regs id = some g
  launching : g.launching = false
  exit : g.exit = none
  watcher : ∀ w t, s.watchers w = some t → t.reg ≠ id

/-- The next call of `exited` starts a watcher, and so does the next `attach`, which returns
before it watches when `ended` is set. -/
structure Replaceable (s : WatchState) (id : RegId) (g : Registration) : Prop where
  started : g.started = false
  exited : ∀ n a, s.calls n = none → ∃ s', follow step s
    [.start n (.exited id), .call n a, .call n a, .call n a] = some s' ∧
      s'.watchers s.nextWatcher = some ⟨id, .unpolled⟩
  attach : ∀ n a, s.calls n = none → g.ended = none → g.holder = none → ∃ s', follow step s
    [.start n .attach, .call n a, .call n a, .call n a, .call n a, .call n a] = some s' ∧
      s'.watchers s.nextWatcher = some ⟨id, .unpolled⟩

section Watch

variable {n : ℕ} {g : Registration}

/-- A call that is set twice is where it was set last. -/
theorem setCall_setCall (s : WatchState) (n : ℕ) (c c' : KeptCall) :
    (s.setCall n c).setCall n c' = s.setCall n c' := by
  simp [setCall]

/-- A call that is in `watch` gets to the swap. -/
theorem Unwatched.watching (hu : s.Unwatched id g) (a : WatchAnswer) (next : WatchCall → KeptCall)
    (hnext : ∀ (s : WatchState) (call call' : WatchCall), s.regs id = some g →
      s.watch id g call = (s, some call') →
        s.callStep n a (next call) = some (s.setCall n (next call'))) :
    (s.setCall n (next .loading)).step (.call n a) = some (s.setCall n (next .exiting)) ∧
      (s.setCall n (next .exiting)).step (.call n a) = some (s.setCall n (next .swapping)) := by
  have hgo : ∀ call call', (∀ s : WatchState, s.watch id g call = (s, some call')) →
      (s.setCall n (next call)).step (.call n a) = some (s.setCall n (next call')) := by
    intro call call' hw
    have hstep := hnext (s.setCall n (next call)) call call' hu.reg (hw _)
    rw [setCall_setCall] at hstep
    simp only [step, calls_setCall_self, Option.bind_some]
    exact hstep
  exact ⟨hgo .loading .exiting fun s => by simp [watch, hu.launching],
    hgo .exiting .swapping fun s => by simp [watch, hu.exit]⟩

/-- A call of `exited` starts a watcher where none was started. -/
theorem Unwatched.exited (hu : s.Unwatched id g) (hst : g.started = false) (a : WatchAnswer)
    (hn : s.calls n = none) : ∃ s', follow step s
      [.start n (.exited id), .call n a, .call n a, .call n a] = some s' ∧
        s'.watchers s.nextWatcher = some ⟨id, .unpolled⟩ := by
  have hg := hu.reg
  obtain ⟨h₁, h₂⟩ := hu.watching (n := n) a (.rewatching id) fun s call call' hg hw => by
    simp [callStep, hg, hw]
  have hstart : s.step (.start n (.exited id)) = some (s.setCall n (.rewatching id .loading)) := by
    simp [step, hn, hg]
  refine ⟨((s.setReg id { g with started := true }).spawn id).setCall n (.awaiting id), ?_,
    watchers_setTask_self _⟩
  simp only [follow, hstart, h₁, h₂, Option.bind_some]
  simp [step, callStep, watch, hst, setCall, hg, setReg, spawn, setTask]

/-- An `attach` starts a watcher where none was started, if the process has not ended and nobody
holds the lock. -/
theorem Unwatched.attach (hu : s.Unwatched id g) (hinv : s.Inv) (hst : g.started = false)
    (he : g.ended = none) (hh : g.holder = none) (a : WatchAnswer) (hn : s.calls n = none) :
    ∃ s', follow step s
      [.start n .attach, .call n a, .call n a, .call n a, .call n a, .call n a] = some s' ∧
        s'.watchers s.nextWatcher = some ⟨id, .unpolled⟩ := by
  have hg := hu.reg
  have hreg := hinv.registered id g hg hu.exit
  obtain ⟨h₁, h₂⟩ := hu.watching (n := n) a (.attaching id) fun s call call' hg hw => by
    simp [callStep, hg, hw]
  have hstart : s.step (.start n .attach) = some (s.setCall n .looking) := by
    simp [step, hn]
  have hfound : (s.setCall n .looking).step (.call n a) = some (s.setCall n (.found id)) := by
    simp [step, callStep, attachStep, setCall, hreg]
  have hlook : (s.setCall n (.found id)).step (.call n a) =
      some (s.setCall n (.attaching id .loading)) := by
    simp [step, callStep, attachStep, setCall, hg, hh, he]
  refine ⟨(((s.setReg id { g with started := true }).spawn id).record n
    (.attached (some id))).setCall n .returned, ?_, watchers_setTask_self _⟩
  simp only [follow, hstart, hfound, hlook, h₁, h₂, Option.bind_some]
  simp [step, callStep, watch, hst, setCall, hg, setReg, spawn, setTask, record]

/-- Where nobody has set `started`, the next calls start a watcher. -/
theorem Unwatched.replaceable (hu : s.Unwatched id g) (hinv : s.Inv) (hst : g.started = false) :
    s.Replaceable id g :=
  ⟨hst, fun _ a hn => hu.exited hst a hn, fun _ a hn he hh => hu.attach hinv hst he hh a hn⟩

/-- The flag tells whether a watcher was lost. -/
theorem Log.replaceable_iff (hi : Log k s) (hinv : s.Inv) (hu : s.Unwatched id g) :
    s.Replaceable id g ↔ ¬ Happened s.log (.lost id) := by
  constructor
  · intro hr hl
    obtain ⟨-, g₁, hg₁, hst, -⟩ := hi.lost id hl
    obtain rfl := Option.some.inj (hu.reg.symm.trans hg₁)
    cases hr.started.symm.trans hst
  · intro hl
    refine hu.replaceable hinv ?_
    by_contra hst
    rcases hi.watched id g hu.reg (by simpa using hst) hu.exit with ⟨w, t, ht, hr⟩ | hl'
    · exact hu.watcher w t ht hr
    · exact hl hl'

end Watch

/-- The log at the start is justified. -/
theorem Starts.log {s₀ : WatchState} (h₀ : Starts s₀) (lossy : Bool) :
    ∃ k : Setting, k.lossy = lossy ∧ Log k s₀ := by
  cases h₀ with
  | launched => exact ⟨_, rfl, Log.launched lossy⟩
  | unregistered ours => exact ⟨_, rfl, Log.unregistered ours lossy⟩

/-- **A dropped watcher is replaced, unless it was dropped before its first poll.** -/
theorem unwatched_is_replaceable {s₀ : WatchState} (h₀ : Starts s₀) :
    (∀ s, Reaches step s₀ s →
      (∀ w w' t t', s.watchers w = some t → s.watchers w' = some t' → t.reg = t'.reg → w = w') ∧
        ∀ id g, s.Unwatched id g → (s.Replaceable id g ↔ ¬ Happened s.log (.lost id))) ∧
      ∀ s, ReachesUnder step Polled s₀ s → ∀ id g, s.Unwatched id g → s.Replaceable id g := by
  refine ⟨fun s h => ?_, fun s h id g hu => ?_⟩
  · obtain ⟨k, hk, hlog⟩ := h₀.log true
    have hi := log_of_reaches h₀.inv hlog (fun _ _ _ hl => nomatch hk.symm.trans hl) h
    exact ⟨(inv_of_reaches h₀ h).one, fun id g hu => hi.replaceable_iff (inv_of_reaches h₀ h) hu⟩
  · obtain ⟨k, hk, hlog⟩ := h₀.log false
    have hi := log_of_reaches h₀.inv hlog (fun _ _ hp _ => hp) h
    refine (hi.replaceable_iff (inv_of_reaches h₀ h) hu).mpr fun hl => ?_
    obtain ⟨t, l, -, hj⟩ := hi.chronicle.of_happened hl
    cases hk.symm.trans hj

/-- A watcher that was never polled leaves the flag behind. -/
theorem unpolled_watcher_is_not_replaced :
    ∃ s id g, Reaches step launched s ∧ s.Unwatched id g ∧ g.started = true := by
  obtain ⟨s, hs, hp⟩ := Reaches.exists_of_follow step launched
    [.call 0 (answer false), .call 0 (answer false), .call 0 (answer false),
      .call 0 (answer false), .drop 0]
    (fun s => decide (s.log = [(0, .lost 0)] ∧ (s.regs 0).all fun g => !g.launching))
    (by decide +kernel)
  obtain ⟨hlog, hall⟩ := of_decide_eq_true hp
  have hi := log_of_reaches Inv.launched (Log.launched true) (fun _ _ _ hl => nomatch hl) hs
  obtain ⟨hn, g, hg, hst, hx⟩ := hi.lost 0 (by rw [hlog]; simp)
  rw [hg] at hall
  exact ⟨s, 0, g, hs, ⟨hg, by simpa using hall, hx, hn⟩, hst⟩

/-- A watcher that is dropped while it waits is replaced. -/
theorem waiting_watcher_is_replaced :
    ∃ s g, Reaches step launched s ∧ s.Unwatched 0 g ∧ s.Replaceable 0 g := by
  obtain ⟨s, hs, hp⟩ := Reaches.exists_of_follow step launched
    [.call 0 (answer false), .call 0 (answer false), .call 0 (answer false),
      .call 0 (answer false), .watcher 0 (answer false), .drop 0, .watcher 0 (answer false),
      .watcher 0 (answer false)]
    (fun s => decide (s.log = [(0, .dropped 0)] ∧ (s.regs 0).isSome ∧
      (s.regs 0).all fun g => !g.launching && g.exit.isNone && !g.started)) (by decide +kernel)
  obtain ⟨hlog, hsome, hall⟩ := of_decide_eq_true hp
  obtain ⟨g, hg⟩ := Option.isSome_iff_exists.mp hsome
  rw [hg] at hall
  obtain ⟨⟨hl, hx⟩, hst⟩ : (g.launching = false ∧ g.exit = none) ∧ g.started = false := by
    simpa using hall
  have hu : s.Unwatched 0 g := ⟨hg, hl, hx, fun w t ht hr => by
    obtain ⟨g₁, hg₁, hst₁, -⟩ := (inv_of_reaches .launched hs).task w t ht
    obtain rfl := Option.some.inj (hg.symm.trans (hr ▸ hg₁))
    cases hst.symm.trans hst₁⟩
  have hiff := ((unwatched_is_replaceable .launched).1 s hs).2 0 g hu
  exact ⟨s, g, hs, hu, hiff.mpr (by rw [hlog]; simp)⟩

end WatchState

end Shepherd
