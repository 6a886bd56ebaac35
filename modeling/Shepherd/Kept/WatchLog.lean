import Shepherd.Kept.WatchInv

/-!
# The History of a Kept Process

What every event in the history of a kept process was preceded by (`Justified`), in every run:
who reaps the leader, who signals a number that is free, what an `attach` returns, and what a
watcher has done before it publishes an exit. `Log` joins the chronicle with what it says about
the present state.

A registration is **overtaken** when the
leader is gone and the watcher of the registration is not the one that reaped it.
-/

namespace Shepherd

open Conc

namespace WatchState

/-! ### Justifications -/

section Justified

variable {h h' : List (Tid × WatchEvent)} {id : RegId} {t : Tid}

/-- The leader was reaped by this process. -/
def Reaped (h : List (Tid × WatchEvent)) : Prop :=
  ∃ reaper, Happened h (.reaped reaper)

/-- Somebody reads the process as somebody else's child. -/
def ForeignReg (h : List (Tid × WatchEvent)) (id : RegId) : Prop :=
  ∃ late, Happened h (.registered id .foreign late)

/-- Its parent can reap it, an `attach` has, or it was reaped before the registration. -/
def Overtaken (ours : Bool) (h : List (Tid × WatchEvent)) (id : RegId) : Prop :=
  ours = false ∨ Happened h (.reaped .attach) ∨ ∃ owner, Happened h (.registered id owner true)

/-- Who may signal a number that is free. -/
def SignalJustified (ours : Bool) (t : Tid) (h : List (Tid × WatchEvent)) :
    SignalSource → Prop
  | .attach => (t, .identified) ∈ h
  | .finish id | .target id => Overtaken ours h id
  | .sweep id => (t, .ended id) ∈ h

/-- What is known of a run: how many launches it starts with, whether the process is a child of
this one, and whether watchers are dropped before they are polled. -/
structure Setting where
  initial : ℕ
  ours : Bool
  lossy : Bool

/-- What happens before an event. -/
def Justified (k : Setting) (t : Tid) (ev : WatchEvent) (h : List (Tid × WatchEvent)) : Prop :=
  match ev with
  | .reaped reaper => ¬ Reaped h ∧ (reaper = .attach → (t, .identified) ∈ h)
  | .sent source leader =>
      (Reaped h → leader = .gone) ∧ (leader = .gone → SignalJustified k.ours t h source)
  | .unfound => ∀ id < k.initial, ∃ exit, Happened h (.published id exit)
  | .identified => (t, .unfound) ∈ h ∧ ¬ Reaped h
  | .registered id _ _ => (t, .identified) ∈ h ∧ k.initial ≤ id
  | .attached (some id) => id < k.initial ∨ ∃ owner late, Happened h (.registered id owner late)
  | .attached none => (∃ id, Happened h (.ended id)) ∨ (t, .unfound) ∈ h
  | .attachFailed => (t, .unfound) ∈ h
  | .ended id => (t, .reaped (.watcher id)) ∈ h ∨ ForeignReg h id ∨ Overtaken k.ours h id
  | .emptied id => (t, .ended id) ∈ h
  | .published id exit => (∀ exit', ¬ Happened h (.published id exit')) ∧
      (∃ w, (w, .ended id) ∈ h) ∧ (t, .dropped id) ∉ h ∧
      (exit.stragglers = false → (t, .emptied id) ∈ h)
  | .lost _ => k.lossy = true
  | .dropped id => ∀ exit, ¬ Happened h (.published id exit)
  | .exited id exit => Happened h (.published id exit)

/-- A leader that was reaped is reaped ever after. -/
theorem Reaped.mono (hs : h <:+ h') (hr : Reaped h) : Reaped h' := by
  obtain ⟨reaper, hr⟩ := hr
  exact ⟨reaper, hr.mono hs⟩

/-- A registration that was overtaken is so ever after. -/
theorem Overtaken.mono {ours : Bool} (hs : h <:+ h') (ho : Overtaken ours h id) :
    Overtaken ours h' id := by
  obtain ho | ho | ⟨owner, ho⟩ := ho
  · exact .inl ho
  · exact .inr (.inl (ho.mono hs))
  · exact .inr (.inr ⟨owner, ho.mono hs⟩)

end Justified

variable {k : Setting} {s s' : WatchState} {w n : ℕ} {id : RegId}
  {g g' : Registration} {h h' : List (Tid × WatchEvent)}

/-! ### The present state -/

/-- What the history says about a registration. -/
structure RegLog (initial : ℕ) (h : List (Tid × WatchEvent)) (id : RegId) (g : Registration) :
    Prop where
  owner : (id < initial ∧ g.owner = .child) ∨ ∃ late, Happened h (.registered id g.owner late)
  ended : g.ended ≠ none → ∃ w, (w, .ended id) ∈ h
  exit : ∀ exit, g.exit = some exit → Happened h (.published id exit)

/-- What the history says about a watcher. -/
def TaskLog (w : ℕ) (id : RegId) (h : List (Tid × WatchEvent)) : WatcherAt → Prop
  | .unpolled | .waiting | .finishing | .killing | .reaping _ => (w, .dropped id) ∉ h
  | .sweeping _ | .listing _ | .pausing _ | .probing _ | .membering _ =>
      (w, .dropped id) ∉ h ∧ (w, .ended id) ∈ h
  | .publishing exit =>
      (w, .dropped id) ∉ h ∧ (exit.stragglers = false → (w, .emptied id) ∈ h)
  | .forgetting | .rearming | .resetting => True

/-- What the history says about a call. -/
def CallLog (n : ℕ) (h : List (Tid × WatchEvent)) : KeptCall → Prop
  | .observing => (n, .unfound) ∈ h
  | .parenting | .zombieing _ | .killing | .reaping | .registering _ =>
      (n, .unfound) ∈ h ∧ (n, .identified) ∈ h
  | _ => True

/-- The history of a run, and the state it has led to. -/
structure LogBase (k : Setting) (s : WatchState) : Prop where
  child : s.ours = k.ours
  chronicle : Chronicle (Justified k) s.log
  reaped : Reaped s.log → s.leader = .gone
  gone : s.leader = .gone → Reaped s.log ∨ k.ours = false
  initially : ∀ id < k.initial, (s.regs id).isSome = true
  next : k.initial ≤ s.nextReg
  reg : ∀ id g, s.regs id = some g → RegLog k.initial s.log id g
  published : ∀ id exit, Happened s.log (.published id exit) →
    ∃ g, s.regs id = some g ∧ g.exit = some exit
  watched : ∀ id g, s.regs id = some g → g.started = true → g.exit = none →
    (∃ w t, s.watchers w = some t ∧ t.reg = id) ∨ Happened s.log (.lost id)
  lost : ∀ id, Happened s.log (.lost id) →
    (∀ w t, s.watchers w = some t → t.reg ≠ id) ∧
      ∃ g, s.regs id = some g ∧ g.started = true ∧ g.exit = none
  dropped : ∀ w id, (w, .dropped id) ∈ s.log → w < s.nextWatcher
  task : ∀ w t, s.watchers w = some t → TaskLog w t.reg s.log t.point
  call : ∀ n c, s.calls n = some c → CallLog n s.log c

/-- A registration whose leader is gone without its watcher is overtaken. -/
structure Log (k : Setting) (s : WatchState) : Prop
    extends LogBase k s where
  overtaken : s.leader = .gone → ∀ id g, s.regs id = some g → g.ended = none →
    Overtaken k.ours s.log id

/-! ### A longer history -/

/-- The event changes nothing that the state remembers. -/
def Plain : WatchEvent → Prop
  | .reaped _ | .published _ _ | .lost _ | .dropped _ => False
  | _ => True

/-- Another event than the newest had happened before. -/
theorem happened_of_cons {t : Tid} {ev ev' : WatchEvent} (hne : ev' ≠ ev)
    (hh : Happened ((t, ev) :: h) ev') : Happened h ev' :=
  (happened_cons.mp hh).resolve_left hne

/-- What has happened has happened after one event more. -/
theorem Happened.cons {t : Tid} {ev ev' : WatchEvent} (hh : Happened h ev') :
    Happened ((t, ev) :: h) ev' :=
  hh.mono (List.suffix_cons _ _)

/-- What the log says of a registration, it says ever after. -/
theorem RegLog.mono {initial : ℕ} (hs : h <:+ h') (hr : RegLog initial h id g) :
    RegLog initial h' id g := by
  refine ⟨?_, fun he => ?_, fun exit he => (hr.exit exit he).mono hs⟩
  · exact hr.owner.imp_right fun ⟨late, hh⟩ => ⟨late, hh.mono hs⟩
  · obtain ⟨w, hw⟩ := hr.ended he
    exact ⟨w, hs.mem hw⟩

/-- What the log says of a watcher, it says as long as the watcher is not dropped. -/
theorem TaskLog.mono {point : WatcherAt} (hs : h <:+ h')
    (hd : (w, .dropped id) ∈ h' → (w, .dropped id) ∈ h) (hf : TaskLog w id h point) :
    TaskLog w id h' point := by
  cases point with
  | unpolled | waiting | finishing | killing | reaping => exact fun hm => hf (hd hm)
  | sweeping | listing | pausing | probing | membering =>
      exact ⟨fun hm => hf.1 (hd hm), hs.mem hf.2⟩
  | publishing exit => exact ⟨fun hm => hf.1 (hd hm), fun he => hs.mem (hf.2 he)⟩
  | forgetting | rearming | resetting => trivial

/-- What the log says of a call, it says ever after. -/
theorem CallLog.mono {c : KeptCall} (hs : h <:+ h') (hf : CallLog n h c) : CallLog n h' c := by
  cases c with
  | observing => exact hs.mem hf
  | parenting | zombieing | killing | reaping | registering => exact ⟨hs.mem hf.1, hs.mem hf.2⟩
  | _ => trivial

/-- A plain event is recorded. -/
theorem LogBase.record (hi : LogBase k s) {t : Tid} {ev : WatchEvent}
    (hj : Justified k t ev s.log) (hp : Plain ev) : LogBase k (s.record t ev) := by
  have hs : s.log <:+ (s.record t ev).log := List.suffix_cons _ _
  have hback : ∀ ev', ¬ Plain ev' → Happened (s.record t ev).log ev' → Happened s.log ev' :=
    fun ev' hn hh => happened_of_cons (fun he => hn (he ▸ hp)) hh
  have hmem : ∀ w id, (w, .dropped id) ∈ (s.record t ev).log → (w, .dropped id) ∈ s.log := by
    intro w id hm
    refine (List.mem_cons.mp hm).resolve_left fun he => ?_
    rw [← (Prod.mk.inj he).2] at hp
    exact hp
  exact { hi with
    chronicle := ⟨hj, hi.chronicle⟩
    reaped := fun ⟨r, hr⟩ => hi.reaped ⟨r, hback _ (fun hn => hn) hr⟩
    gone := fun hl => (hi.gone hl).imp_left (Reaped.mono hs)
    reg := fun id g hg => (hi.reg id g hg).mono hs
    published := fun id exit hh => hi.published id exit (hback _ (fun hn => hn) hh)
    watched := fun id g hg hst hx => (hi.watched id g hg hst hx).imp_right (Happened.mono hs)
    lost := fun id hh => hi.lost id (hback _ (fun hn => hn) hh)
    dropped := fun w id hm => hi.dropped w id (hmem w id hm)
    task := fun w t ht => (hi.task w t ht).mono hs (hmem w t.reg)
    call := fun n c hc => (hi.call n c hc).mono hs }

/-- A justified event that matters to nobody is recorded. -/
theorem Log.record (hi : Log k s) {t : Tid} {ev : WatchEvent}
    (hj : Justified k t ev s.log) (hp : Plain ev) : Log k (s.record t ev) where
  toLogBase := hi.toLogBase.record hj hp
  overtaken := fun hl id g hg he => (hi.overtaken hl id g hg he).mono (List.suffix_cons _ _)

/-- A call goes on. -/
theorem Log.setCall (hi : Log k s) {c : KeptCall} (hc : CallLog n s.log c) :
    Log k (s.setCall n c) := by
  refine { hi with call := fun n' c' hc' => ?_ }
  by_cases hn : n' = n
  · subst hn
    rw [calls_setCall_self] at hc'
    exact Option.some.inj hc' ▸ hc
  · rw [calls_setCall_of_ne s hn] at hc'
    exact hi.call n' c' hc'

/-- A watcher goes on. -/
theorem LogBase.goto (hi : LogBase k s) {t : WatcherTask} (ht : s.watchers w = some t)
    {point : WatcherAt} (hf : TaskLog w t.reg s.log point) :
    LogBase k (s.goto w t.reg point) := by
  refine { hi with watched := fun id g hg hst hx => ?_, lost := fun id hh => ?_, task := ?_ }
  · refine (hi.watched id g hg hst hx).imp_left fun ⟨w', t', ht', hr⟩ => ?_
    by_cases hw : w' = w
    · subst hw
      obtain rfl := Option.some.inj (ht.symm.trans ht')
      exact ⟨w', _, watchers_goto_self s, hr⟩
    · exact ⟨w', t', (watchers_goto_of_ne s hw).trans ht', hr⟩
  · obtain ⟨hn, hg⟩ := hi.lost id hh
    refine ⟨fun w' t' ht' => ?_, hg⟩
    obtain ⟨t₀, ht₀, hr⟩ := exists_of_goto ht ht'
    exact hr ▸ hn w' t₀ ht₀
  · intro w' t' ht'
    by_cases hw : w' = w
    · subst hw
      rw [watchers_goto_self] at ht'
      exact Option.some.inj ht' ▸ hf
    · rw [watchers_goto_of_ne s hw] at ht'
      exact hi.task w' t' ht'

/-- A watcher goes on, and the log says what its place does. -/
theorem Log.goto (hi : Log k s) {t : WatcherTask} (ht : s.watchers w = some t)
    {point : WatcherAt} (hf : TaskLog w t.reg s.log point) :
    Log k (s.goto w t.reg point) where
  toLogBase := hi.toLogBase.goto ht hf
  overtaken := hi.overtaken

/-- A watcher has seen that the group is empty. -/
theorem Log.emptied (hi : Log k s) {t : WatcherTask} (ht : s.watchers w = some t)
    (hd : (w, .dropped t.reg) ∉ s.log) (he : (w, .ended t.reg) ∈ s.log) {exit : KeptExit} :
    Log k ((s.record w (.emptied t.reg)).goto w t.reg
      (.publishing { exit with stragglers := false })) := by
  have hj : Justified k w (.emptied t.reg) s.log := he
  refine (hi.record hj trivial).goto ht ⟨?_, fun _ => List.mem_cons_self⟩
  simpa [WatchState.record] using hd

/-- The registry is not part of the history. -/
theorem Log.forget (hi : Log k s) (id : RegId) :
    Log k { s with registry := if s.registry = some id then none else s.registry } :=
  { hi with }

/-! ### Changes of a registration -/

/-- A registration after one was set. -/
theorem of_setReg {id' : RegId} {g₁ : Registration} (h₁ : (s.setReg id g').regs id' = some g₁) :
    (id' = id ∧ g₁ = g') ∨ (id' ≠ id ∧ s.regs id' = some g₁) := by
  by_cases hid : id' = id
  · subst hid
    exact .inl ⟨rfl, (Option.some.inj ((regs_setReg_self s).symm.trans h₁)).symm⟩
  · exact .inr ⟨hid, (regs_setReg_of_ne s hid).symm.trans h₁⟩

/-- Whatever holds of all registrations still does. -/
theorem exists_setReg {P : Registration → Prop} (hg : s.regs id = some g) (g' : Registration)
    (hP : P g → P g')
    {id' : RegId} (h₁ : ∃ g₁, s.regs id' = some g₁ ∧ P g₁) :
    ∃ g₁, (s.setReg id g').regs id' = some g₁ ∧ P g₁ := by
  obtain ⟨g₁, hg₁, hp⟩ := h₁
  by_cases hid : id' = id
  · subst hid
    obtain rfl := Option.some.inj (hg.symm.trans hg₁)
    exact ⟨g', regs_setReg_self s, hP hp⟩
  · exact ⟨g₁, (regs_setReg_of_ne s hid).trans hg₁, hp⟩

/-- A registration changes; whether it is watched and its exit stay. -/
theorem LogBase.setReg (hi : LogBase k s) (hg : s.regs id = some g)
    (g' : Registration) (ho : g'.owner = g.owner) (hst : g'.started = g.started)
    (hx : g'.exit = g.exit)
    (he : g'.ended ≠ none → ∃ w, (w, .ended id) ∈ s.log) :
    LogBase k (s.setReg id g') := by
  have hr := hi.reg id g hg
  refine { hi with
    initially := fun id' hid => isSome_setReg hg id' ▸ hi.initially id' hid
    reg := fun id' g₁ h₁ => ?_
    published := fun id' exit hh => exists_setReg hg g' hx.trans (hi.published id' exit hh)
    watched := fun id' g₁ h₁ hst₁ hx₁ => ?_
    lost := fun id' hh => ?_ }
  · rcases of_setReg h₁ with ⟨rfl, rfl⟩ | ⟨-, h₁⟩
    · exact ⟨ho ▸ hr.owner, he, fun exit hx' => hr.exit exit (hx.symm.trans hx')⟩
    · exact hi.reg id' g₁ h₁
  · rcases of_setReg h₁ with ⟨rfl, rfl⟩ | ⟨-, h₁⟩
    · exact hi.watched id' g hg (hst.symm.trans hst₁) (hx.symm.trans hx₁)
    · exact hi.watched id' g₁ h₁ hst₁ hx₁
  · obtain ⟨hn, h₁⟩ := hi.lost id' hh
    exact ⟨hn, exists_setReg (P := fun g => g.started = true ∧ g.exit = none) hg g'
      (fun ⟨hs, he⟩ => ⟨hst.trans hs, hx.trans he⟩) h₁⟩

/-- A registration changes its lock only. -/
theorem Log.setReg (hi : Log k s) (hg : s.regs id = some g)
    (g' : Registration) (ho : g'.owner = g.owner) (hst : g'.started = g.started)
    (hx : g'.exit = g.exit)
    (he : g'.ended = g.ended) : Log k (s.setReg id g') where
  toLogBase := hi.toLogBase.setReg hg g' ho hst hx fun hn =>
    (hi.reg id g hg).ended (fun hn' => hn (he.trans hn'))
  overtaken := fun hl id' g₁ h₁ hn => by
    rcases of_setReg h₁ with ⟨rfl, rfl⟩ | ⟨-, h₁⟩
    · exact hi.overtaken hl id' g hg (he.symm.trans hn)
    · exact hi.overtaken hl id' g₁ h₁ hn

/-- A watcher is started. -/
theorem Log.spawn (hi : Log k s) (hinv : s.Inv) (hg : s.regs id = some g)
    (hst : g.started = false) :
    Log k ((s.setReg id { g with started := true }).spawn id) := by
  have hr := hi.reg id g hg
  have hother : ∀ w t, s.watchers w = some t →
      ((s.setReg id { g with started := true }).spawn id).watchers w = some t := by
    intro w t ht
    have hw : w ≠ s.nextWatcher := fun hw => Nat.lt_irrefl w (hw ▸ hinv.fresh w t ht)
    exact (watchers_setTask_of_ne _ hw).trans ht
  have hnew : ∀ w t, ((s.setReg id { g with started := true }).spawn id).watchers w = some t →
      (w = s.nextWatcher ∧ t = ⟨id, .unpolled⟩) ∨ s.watchers w = some t := by
    intro w t ht
    by_cases hw : w = s.nextWatcher
    · subst hw
      exact .inl ⟨rfl, (Option.some.inj ((watchers_setTask_self _).symm.trans ht)).symm⟩
    · exact .inr ((watchers_setTask_of_ne _ hw).symm.trans ht)
  refine { hi with
    initially := fun id' hid => isSome_setReg hg id' ▸ hi.initially id' hid
    reg := fun id' g₁ h₁ => ?_
    published := fun id' exit hh => exists_setReg hg { g with started := true } (fun he => he)
      (hi.published id' exit hh)
    watched := fun id' g₁ h₁ hst₁ hx₁ => ?_
    lost := fun id' hh => ?_
    dropped := fun w id' hm => Nat.lt_succ_of_lt (hi.dropped w id' hm)
    task := fun w t ht => ?_
    overtaken := fun hl id' g₁ h₁ hn => ?_ }
  · rcases of_setReg h₁ with ⟨rfl, rfl⟩ | ⟨-, h₁⟩
    · exact ⟨hr.owner, hr.ended, hr.exit⟩
    · exact hi.reg id' g₁ h₁
  · rcases of_setReg h₁ with ⟨rfl, rfl⟩ | ⟨-, h₁⟩
    · exact .inl ⟨s.nextWatcher, ⟨id', .unpolled⟩, watchers_setTask_self _, rfl⟩
    · refine (hi.watched id' g₁ h₁ hst₁ hx₁).imp_left fun ⟨w, t, ht, hr⟩ => ?_
      exact ⟨w, t, hother w t ht, hr⟩
  · obtain ⟨hn, g₁, hg₁, hst₁, hx₁⟩ := hi.lost id' hh
    have hid : id' ≠ id := by
      rintro rfl
      obtain rfl := Option.some.inj (hg.symm.trans hg₁)
      cases hst.symm.trans hst₁
    refine ⟨fun w t ht => ?_, g₁, (regs_setReg_of_ne s hid).trans hg₁, hst₁, hx₁⟩
    rcases hnew w t ht with ⟨-, rfl⟩ | ht
    · exact Ne.symm hid
    · exact hn w t ht
  · rcases hnew w t ht with ⟨rfl, rfl⟩ | ht
    · exact fun hm => Nat.lt_irrefl _ (hi.dropped _ _ hm)
    · exact hi.task w t ht
  · rcases of_setReg h₁ with ⟨rfl, rfl⟩ | ⟨-, h₁⟩
    · exact hi.overtaken hl id' g hg hn
    · exact hi.overtaken hl id' g₁ h₁ hn

/-- To watch a registration logs nothing. -/
theorem log_watch (s : WatchState) (id : RegId) (g : Registration) (call : WatchCall) :
    (s.watch id g call).1.log = s.log := by
  cases call with
  | loading | exiting => rfl
  | swapping =>
      simp only [WatchState.watch]
      split_ifs <;> rfl

/-- A call that is in `watch` goes on. -/
theorem Log.watch (hi : Log k s) (hinv : s.Inv) (hg : s.regs id = some g)
    (call : WatchCall) (hl : call ≠ .loading → g.launching = false) :
    Log k (s.watch id g call).1 := by
  rcases watch_cases s id call hl with ⟨call', hw, -⟩ | hw | ⟨hst, -, hw⟩
  · rw [hw]
    exact hi
  · rw [hw]
    exact hi
  · rw [hw]
    exact hi.spawn hinv hg hst

/-! ### The end of a watcher -/

/-- A watcher that is there after another was dropped. -/
theorem of_setTask_none {w' : ℕ} {t' : WatcherTask}
    (ht' : (s.setTask w none).watchers w' = some t') : w' ≠ w ∧ s.watchers w' = some t' := by
  by_cases hw : w' = w
  · subst hw
    rw [watchers_setTask_self] at ht'
    cases ht'
  · exact ⟨hw, (watchers_setTask_of_ne s hw).symm.trans ht'⟩

/-- A watcher that has published is over. -/
theorem Log.remove (hi : Log k s) {t : WatcherTask} (ht : s.watchers w = some t)
    (hg : s.regs t.reg = some g) (hx : g.exit ≠ none) :
    Log k (s.setTask w none) := by
  refine { hi with
    watched := fun id g₁ h₁ hst hx₁ => ?_
    lost := fun id hh => ⟨fun w' t' ht' => (hi.lost id hh).1 w' t' (of_setTask_none ht').2,
      (hi.lost id hh).2⟩
    task := fun w' t' ht' => hi.task w' t' (of_setTask_none ht').2 }
  refine (hi.watched id g₁ h₁ hst hx₁).imp_left fun ⟨w', t', ht', hr⟩ => ?_
  have hw : w' ≠ w := by
    rintro rfl
    obtain rfl := Option.some.inj (ht.symm.trans ht')
    obtain rfl := Option.some.inj (hg.symm.trans (hr ▸ h₁))
    exact hx hx₁
  exact ⟨w', t', (watchers_setTask_of_ne s hw).trans ht', hr⟩

/-- The guard of a watcher that is over lets another start. -/
theorem Log.reset (hi : Log k s) {t : WatcherTask} (ht : s.watchers w = some t)
    (hg : s.regs t.reg = some g) :
    Log k ((s.setReg t.reg { g with started := false }).setTask w none) := by
  have hr := hi.reg _ g hg
  refine { hi with
    initially := fun id' hid => isSome_setReg hg id' ▸ hi.initially id' hid
    reg := fun id' g₁ h₁ => ?_
    published := fun id' exit hh => exists_setReg hg { g with started := false } (fun he => he)
      (hi.published id' exit hh)
    watched := fun id' g₁ h₁ hst₁ hx₁ => ?_
    lost := fun id' hh => ?_
    task := fun w' t' ht' => hi.task w' t' (of_setTask_none ht').2
    overtaken := fun hl id' g₁ h₁ hn => ?_ }
  · rcases of_setReg h₁ with ⟨rfl, rfl⟩ | ⟨-, h₁⟩
    · exact ⟨hr.owner, hr.ended, hr.exit⟩
    · exact hi.reg id' g₁ h₁
  · rcases of_setReg h₁ with ⟨rfl, rfl⟩ | ⟨hid, h₁⟩
    · cases hst₁
    · refine (hi.watched id' g₁ h₁ hst₁ hx₁).imp_left fun ⟨w', t', ht', hr'⟩ => ?_
      have hw : w' ≠ w := by
        rintro rfl
        obtain rfl := Option.some.inj (ht.symm.trans ht')
        exact hid hr'.symm
      exact ⟨w', t', (watchers_setTask_of_ne _ hw).trans ht', hr'⟩
  · obtain ⟨hn, g₁, hg₁, hst₁, hx₁⟩ := hi.lost id' hh
    have hid : id' ≠ t.reg := Ne.symm (hn w t ht)
    exact ⟨fun w' t' ht' => hn w' t' (of_setTask_none ht').2, g₁,
      (regs_setReg_of_ne s hid).trans hg₁, hst₁, hx₁⟩
  · rcases of_setReg h₁ with ⟨rfl, rfl⟩ | ⟨-, h₁⟩
    · exact hi.overtaken hl _ g hg hn
    · exact hi.overtaken hl id' g₁ h₁ hn

/-- A watcher is dropped before its first poll. -/
theorem Log.lose (hi : Log k s) (hinv : s.Inv) {t : WatcherTask}
    (ht : s.watchers w = some t) (hp : t.point = .unpolled) (hk : k.lossy = true) :
    Log k ((s.record w (.lost t.reg)).setTask w none) := by
  have hs : s.log <:+ (w, .lost t.reg) :: s.log := List.suffix_cons _ _
  obtain ⟨g, hg, hst, -, hf⟩ := hinv.task w t ht
  rw [hp] at hf
  have hmem : ∀ w' id, (w', .dropped id) ∈ (s.record w (.lost t.reg)).log →
      (w', .dropped id) ∈ s.log := fun w' id hm => by
    simpa [WatchState.record] using hm
  exact { hi with
    chronicle := ⟨hk, hi.chronicle⟩
    reaped := fun ⟨r, hr⟩ => hi.reaped ⟨r, happened_of_cons (by simp) hr⟩
    gone := fun hl => (hi.gone hl).imp_left (Reaped.mono hs)
    reg := fun id g hg => (hi.reg id g hg).mono hs
    published := fun id exit hh => hi.published id exit (happened_of_cons (by simp) hh)
    watched := fun id g₁ h₁ hst₁ hx₁ => by
      by_cases hid : t.reg = id
      · exact .inr (happened_cons.mpr (.inl (by rw [hid])))
      · refine (hi.watched id g₁ h₁ hst₁ hx₁).imp (fun ⟨w', t', ht', hr⟩ => ?_) (Happened.mono hs)
        have hw : w' ≠ w := by
          rintro rfl
          obtain rfl := Option.some.inj (ht.symm.trans ht')
          exact hid hr
        exact ⟨w', t', (watchers_setTask_of_ne _ hw).trans ht', hr⟩
    lost := fun id hh => by
      by_cases hid : t.reg = id
      · subst hid
        refine ⟨fun w' t' ht' hr => ?_, g, hg, hst, hf⟩
        obtain ⟨hw, ht'⟩ := of_setTask_none ht'
        exact hw (hinv.one w' w t' t ht' ht hr)
      · obtain ⟨hn, hg'⟩ := hi.lost id (happened_of_cons (by simpa using Ne.symm hid) hh)
        exact ⟨fun w' t' ht' => hn w' t' (of_setTask_none ht').2, hg'⟩
    dropped := fun w' id hm => hi.dropped w' id (hmem w' id hm)
    task := fun w' t' ht' => (hi.task w' t' (of_setTask_none ht').2).mono hs (hmem w' t'.reg)
    call := fun n c hc => (hi.call n c hc).mono hs
    overtaken := fun hl id g hg he => (hi.overtaken hl id g hg he).mono hs }

/-- A watcher is dropped at an await: only its guard is left. -/
theorem Log.drop (hi : Log k s) (hinv : s.Inv) {t : WatcherTask}
    (ht : s.watchers w = some t) (hg : s.regs t.reg = some g) (hx : g.exit = none) :
    Log k ((s.record w (.dropped t.reg)).goto w t.reg .rearming) := by
  have hs : s.log <:+ (w, .dropped t.reg) :: s.log := List.suffix_cons _ _
  have hnone : ∀ exit, ¬ Happened s.log (.published t.reg exit) := by
    intro exit hh
    obtain ⟨g', hg', hx'⟩ := hi.published _ exit hh
    obtain rfl := Option.some.inj (hg.symm.trans hg')
    cases hx.symm.trans hx'
  have hbase : LogBase k ((s.record w (.dropped t.reg)).goto w t.reg .rearming) := by
    have hgoto : LogBase k (s.goto w t.reg .rearming) := hi.toLogBase.goto ht trivial
    refine { hgoto with
      chronicle := ⟨hnone, hi.chronicle⟩
      reaped := fun ⟨r, hr⟩ => hi.reaped ⟨r, happened_of_cons (by simp) hr⟩
      gone := fun hl => (hi.gone hl).imp_left (Reaped.mono hs)
      reg := fun id g hg => (hi.reg id g hg).mono hs
      published := fun id exit hh => hi.published id exit (happened_of_cons (by simp) hh)
      watched := fun id g₁ h₁ hst hx₁ =>
        (hgoto.watched id g₁ h₁ hst hx₁).imp_right (Happened.mono hs)
      lost := fun id hh => hgoto.lost id (happened_of_cons (by simp) hh)
      dropped := fun w' id hm => ?_
      task := fun w' t' ht' => ?_
      call := fun n c hc => (hi.call n c hc).mono hs }
    · rcases List.mem_cons.mp hm with he | hm
      · rw [(Prod.mk.inj he).1]
        exact hinv.fresh w t ht
      · exact hi.dropped w' id hm
    · by_cases hw : w' = w
      · subst hw
        rw [watchers_goto_self] at ht'
        exact Option.some.inj ht' ▸ trivial
      · rw [watchers_goto_of_ne _ hw] at ht'
        refine (hi.task w' t' ht').mono hs fun hm => (List.mem_cons.mp hm).resolve_left fun he => ?_
        exact hw (Prod.mk.inj he).1
  exact { hbase with overtaken := fun hl id g hg he => (hi.overtaken hl id g hg he).mono hs }

/-! ### The end of the process -/

/-- A watcher publishes the exit. -/
theorem Log.publish (hi : Log k s) {t : WatcherTask}
    (ht : s.watchers w = some t) (hg : s.regs t.reg = some g) (hx : g.exit = none)
    (he : g.ended ≠ none) {exit : KeptExit} (hf : TaskLog w t.reg s.log (.publishing exit)) :
    Log k (((s.record w (.published t.reg exit)).setReg t.reg
      { g with exit := some exit }).goto w t.reg .forgetting) := by
  have hs : s.log <:+ (w, .published t.reg exit) :: s.log := List.suffix_cons _ _
  have hr := hi.reg _ g hg
  have hnone : ∀ exit', ¬ Happened s.log (.published t.reg exit') := by
    intro exit' hh
    obtain ⟨g', hg', hx'⟩ := hi.published _ exit' hh
    obtain rfl := Option.some.inj (hg.symm.trans hg')
    cases hx.symm.trans hx'
  have hmem : ∀ w' id, (w', .dropped id) ∈ (s.record w (.published t.reg exit)).log →
      (w', .dropped id) ∈ s.log := fun w' id hm => by
    simpa [WatchState.record] using hm
  have hpub : Log k ((s.record w (.published t.reg exit)).setReg t.reg
      { g with exit := some exit }) := by
    refine { hi with
      chronicle := ⟨⟨hnone, hr.ended he, hf.1, hf.2⟩, hi.chronicle⟩
      reaped := fun ⟨r, hr⟩ => hi.reaped ⟨r, happened_of_cons (by simp) hr⟩
      gone := fun hl => (hi.gone hl).imp_left (Reaped.mono hs)
      initially := fun id hid => isSome_setReg hg id ▸ hi.initially id hid
      reg := fun id g₁ h₁ => ?_
      published := fun id exit' hh => ?_
      watched := fun id g₁ h₁ hst₁ hx₁ => ?_
      lost := fun id hh => ?_
      dropped := fun w' id hm => hi.dropped w' id (hmem w' id hm)
      task := fun w' t' ht' => (hi.task w' t' ht').mono hs (hmem w' t'.reg)
      call := fun n c hc => (hi.call n c hc).mono hs
      overtaken := fun hl id g₁ h₁ hn => ?_ }
    · rcases of_setReg h₁ with ⟨rfl, rfl⟩ | ⟨-, h₁⟩
      · refine ⟨(hr.mono hs).owner, (hr.mono hs).ended, fun exit' hx' => ?_⟩
        exact happened_cons.mpr (.inl (by rw [Option.some.inj hx']))
      · exact (hi.reg id g₁ h₁).mono hs
    · rcases happened_cons.mp hh with heq | hh
      · obtain ⟨rfl, rfl⟩ : id = t.reg ∧ exit' = exit := by simpa using heq
        exact ⟨_, regs_setReg_self _, rfl⟩
      · obtain ⟨g₁, hg₁, hx₁⟩ := hi.published id exit' hh
        have hid : id ≠ t.reg := fun hid => hnone exit' (hid ▸ hh)
        exact ⟨g₁, (regs_setReg_of_ne _ hid).trans hg₁, hx₁⟩
    · rcases of_setReg h₁ with ⟨rfl, rfl⟩ | ⟨-, h₁⟩
      · cases hx₁
      · exact (hi.watched id g₁ h₁ hst₁ hx₁).imp_right (Happened.mono hs)
    · obtain ⟨hn, g₁, hg₁, hp₁⟩ := hi.lost id (happened_of_cons (by simp) hh)
      exact ⟨hn, g₁, (regs_setReg_of_ne _ (Ne.symm (hn w t ht))).trans hg₁, hp₁⟩
    · rcases of_setReg h₁ with ⟨rfl, rfl⟩ | ⟨-, h₁⟩
      · exact absurd hn he
      · exact (hi.overtaken hl id g₁ h₁ hn).mono hs
  exact hpub.goto ht trivial

/-- `waitpid` returns the leader, or has nothing to wait for. -/
theorem reap_cases {t : Tid} {reaper : LeaderReaper} {a : WatchAnswer} {exit : KeptExit}
    (hr : s.reap t reaper a = some (s', exit)) :
    (s.leader = .zombie ∧ s' = { s with leader := .gone }.record t (.reaped reaper)) ∨
      (s' = s ∧ (s.leader = .gone ∨ s.ours = false)) := by
  have hother : (s.ours && s.leader == .running) ≠ true → (s.ours && s.leader == .zombie) ≠ true →
      s.leader = .gone ∨ s.ours = false := by
    intro h1 h2
    cases hl : s.leader with
    | gone => exact .inl rfl
    | running => exact .inr (by simpa [hl] using h1)
    | zombie => exact .inr (by simpa [hl] using h2)
  rw [reap] at hr
  split_ifs at hr with h1 h2
  · obtain ⟨rfl, -⟩ := Prod.mk.inj (Option.some.inj hr)
    simp only [Bool.and_eq_true, beq_iff_eq] at h2
    exact .inl ⟨h2.2, rfl⟩
  all_goals
    obtain ⟨rfl, -⟩ := Prod.mk.inj (Option.some.inj hr)
    exact .inr ⟨rfl, hother h1 h2⟩

/-- A leader that has exited is reaped, and the log says so. -/
theorem LogBase.reap (hi : LogBase k s) (hz : s.leader = .zombie) {t : Tid}
    {reaper : LeaderReaper} (ha : reaper = .attach → (t, .identified) ∈ s.log) :
    LogBase k ({ s with leader := .gone }.record t (.reaped reaper)) := by
  have hs : s.log <:+ (t, .reaped reaper) :: s.log := List.suffix_cons _ _
  have hmem : ∀ w id, (w, .dropped id) ∈ (t, .reaped reaper) :: s.log →
      (w, .dropped id) ∈ s.log := fun w id hm => by simpa using hm
  exact { hi with
    chronicle := ⟨⟨fun hr => absurd (hz.symm.trans (hi.reaped hr)) (by simp), ha⟩, hi.chronicle⟩
    reaped := fun _ => rfl
    gone := fun _ => .inl ⟨reaper, happened_cons.mpr (.inl rfl)⟩
    reg := fun id g hg => (hi.reg id g hg).mono hs
    published := fun id exit hh => hi.published id exit (happened_of_cons (by simp) hh)
    watched := fun id g hg hst hx => (hi.watched id g hg hst hx).imp_right (Happened.mono hs)
    lost := fun id hh => hi.lost id (happened_of_cons (by simp) hh)
    dropped := fun w id hm => hi.dropped w id (hmem w id hm)
    task := fun w t ht => (hi.task w t ht).mono hs (hmem w t.reg)
    call := fun n c hc => (hi.call n c hc).mono hs }

/-- An `attach` reaps the leader itself. -/
theorem Log.reapAttach (hi : Log k s) {a : WatchAnswer} {exit : KeptExit}
    (hf : (n, .identified) ∈ s.log) (hr : s.reap n .attach a = some (s', exit)) : Log k s' := by
  rcases reap_cases hr with ⟨hz, rfl⟩ | ⟨rfl, -⟩
  · exact { hi.toLogBase.reap hz fun _ => hf with
      overtaken := fun _ _ _ _ _ => .inr (.inl (happened_cons.mpr (.inl rfl))) }
  · exact hi

/-- A watcher leaves its critical section. No other registration waits for the leader. -/
theorem LogBase.end (hi : LogBase k s) (hinv : s.Inv) {t : WatcherTask}
    (ht : s.watchers w = some t) (hg : s.regs t.reg = some g) (hx : g.exit = none)
    (hj : Justified k w (.ended t.reg) s.log) {exit : KeptExit} {point : WatcherAt}
    (hf : TaskLog w t.reg (s.record w (.ended t.reg)).log point) :
    Log k (((s.record w (.ended t.reg)).setReg t.reg
      { g with holder := none, ended := some exit }).goto w t.reg point) := by
  have hreg := (hi.record hj trivial).setReg hg { g with holder := none, ended := some exit }
    rfl rfl rfl fun _ => ⟨w, List.mem_cons_self⟩
  have hb := hreg.goto ht hf
  refine { hb with overtaken := fun _ id g₁ h₁ hn => ?_ }
  rcases of_setReg h₁ with ⟨rfl, rfl⟩ | ⟨hid, h₁⟩
  · cases hn
  · have hx₁ : g₁.exit = none := by
      by_contra hx₁
      exact (hinv.ended id g₁ h₁ hx₁).1 hn
    have hreg := (hinv.registered id g₁ h₁ hx₁).symm.trans (hinv.registered _ g hg hx)
    exact absurd (Option.some.inj hreg) hid

/-- A registration is made. -/
theorem Log.register (hi : Log k s) (hinv : s.Inv) {g : Registration}
    (hst : g.started = false) (he : g.ended = none) (hx : g.exit = none)
    (hid : (n, .identified) ∈ s.log) : Log k (s.register n g) := by
  have hs : s.log <:+ (s.register n g).log := List.suffix_cons _ _
  have hnew : ∀ id g₁, s.regs id = some g₁ → id ≠ s.nextReg := fun id g₁ h₁ he =>
    Nat.lt_irrefl id (he ▸ hinv.known id (by rw [h₁]; rfl))
  have hold : ∀ id g₁, s.regs id = some g₁ → (s.register n g).regs id = some g₁ :=
    fun id g₁ h₁ => (regs_setReg_of_ne _ (hnew id g₁ h₁)).trans h₁
  have hmem : ∀ w id, (w, .dropped id) ∈ (s.register n g).log → (w, .dropped id) ∈ s.log :=
    fun w id hm => by simpa [WatchState.register, WatchState.record, WatchState.setReg] using hm
  refine { hi with
    chronicle := ⟨⟨hid, hi.next⟩, hi.chronicle⟩
    reaped := fun ⟨r, hr⟩ => hi.reaped ⟨r, happened_of_cons (by simp) hr⟩
    gone := fun hl => (hi.gone hl).imp_left (Reaped.mono hs)
    initially := fun id hlt => ?_
    next := Nat.le_succ_of_le hi.next
    reg := fun id g₁ h₁ => ?_
    published := fun id exit hh => ?_
    watched := fun id g₁ h₁ hst₁ hx₁ => ?_
    lost := fun id hh => ?_
    dropped := fun w id hm => hi.dropped w id (hmem w id hm)
    task := fun w t ht => (hi.task w t ht).mono hs (hmem w t.reg)
    call := fun n c hc => (hi.call n c hc).mono hs
    overtaken := fun hl id g₁ h₁ hn => ?_ }
  · obtain ⟨g₁, h₁⟩ := Option.isSome_iff_exists.mp (hi.initially id hlt)
    exact Option.isSome_iff_exists.mpr ⟨g₁, hold id g₁ h₁⟩
  · rcases of_setReg h₁ with ⟨rfl, rfl⟩ | ⟨-, h₁⟩
    · refine ⟨.inr ⟨_, happened_cons.mpr (.inl rfl)⟩, fun hn => absurd he hn, fun exit hx' => ?_⟩
      cases hx.symm.trans hx'
    · exact (hi.reg id g₁ h₁).mono hs
  · obtain ⟨g₁, h₁, hx₁⟩ := hi.published id exit (happened_of_cons (by simp) hh)
    exact ⟨g₁, hold id g₁ h₁, hx₁⟩
  · rcases of_setReg h₁ with ⟨rfl, rfl⟩ | ⟨-, h₁⟩
    · cases hst.symm.trans hst₁
    · exact (hi.watched id g₁ h₁ hst₁ hx₁).imp_right (Happened.mono hs)
  · obtain ⟨hn, g₁, h₁, hp₁⟩ := hi.lost id (happened_of_cons (by simp) hh)
    exact ⟨hn, g₁, hold id g₁ h₁, hp₁⟩
  · rcases of_setReg h₁ with ⟨rfl, rfl⟩ | ⟨-, h₁⟩
    · have hlate : (s.leader == LeaderPhase.gone) = true := beq_iff_eq.mpr hl
      exact .inr (.inr ⟨g₁.owner, happened_cons.mpr (.inl (by rw [hlate]))⟩)
    · exact (hi.overtaken hl id g₁ h₁ hn).mono hs

end WatchState

end Shepherd
