import Shepherd.Backend.SignalRuns

/-!
# The Steps of Signals and Hard Kills

Main results:

* `root_signals_reach_their_roots` — a signal for a root reaches nothing else, in a run in which no
  root is reaped while it is set up, or between a look at its number and a kill of the number, and
  no number is given to a process with the start time of an earlier one. The number itself is
  signalled only of a root without a pidfd, or of a child that could not be set up.
* `root_signals_are_delivered` — a signal that succeeds and a hard kill that returns have reached
  their roots, but for roots that were reaped, and numbers that could not be looked at.
-/

namespace Shepherd

open Conc

namespace SignalState

variable {s s' : SignalState} {n root p : ℕ} {os : OsIdentity} {key : ChildKey} {slot : RootSlot}
  {pidfd : Option ℕ} {c : ProcessScopeId} {scope : Option ProcessScopeId} {caller : SignalCaller}
  {ok : Bool} {log : List SignalEvent}

/-! ### Sending -/

/-- The events after a signal to a process: it was hit, or it was gone. -/
theorem mem_send {process : Option ℕ} {e : SignalEvent} : e ∈ (s.send caller root process).log ↔
    (∃ p, process = some p ∧ .hit caller root p = e) ∨ e ∈ s.log := by
  simp [send, Option.map_eq_some_iff]

/-- The events after a kill by number: the number is logged, and whoever has it is hit. -/
theorem mem_kill {number : ℕ} {e : SignalEvent} : e ∈ (s.kill caller root number).log ↔
    e = .numeric caller root ∨ (∃ p, s.procs.holder number = some p ∧ .hit caller root p = e) ∨
      e ∈ s.log := by
  rw [kill, List.mem_cons, mem_send]

/-- The log after a signal to the right process. -/
theorem events_send {process : Option ℕ} (h : ∀ p, process = some p → s.Right root p) :
    ∀ e ∈ (s.send caller root process).log, e ∈ s.log ∨ s.EventSound e := by
  intro e hm
  rcases mem_send.mp hm with ⟨p, hp, rfl⟩ | hm
  · exact .inr (h p hp)
  · exact .inl hm

/-- The log after a signal to a number that the root has. -/
theorem events_kill {number : ℕ} (h : s.procs.holder number = some root)
    (hn : s.Numeric caller root) :
    ∀ e ∈ (s.kill caller root number).log, e ∈ s.log ∨ s.EventSound e := by
  intro e hm
  rcases mem_kill.mp hm with rfl | ⟨p, hp, rfl⟩ | hm
  · exact .inr hn
  · exact .inr (.inl (Option.some.inj (hp.symm.trans h)))
  · exact .inl hm

/-- A signal adds to the log. -/
theorem log_send {process : Option ℕ} : ∀ e ∈ s.log, e ∈ (s.send caller root process).log :=
  fun _ he => mem_send.mpr (.inr he)

/-- A kill by number adds to the log. -/
theorem log_kill {number : ℕ} : ∀ e ∈ s.log, e ∈ (s.kill caller root number).log :=
  fun _ he => mem_kill.mpr (.inr (.inr he))

/-- The log after something that is always in order. -/
theorem events_cons {e : SignalEvent} (h : s.EventSound e) :
    ∀ e' ∈ e :: s.log, e' ∈ s.log ∨ s.EventSound e' := by
  intro e' hm
  rcases List.mem_cons.mp hm with rfl | hm
  · exact .inr h
  · exact .inl hm

/-! ### Spawns -/

/-- **The steps of a spawn.** -/
theorem Inv.runSpawn {call : RootSpawn} (hi : s.Inv) (hn : s.spawns[n]? = some (c, root, call))
    (hs : s.runSpawn n ok c root call = some s') : s'.Inv := by
  have hsound := hi.spawns n c root call hn
  have hlive : call.isSetup = true → s.procs.isReaped root = false := fun hc =>
    hi.exposed root (isExposed_iff.mpr (.inl ⟨n, c, call, hn, hc⟩))
  have hholder : ∀ {os : OsIdentity} {x : Numbered}, s.procs[root]? = some x → os.Names x →
      call.isSetup = true → s.procs.holder os.pid = some root := by
    intro os x hx hnames hc
    rw [hnames.1]
    exact hi.distinct.holder_eq hx (NumberTable.life_of_isReaped hx (hlive hc))
  cases call with
  | forked =>
      obtain ⟨x, hx, rfl⟩ := Option.map_eq_some_iff.mp hs
      refine hi.setSpawn s.log hn rfl (by rintro os pidfd ⟨⟩) ⟨x, hx, rfl, ?_⟩
        (fun _ => id) fun _ => .inl
      intro t ht
      dsimp only at ht
      split at ht
      · next t' hread =>
          obtain rfl := ReuseToken.startTime.inj ht
          rw [readStartTime, Option.ite_none_right_eq_some] at hread
          have hl := NumberTable.life_of_isReaped hx (hlive rfl)
          exact Option.some.inj (hread.2.symm.trans (hi.distinct.startOf_eq hx hl))
      · cases ht
  | identified os =>
      obtain rfl := Option.some.inj hs
      obtain ⟨x, hx, hnames⟩ := hsound
      refine hi.setSpawn s.log hn rfl (by rintro os pidfd ⟨⟩) ⟨⟨x, hx, hnames⟩, ?_⟩
        (fun _ => id) fun _ => .inl
      intro p hp
      rw [Option.ite_none_right_eq_some] at hp
      exact Option.some.inj (hp.2.symm.trans (hholder hx hnames rfl))
  | opened os pidfd =>
      simp only [SignalState.runSpawn] at hs
      split at hs
      · rw [Option.ite_none_right_eq_some, Option.isNone_iff_eq_none] at hs
        obtain ⟨hl, hs⟩ := hs
        obtain rfl := Option.some.inj hs
        exact hi.register hn hl
      · obtain rfl := Option.some.inj hs
        obtain ⟨⟨x, hx, hnames⟩, -⟩ := hsound
        refine hi.setSpawn _ hn rfl (by rintro os pidfd ⟨⟩) ⟨x, hx⟩ log_kill fun e hm => ?_
        rcases mem_kill.mp hm with rfl | ⟨p, hp, rfl⟩ | hm
        · refine .inr (.inr ⟨n, c, rfl, ?_⟩)
          exact List.getElem?_set_self (List.getElem?_eq_some_iff.mp hn).1
        · exact .inr (.inl (Option.some.inj (hp.symm.trans (hholder hx hnames rfl))))
        · exact .inl hm
  | registered os pidfd => cases hs
  | failed => cases hs

/-! ### Signals -/

/-- A new call of `signal`. -/
theorem Inv.addSignal (hi : s.Inv) (hr : s.Returned root os pidfd) :
    Inv { s with signals := s.signals ++ [(root, os, .looking)] } := by
  have he : s.Extends { s with signals := s.signals ++ [(root, os, .looking)] } :=
    ⟨.refl _, fun _ _ _ _ h _ => h, fun _ => id⟩
  refine hi.keep he hi.distinct hi.identified hi.starts (fun p hp => hi.exposed p ?_)
    (fun _ _ _ _ => .inl) hi.roots (hi.slots_of_eq he rfl) (hi.here_of_eq he rfl fun _ _ _ => id)
    (fun m r os' call hm => ?_) (fun m scope call hm => (hi.kills m scope call hm).mono he rfl rfl)
    fun _ => .inl
  · rcases isExposed_iff.mp hp with h | ⟨m, os', hm⟩ | h
    · exact isExposed_iff.mpr (.inl h)
    · rcases getElem?_of_append hm with hm | ⟨-, heq⟩
      · exact isExposed_iff.mpr (.inr (.inl ⟨m, os', hm⟩))
      · cases heq
    · exact isExposed_iff.mpr (.inr (.inr h))
  · rcases getElem?_of_append hm with hm | ⟨-, heq⟩
    · exact .inl hm
    · obtain ⟨rfl, rfl, rfl⟩ := heq
      exact .inr ⟨⟨pidfd, hr⟩, trivial⟩

/-- A step of a call of `signal`. -/
theorem Inv.setSignal {call call' : RootSignal} (hi : s.Inv) (log : List SignalEvent)
    (hn : s.signals[n]? = some (root, os, call)) (hlog : ∀ e ∈ s.log, e ∈ log)
    (hevents : ∀ e ∈ log, e ∈ s.log ∨ s.EventSound e)
    (hexp : call' = .killing → s.procs.isReaped root = false)
    (hsound : SignalSound { s with log } n root os call') :
    Inv ({ s with log }.setSignal n root os call') := by
  have he : s.Extends ({ s with log }.setSignal n root os call') :=
    ⟨.refl _, fun _ _ _ _ h _ => h, hlog⟩
  refine hi.keep he hi.distinct hi.identified hi.starts (fun p hp => ?_)
    (fun _ _ _ _ => .inl) hi.roots (hi.slots_of_eq he rfl) (hi.here_of_eq he rfl fun _ _ _ => id)
    (fun m r os' call'' hm => ?_)
    (fun m scope call hm => (hi.kills m scope call hm).mono he rfl rfl)
    fun e hm => (hevents e hm).imp_right (·.mono he)
  · rcases isExposed_iff.mp hp with h | ⟨m, os', hm⟩ | h
    · exact hi.exposed p (isExposed_iff.mpr (.inl h))
    · rcases getElem?_of_set hm with ⟨-, heq⟩ | ⟨-, hm⟩
      · obtain ⟨rfl, -, rfl⟩ := heq
        exact hexp rfl
      · exact hi.exposed p (isExposed_iff.mpr (.inr (.inl ⟨m, os', hm⟩)))
    · exact hi.exposed p (isExposed_iff.mpr (.inr (.inr h)))
  · rcases getElem?_of_set hm with ⟨rfl, heq⟩ | ⟨-, hm⟩
    · obtain ⟨rfl, rfl, rfl⟩ := heq
      obtain ⟨hr, -⟩ := hi.signals m root os call hn
      refine .inr ⟨hr, ?_⟩
      cases call' with
      | returned ok => cases ok <;> exact hsound
      | _ => exact hsound
    · exact .inl hm

/-- **A signal through a pidfd** reaches the root, or another one that cannot be told from it. -/
theorem Inv.right_of_slot (hi : s.Inv) (hr : s.Returned root os pidfd)
    (hk : s.children.lookup (childKey os) = some slot) (hp : slot.pidfd = some p) :
    s.Right root p := by
  obtain ⟨os', hret, hkey⟩ := hi.slot_returned hk
  obtain rfl := (hi.returned hret).2 p hp
  obtain ⟨pid, token⟩ := os
  cases token with
  | startTime t => exact .inl (hi.slot_root hr hk).1
  | unavailable =>
      obtain rfl := hi.eq_of_childKey_zero hret hkey rfl
      exact .inr ⟨pid, _, _, hr, hret⟩

/-- **The steps of a call of `signal`.** -/
theorem Inv.runSignal {call : RootSignal} (hi : s.Inv)
    (hn : s.signals[n]? = some (root, os, call))
    (hs : s.runSignal n ok root os call = some s') : s'.Inv := by
  obtain ⟨⟨pidfd, hr⟩, hsound⟩ := hi.signals n root os call hn
  have hquiet : ∀ {call' : RootSignal}, (call' = .killing → s.procs.isReaped root = false) →
      s.SignalSound n root os call' → (s.setSignal n root os call').Inv := fun hexp hsound =>
    hi.setSignal s.log hn (fun _ => id) (fun _ => .inl) hexp hsound
  cases call with
  | looking =>
      simp only [SignalState.runSignal] at hs
      rw [Option.ite_none_right_eq_some] at hs
      obtain ⟨-, hs⟩ := hs
      split at hs
      · obtain rfl := Option.some.inj hs
        exact hquiet (by rintro ⟨⟩) trivial
      · next hsome =>
          obtain rfl := Option.some.inj hs
          refine hquiet (by rintro ⟨⟩) fun t ht => .inr (.inl ?_)
          obtain ⟨pid, token⟩ := os
          obtain rfl : token = .startTime t := ht
          refine (hi.here root pid t pidfd hr).resolve_right ?_
          rintro ⟨slot, hk, -⟩
          simp [childKey, hk] at hsome
  | locking =>
      simp only [SignalState.runSignal] at hs
      rw [Option.ite_none_right_eq_some] at hs
      obtain ⟨-, hs⟩ := hs
      split at hs
      · next p hbind =>
          obtain ⟨slot, hk, hp⟩ := Option.bind_eq_some_iff.mp hbind
          split at hs
          · obtain rfl := Option.some.inj hs
            refine hi.setSignal _ hn log_send (events_send fun q hq => ?_) (by rintro ⟨⟩)
              fun t ht => ?_
            · rw [ofPidfd, Option.ite_none_left_eq_some] at hq
              obtain rfl := Option.some.inj hq.2
              exact hi.right_of_slot hr hk hp
            · obtain ⟨pid, token⟩ := os
              obtain rfl : token = .startTime t := ht
              obtain ⟨rfl, hret⟩ := hi.slot_root hr hk
              obtain rfl := (hi.returned hret).2 p hp
              cases hb : s.procs.isReaped slot.root with
              | true => exact .inr (.inl hb)
              | false => exact .inl (mem_send.mpr (.inl ⟨slot.root, by simp [ofPidfd, hb], rfl⟩))
          · obtain rfl := Option.some.inj hs
            exact hquiet (by rintro ⟨⟩) trivial
      · next hnone =>
          obtain rfl := Option.some.inj hs
          refine hquiet (by rintro ⟨⟩) fun t ht => ?_
          obtain ⟨pid, token⟩ := os
          obtain rfl : token = .startTime t := ht
          refine (hi.here root pid t pidfd hr).imp_right ?_
          rintro ⟨slot, hk, -⟩
          obtain ⟨-, hret⟩ := hi.slot_root hr hk
          have hk' : s.children.lookup (childKey ⟨pid, .startTime t⟩) = some slot := hk
          rw [hk', Option.bind_some] at hnone
          exact hnone ▸ hret
  | identifying =>
      obtain ⟨pid, token⟩ := os
      cases token with
      | unavailable =>
          obtain rfl := Option.some.inj hs
          exact hquiet (by rintro ⟨⟩) trivial
      | startTime t =>
          simp only [SignalState.runSignal] at hs
          split at hs
          · obtain rfl := Option.some.inj hs
            exact hi.setSignal _ hn (fun _ => List.mem_cons_of_mem _)
              (events_cons trivial) (by rintro ⟨⟩)
              fun _ _ => .inr (.inr List.mem_cons_self)
          · next hok =>
              have hread : s.readStartTime pid ok = s.procs.startOf pid := by
                rw [readStartTime, if_pos (by simpa using hok)]
              rw [hread] at hs
              split at hs
              · next hstart =>
                  obtain rfl := Option.some.inj hs
                  have hlive := (hi.holder_of_start hr hstart).2
                  refine hquiet (fun _ => hlive) ⟨⟨t, rfl⟩, (hsound t rfl).resolve_left ?_⟩
                  simp [hlive]
              · next hstart =>
                  obtain rfl := Option.some.inj hs
                  refine hquiet (by rintro ⟨⟩) fun t' _ => .inr (.inl ?_)
                  exact hi.reaped_of_start hr hstart
  | killing =>
      simp only [SignalState.runSignal] at hs
      split at hs
      · obtain rfl := Option.some.inj hs
        have hlive := hi.exposed root (isExposed_iff.mpr (.inr (.inl ⟨n, os, hn⟩)))
        have hholder := hi.holder_of_live hr hlive
        exact hi.setSignal _ hn log_kill (events_kill hholder (.inl ⟨os, hsound.2⟩))
          (by rintro ⟨⟩) fun _ _ => .inl (mem_kill.mpr (.inr (.inl ⟨root, hholder, rfl⟩)))
      · obtain rfl := Option.some.inj hs
        exact hquiet (by rintro ⟨⟩) trivial
  | returned ok => cases hs

/-! ### Hard kills -/

/-- A hard kill takes the mutex. -/
theorem Inv.addKill {order : List ChildKey} (hi : s.Inv) (hl : s.lock = none)
    (ho : order.Perm (s.children.keys.filter fun key =>
      (s.children.lookup key).any (isKilled scope))) :
    Inv { s with lock := some s.kills.length, kills := s.kills ++ [(scope, .sweeping order)] } := by
  have he : s.Extends { s with
      lock := some s.kills.length, kills := s.kills ++ [(scope, .sweeping order)] } :=
    ⟨.refl _, fun _ _ _ _ h _ => h, fun _ => id⟩
  refine hi.keep he hi.distinct hi.identified hi.starts (fun p hp => hi.exposed p ?_)
    (fun _ _ _ _ => .inl) hi.roots (hi.slots_of_eq he rfl) (hi.here_of_eq he rfl fun _ _ _ => id)
    (fun _ _ _ _ => .inl) (fun m scope' call hm => ?_) fun _ => .inl
  · rcases isExposed_iff.mp hp with h | h | ⟨m, scope', call, hm, hc⟩
    · exact isExposed_iff.mpr (.inl h)
    · exact isExposed_iff.mpr (.inr (.inl h))
    · rcases getElem?_of_append hm with hm | ⟨-, heq⟩
      · exact isExposed_iff.mpr (.inr (.inr ⟨m, scope', call, hm, hc⟩))
      · obtain ⟨-, rfl⟩ := heq
        cases hc
  · rcases getElem?_of_append hm with hm | ⟨rfl, heq⟩
    · exact hi.killSound_of_unlocked hl hm
    · obtain ⟨rfl, rfl⟩ := heq
      refine ⟨rfl, fun key slot hk hs => .inl (ho.mem_iff.mpr (List.mem_filter.mpr ⟨?_, ?_⟩))⟩
      · exact AList.mem_keys.mp (AList.lookup_isSome.mp (by rw [hk]; rfl))
      · rw [hk, Option.any_some]
        exact hs

/-- A step of a hard kill. It has the mutex, so that the others have returned. -/
theorem Inv.setKill {call call' : HardKill} (hi : s.Inv) (log : List SignalEvent)
    (lock : Option ℕ) (hn : s.kills[n]? = some (scope, call)) (hcall : s.lock = some n)
    (hlog : ∀ e ∈ s.log, e ∈ log)
    (hevents : ∀ e ∈ log, e ∈ s.log ∨ s.EventSound e)
    (hexp : ∀ root, call'.aim = some root → s.procs.isReaped root = false)
    (hsound : KillSound { s with log, lock } n scope call') :
    Inv ({ s with log, lock }.setKill n scope call') := by
  have he : s.Extends ({ s with log, lock }.setKill n scope call') :=
    ⟨.refl _, fun _ _ _ _ h _ => h, hlog⟩
  refine hi.keep he hi.distinct hi.identified hi.starts (fun p hp => ?_)
    (fun _ _ _ _ => .inl) hi.roots (hi.slots_of_eq he rfl) (hi.here_of_eq he rfl fun _ _ _ => id)
    (fun _ _ _ _ => .inl) (fun m scope' call'' hm => ?_)
    fun e hm => (hevents e hm).imp_right (·.mono he)
  · rcases isExposed_iff.mp hp with h | h | ⟨m, scope', call'', hm, hc⟩
    · exact hi.exposed p (isExposed_iff.mpr (.inl h))
    · exact hi.exposed p (isExposed_iff.mpr (.inr (.inl h)))
    · rcases getElem?_of_set hm with ⟨-, heq⟩ | ⟨-, hm⟩
      · obtain ⟨-, rfl⟩ := heq
        exact hexp p hc
      · exact hi.exposed p (isExposed_iff.mpr (.inr (.inr ⟨m, scope', call'', hm, hc⟩)))
  · rcases getElem?_of_set hm with ⟨rfl, heq⟩ | ⟨hne, hm⟩
    · obtain ⟨rfl, rfl⟩ := heq
      cases call' with
      | sweeping todo => exact hsound
      | killing root key todo => exact hsound
      | returned => trivial
    · have h := hi.kills m scope' call'' hm
      cases call'' with
      | sweeping todo => exact absurd (Option.some.inj (h.1.symm.trans hcall)) hne
      | killing root key todo => exact absurd (Option.some.inj (h.1.symm.trans hcall)) hne
      | returned => trivial

/-- A hard kill is done with a slot. -/
theorem Swept.next {todo : List ChildKey} (h : s.Swept n scope (key :: todo))
    (hlog : ∀ e ∈ s.log, e ∈ log)
    (hdone : ∀ slot, s.children.lookup key = some slot → Handled { s with log } n key slot) :
    Swept { s with log } n scope todo := by
  have he : s.Extends { s with log } := ⟨.refl _, fun _ _ _ _ h _ => h, hlog⟩
  intro key' slot hk hs
  rcases h key' slot hk hs with hm | hd
  · rcases List.mem_cons.mp hm with rfl | hm
    · exact .inr (hdone slot hk)
    · exact .inl hm
  · exact .inr (hd.mono he)

/-- **The steps of a hard kill.** -/
theorem Inv.runKill {call : HardKill} (hi : s.Inv) (hn : s.kills[n]? = some (scope, call))
    (hs : s.runKill n ok scope call = some s') : s'.Inv := by
  have hsound := hi.kills n scope call hn
  cases call with
  | sweeping todo =>
      obtain ⟨hl, hswept⟩ := hsound
      cases todo with
      | nil =>
          obtain rfl := Option.some.inj hs
          exact hi.setKill s.log none hn hl (fun _ => id)
            (fun _ => .inl) (by rintro root ⟨⟩) trivial
      | cons key todo =>
          have hquiet : (∀ slot, s.children.lookup key = some slot → s.Handled n key slot) →
              (s.setKill n scope (.sweeping todo)).Inv := fun hdone =>
            hi.setKill s.log s.lock hn hl (fun _ => id) (fun _ => .inl)
              (by rintro root ⟨⟩) ⟨hl, hswept.next (fun _ => id) hdone⟩
          simp only [SignalState.runKill] at hs
          split at hs
          · next hk =>
              obtain rfl := Option.some.inj hs
              exact hquiet (by simp [hk])
          next slot hk =>
          obtain ⟨os, hret, hkey⟩ := hi.slot_returned hk
          have hslot : ∀ {slot'}, s.children.lookup key = some slot' → slot' = slot := fun hk' =>
            Option.some.inj (hk'.symm.trans hk)
          split at hs
          · next p hp =>
              obtain rfl := (hi.returned hret).2 p hp
              split at hs
              · obtain rfl := Option.some.inj hs
                refine hi.setKill _ s.lock hn hl log_send
                  (events_send fun q hq => .inl ?_) (by rintro root ⟨⟩)
                  ⟨hl, hswept.next log_send fun slot' hk' => ?_⟩
                · rw [ofPidfd, Option.ite_none_left_eq_some] at hq
                  exact (Option.some.inj hq.2).symm
                · rw [hslot hk']
                  cases hb : s.procs.isReaped slot.root with
                  | true => exact .inl (.inr (.inl hb))
                  | false =>
                      exact .inl (.inl (mem_send.mpr (.inl ⟨_, by simp [ofPidfd, hb], rfl⟩)))
              · obtain rfl := Option.some.inj hs
                refine hi.setKill _ s.lock hn hl (fun _ => List.mem_cons_of_mem _)
                  (events_cons trivial) (by rintro root ⟨⟩)
                  ⟨hl, hswept.next (fun _ => List.mem_cons_of_mem _) fun slot' hk' => ?_⟩
                rw [hslot hk']
                exact .inr (.inl List.mem_cons_self)
          next hp =>
          split at hs
          · next hz =>
              obtain rfl := Option.some.inj hs
              exact hquiet fun slot' hk' => hslot hk' ▸ .inr (.inr ⟨hp, hz⟩)
          next hz =>
          split at hs
          · obtain rfl := Option.some.inj hs
            refine hi.setKill _ s.lock hn hl (fun _ => List.mem_cons_of_mem _)
              (events_cons trivial) (by rintro root ⟨⟩)
              ⟨hl, hswept.next (fun _ => List.mem_cons_of_mem _) fun slot' hk' => ?_⟩
            rw [hslot hk']
            exact .inl (.inr (.inr List.mem_cons_self))
          next hok =>
          obtain rfl := eq_of_childKey hkey hz
          have hread : s.readStartTime key.1 ok = s.procs.startOf key.1 := by
            rw [readStartTime, if_pos (by simpa using hok)]
          rw [hread] at hs
          split at hs
          · next hstart =>
              obtain rfl := Option.some.inj hs
              refine hi.setKill s.log s.lock hn hl (fun _ => id)
                (fun _ => .inl) ?_ ⟨hl, hswept, hz, slot, hk, rfl, hp⟩
              rintro root ⟨⟩
              exact (hi.holder_of_start hret hstart).2
          · next hstart =>
              obtain rfl := Option.some.inj hs
              refine hquiet fun slot' hk' => hslot hk' ▸ .inl (.inr (.inl ?_))
              exact hi.reaped_of_start hret hstart
  | killing root key todo =>
      obtain ⟨hl, hswept, hz, slot, hk, rfl, hp⟩ := hsound
      have hslot : ∀ {slot'}, s.children.lookup key = some slot' → slot' = slot := fun hk' =>
        Option.some.inj (hk'.symm.trans hk)
      simp only [SignalState.runKill] at hs
      split at hs
      · obtain rfl := Option.some.inj hs
        obtain ⟨os, hret, hkey⟩ := hi.slot_returned hk
        obtain rfl := eq_of_childKey hkey hz
        have hlive := hi.exposed slot.root
          (isExposed_iff.mpr (.inr (.inr ⟨n, scope, _, hn, rfl⟩)))
        have hholder := hi.holder_of_live hret hlive
        refine hi.setKill _ s.lock hn hl log_kill (events_kill hholder (.inl ⟨_, hp ▸ hret⟩))
          (by rintro root ⟨⟩) ⟨hl, hswept.next log_kill fun slot' hk' => ?_⟩
        rw [hslot hk']
        exact .inl (.inl (mem_kill.mpr (.inr (.inl ⟨_, hholder, rfl⟩))))
      · obtain rfl := Option.some.inj hs
        refine hi.setKill _ s.lock hn hl (fun _ => List.mem_cons_of_mem _)
          (events_cons trivial) (by rintro root ⟨⟩)
          ⟨hl, hswept.next (fun _ => List.mem_cons_of_mem _) fun slot' hk' => ?_⟩
        exact hslot hk' ▸ .inr (.inl List.mem_cons_self)
  | returned => cases hs

/-! ### The main results -/

/-- **The invariant is kept** by steps that are timely. -/
theorem Inv.step {a : SignalAction} (hi : s.Inv) (ht : s.isTimely a = true)
    (hs : s.step a = some s') : s'.Inv := by
  cases a with
  | create number start =>
      rw [SignalState.step, Option.ite_none_left_eq_some] at hs
      obtain ⟨h0, hs⟩ := hs
      obtain ⟨procs, hc, rfl⟩ := Option.map_eq_some_iff.mp hs
      exact hi.create h0 ht hc
  | finish p =>
      obtain rfl := Option.some.inj hs
      exact hi.finish p
  | reap p =>
      obtain ⟨procs, hr, rfl⟩ := Option.map_eq_some_iff.mp hs
      exact hi.reap (by simpa [isTimely] using ht) hr
  | spawn c number start =>
      rw [SignalState.step, Option.ite_none_left_eq_some] at hs
      obtain ⟨h0, hs⟩ := hs
      obtain ⟨procs, hc, rfl⟩ := Option.map_eq_some_iff.mp hs
      exact hi.spawn h0 ht hc
  | runSpawn n ok =>
      obtain ⟨⟨c, root, call⟩, hn, hs⟩ := Option.bind_eq_some_iff.mp hs
      exact hi.runSpawn hn hs
  | forget n =>
      rw [SignalState.step] at hs
      split at hs
      · next root os pidfd hn =>
          rw [Option.ite_none_right_eq_some, Bool.and_eq_true, Option.isNone_iff_eq_none] at hs
          obtain ⟨⟨hr, hl⟩, hs⟩ := hs
          obtain rfl := Option.some.inj hs
          exact hi.forget ⟨n, _, hn⟩ hr hl
      · cases hs
  | signal n =>
      rw [SignalState.step] at hs
      split at hs
      · next root os pidfd hn =>
          obtain rfl := Option.some.inj hs
          exact hi.addSignal ⟨n, _, hn⟩
      · cases hs
  | runSignal n ok =>
      obtain ⟨⟨root, os, call⟩, hn, hs⟩ := Option.bind_eq_some_iff.mp hs
      exact hi.runSignal hn hs
  | hardKill scope order =>
      rw [SignalState.step, Option.ite_none_right_eq_some, Bool.and_eq_true,
        Option.isNone_iff_eq_none, List.isPerm_iff] at hs
      obtain ⟨⟨hl, ho⟩, hs⟩ := hs
      obtain rfl := Option.some.inj hs
      exact hi.addKill hl ho
  | runKill n ok =>
      obtain ⟨⟨scope, call⟩, hn, hs⟩ := Option.bind_eq_some_iff.mp hs
      exact hi.runKill hn hs

/-- The states of runs in which no root is reaped while it is set up, or between a look at its
number and a kill of the number, and no number is used again within the tick of the clock at which
an earlier owner of it started. -/
def TimelyRun : SignalState → Prop :=
  ReachesUnder SignalState.step (fun s a => s.isTimely a = true) new

/-- **The invariant of the signals holds in every timely run.** -/
theorem TimelyRun.inv (h : TimelyRun s) : s.Inv :=
  h.invariant (I := Inv) inv_new fun _ _ _ hi ht hs => hi.step ht hs

/-- **Signals reach roots only.** In every such run, what is signalled for a root is the root,
whoever has its number by now; or another root of the same number, if the start time of neither
could be read. And a number is signalled only for a root that was registered without a pidfd, or
by a spawn for its child that could not be set up; a call that is about to signal a number does it
for a root without a pidfd. -/
theorem root_signals_reach_their_roots (h : TimelyRun s) :
    (∀ caller root p, .hit caller root p ∈ s.log → s.Right root p) ∧
    (∀ caller root, .numeric caller root ∈ s.log → s.Numeric caller root) ∧
    (∀ (n : ℕ) root os, s.signals[n]? = some (root, os, .killing) → s.Returned root os none) ∧
    ∀ (n : ℕ) scope root key todo, s.kills[n]? = some (scope, .killing root key todo) →
      ∃ os, s.Returned root os none := by
  have hi := h.inv
  refine ⟨fun caller root p hm => hi.events _ hm, fun caller root hm => hi.events _ hm,
    fun n root os hn => (hi.signals n root os _ hn).2.2, ?_⟩
  intro n scope root key todo hn
  obtain ⟨-, -, -, slot, hk, rfl, hp⟩ := hi.kills n scope _ hn
  obtain ⟨os, hret, -⟩ := hi.slot_returned hk
  exact ⟨os, hp ▸ hret⟩

/-- A root without a pidfd is signalled, and again when another process has its number. -/
theorem recycled_number_is_spared : ∃ s, TimelyRun s ∧ s.procs.holder 10 = some 1 ∧
    s.signals[1]? = some (0, ⟨10, .startTime 5⟩, .returned true) ∧
    SignalEvent.hit (.signal 0) 0 0 ∈ s.log ∧ s.Right 0 0 ∧ s.Numeric (.signal 0) 0 := by
  obtain ⟨s, hr, hs⟩ := ReachesUnder.exists_of_follow SignalState.step isTimely new
    [.spawn 3 10 5, .runSpawn 0 true, .runSpawn 0 false, .runSpawn 0 true, .signal 0,
      .runSignal 0 true, .runSignal 0 true, .runSignal 0 true, .runSignal 0 true, .finish 0,
      .reap 0, .create 10 9, .signal 0, .runSignal 1 true, .runSignal 1 true, .runSignal 1 true]
    (fun s => s.procs.holder 10 = some 1 &&
      (s.signals[1]? = some (0, ⟨10, .startTime 5⟩, .returned true) &&
        (SignalEvent.hit (.signal 0) 0 0 ∈ s.log &&
          SignalEvent.numeric (.signal 0) 0 ∈ s.log))) (by decide +kernel)
  simp only [Bool.and_eq_true, decide_eq_true_eq] at hs
  obtain ⟨hh, hn, hhit, hnum⟩ := hs
  obtain ⟨hright, hnumeric, -⟩ := root_signals_reach_their_roots hr
  exact ⟨s, hr, hh, hn, hhit, hright _ _ _ hhit, hnumeric _ _ hnum⟩

/-- A root that is reaped after the look at its number: a stranger is killed. -/
example : ((follow SignalState.step new [.spawn 3 10 5, .runSpawn 0 true, .runSpawn 0 false,
    .runSpawn 0 true, .signal 0, .runSignal 0 true, .runSignal 0 true, .runSignal 0 true,
    .finish 0, .reap 0, .create 10 9, .runSignal 0 true]).any fun s =>
      SignalEvent.hit (.signal 0) 0 1 ∈ s.log) = true := by
  decide +kernel

/-- **No signal is lost.** In every such run, a call of `signal` that returns `Ok` has signalled its
root, or the root is reaped, or the start time of its number could not be read. A hard kill that is
about to return has done the same for every root that was returned for its scope with a start time,
but for refused signals. -/
theorem root_signals_are_delivered (h : TimelyRun s) :
    (∀ (n : ℕ) root pid t, s.signals[n]? = some (root, ⟨pid, .startTime t⟩, .returned true) →
      s.Answered (.signal n) root) ∧
    ∀ (n : ℕ) scope, s.kills[n]? = some (scope, .sweeping []) →
      ∀ (m : ℕ) c root pid t pidfd,
        s.spawns[m]? = some (c, root, .registered ⟨pid, .startTime t⟩ pidfd) →
        scope.all (· = c) = true →
        s.Answered (.hardKill n) root ∨ .refused (.hardKill n) root ∈ s.log := by
  have hi := h.inv
  refine ⟨fun n root pid t hn => (hi.signals n root _ _ hn).2 t rfl, ?_⟩
  intro n scope hn m c root pid t pidfd hm hscope
  have hret : s.Returned root ⟨pid, .startTime t⟩ pidfd := ⟨m, c, hm⟩
  rcases hi.here root pid t pidfd hret with hr | ⟨slot, hk, rfl⟩
  · exact .inl (.inr (.inl hr))
  obtain ⟨m', os, hm', -⟩ := hi.slots _ slot hk
  obtain rfl := hi.roots m m' _ _ _ _ _ hm hm'
  obtain ⟨rfl, -⟩ := Prod.mk.inj (Option.some.inj (hm.symm.trans hm'))
  rcases (hi.kills n scope _ hn).2 _ slot hk hscope with hnil | hd | hrefused | ⟨-, hz⟩
  · cases hnil
  · exact .inl hd
  · exact .inr hrefused
  · exact absurd hz (hi.start_ne_zero (hi.returned hret).1)

/-- One root of a scope is killed through its pidfd, another by its number. -/
theorem both_roots_are_killed : ∃ s, TimelyRun s ∧
    s.Answered (.hardKill 0) 0 ∧ s.Answered (.hardKill 0) 1 := by
  obtain ⟨s, hr, hs⟩ := ReachesUnder.exists_of_follow SignalState.step isTimely new
    [.spawn 3 10 5, .runSpawn 0 true, .runSpawn 0 true, .runSpawn 0 true, .spawn 3 11 6,
      .runSpawn 1 true, .runSpawn 1 false, .runSpawn 1 true, .hardKill (some 3) [(11, 6), (10, 5)],
      .runKill 0 true, .runKill 0 true, .runKill 0 true]
    (fun s => s.kills[0]? = some (some 3, .sweeping []) &&
      (s.spawns[0]? = some (3, 0, .registered ⟨10, .startTime 5⟩ (some 0)) &&
        (s.spawns[1]? = some (3, 1, .registered ⟨11, .startTime 6⟩ none) &&
          (SignalEvent.refused (.hardKill 0) 0 ∉ s.log &&
            SignalEvent.refused (.hardKill 0) 1 ∉ s.log)))) (by decide +kernel)
  simp only [Bool.and_eq_true, decide_eq_true_eq] at hs
  obtain ⟨hn, h₀, h₁, hr₀, hr₁⟩ := hs
  have hd := (root_signals_are_delivered hr).2 0 _ hn
  exact ⟨s, hr, (hd 0 3 0 10 5 _ h₀ rfl).resolve_right hr₀,
    (hd 1 3 1 11 6 _ h₁ rfl).resolve_right hr₁⟩

end SignalState

end Shepherd
