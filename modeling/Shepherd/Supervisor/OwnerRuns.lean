import Shepherd.Supervisor.Evidence
import Shepherd.Supervisor.Owners

/-!
# Runs with Observed Scopes

In every run, the owner of an observed scope is with its holder, with a task that has taken
it, or gone (`OwnerGone`). Once it is gone, whoever waits on the cleanup channel finds a result
there (`observed_scope_ends_with_a_result`).

What is published stays on its channel (`exec_answered`), and an owner leaves its holder by a
`take` only (`exec_owner`): both follow from what an operation does to the channels and the
owners, which most of them leave alone (`exec_channels`).
-/

open Std

namespace Shepherd

open Conc

variable {t : Tid} {s s' : Inner} {c : ProcessScopeId}

/-! ### Channels and owners -/

/-- The operations that change a cleanup channel, or where an owner is. -/
def Op.channels : Op → Bool
  | .createScope _ | .publish _ _ | .takeOwner _ => true
  | .orObserve _ o | .orElapsed o => o.channels
  | _ => false

/-- The cleanup channels and the owners are as before. -/
def Inner.SameChannels (s s' : Inner) : Prop :=
  s'.cleanup = s.cleanup ∧ s'.owners = s.owners

/-- A retry leaves the cleanup channels alone. -/
theorem sameChannels_recordRecovered (s : Inner) (t : Tid) (c : ProcessScopeId) (p : ProcessId)
    (raw : RawExit) : s.SameChannels (s.recordRecovered t c p raw).2 := by
  obtain ⟨_, _, _, _, _, _, heq⟩ := s.recordRecovered_frame t c p raw
  rw [heq]
  exact ⟨rfl, rfl⟩

section Frame

variable {o : Op} {a : Answer} {r : Res o}

/-- **Every other operation leaves the cleanup channels alone.** -/
theorem exec_channels (ho : o.channels = false) (he : exec t o a s = some (r, s')) :
    s.SameChannels s' := by
  induction o generalizing a s s' with
  | orObserve f o ih =>
      obtain ⟨_, -, rfl⟩ | ⟨_, -, hrs⟩ := exec_orObserve he
      · exact ⟨rfl, rfl⟩
      · exact ih ho hrs
  | orElapsed o ih =>
      obtain ⟨-, rfl⟩ | ⟨_, -, hrs⟩ := exec_orElapsed he
      · exact ⟨rfl, rfl⟩
      · exact ih ho hrs
  | recordRecovered c p raw =>
      exact of_some (P := s.SameChannels) he (sameChannels_recordRecovered s t c p raw)
  | _ =>
      simp only [exec] at he
      repeat' split at he
      all_goals first
        | (cases ho; done)
        | (cases he; done)
        | exact of_some (P := s.SameChannels) he ⟨rfl, rfl⟩
        | exact of_map (P := s.SameChannels) he fun _ => ⟨rfl, rfl⟩
        | (refine of_some (P := s.SameChannels) he ?_
           simp only [Inner.attach, Inner.keepOutput, Inner.retainCompletedOutput,
             Inner.recordMonitored, Inner.signalExit, Inner.notify, Inner.prune,
             Inner.beginTermination, Inner.registerWait, Inner.drain, Inner.storeSample]
           repeat' split
           all_goals exact ⟨rfl, rfl⟩)
        | (refine of_map (P := s.SameChannels) he fun _ => ?_
           rw [Inner.settleFor]
           split
           all_goals exact ⟨rfl, rfl⟩)

/-- An operation that records the publication of a result. -/
theorem channels_of_published {v : CleanupResult} (h : o.Emits (.published c v)) :
    o.channels = true := by
  induction o with
  | orObserve f o ih => exact ih h
  | orElapsed o ih => exact ih h
  | publish c' v' => rfl
  | _ => simp [Op.Emits] at h

/-- An operation that creates a scope opens its channel. -/
theorem channels_of_created {b : Bool} (h : o.Emits (.scopeCreated c b)) :
    o.channels = true := by
  induction o with
  | orObserve f o ih => exact ih h
  | orElapsed o ih => exact ih h
  | createScope b' => rfl
  | _ => simp [Op.Emits] at h

end Frame

/-- A channel to which a result was published holds one. -/
def Answered (s : Inner) : Prop :=
  ∀ c v, Happened s.history (.published c v) → (s.cleanup c).isSome = true

/-- A channel that has a result keeps one: only another result replaces it, and only a new channel
has none. -/
theorem exec_answered {o : Op} {a : Answer} {r : Res o} (hi : Inv s) (ha : Answered s)
    (he : exec t o a s = some (r, s')) : Answered s' := by
  have hback : o.channels = false → Answered s' := fun ho c v hp => by
    obtain ⟨hc, -⟩ := exec_channels ho he
    obtain ⟨-, evs, hh, hem⟩ := exec_ext he
    rw [hh] at hp
    obtain ⟨t', hm⟩ := hp
    rw [hc]
    rcases List.mem_append.mp hm with hm | hm
    · obtain ⟨ev, hev, heq⟩ := List.mem_map.mp hm
      obtain ⟨-, rfl⟩ := Prod.mk.inj heq
      rw [channels_of_published (hem _ hev)] at ho
      cases ho
    · exact ha c v ⟨t', hm⟩
  induction o generalizing a s s' with
  | orObserve f o ih =>
      obtain ⟨_, -, rfl⟩ | ⟨_, -, hrs⟩ := exec_orObserve he
      · exact ha
      · exact ih hi ha hrs hback
  | orElapsed o ih =>
      obtain ⟨-, rfl⟩ | ⟨_, -, hrs⟩ := exec_orElapsed he
      · exact ha
      · exact ih hi ha hrs hback
  | createScope observed =>
      simp only [exec] at he
      split at he
      case isFalse => cases he
      next hb =>
      refine of_some (P := Answered) he ?_
      rw [Inner.createScope]
      split
      · exact ha
      · intro c v hp
        have hp' : Happened s.history (.published c v) :=
          (happened_cons.mp hp).resolve_left (by rintro ⟨⟩)
        have hne : c ≠ s.registry.createScope.1 := by
          rintro rfl
          obtain ⟨_, l, hs, hob, -⟩ := hi.lawful.of_happened hp'
          have hle := hi.catalogue.scopes_le _ (Created.mono hs ⟨true, hob⟩)
          rw [ScopeRegistry.createScope_fst hb] at hle
          exact Nat.not_succ_le_self _ hle
        cases observed with
        | false => exact ha c v hp'
        | true =>
            change (Function.update s.cleanup s.registry.createScope.1 none c).isSome = true
            rw [Function.update_of_ne hne]
            exact ha c v hp'
  | publish c' v' =>
      refine of_some (P := Answered) he ?_
      change Answered (s.publish t c' v')
      rw [Inner.publish]
      split
      · exact ha
      · intro c v hp
        change (Function.update s.cleanup c' (some v') c).isSome = true
        by_cases hc : c = c'
        · subst hc
          simp
        · rw [Function.update_of_ne hc]
          refine ha c v ((happened_cons.mp hp).resolve_left fun heq => hc ?_)
          exact (Event.published.inj heq).1
  | takeOwner c' =>
      simp only [exec] at he
      split at he
      · exact of_some (P := Answered) he ha
      · cases he
  | _ => exact hback rfl

/-- Where the owner of an observed scope is after an operation: with its holder, with the task
that took it now, or where it was. -/
def OwnerAfter (o : Op) (x : List ProcessScopeId) (c : ProcessScopeId) (s s' : Inner) : Prop :=
  s'.owners.contains c = true ∨ c ∈ takes o x ∨
    Observed s.history c ∧ s.owners.contains c = false

/-- An operation that leaves the owners alone leaves them where they are. -/
theorem OwnerAfter.same {o : Op} {x : List ProcessScopeId} (ho : s'.owners = s.owners)
    (hob : Observed s.history c) : OwnerAfter o x c s s' := by
  rw [OwnerAfter, ho]
  cases hc : s.owners.contains c with
  | true => exact .inl rfl
  | false => exact .inr (.inr ⟨hob, rfl⟩)

/-- An operation that leaves the channels alone leaves the owners where they are. -/
theorem exec_owner_of_channels {o : Op} {a : Answer} {r : Res o} {x : List ProcessScopeId}
    (ho : o.channels = false) (he : exec t o a s = some (r, s'))
    (hob : Observed s'.history c) : OwnerAfter o x c s s' := by
  refine .same (exec_channels ho he).2 ?_
  obtain ⟨-, evs, hh, hem⟩ := exec_ext he
  obtain ⟨t', hm⟩ := hob
  rw [hh] at hm
  rcases List.mem_append.mp hm with hm | hm
  · obtain ⟨ev, hev, heq⟩ := List.mem_map.mp hm
    obtain ⟨-, rfl⟩ := Prod.mk.inj heq
    rw [channels_of_created (hem _ hev)] at ho
    cases ho
  · exact ⟨t', hm⟩

/-- The owner of an observed scope stays where it was, or the operation takes it. -/
theorem exec_owner {o : Op} {a : Answer} {r : Res o} {x : List ProcessScopeId}
    (hd : o.leavesOwners = true ∨ ∃ c, o = .takeOwner c)
    (he : exec t o a s = some (r, s')) (hob : Observed s'.history c) :
    OwnerAfter o x c s s' := by
  induction o generalizing a s s' with
  | orObserve f o ih =>
      have hd : o.leavesOwners = true := hd.resolve_right (by rintro ⟨_, ⟨⟩⟩)
      obtain ⟨_, -, rfl⟩ | ⟨_, -, hrs⟩ := exec_orObserve he
      · exact .same rfl hob
      · have hafter := ih (.inl hd) hrs hob
        rwa [OwnerAfter, takes_of_leavesOwners hd] at hafter
  | orElapsed o ih =>
      have hd : o.leavesOwners = true := hd.resolve_right (by rintro ⟨_, ⟨⟩⟩)
      obtain ⟨-, rfl⟩ | ⟨_, -, hrs⟩ := exec_orElapsed he
      · exact .same rfl hob
      · have hafter := ih (.inl hd) hrs hob
        rwa [OwnerAfter, takes_of_leavesOwners hd] at hafter
  | createScope observed =>
      simp only [exec] at he
      split at he
      case isFalse => cases he
      refine of_some (P := fun s' => Observed s'.history c → OwnerAfter _ x c s s') he ?_ hob
      rw [Inner.createScope]
      split
      · exact fun hob => .same rfl hob
      · intro hob
        rcases observed_cons.mp hob with heq | hob
        · obtain ⟨rfl, rfl⟩ := Event.scopeCreated.inj heq
          refine .inl ?_
          change (s.owners.insert s.registry.createScope.1 ()).contains _ = true
          simp
        · cases observed with
          | false => exact .same rfl hob
          | true =>
              cases hc : s.owners.contains c with
              | true =>
                  refine .inl ?_
                  change (s.owners.insert s.registry.createScope.1 ()).contains c = true
                  simp [hc]
              | false => exact .inr (.inr ⟨hob, hc⟩)
  | publish c' v =>
      refine of_some (P := fun s' => Observed s'.history c → OwnerAfter _ x c s s') he ?_ hob
      rw [Inner.publish]
      split
      · exact fun hob => .same rfl hob
      · exact fun hob => .same rfl ((observed_cons.mp hob).resolve_left (by rintro ⟨⟩))
  | takeOwner c' =>
      simp only [exec] at he
      split at he
      case isFalse => cases he
      obtain ⟨-, rfl⟩ := Prod.mk.inj (Option.some.inj he)
      by_cases hc : c = c'
      · exact .inr (.inl (hc ▸ List.mem_cons_self))
      · cases ho : s.owners.contains c with
        | true => exact .inl (by simp [ho, Ne.symm hc])
        | false => exact .inr (.inr ⟨hob, ho⟩)
  | _ => exact exec_owner_of_channels rfl he hob

/-! ### Runs -/

/-- A run that remembers which owners its tasks have taken. -/
abbrev OwnerRun (cfg : Config Res Ret Inner) (x : Tid → List ProcessScopeId) : Prop :=
  supervisor.Recorded (Protocol.ownMemory fun _ => ownerWatch) Inner.new (fun _ => []) cfg x

/-- The owner of the scope is gone: the task that took it is over, or has dropped it and is
about to publish the error of its worker. -/
def OwnerGone (cfg : Config Res Ret Inner) (x : Tid → List ProcessScopeId)
    (c : ProcessScopeId) : Prop :=
  ∃ t, c ∈ x t ∧ (cfg.tasks t = none ∨ ∃ k, cfg.tasks t = some ⟨.op (workerError c) k, none⟩)

variable {cfg : Config Res Ret Inner} {x : Tid → List ProcessScopeId}

/-- In every reachable state, a channel to which a result was published holds one. -/
theorem answered_of_reachable (hr : Reachable cfg) : Answered cfg.shared := by
  induction hr with
  | initial => exact fun c v hp => absurd hp (not_happened_nil _)
  | @step cfg cfg' l hr _ hs ih =>
      cases supervisor.step_shared hs with
      | run _ hexec hsh =>
          have ha := exec_answered (inv_of_reachable hr) ih hexec
          rcases hsh with ⟨_, _, -, hsh, -⟩ | ⟨v, -, hsh, -⟩
          · exact hsh ▸ ha
          · rw [hsh]
            exact fun c v hp => ha c v ((happened_cons.mp hp).resolve_left nofun)
      | drop _ _ hsh => exact hsh ▸ ih
      | start hsh => exact hsh ▸ ih

/-- **Every task of a run keeps to the watch of owners.** -/
theorem allTracked_owners (h : OwnerRun cfg x) :
    protocol.AllTracked (fun _ => ownerWatch) (fun _ => shownAtError) (fun _ => Left) allShown []
      cfg x :=
  .of_recorded tracks_owners (fun _ => good_of_reachable) h

/-- What a task has taken is remembered. -/
theorem mem_remember {l : Label Answer Call} (hc : c ∈ x t) :
    c ∈ cfg.remember (Protocol.ownMemory fun _ => ownerWatch) l x t := by
  cases l with
  | run t' a =>
      cases htask : cfg.tasks t' with
      | none => simpa only [Config.remember, htask] using hc
      | some task =>
          obtain ⟨p, u⟩ := task
          cases p with
          | pure v => simpa only [Config.remember, htask] using hc
          | op o k =>
              simp only [Config.remember, htask, Protocol.ownMemory, Function.update_apply]
              split
              · next heq => exact mem_takes (heq ▸ hc) o
              · exact hc
  | drop t' => exact hc
  | start call => exact hc

/-- **The owner of an observed scope** is with its holder, or some task has taken it. -/
theorem owner_placed (h : OwnerRun cfg x) (hob : Observed cfg.shared.history c) :
    cfg.shared.owners.contains c = true ∨ ∃ t, c ∈ x t := by
  induction h with
  | initial => exact absurd hob (not_happened_nil _)
  | @step cfg cfg' x l h hs ih =>
      have hstay : Observed cfg.shared.history c → cfg.shared.owners.contains c = false →
          ∃ t, c ∈ cfg.remember (Protocol.ownMemory fun _ => ownerWatch) l x t := by
        intro hob ho
        obtain ⟨t, ht⟩ := (ih hob).resolve_left (by simp [ho])
        exact ⟨t, mem_remember ht⟩
      have hsame : Observed cfg.shared.history c → cfg.shared.owners.contains c = true ∨
          ∃ t, c ∈ cfg.remember (Protocol.ownMemory fun _ => ownerWatch) l x t := by
        intro hob
        cases ho : cfg.shared.owners.contains c with
        | true => exact .inl rfl
        | false => exact .inr (hstay hob ho)
      cases supervisor.step_shared hs with
      | @run t a o k u r s' htask hexec hsh =>
          have hd := ((allTracked_owners h).holds (good_of_reachable h.reachable) htask).1
          have hafter : Observed s'.history c → s'.owners.contains c = true ∨
              ∃ t', c ∈ cfg.remember (Protocol.ownMemory fun _ => ownerWatch)
                (.run t a : Label Answer Call) x t' := fun hob => by
            rcases exec_owner (x := x t) hd hexec hob with ho | hm | ⟨hob, ho⟩
            · exact .inl ho
            · refine .inr ⟨t, ?_⟩
              simp only [Config.remember, htask, Protocol.ownMemory, Function.update_self]
              exact hm
            · exact .inr (hstay hob ho)
          rcases hsh with ⟨_, _, -, hsh, -⟩ | ⟨v, -, hsh, -⟩
          · rw [hsh] at hob ⊢
            exact hafter hob
          · rw [hsh] at hob ⊢
            exact hafter ((observed_cons.mp hob).resolve_left (by rintro ⟨⟩))
      | drop _ _ hsh =>
          rw [hsh] at hob ⊢
          exact hsame hob
      | start hsh =>
          rw [hsh] at hob ⊢
          exact hsame hob

/-- A scope without its owner is shown. -/
theorem OwnerGone.shown (h : OwnerRun cfg x) (hg : OwnerGone cfg x c) :
    Shown c cfg.shared.history := by
  obtain ⟨t, hc, hover | ⟨k, htask⟩⟩ := hg
  · exact (allTracked_owners h).ended t hover c hc
  · exact ((allTracked_owners h).holds (good_of_reachable h.reachable) htask).2 c hc rfl

/-- A `finish` that returned a verified report published one. -/
theorem published_of_finished {r : ScopeTerminationReport} (h : OwnerRun cfg x)
    (hret : (t, .returned (.finished c (.ok r))) ∈ cfg.shared.history)
    (hv : r.allVerified = true) :
    ∃ r', Happened cfg.shared.history (.published c (.ok r')) ∧ r'.allVerified = true := by
  induction h with
  | initial => cases hret
  | @step cfg cfg' x l h hs ih =>
      have hold : (t, .returned (.finished c (.ok r))) ∈ cfg.shared.history →
          ∃ r', Happened cfg'.shared.history (.published c (.ok r')) ∧ r'.allVerified = true :=
        fun hret => (ih hret).imp fun r' hr' => ⟨hr'.1.mono (step_suffix hs), hr'.2⟩
      cases supervisor.step_shared hs with
      | @run t' a o k u res s' htask hexec hsh =>
          have hnew : (t, .returned (.finished c (.ok r))) ∈ s'.history →
              (t, .returned (.finished c (.ok r))) ∈ cfg.shared.history := fun hm => by
            obtain ⟨-, evs, hh, hem⟩ := exec_ext hexec
            rw [hh] at hm
            refine (List.mem_append.mp hm).resolve_left fun hm => ?_
            obtain ⟨ev, hev, heq⟩ := List.mem_map.mp hm
            obtain ⟨-, rfl⟩ := Prod.mk.inj heq
            exact not_emits_returned o _ (hem _ hev)
          rcases hsh with ⟨_, _, -, hsh, -⟩ | ⟨v, hpure, hsh, -⟩
          · exact hold (hnew (hsh ▸ hret))
          · have hleft := (allTracked_owners h).returns (good_of_reachable h.reachable) htask
              hexec hpure
            rw [hsh] at hret ⊢
            rcases List.mem_cons.mp hret with heq | hret
            · obtain ⟨-, heq⟩ := Prod.mk.inj heq
              obtain ⟨r', hr', hv'⟩ := hleft.2 c r (Event.returned.inj heq).symm hv
              exact ⟨r', hr'.mono (List.suffix_cons _ _), hv'⟩
            · exact hsh ▸ hold (hnew hret)
      | drop _ _ hsh =>
          rw [hsh] at hret
          exact hold hret
      | start hsh =>
          rw [hsh] at hret
          exact hold hret

/-- A verified report on a channel was published for it, and the others agree with it. -/
theorem Inv.finished_agrees {r r' : ScopeTerminationReport} (hi : Inv s)
    (hret : Happened s.history (.returned (.finished c (.ok r)))) (hv : r.allVerified = true)
    (hp : Happened s.history (.published c (.ok r'))) (hv' : r'.allVerified = true) :
    r = r' := by
  obtain ⟨_, l, hs, hj⟩ := hi.lawful.of_happened hret
  obtain ⟨_, l', hs', -, hj'⟩ := hi.lawful.of_happened hp
  exact hi.lawful.committed_unique (((hj.1 r rfl).2 hv).mono hs)
    (((hj' r' rfl).2 hv').mono hs')

/-- **No observed scope ends silently**, in every run. Its owner is with its holder, or was
taken by a task. Once the owner is gone the channel holds a result: a verified report, or any
other one after the scope was killed; whoever holds a receiver gets it, and no closed channel.
A `finish` that returns a verified report returns the one on the channel. -/
theorem observed_scope_ends_with_a_result (h : OwnerRun cfg x) :
    (∀ c, Observed cfg.shared.history c →
      cfg.shared.owners.contains c = true ∨ ∃ t, c ∈ x t) ∧
    (∀ c, OwnerGone cfg x c → ∃ v, cfg.shared.cleanup c = some v ∧
      (Inner.isVerifiedResult (some v) = true ∨
        Happened cfg.shared.history (.hardKilledScope c)) ∧
      ∀ t, exec t (.awaitCleanup c) .observed cfg.shared = some (v, cfg.shared) ∧
        exec t (.awaitCleanup c) .closed cfg.shared = none) ∧
    ∀ t c r, (t, .returned (.finished c (.ok r))) ∈ cfg.shared.history →
      r.allVerified = true → cfg.shared.cleanup c = some (.ok r) := by
  have hi := inv_of_reachable h.reachable
  refine ⟨fun c => owner_placed h, fun c hg => ?_, fun t c r hret hv => ?_⟩
  · obtain ⟨⟨v₀, hp⟩, hver⟩ := hg.shown h
    obtain ⟨v, hcl⟩ := Option.isSome_iff_exists.mp (answered_of_reachable h.reachable c v₀ hp)
    refine ⟨v, hcl, ?_, fun t => ⟨?_, ?_⟩⟩
    · rcases hver with ⟨r, hr, hv⟩ | hk
      · obtain rfl := Option.some.inj (hcl.symm.trans (hi.results.final hr hv))
        exact .inl hv
      · exact .inr hk
    · simp [exec, hcl]
    · simp [exec, hcl]
  · obtain ⟨r', hr', hv'⟩ := published_of_finished h hret hv
    rw [hi.finished_agrees ⟨t, hret⟩ hv hr' hv']
    exact hi.results.final hr' hv'

/-- A `finish` is dropped while it waits for the operation lock. -/
def droppedFinish : List (Label Answer Call) :=
  [.start (.createScope true)] ++ steps 0 1 ++
  [.start (.finish 1 .default false)] ++ steps 1 4 ++ [.drop 1] ++ steps 1 4

set_option maxRecDepth 10000 in
/-- The schedule in which a `finish` is dropped: it has taken the owner, and runs no more. -/
theorem droppedFinish_is_over :
    (supervisor.record (Protocol.ownMemory fun _ => ownerWatch)
      (Machine.initial Inner.new, fun _ => []) droppedFinish).any (fun cx =>
        (cx.2 1).contains 1 && (cx.1.tasks 1).isNone) = true := by
  decide +kernel

/-- A dropped `finish` leaves a result on the channel, verified or behind a hard kill. -/
theorem dropped_finish_ends_with_a_result : ∃ cfg x, OwnerRun cfg x ∧ OwnerGone cfg x 1 ∧
    ∃ v, cfg.shared.cleanup 1 = some v ∧ (Inner.isVerifiedResult (some v) = true ∨
      Happened cfg.shared.history (.hardKilledScope 1)) := by
  obtain ⟨cx, hf, hP⟩ := (Option.any_eq_true _ _).mp droppedFinish_is_over
  obtain ⟨hmem, hover⟩ := Bool.and_eq_true_iff.mp hP
  have h : OwnerRun cx.1 cx.2 := Machine.Recorded.record .initial hf
  have hg : OwnerGone cx.1 cx.2 1 :=
    ⟨1, List.contains_iff_mem.mp hmem, .inl (Option.isNone_iff_eq_none.mp hover)⟩
  obtain ⟨v, hcl, hv, -⟩ := (observed_scope_ends_with_a_result h).2.1 1 hg
  exact ⟨cx.1, cx.2, h, hg, v, hcl, hv⟩

end Shepherd
