import Shepherd.Supervisor.Plain

/-!
# Owners of Observed Scopes

The owner of an observed scope is consumed by `finish` or dropped. Whatever happens to it,
the scope does not end silently: its cleanup channel holds a result, and either that is a
verified report or the scope was killed.

A ghost memory says which owner each task has taken. The task holds the owner until it is over,
or until the drop of the owner is done and only the error of its worker is left to publish.

* `Shown` — what holds of a scope without its owner.
* `tracked_dropBackstop`, `tracked_completeCleanup` — both ends of an owner leave the scope
  shown, from any state.
* `ownsWell_role` — every task keeps to it, wherever it is dropped.
-/

open Std

namespace Shepherd

open Conc

variable {t : Tid} {s s' : Inner} {c : ProcessScopeId} {h h' : History}
  {opts : TerminateOptions} {withScope : Bool}

/-! ### What an owner leaves -/

/-- A result was published, and the scope has a verified report or was killed. -/
structure Shown (c : ProcessScopeId) (h : History) : Prop where
  result : ∃ v, Happened h (.published c v)
  verified : (∃ r, Happened h (.published c (.ok r)) ∧ r.allVerified = true) ∨
    Happened h (.hardKilledScope c)

/-- What the channel has shown is shown ever after. -/
theorem Shown.mono (hs : h <:+ h') (hsh : Shown c h) : Shown c h' where
  result := hsh.result.imp fun _ hv => hv.mono hs
  verified := hsh.verified.imp (fun ⟨r, hr, hv⟩ => ⟨r, hr.mono hs, hv⟩) fun hk => hk.mono hs

/-- A verified report on the channel is shown. -/
theorem Shown.of_report {r : ScopeTerminationReport} (hr : Happened h (.published c (.ok r)))
    (hv : r.allVerified = true) : Shown c h :=
  ⟨⟨_, hr⟩, .inl ⟨r, hr, hv⟩⟩

/-- The verified report of a channel was published. -/
theorem Inv.published_of_verifiedReport (hi : Inv s) {r : ScopeTerminationReport}
    (hr : s.verifiedReport c = some r) :
    Happened s.history (.published c (.ok r)) ∧ r.allVerified = true := by
  rw [Inner.verifiedReport] at hr
  split at hr
  · next heq =>
      split at hr
      · next hv =>
          obtain rfl := Option.some.inj hr
          exact ⟨hi.results.published heq, hv⟩
      · cases hr
  · cases hr

/-- After a publication the channel shows a verified report, or the result was published. -/
theorem Inv.published_or (hi : Inv s) (t : Tid) (c : ProcessScopeId) (v : CleanupResult) :
    (∃ r, Happened (s.publish t c v).history (.published c (.ok r)) ∧ r.allVerified = true) ∨
      Happened (s.publish t c v).history (.published c v) := by
  rw [Inner.publish]
  split
  · next hv =>
      left
      rw [Inner.isVerifiedResult.eq_def] at hv
      split at hv
      · next r heq => exact ⟨r, hi.results.published heq, hv⟩
      · cases hv
  · exact .inr ⟨t, List.mem_cons_self⟩

/-- The publication of a killed scope. -/
theorem Shown.of_kill (hi : Inv s) (hk : Happened s.history (.hardKilledScope c)) (t : Tid)
    (v : CleanupResult) : Shown c (s.publish t c v).history := by
  have hk' : Happened (s.publish t c v).history (.hardKilledScope c) :=
    hk.mono (exec_suffix (o := .publish c v) (a := .go) rfl)
  rcases hi.published_or t c v with ⟨r, hr, hv⟩ | hv
  · exact .of_report hr hv
  · exact ⟨⟨v, hv⟩, .inr hk'⟩

/-! ### The memory -/

/-- The owners that a task has taken. -/
def takes (o : Op) (x : List ProcessScopeId) : List ProcessScopeId :=
  match o with
  | .takeOwner c => c :: x
  | _ => x

/-- What was taken stays taken. -/
theorem mem_takes {x : List ProcessScopeId} (hc : c ∈ x) (o : Op) : c ∈ takes o x := by
  rw [takes.eq_def]
  split
  · exact List.mem_cons_of_mem _ hc
  · exact hc

/-- The operation takes no owner. -/
def Op.leavesOwners : Op → Bool
  | .takeOwner _ => false
  | .orObserve _ o | .orElapsed o => o.leavesOwners
  | _ => true

/-- An operation that leaves the owners alone takes none. -/
theorem takes_of_leavesOwners {o : Op} (ho : o.leavesOwners = true) (x : List ProcessScopeId) :
    takes o x = x := by
  cases o <;> first | rfl | cases ho

/-- A plain operation leaves the owners alone. -/
theorem leavesOwners_of_plain {o : Op} (ho : o.plain = true) : o.leavesOwners = true := by
  induction o with
  | orObserve f o ih => exact ih ho
  | orElapsed o ih => exact ih ho
  | _ => first | rfl | cases ho

/-- The role consumes no owner. -/
def Role.ownerless : Role → Bool
  | .call (.finish _ _ _) | .call (.dropOwner _ _) => false
  | _ => true

/-- A role without an owner leaves the owners alone. -/
theorem leavesOwners_of_performs {role : Role} {o : Op} (hrole : role.ownerless = true)
    (ho : role.performs o) : o.leavesOwners = true := by
  rcases ho with ho | ho
  · exact leavesOwners_of_plain ho
  · split at ho
    · obtain ⟨p, rfl | rfl⟩ := ho
      · rfl
      · rfl
    · cases hrole
    · cases hrole
    · rcases ho with ⟨result, rfl⟩ | rfl | rfl | rfl <;> rfl
    · exact ho.elim

/-- An owner is taken outside of any `select!`; its taking is remembered. -/
def ownerWatch : Watch Op Answer Inner (List ProcessScopeId) where
  update o _ _ x := takes o x
  holds o _ _ := o.leavesOwners = true ∨ ∃ c, o = .takeOwner c

/-- The error of a `with_scope` block whose cleanup worker failed. -/
def workerError (c : ProcessScopeId) : Op :=
  .publish c (.error (.signal "scope cleanup worker failed"))

/-- The owner of a failed worker was dropped before the error is published. -/
def shownAtError (o : Op) (x : List ProcessScopeId) (s : Inner) : Prop :=
  ∀ c ∈ x, o = workerError c → Shown c s.history

/-- What a task leaves when it returns. -/
def Left (v : Ret) (x : List ProcessScopeId) (s : Inner) : Prop :=
  (∀ c ∈ x, Shown c s.history) ∧
  ∀ c r, v = .finished c (.ok r) → r.allVerified = true →
    ∃ r', Happened s.history (.published c (.ok r')) ∧ r'.allVerified = true

/-! ### Programs -/

section Programs

variable {α : Type} {w : Watch Op Answer Inner (List ProcessScopeId)}
  {x : List ProcessScopeId}

/-- A program that takes no owner. -/
theorem tracked_unowned {ψ : α → Prop} {p : Code α}
    (hw : w.update = fun o _ _ x => takes o x)
    (hh : ∀ o s', o.leavesOwners = true → w.holds o x s')
    (hp : p.All (fun o => o.leavesOwners = true) ψ) :
    protocol.tracked w t p (fun v x' s' => ψ v ∧ x' = x ∧ s.history <:+ s'.history) x s := by
  refine Protocol.tracked_of_all
    (F := fun x' (s' : Inner) => x' = x ∧ s.history <:+ s'.history) hp ?_ ?_ ?_ ?_
  · rintro x' s₁ s₂ ⟨rfl, hs⟩ hr
    exact ⟨rfl, hs.trans (Since.suffix hr)⟩
  · rintro o a r x' s₁ s₂ ho ⟨rfl, hs⟩ he
    refine ⟨?_, hs.trans (exec_suffix he)⟩
    rw [hw]
    exact takes_of_leavesOwners ho x'
  · rintro o x' s₁ ho ⟨rfl, -⟩
    exact hh o s₁ ho
  · exact ⟨rfl, List.suffix_refl _⟩

/-- **The drop of an owner** leaves the scope shown, in whatever state it happens. -/
theorem tracked_dropBackstop (hw : w.update = fun o _ _ x => takes o x)
    (hh : ∀ o s', o.leavesOwners = true → (∀ c', o ≠ workerError c') → w.holds o x s') :
    protocol.tracked w t (dropBackstop c)
      (fun _ x' s' => x' = x ∧ Shown c s'.history) x s := by
  refine Protocol.tracked_op fun s₁ _ hi₁ =>
    ⟨hh _ s₁ rfl fun _ => nofun, fun a r s₂ he _ => ?_⟩
  obtain ⟨rfl, rfl⟩ := Prod.mk.inj (Option.some.inj he)
  rw [hw]
  cases hrep : s₁.verifiedReport c with
  | some report =>
      obtain ⟨hr, hv⟩ := hi₁.published_of_verifiedReport hrep
      exact ⟨rfl, .of_report hr hv⟩
  | none =>
      refine Protocol.tracked_op fun s₃ _ _ =>
        ⟨hh _ s₃ rfl fun _ => nofun, fun a r s₄ he _ => ?_⟩
      obtain ⟨-, rfl⟩ := Prod.mk.inj (Option.some.inj he)
      rw [hw]
      refine Protocol.tracked_op fun s₅ hr₅ hi₅ => ⟨hh _ s₅ rfl ?_, fun a r s₆ he _ => ?_⟩
      · intro c'
        simp [workerError]
      · obtain ⟨-, rfl⟩ := Prod.mk.inj (Option.some.inj he)
        rw [hw]
        have hk : Happened s₅.history (.hardKilledScope c) :=
          Happened.mono (Since.suffix hr₅) ⟨t, List.mem_cons_self⟩
        exact ⟨rfl, .of_kill hi₅ hk t _⟩

/-- **The end of `finish_scope_cleanup`** leaves the scope shown, and returns a verified
report only when one was published. -/
theorem tracked_completeCleanup {result : CleanupResult}
    (hw : w.update = fun o _ _ x => takes o x)
    (hh : ∀ o s', o.leavesOwners = true → w.holds o x s') :
    protocol.tracked w t (completeCleanup c result)
      (fun v x' s' => x' = x ∧ Shown c s'.history ∧ ∀ r, v = .ok r → r.allVerified = true →
        ∃ r', Happened s'.history (.published c (.ok r')) ∧ r'.allVerified = true) x s := by
  refine Protocol.tracked_op fun s₁ _ hi₁ => ⟨hh _ s₁ rfl, fun a r s₂ he _ => ?_⟩
  obtain ⟨rfl, rfl⟩ := Prod.mk.inj (Option.some.inj he)
  rw [hw]
  have hpublish : ∀ {s₃ v}, Inv s₃ → v.toOption.any (fun r => r.allVerified) = true →
      ∃ r', Happened (s₃.publish t c v).history (.published c (.ok r')) ∧
        r'.allVerified = true := by
    intro s₃ v hi₃ hv
    rcases hi₃.published_or t c v with hr | hp
    · exact hr
    · cases v with
      | error e => cases hv
      | ok r => exact ⟨r, hp, hv⟩
  cases hrep : s₁.verifiedReport c with
  | some report =>
      refine Protocol.tracked_op fun s₃ _ hi₃ => ⟨hh _ s₃ rfl, fun a r s₄ he _ => ?_⟩
      obtain ⟨-, rfl⟩ := Prod.mk.inj (Option.some.inj he)
      rw [hw]
      obtain ⟨r', hr', hv'⟩ :=
        hpublish (v := .ok report) hi₃ (hi₁.published_of_verifiedReport hrep).2
      exact ⟨rfl, .of_report hr' hv', fun _ _ _ => ⟨r', hr', hv'⟩⟩
  | none =>
      dsimp only
      split
      · next hv =>
          refine Protocol.tracked_op fun s₃ _ hi₃ => ⟨hh _ s₃ rfl, fun a r s₄ he _ => ?_⟩
          obtain ⟨-, rfl⟩ := Prod.mk.inj (Option.some.inj he)
          rw [hw]
          have hv' : result.toOption.any (fun r => r.allVerified) = true := by
            cases result with
            | error e => cases hv
            | ok r => exact hv
          obtain ⟨r', hr', hv'⟩ := hpublish hi₃ hv'
          exact ⟨rfl, .of_report hr' hv', fun _ _ _ => ⟨r', hr', hv'⟩⟩
      · next hn =>
          refine Protocol.tracked_op fun s₃ _ _ => ⟨hh _ s₃ rfl, fun a r s₄ he _ => ?_⟩
          obtain ⟨-, rfl⟩ := Prod.mk.inj (Option.some.inj he)
          rw [hw]
          refine Protocol.tracked_op fun s₅ hr₅ hi₅ => ⟨hh _ s₅ rfl, fun a r s₆ he _ => ?_⟩
          obtain ⟨-, rfl⟩ := Prod.mk.inj (Option.some.inj he)
          rw [hw]
          have hk : Happened s₅.history (.hardKilledScope c) :=
            Happened.mono (Since.suffix hr₅) ⟨t, List.mem_cons_self⟩
          refine ⟨rfl, .of_kill hi₅ hk t _, fun r heq hv => ?_⟩
          rw [heq] at hn
          exact absurd hv hn

end Programs

/-! ### Tasks -/

/-- A task keeps to what its owner asks for. -/
abbrev OwnsWell (t : Tid) (task : Task Res Ret) (x : List ProcessScopeId) (s : Inner) : Prop :=
  protocol.TracksTask (fun _ => ownerWatch) (fun _ => shownAtError) (fun _ => Left) t task x s

/-- The return of a task that is not a `finish`. -/
def Ret.unfinished (v : Ret) : Prop :=
  ∀ c result, v ≠ .finished c result

/-- A role without an owner does not return what a `finish` does. -/
theorem unfinished_of_returns {role : Role} {v : Ret} (hrole : role.ownerless = true)
    (hv : role.returns v) : v.unfinished := by
  rintro c result rfl
  obtain ⟨opts, withScope, rfl⟩ := hv
  cases hrole

/-- A task that consumes no owner. -/
theorem ownsWell_of_ownerless {role : Role} (hrole : role.ownerless = true) :
    OwnsWell t role.task [] s := by
  have hleft : ∀ (s₀ : Inner) v (x : List ProcessScopeId) (s' : Inner),
      v.unfinished ∧ x = [] ∧ s₀.history <:+ s'.history → Left v x s' := by
    rintro s₀ v x s' ⟨hv, rfl, -⟩
    exact ⟨nofun, fun c r heq => absurd heq (hv c _)⟩
  have hp := (all_role role).mono (fun _ => leavesOwners_of_performs hrole)
    fun _ => unfinished_of_returns hrole
  refine ⟨role_op role, Protocol.tracked_mono (hleft s)
    (tracked_unowned rfl (fun o' s' ho => ?_) hp)⟩
  cases hu : role.task.unwind with
  | none => exact ⟨.inl ho, nofun⟩
  | some q =>
      obtain ⟨hop, hq⟩ := all_unwind hu
      refine ⟨.inl ho, fun _ => ⟨hop, Protocol.tracked_mono (hleft s')
        (tracked_unowned rfl (fun _ _ ho => ⟨.inl ho, nofun⟩)
          (hq.mono (fun _ => leavesOwners_of_plain) fun v hv c result heq => ?_))⟩⟩
      rcases hv with rfl | rfl
      · cases heq
      · cases heq

section Owner

variable {w : Watch Op Answer Inner (List ProcessScopeId)}
  (hw : w.update = fun o _ _ x => takes o x)
  (hh : ∀ o s', o.leavesOwners = true → (o = workerError c → Shown c s'.history) →
    w.holds o [c] s')

include hw hh

/-- The error of the worker is published after the drop of the owner. -/
theorem tracked_publishWorkerError (hsh : Shown c s.history) :
    protocol.tracked w t (publishWorkerError c withScope)
      (fun _ x s' => x = [c] ∧ Shown c s'.history) [c] s := by
  cases withScope with
  | false => exact ⟨rfl, hsh⟩
  | true =>
      refine Protocol.tracked_op fun s₁ hr₁ _ => ?_
      have hsh₁ := hsh.mono (Since.suffix hr₁)
      refine ⟨hh _ s₁ rfl fun _ => hsh₁, fun a r s₂ he _ => ?_⟩
      rw [hw]
      exact ⟨rfl, hsh₁.mono (exec_suffix he)⟩

/-- The drop of an owner, and what follows it. -/
theorem tracked_dropOwner :
    protocol.tracked w t
      (do dropBackstop c; publishWorkerError c withScope; return Ret.done : Code Ret)
      Left [c] s := by
  refine Protocol.tracked_bind (Protocol.tracked_mono ?_ (tracked_dropBackstop hw ?_))
  · rintro _ x s₁ ⟨rfl, hsh⟩
    refine Protocol.tracked_bind (Protocol.tracked_mono ?_ (tracked_publishWorkerError hw hh hsh))
    rintro _ x s₂ ⟨rfl, hsh₂⟩
    refine ⟨fun c' hc' => ?_, fun _ _ => nofun⟩
    obtain rfl := List.mem_singleton.mp hc'
    exact hsh₂
  · exact fun o s' ho hne => hh o s' ho fun heq => absurd heq (hne c)

/-- What runs when a `finish` is dropped, wherever that happens. -/
theorem tracked_unwoundFinish :
    protocol.tracked w t (unwoundFinish c withScope) Left [c] s := by
  refine Protocol.tracked_op fun s₁ _ _ => ⟨hh _ s₁ rfl nofun, fun a r s₂ _ _ => ?_⟩
  rw [hw]
  exact tracked_dropOwner hw hh

end Owner

/-- A task that has taken one owner may publish the error of a worker when a result was shown. -/
theorem shownAtError_singleton {o : Op} (hsh : o = workerError c → Shown c s.history) :
    shownAtError o [c] s := by
  intro c' hc' heq
  obtain rfl := List.mem_singleton.mp hc'
  exact hsh heq

/-- The drop of an owner keeps to the watch of owners. -/
theorem ownsWell_dropOwner :
    OwnsWell t (Role.call (.dropOwner c withScope)).task [] s := by
  refine ⟨⟨_, _, rfl⟩, Protocol.tracked_op fun s₁ _ _ => ⟨⟨.inr ⟨c, rfl⟩, nofun⟩, ?_⟩⟩
  intro a r s₂ _ _
  exact tracked_dropOwner rfl fun o s' ho hsh => ⟨.inl ho, shownAtError_singleton hsh⟩

/-- **A `finish`**, with what runs when it is dropped: from its first step on, a drop of the call is
a drop of the owner. -/
theorem ownsWell_finish :
    OwnsWell t (Role.call (.finish c opts withScope)).task [] s := by
  refine ⟨⟨_, _, rfl⟩, Protocol.tracked_op fun s₁ _ _ => ⟨⟨.inr ⟨c, rfl⟩, nofun⟩, ?_⟩⟩
  intro a r s₂ _ _
  set w := protocol.taskWatch (fun _ => ownerWatch) (fun _ => shownAtError) (fun _ => Left) t
    (some (unwoundFinish c withScope)) with hw
  have hh : ∀ o s', o.leavesOwners = true → w.holds o [c] s' := fun o s' ho =>
    ⟨.inl ho, fun _ => ⟨⟨_, _, rfl⟩, tracked_unwoundFinish rfl fun o s' ho hsh =>
      ⟨.inl ho, shownAtError_singleton hsh⟩⟩⟩
  have hreturn : ∀ {result s₃}, protocol.tracked w t (completeCleanup c result)
      (fun v x s' => Left (.finished c v) x s') [c] s₃ := by
    intro result s₃
    refine Protocol.tracked_mono ?_ (tracked_completeCleanup rfl hh)
    rintro v x s₄ ⟨rfl, hsh, hv⟩
    refine ⟨fun c' hc' => ?_, fun c' r' heq hver => ?_⟩
    · obtain rfl := List.mem_singleton.mp hc'
      exact hsh
    · obtain ⟨rfl, rfl⟩ := Ret.finished.inj heq
      exact hv r' rfl hver
  refine Protocol.tracked_op fun s₃ _ _ => ⟨hh _ s₃ rfl, fun a r s₄ _ _ => ?_⟩
  cases r with
  | some report => exact Protocol.tracked_bind hreturn
  | none =>
      have hterminate : protocol.tracked w t (terminateScope c opts)
          (fun _ x s' => True ∧ x = [c] ∧ s₄.history <:+ s'.history) [c] s₄ :=
        tracked_unowned rfl hh ((Plain.terminateScope c opts).mono
          (fun _ => leavesOwners_of_plain) fun _ hv => hv)
      change protocol.tracked w t (do
        let result ← (do let v ← terminateScope c opts; completeCleanup c v : Code CleanupResult)
        return .finished c result) Left [c] s₄
      refine Protocol.tracked_bind (Protocol.tracked_bind (Protocol.tracked_mono ?_ hterminate))
      rintro result x s₅ ⟨-, rfl, -⟩
      exact hreturn

/-- **Every task owns well.** -/
theorem ownsWell_role (role : Role) : OwnsWell t role.task [] s := by
  cases role with
  | call call =>
      cases call with
      | finish c opts withScope => exact ownsWell_finish
      | dropOwner c withScope => exact ownsWell_dropOwner
      | _ => exact ownsWell_of_ownerless rfl
  | _ => exact ownsWell_of_ownerless rfl

/-- What is left of a task that is over. -/
def allShown (_ : Tid) (x : List ProcessScopeId) (s : Inner) : Prop :=
  ∀ c ∈ x, Shown c s.history

/-- The whole supervisor keeps to the watch of owners. -/
theorem tracks_owners :
    Protocol.Tracks protocol (fun _ => ownerWatch) (fun _ => shownAtError) (fun _ => Left)
      allShown [] where
  enter call s hi :=
    ⟨guar_enter s hi, .call call, rfl, fun ev hm => Nat.lt_irrefl _ (hi.tasks.below hm), trivial⟩
  ready := by
    rintro t task s ⟨role, rfl, -⟩
    exact ownsWell_role role
  rely t x s s' hx hr c hc := (hx c hc).mono (Since.suffix hr)
  absent t s := nofun
  finish t v x s hv c hc := (hv.1 c hc).mono (List.suffix_cons _ _)

end Shepherd
