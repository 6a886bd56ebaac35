import Shepherd.Backend.JobReader

/-!
# Runs of a Job Reader

What the worker of a root and its calls of `wait` do for each other over a run. A suspended call
that has seen every publication has a worker that goes on, so no call waits for a worker that
waits itself (`Inv.runs`); a token that was offered is answered by a native wait that begins after
the offer (`begins_wait_of_token`); and a call that found an error returns a newer publication
(`returns_newer`).
-/

namespace Shepherd

open Conc

namespace JobReader

variable {r r' : JobReader}

/-! ### Workers that run -/

/-- The worker takes a step whatever a native wait returns. -/
def Runs (r : JobReader) : Prop :=
  ∀ status, (r.work status).isSome

/-- A worker runs unless it is over, or waits for a token that it does not have. -/
theorem runs_iff : r.Runs ↔
    r.worker ≠ .stopped ∧ ¬ (r.worker = .receiving ∧ r.tokens = 0 ∧ r.registered = true) := by
  cases hw : r.worker with
  | receiving =>
      simp only [Runs, JobReader.work, hw, ne_eq, true_and, not_and,
        Bool.not_eq_true, reduceCtorEq, not_false_iff]
      by_cases ht : r.tokens = 0
      · cases hr : r.registered <;> simp [ht]
      · simp [Nat.pos_of_ne_zero ht, ht]
  | stopped => simp [Runs, JobReader.work, hw]
  | _ => simp [Runs, JobReader.work, hw]

/-- **No suspended call is left behind**: one that has seen every publication has a worker that
runs and is not about to leave. -/
theorem Inv.runs (h : r.Inv) {n seen : ℕ} {c : JobWaitCall} (hc : r.calls n = some c)
    (hs : c.suspended = some seen) (hseen : seen = r.log.length) :
    r.Runs ∧ r.worker.isLeaving = false := by
  rcases h.stirring hc hs hseen with (hwait | ⟨ht, hl⟩) | ⟨hnil, hl⟩
  · cases hw : r.worker with
    | waiting => exact ⟨runs_iff.mpr (by simp [hw]), rfl⟩
    | waited st => exact ⟨runs_iff.mpr (by simp [hw]), rfl⟩
    | publishing e => exact ⟨runs_iff.mpr (by simp [hw]), rfl⟩
    | _ => rw [hw] at hwait; cases hwait
  · refine ⟨runs_iff.mpr ⟨fun hw => ?_, fun ⟨_, ht0, _⟩ => ?_⟩, hl⟩
    · rw [hw] at hl
      cases hl
    · omega
  · refine ⟨runs_iff.mpr ⟨fun hw => ?_, fun ⟨hw, _, _⟩ => ?_⟩, hl⟩
    · rw [hw] at hl
      cases hl
    · obtain ⟨m, hm⟩ := h.receiving hw
      rw [hnil] at hm
      cases hm

/-! ### What a step leaves alone -/

/-- The channels and the worker are as before, but for a token. -/
structure Idles (r r' : JobReader) : Prop where
  log : r'.log = r.log
  worker : r'.worker = r.worker
  waits : r'.waits = r.waits
  tokens : 0 < r.tokens → 0 < r'.tokens
  scope : r'.scope = r.scope
  killed : r.killed = true → r'.killed = true
  registered : r'.registered = true → r.registered = true

/-- A call that moves leaves the worker alone. -/
theorem idles_move (r : JobReader) (n : ℕ) (c : JobWaitCall) : r.Idles (r.move n c) :=
  ⟨rfl, rfl, rfl, id, rfl, id, id⟩

/-- A call that looks for a change leaves the worker alone. -/
theorem idles_changed {n seen : ℕ} (h : r.changed n seen = some r') : r.Idles r' := by
  rw [changed] at h
  split at h
  · obtain rfl := Option.some.inj h
    exact r.idles_move n _
  · split at h
    · obtain rfl := Option.some.inj h
      exact r.idles_move n _
    · cases h

/-- Calls leave the worker alone. -/
theorem idles_runCall {n : ℕ} {c : JobWaitCall} (h : r.runCall n c = some r') : r.Idles r' := by
  cases c with
  | subscribed =>
      rw [runCall] at h
      split at h <;> obtain rfl := Option.some.inj h <;> exact r.idles_move n _
  | retrying seen =>
      rw [runCall] at h
      split at h
      · obtain rfl := Option.some.inj h
        exact r.idles_move n _
      · obtain rfl := Option.some.inj h
        exact ⟨rfl, rfl, rfl, fun _ => Nat.one_pos, rfl, id, id⟩
  | closed =>
      rw [runCall] at h
      split at h <;> obtain rfl := Option.some.inj h <;> exact r.idles_move n _
  | awaitingRetry seen => exact idles_changed h
  | reading =>
      rw [runCall] at h
      split at h <;> obtain rfl := Option.some.inj h <;> exact r.idles_move n _
  | awaiting seen => exact idles_changed h
  | removing exit =>
      obtain rfl := Option.some.inj h
      exact ⟨rfl, rfl, rfl, id, rfl, id, by rintro ⟨⟩⟩
  | returned result => exact absurd h (by simp [runCall])
  | dropped => exact absurd h (by simp [runCall])

/-- **One party moves**: the worker, or another that leaves it alone. -/
theorem step_cases {a : ReaderAction} (h : r.step a = some r') :
    (∃ status, a = .work status ∧ r.work status = some r') ∨ r.Idles r' := by
  cases a with
  | work status => exact .inl ⟨status, rfl, h⟩
  | flag =>
      obtain rfl := Option.some.inj h
      exact .inr ⟨rfl, rfl, rfl, id, rfl, fun _ => rfl, id⟩
  | offer =>
      rw [step, Option.ite_none_left_eq_some] at h
      obtain ⟨-, ⟨⟩⟩ := h
      exact .inr ⟨rfl, rfl, rfl, fun _ => Nat.one_pos, rfl, id, id⟩
  | start n =>
      rw [step, Option.ite_none_right_eq_some] at h
      obtain ⟨-, ⟨⟩⟩ := h
      exact .inr (r.idles_move n _)
  | run n =>
      obtain ⟨c, -, hr⟩ := Option.bind_eq_some_iff.mp h
      exact .inr (idles_runCall hr)
  | drop n =>
      rw [step] at h
      split at h
      · rw [Option.ite_none_right_eq_some] at h
        obtain ⟨-, ⟨⟩⟩ := h
        exact .inr (r.idles_move n _)
      · cases h

/-- What a step of the worker does: it publishes, begins a wait, or does neither. -/
theorem work_cases {status : Except String UInt32} (h : r.work status = some r') :
    (∃ e, r.worker = .publishing e ∧ r'.log = e :: r.log ∧ r'.waits = r.waits ∧
        r'.tokens = r.tokens) ∨
      (r'.log = r.log ∧ r'.waits = r.waits + 1) ∨
      (r'.log = r.log ∧ r'.waits = r.waits ∧ r'.tokens = r.tokens) := by
  cases hw : r.worker with
  | idle =>
      simp only [work, hw] at h
      obtain rfl := Option.some.inj h
      exact .inr (.inl ⟨rfl, rfl⟩)
  | publishing e =>
      simp only [work, hw] at h
      obtain rfl := Option.some.inj h
      exact .inl ⟨e, rfl, rfl, rfl, rfl⟩
  | receiving =>
      simp only [work, hw] at h
      split at h
      · obtain rfl := Option.some.inj h
        exact .inr (.inl ⟨rfl, rfl⟩)
      · split at h
        · cases h
        · obtain rfl := Option.some.inj h
          exact .inr (.inr ⟨rfl, rfl, rfl⟩)
  | stopped =>
      simp only [work, hw] at h
      cases h
  | _ =>
      simp only [work, hw] at h
      obtain rfl := Option.some.inj h
      exact .inr (.inr ⟨rfl, rfl, rfl⟩)

/-- The log grows by one publication, or not. -/
theorem log_step {a : ReaderAction} (h : r.step a = some r') :
    r'.log = r.log ∨ ∃ e, r.worker = .publishing e ∧ r'.log = e :: r.log := by
  rcases step_cases h with ⟨status, -, hw⟩ | hi
  · rcases work_cases hw with ⟨e, he, hl, -⟩ | ⟨hl, -⟩ | ⟨hl, -⟩
    · exact .inr ⟨e, he, hl⟩
    · exact .inl hl
    · exact .inl hl
  · exact .inl hi.log

/-! ### Runs of a reader -/

/-- **The invariant of a reader holds in every run.** -/
theorem inv_of_reaches {scope : ProcessScopeId} (h : Reaches step (new scope) r) : r.Inv :=
  h.invariant (inv_new scope) fun _ _ _ hi hs => Inv.step hi hs

/-- Invariants hold on from any reader that meets them. -/
theorem Inv.of_reaches (h : r.Inv) (hr : Reaches JobReader.step r r') : r'.Inv :=
  hr.invariant h fun _ _ _ hi hs => Inv.step hi hs

/-- **A token is answered**: the worker does not wait for one before it has begun a native wait
after the offer. -/
theorem begins_wait_of_token (ht : 0 < r.tokens) (hr : Reaches step r r') (hempty : r'.tokens = 0) :
    r.waits < r'.waits := by
  have hkept : r.waits < r'.waits ∨ (r.waits = r'.waits ∧ 0 < r'.tokens) := by
    refine hr.invariant (I := fun q => r.waits < q.waits ∨ (r.waits = q.waits ∧ 0 < q.tokens))
      (.inr ⟨rfl, ht⟩) fun q a q' hq hs => ?_
    rcases step_cases hs with ⟨status, -, hw⟩ | hi
    · rcases work_cases hw with ⟨e, -, -, hwaits, htok⟩ | ⟨-, hwaits⟩ | ⟨-, hwaits, htok⟩
      · rwa [hwaits, htok]
      · exact .inl (by omega)
      · rwa [hwaits, htok]
    · rw [hi.waits]
      exact hq.imp id fun h => ⟨h.1, hi.tokens h.2⟩
  omega

/-- Where a call is that found an error after `seen` publications: it has not seen a newer one
yet, or it returns one that is. -/
def Past (r : JobReader) (seen : ℕ) : JobWaitCall → Prop
  | .retrying v | .awaitingRetry v => v = seen
  | .closed | .reading | .removing _ => seen < r.log.length
  | .returned result => result ∈ r.log.take (r.log.length - seen)
  | .dropped => True
  | .subscribed | .awaiting _ => False

/-- What is newer stays newer. -/
theorem Past.publish {seen : ℕ} {c : JobWaitCall} (h : r.Past seen c) {e : Except String RawExit}
    (hl : r'.log = e :: r.log) : r'.Past seen c := by
  have hlt : seen < r.log.length → seen < r'.log.length := by
    rw [hl]
    exact Nat.lt_succ_of_lt
  cases c with
  | returned result =>
      have hpos := List.length_pos_of_mem h
      rw [List.length_take] at hpos
      have hlen : r'.log.length - seen = (r.log.length - seen) + 1 := by
        rw [hl, List.length_cons]
        omega
      rw [Past, hlen, hl, List.take_succ_cons]
      exact List.mem_cons_of_mem e h
  | retrying v => exact h
  | awaitingRetry v => exact h
  | closed => exact hlt h
  | reading => exact hlt h
  | removing exit => exact hlt h
  | dropped => trivial
  | subscribed => exact h.elim
  | awaiting v => exact h.elim

/-- Where a call is does not change without a publication. -/
theorem Past.congr {seen : ℕ} {c : JobWaitCall} (h : r.Past seen c) (hl : r'.log = r.log) :
    r'.Past seen c := by
  cases c <;> first | exact h | rwa [Past, hl]

/-- The newest publication is newer than what was seen before it. -/
theorem mem_take_of_head {seen : ℕ} {e : Except String RawExit} (hh : r.log.head? = some e)
    (hlt : seen < r.log.length) : e ∈ r.log.take (r.log.length - seen) := by
  obtain ⟨rest, hrest⟩ := List.head?_eq_some_iff.mp hh
  obtain ⟨m, hm⟩ := Nat.exists_eq_add_of_lt hlt
  rw [hm, hrest, show seen + m + 1 - seen = m + 1 by omega, List.take_succ_cons]
  exact List.mem_cons_self

/-- The step of such a call. It returns the newest publication: an exit that follows the error, or a
later error. -/
theorem Past.runCall (h : r.Inv) {seen n : ℕ} {c : JobWaitCall} (hc : r.calls n = some c)
    (hp : r.Past seen c) (hs : r.runCall n c = some r') :
    ∃ c', r'.calls n = some c' ∧ r'.Past seen c' := by
  have hk := h.knows n c hc
  have hmoved : ∀ d, r.Past seen d →
      ∃ c', (r.move n d).calls n = some c' ∧ (r.move n d).Past seen c' :=
    fun d hd => ⟨d, Function.update_self .., hd.congr rfl⟩
  cases c with
  | subscribed => exact hp.elim
  | retrying v =>
      obtain rfl : v = seen := hp
      obtain ⟨hle, m, hm⟩ := hk
      rw [JobReader.runCall] at hs
      split at hs
      · next hw =>
          obtain rfl := Option.some.inj hs
          refine hmoved .closed (Nat.lt_of_le_of_ne hle fun heq => ?_)
          obtain ⟨exit, he⟩ := h.exited.mp (by rw [hw]; rfl)
          rw [heq, lastSeen_length] at hm
          cases he.symm.trans hm
      · obtain rfl := Option.some.inj hs
        exact ⟨.awaitingRetry v, Function.update_self .., rfl⟩
  | closed =>
      obtain ⟨exit, he⟩ := hk
      rw [JobReader.runCall] at hs
      split at hs
      · obtain rfl := Option.some.inj hs
        exact hmoved .reading hp
      · next hlog =>
          obtain ⟨rest, hrest⟩ := List.head?_eq_some_iff.mp he
          exact absurd hrest (hlog exit rest)
  | awaitingRetry v =>
      obtain rfl : v = seen := hp
      obtain ⟨hlt, rfl⟩ := h.changed_eq hc rfl hk.1 hs
      exact hmoved .reading hlt
  | reading =>
      have hlt : seen < r.log.length := hp
      rw [JobReader.runCall] at hs
      split at hs
      · obtain rfl := Option.some.inj hs
        exact hmoved (.removing _) hlt
      · next m rest hlog =>
          obtain rfl := Option.some.inj hs
          exact hmoved _ (mem_take_of_head (by rw [hlog]; rfl) hlt)
      · next hlog =>
          rw [hlog] at hlt
          cases hlt
  | awaiting v => exact hp.elim
  | removing exit =>
      obtain rfl := Option.some.inj hs
      exact ⟨.returned (.ok exit), Function.update_self .., mem_take_of_head hk hp⟩
  | returned result => exact absurd hs (by simp [JobReader.runCall])
  | dropped => exact absurd hs (by simp [JobReader.runCall])

/-- The worker leaves the slot and the calls alone. -/
theorem work_frame {status : Except String UInt32} (h : r.work status = some r') :
    r'.calls = r.calls ∧ r'.scope = r.scope ∧ r'.killed = r.killed ∧
      r'.registered = r.registered := by
  rw [work] at h
  split at h
  · obtain rfl := Option.some.inj h; exact ⟨rfl, rfl, rfl, rfl⟩
  · obtain rfl := Option.some.inj h; exact ⟨rfl, rfl, rfl, rfl⟩
  · obtain rfl := Option.some.inj h; exact ⟨rfl, rfl, rfl, rfl⟩
  · obtain rfl := Option.some.inj h; exact ⟨rfl, rfl, rfl, rfl⟩
  · obtain rfl := Option.some.inj h; exact ⟨rfl, rfl, rfl, rfl⟩
  · split at h
    · obtain rfl := Option.some.inj h; exact ⟨rfl, rfl, rfl, rfl⟩
    · split at h
      · cases h
      · obtain rfl := Option.some.inj h; exact ⟨rfl, rfl, rfl, rfl⟩
  · obtain rfl := Option.some.inj h; exact ⟨rfl, rfl, rfl, rfl⟩
  · cases h

/-- A call moves itself only. -/
theorem calls_runCall {n m : ℕ} {c : JobWaitCall} (h : r.runCall n c = some r') (hm : m ≠ n) :
    r'.calls m = r.calls m := by
  have hmoved : ∀ d, (r.move n d).calls m = r.calls m := fun d => Function.update_of_ne hm ..
  have hchanged : ∀ seen, r.changed n seen = some r' → r'.calls m = r.calls m := by
    intro seen h
    rw [changed] at h
    split at h
    · obtain rfl := Option.some.inj h
      exact hmoved _
    · split at h
      · obtain rfl := Option.some.inj h
        exact hmoved _
      · cases h
  cases c with
  | awaitingRetry seen => exact hchanged seen h
  | awaiting seen => exact hchanged seen h
  | removing exit =>
      obtain rfl := Option.some.inj h
      exact hmoved _
  | returned result => exact absurd h (by simp [runCall])
  | dropped => exact absurd h (by simp [runCall])
  | retrying seen =>
      rw [runCall] at h
      split at h <;> obtain rfl := Option.some.inj h <;> exact hmoved _
  | _ =>
      rw [runCall] at h
      split at h <;> obtain rfl := Option.some.inj h <;> exact hmoved _

/-- Other steps leave the call alone, or drop it. -/
theorem calls_step {a : ReaderAction} {n : ℕ} {c : JobWaitCall} (hc : r.calls n = some c)
    (hs : r.step a = some r') :
    r'.calls n = some c ∨ r'.calls n = some .dropped ∨ (a = .run n ∧ r.runCall n c = some r') := by
  cases a with
  | work status => exact .inl ((work_frame hs).1.symm ▸ hc)
  | flag =>
      obtain rfl := Option.some.inj hs
      exact .inl hc
  | offer =>
      rw [step, Option.ite_none_left_eq_some] at hs
      obtain ⟨-, ⟨⟩⟩ := hs
      exact .inl hc
  | start m =>
      rw [step, Option.ite_none_right_eq_some] at hs
      obtain ⟨hm, ⟨⟩⟩ := hs
      refine .inl ((Function.update_of_ne (fun heq => ?_) ..).trans hc)
      rw [← heq, hc] at hm
      cases hm
  | run m =>
      obtain ⟨d, hd, hr⟩ := Option.bind_eq_some_iff.mp hs
      by_cases hm : m = n
      · subst hm
        obtain rfl := Option.some.inj (hc.symm.trans hd)
        exact .inr (.inr ⟨rfl, hr⟩)
      · exact .inl ((calls_runCall hr (Ne.symm hm)).trans hc)
  | drop m =>
      rw [step] at hs
      split at hs
      · rw [Option.ite_none_right_eq_some] at hs
        obtain ⟨-, ⟨⟩⟩ := hs
        by_cases hm : m = n
        · subst hm
          exact .inr (.inl (Function.update_self ..))
        · exact .inl ((Function.update_of_ne (Ne.symm hm) ..).trans hc)
      · cases hs

/-- **A wait that found an error returns a newer publication.** -/
theorem returns_newer {scope : ProcessScopeId} {seen n : ℕ} {result : Except String RawExit}
    (h : Reaches step (new scope) r) (hn : r.calls n = some (.retrying seen))
    (hr : Reaches step r r') (hret : r'.calls n = some (.returned result)) :
    result ∈ r'.log.take (r'.log.length - seen) := by
  have hpast : r'.Inv ∧ ∃ c, r'.calls n = some c ∧ r'.Past seen c := by
    refine hr.invariant (I := fun q => q.Inv ∧ ∃ c, q.calls n = some c ∧ q.Past seen c)
      ⟨inv_of_reaches h, _, hn, rfl⟩ fun q a q' hq hs => ⟨Inv.step hq.1 hs, ?_⟩
    obtain ⟨hi, c, hc, hp⟩ := hq
    have hgrown : ∀ d, q.Past seen d → q'.Past seen d := fun d hd => by
      rcases log_step hs with hl | ⟨e, -, hl⟩
      · exact hd.congr hl
      · exact hd.publish hl
    rcases calls_step hc hs with hsame | hdrop | ⟨-, hrun⟩
    · exact ⟨c, hsame, hgrown c hp⟩
    · exact ⟨.dropped, hdrop, trivial⟩
    · exact hp.runCall hi hc hrun
  obtain ⟨-, c, hc, hp⟩ := hpast
  obtain rfl : c = .returned result := Option.some.inj (hc.symm.trans hret)
  exact hp

end JobReader

end Shepherd
