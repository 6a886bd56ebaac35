import Shepherd.Backend.JobConfinement

/-!
# Exits of the Windows Backend

What a worker publishes about its process. A process that the backend killed ends with the code
`KILLED`, some time after it was killed, which is after the flag of its root was set; so the exit
that its worker makes of the status, for which it loads the flag once the process has ended, has
the signal `Kill` (`Attends`). Nothing but kills sets the flag, and nothing but kills ends a process
by a job (`Blamed`).
-/

namespace Shepherd

open Conc

/-- The backend killed the process. -/
def ExitCause.isKill : ExitCause → Bool
  | .job | .process => true
  | _ => false

namespace JobReader

variable {r r' : JobReader}

/-- The exit is what a worker makes of the status of the process, with the flag that it loaded:
set if the backend has killed the process, and unset if nothing has set it. -/
def Attributed (r : JobReader) (x : OsProc JobObject JobExit) (raw : RawExit) : Prop :=
  ∃ e killed, x.phase = .ended e ∧ raw = rawExit killed e.code ∧
    (killed = true → r.killed = true) ∧ (e.cause.isKill = true → killed = true)

/-- What a reader has to do with its process. -/
structure Attends (r : JobReader) (x : OsProc JobObject JobExit) : Prop where
  inside : ∃ job, x.container = some job ∧ job.scope = r.scope
  flagged : ∀ e, x.phase.exit = some e → e.cause.isKill = true → r.killed = true
  waited : ∀ code, r.worker = .waited (.ok code) → ∃ e, x.phase = .ended e ∧ e.code = code
  publishing : ∀ raw, r.worker = .publishing (.ok raw) → r.Attributed x raw
  exited : ∀ raw, r.Exited raw → r.Attributed x raw

/-- What a step does to the slot of a reader. -/
theorem step_slot {a : ReaderAction} (h : r.step a = some r') :
    r'.scope = r.scope ∧ (r.killed = true → r'.killed = true) ∧
      (r'.registered = true → r.registered = true) := by
  rcases step_cases h with ⟨status, -, hw⟩ | hi
  · obtain ⟨-, hscope, hkilled, hreg⟩ := work_frame hw
    exact ⟨hscope, fun hk => hkilled.trans hk, fun hr => hreg.symm.trans hr⟩
  · exact ⟨hi.scope, hi.killed, hi.registered⟩

/-- A call leaves the worker alone. -/
theorem idles_of_call {a : ReaderAction} {n : ℕ} (ha : a.call = some n)
    (hs : r.step a = some r') : r.Idles r' := by
  rcases step_cases hs with ⟨status, rfl, -⟩ | hi
  · cases ha
  · exact hi

/-- An exit stays attributed when the reader is flagged. -/
theorem Attributed.mono {x : OsProc JobObject JobExit} {raw : RawExit}
    (h : r.Attributed x raw) (hk : r.killed = true → r'.killed = true) : r'.Attributed x raw := by
  obtain ⟨e, killed, he, hraw, hset, hkill⟩ := h
  exact ⟨e, killed, he, hraw, fun hkilled => hk (hset hkilled), hkill⟩

/-- A step that leaves the worker alone. -/
theorem Attends.idles {x : OsProc JobObject JobExit} (h : r.Attends x) (hi : r.Idles r') :
    r'.Attends x where
  inside := hi.scope.symm ▸ h.inside
  flagged e he hk := hi.killed (h.flagged e he hk)
  waited := hi.worker.symm ▸ h.waited
  publishing raw hw := (h.publishing raw (hi.worker.symm.trans hw)).mono hi.killed
  exited raw he := (h.exited raw (by rwa [Exited, hi.log] at he)).mono hi.killed

/-- **A step of the worker.** The flag is loaded after the process has ended. -/
theorem Attends.work {x : OsProc JobObject JobExit} (h : r.Attends x)
    {status : Except String UInt32}
    (hended : r.worker = .waiting → ∀ code, status = .ok code →
      ∃ e, x.phase = .ended e ∧ e.code = code)
    (hs : r.work status = some r') : r'.Attends x := by
  obtain ⟨-, hscope, hkilled, -⟩ := work_frame hs
  have hmono : r.killed = true → r'.killed = true := fun hk => hkilled.trans hk
  have hinside : ∃ job, x.container = some job ∧ job.scope = r'.scope := hscope.symm ▸ h.inside
  have hflagged : ∀ e, x.phase.exit = some e → e.cause.isKill = true → r'.killed = true :=
    fun e he hk => hmono (h.flagged e he hk)
  have hexited : r'.log = r.log → ∀ raw, r'.Exited raw → r'.Attributed x raw := by
    intro hlog raw he
    rw [Exited, hlog] at he
    exact (h.exited raw he).mono hmono
  cases hw : r.worker with
  | waiting =>
      simp only [JobReader.work, hw] at hs
      obtain rfl := Option.some.inj hs
      refine ⟨hinside, hflagged, ?_, by rintro _ ⟨⟩, hexited rfl⟩
      rintro code ⟨⟩
      exact hended hw code rfl
  | waited st =>
      simp only [JobReader.work, hw] at hs
      obtain rfl := Option.some.inj hs
      refine ⟨hinside, hflagged, by rintro _ ⟨⟩, fun raw hraw => ?_, hexited rfl⟩
      cases st with
      | error m => cases hraw
      | ok code =>
          obtain ⟨e, he, hcode⟩ := h.waited code hw
          obtain rfl : rawExit r.killed code = raw := by simpa [Except.map] using hraw
          exact ⟨e, r.killed, he, by rw [hcode], id, h.flagged e (by rw [he]; rfl)⟩
  | publishing exit =>
      simp only [JobReader.work, hw] at hs
      obtain rfl := Option.some.inj hs
      refine ⟨hinside, hflagged, by rintro _ ⟨⟩, by rintro _ ⟨⟩, fun raw hraw => ?_⟩
      obtain rfl : exit = .ok raw := by simpa [Exited] using hraw
      exact (h.publishing raw hw).mono hmono
  | receiving =>
      simp only [JobReader.work, hw] at hs
      split at hs
      · obtain rfl := Option.some.inj hs
        exact ⟨hinside, hflagged, by rintro _ ⟨⟩, by rintro _ ⟨⟩, hexited rfl⟩
      · split at hs
        · cases hs
        · obtain rfl := Option.some.inj hs
          exact ⟨hinside, hflagged, by rintro _ ⟨⟩, by rintro _ ⟨⟩, hexited rfl⟩
  | published verified =>
      simp only [JobReader.work, hw] at hs
      obtain rfl := Option.some.inj hs
      refine ⟨hinside, hflagged, ?_, ?_, hexited rfl⟩ <;> cases verified <;> rintro _ ⟨⟩
  | stopped =>
      simp only [JobReader.work, hw] at hs
      cases hs
  | _ =>
      simp only [JobReader.work, hw] at hs
      obtain rfl := Option.some.inj hs
      exact ⟨hinside, hflagged, by rintro _ ⟨⟩, by rintro _ ⟨⟩, hexited rfl⟩

/-- A process that goes on, or is killed after the flag was set. -/
theorem Attends.proc {x x' : OsProc JobObject JobExit} (h : r.Attends x)
    (hc : x'.container = x.container) (hkept : ∀ e, x.phase = .ended e → x' = x)
    (hflag : ∀ e, x'.phase.exit = some e →
      x.phase.exit = some e ∨ (e.cause.isKill = true → r.killed = true)) : r.Attends x' where
  inside := hc.symm ▸ h.inside
  flagged e he hk := by
    rcases hflag e he with hold | hnew
    · exact h.flagged e hold hk
    · exact hnew hk
  waited code hw := by
    obtain ⟨e, he, hcode⟩ := h.waited code hw
    exact ⟨e, hkept e he ▸ he, hcode⟩
  publishing raw hw := by
    obtain ⟨e, killed, he, hrest⟩ := h.publishing raw hw
    exact ⟨e, killed, hkept e he ▸ he, hrest⟩
  exited raw hw := by
    obtain ⟨e, killed, he, hrest⟩ := h.exited raw hw
    exact ⟨e, killed, hkept e he ▸ he, hrest⟩

/-- A process that ends. -/
theorem Attends.finish {x : OsProc JobObject JobExit} {e : JobExit} (h : r.Attends x)
    (hk : e.cause.isKill = false) : r.Attends (x.finish e) := by
  refine h.proc rfl (fun e₀ he₀ => OsProc.finish_of_ended (by rw [he₀]; rfl) e) fun e' he' => ?_
  refine (OsProc.exit_cases he').imp_right ?_
  rintro ⟨-, rfl⟩ hkill
  cases hk.symm.trans hkill

/-- A process that is terminated. -/
theorem Attends.doom {x : OsProc JobObject JobExit} {e : JobExit} (h : r.Attends x)
    (hk : e.cause.isKill = true → x.phase.isLive = true → r.killed = true) :
    r.Attends (x.doom e) := by
  refine h.proc rfl (fun e₀ he₀ => OsProc.doom_of_exit (by rw [he₀]; rfl) e) fun e' he' => ?_
  refine (OsProc.exit_cases ((x.exit_doom e).symm.trans he')).imp_right ?_
  rintro ⟨hnone, rfl⟩ hkill
  exact hk hkill (Phase.isLive_of_exit hnone)

end JobReader

namespace JobState

variable {s s' : JobState} {p q n m : ℕ} {scope : ProcessScopeId} {op : KillOp}

/-- **The invariant of the readers.** -/
structure Attended (s : JobState) : Prop where
  fresh : ∀ p stage, s.spawns p = some stage → stage.isSetup = true → s.readers p = none
  flagged : ∀ n op, s.kills n = some (op, .terminating) → ∀ p r, s.readers p = some r →
    r.registered = true → op.covers r.scope = true → r.killed = true
  signalled : ∀ n p, s.signals n = some (p, .terminating) →
    ∃ r, s.readers p = some r ∧ r.killed = true
  reached : ∀ p r, s.readers p = some r → Reaches JobReader.step (.new r.scope) r
  attends : ∀ p r, s.readers p = some r → ∃ x, s.procs[p]? = some x ∧ r.Attends x

/-- A new backend has no readers. -/
theorem attended_new : new.Attended where
  fresh := nofun
  flagged := nofun
  signalled := nofun
  reached := nofun
  attends := nofun

/-- Every process goes on, or ends in a way that its reader is prepared for. -/
def Proceeds (s s' : JobState) : Prop :=
  ∀ p x r, s.procs[p]? = some x → s.readers p = some r → r.Attends x →
    ∃ x', s'.procs[p]? = some x' ∧ r.Attends x'

/-- A step that leaves the processes as they are. -/
theorem Proceeds.of_eq (h : ∀ (p : ℕ) (x : OsProc JobObject JobExit), s.procs[p]? = some x →
    s'.procs[p]? = some x) : s.Proceeds s' :=
  fun p x _ hx _ ha => ⟨x, h p x hx, ha⟩

/-- The end of one process. -/
theorem proceeds_finish {e : JobExit} (hp : s'.procs = s.procs.finish q e)
    (hk : e.cause.isKill = false) : s.Proceeds s' := by
  intro p x r hx _ ha
  refine ⟨if q = p then x.finish e else x, ?_, ?_⟩
  · rw [hp, OsProcs.getElem?_finish, hx, Option.map_some]
  · split
    · exact ha.finish hk
    · exact ha

/-- The termination of one process. -/
theorem proceeds_doom {e : JobExit} (hp : s'.procs = s.procs.doom q e)
    (hk : e.cause.isKill = true → ∀ r, s.readers q = some r → r.killed = true) :
    s.Proceeds s' := by
  intro p x r hx hr ha
  refine ⟨if q = p then x.doom e else x, ?_, ?_⟩
  · rw [hp, OsProcs.getElem?_doom, hx, Option.map_some]
  · split
    · next heq =>
        subst heq
        exact ha.doom fun hkill _ => hk hkill r hr
    · exact ha

/-- The termination of the processes in some jobs. -/
theorem proceeds_terminate {P : JobObject → Bool} {e : JobExit}
    (hp : s'.procs = s.procs.terminate P e)
    (hk : e.cause.isKill = true → ∀ p x r, s.procs[p]? = some x → s.readers p = some r →
      r.Attends x → x.phase.isLive = true → x.isIn P = true → r.killed = true) :
    s.Proceeds s' := by
  intro p x r hx hr ha
  refine ⟨if x.isIn P then x.doom e else x, ?_, ?_⟩
  · rw [hp, OsProcs.getElem?_terminate, hx, Option.map_some]
  · split
    · next hin => exact ha.doom fun hkill hl => hk hkill p x r hx hr ha hl hin
    · exact ha

/-- A resume changes the phase of a process that has not ended. -/
theorem proceeds_resume (hp : s'.procs = s.procs.resume q) : s.Proceeds s' := by
  intro p x r hx _ ha
  refine ⟨if q = p then x.resume else x, ?_, ?_⟩
  · rw [hp, OsProcs.getElem?_resume, hx, Option.map_some]
  · split
    · exact ha.proc rfl (fun e he => OsProc.resume_phase (by rw [he]; nofun))
        fun e he => .inl (x.exit_resume.symm.trans he)
    · exact ha

/-- Every reader takes a step of its own that its process bears out, or none. -/
def Serves (s s' : JobState) : Prop :=
  ∀ p, (s.readers p = none ∧ s'.readers p = none) ∨
    ∃ r r', s.readers p = some r ∧ s'.readers p = some r' ∧
      (r' = r ∨ ∃ a, r.step a = some r' ∧ ∀ x, s.procs[p]? = some x → r.Attends x → r'.Attends x)

/-- A step that leaves the readers alone. -/
theorem Serves.of_eq (h : s'.readers = s.readers) : s.Serves s' := by
  intro p
  cases hr : s.readers p with
  | none => exact .inl ⟨rfl, h ▸ hr⟩
  | some r => exact .inr ⟨r, r, rfl, h ▸ hr, .inl rfl⟩

/-- One reader takes a step. -/
theorem Serves.one {r r' : JobReader} {a : ReaderAction} (hr : s.readers p = some r)
    (hs : r.step a = some r') (ha : ∀ x, s.procs[p]? = some x → r.Attends x → r'.Attends x)
    (h : s'.readers = (s.setReader p r').readers) : s.Serves s' := by
  intro q
  by_cases hq : q = p
  · subst hq
    exact .inr ⟨r, r', hr, by rw [h]; exact Function.update_self .., .inr ⟨a, hs, ha⟩⟩
  · have heq : s'.readers q = s.readers q := by
      rw [h]
      exact Function.update_of_ne hq ..
    cases hn : s.readers q with
    | none => exact .inl ⟨rfl, heq.trans hn⟩
    | some r₁ => exact .inr ⟨r₁, r₁, rfl, heq.trans hn, .inl rfl⟩

/-- A loop over the slots gives every reader a step, or none. -/
theorem Serves.loop {f : JobReader → JobReader} (hf : ∀ r, f r = r ∨
      ∃ a, r.step a = some (f r) ∧ r.Idles (f r))
    (h : s'.readers = (s.forSlots op f).readers) : s.Serves s' := by
  intro p
  have heq : s'.readers p = (s.readers p).map (visit op f) := by
    rw [h]
    rfl
  cases hr : s.readers p with
  | none => exact .inl ⟨rfl, by rw [heq, hr, Option.map_none]⟩
  | some r =>
      refine .inr ⟨r, visit op f r, rfl, by rw [heq, hr, Option.map_some], ?_⟩
      rw [visit]
      split
      · rcases hf r with heq | ⟨a, hs, hi⟩
        · exact .inl heq
        · exact .inr ⟨a, hs, fun x _ ha => ha.idles hi⟩
      · exact .inl rfl

/-- The invariant after a move that inserts no slot. -/
theorem Attended.serve (h : s.Attended) (hserve : s.Serves s')
    (hatt : ∀ p r', s'.readers p = some r' → ∃ x, s'.procs[p]? = some x ∧ r'.Attends x)
    (hfresh : ∀ p stage, s'.spawns p = some stage → stage.isSetup = true →
      (∃ old, s.spawns p = some old ∧ old.isSetup = true) ∨ s.readers p = none)
    (hflag : ∀ n op, s'.kills n = some (op, .terminating) →
      s.kills n = some (op, .terminating) ∨ ∀ p r', s'.readers p = some r' →
        r'.registered = true → op.covers r'.scope = true → r'.killed = true)
    (hsignal : ∀ n p, s'.signals n = some (p, .terminating) →
      s.signals n = some (p, .terminating) ∨ ∃ r', s'.readers p = some r' ∧ r'.killed = true) :
    s'.Attended := by
  have hback : ∀ p r', s'.readers p = some r' → ∃ r, s.readers p = some r ∧
      (r' = r ∨ ∃ a, r.step a = some r') := by
    intro p r' hr'
    rcases hserve p with ⟨-, hnone⟩ | ⟨r, r₁, hr, hr₁, hstep⟩
    · cases hnone.symm.trans hr'
    · obtain rfl := Option.some.inj (hr'.symm.trans hr₁)
      exact ⟨r, hr, hstep.imp id fun ⟨a, hs, _⟩ => ⟨a, hs⟩⟩
  have hslot : ∀ r r' : JobReader, (r' = r ∨ ∃ a, r.step a = some r') → r'.scope = r.scope ∧
      (r.killed = true → r'.killed = true) ∧ (r'.registered = true → r.registered = true) := by
    rintro r r' (rfl | ⟨a, hs⟩)
    · exact ⟨rfl, id, id⟩
    · exact JobReader.step_slot hs
  refine
    { fresh := fun p stage hp hsetup => ?_
      flagged := fun n op hn p r' hr' hreg hcov => ?_
      signalled := fun n p hn => ?_
      reached := fun p r' hr' => ?_
      attends := hatt }
  · have hnone : s.readers p = none := by
      rcases hfresh p stage hp hsetup with ⟨old, hold, hos⟩ | hnone
      · exact h.fresh p old hold hos
      · exact hnone
    cases hr' : s'.readers p with
    | none => rfl
    | some r' =>
        obtain ⟨r, hr, -⟩ := hback p r' hr'
        cases hnone.symm.trans hr
  · rcases hflag n op hn with hold | hnew
    · obtain ⟨r, hr, hstep⟩ := hback p r' hr'
      obtain ⟨hscope, hkilled, hregistered⟩ := hslot r r' hstep
      exact hkilled (h.flagged n op hold p r hr (hregistered hreg) (hscope ▸ hcov))
    · exact hnew p r' hr' hreg hcov
  · rcases hsignal n p hn with hold | hnew
    · obtain ⟨r, hr, hk⟩ := h.signalled n p hold
      rcases hserve p with ⟨hnone, -⟩ | ⟨r₁, r', hr₁, hr', hstep⟩
      · cases hnone.symm.trans hr
      · obtain rfl := Option.some.inj (hr.symm.trans hr₁)
        exact ⟨r', hr', (hslot r r' (hstep.imp id fun ⟨a, hs, _⟩ => ⟨a, hs⟩)).2.1 hk⟩
    · exact hnew
  · obtain ⟨r, hr, hstep⟩ := hback p r' hr'
    have hreach := h.reached p r hr
    rw [(hslot r r' hstep).1]
    rcases hstep with rfl | ⟨a, hs⟩
    · exact hreach
    · exact hreach.next a hs

/-- A move that only changes processes. -/
theorem Attended.proceed (h : s.Attended) (hp : s.Proceeds s') (hr : s'.readers = s.readers)
    (hfresh : ∀ p stage, s'.spawns p = some stage → stage.isSetup = true →
      (∃ old, s.spawns p = some old ∧ old.isSetup = true) ∨ s.readers p = none)
    (hflag : ∀ n op, s'.kills n = some (op, .terminating) → s.kills n = some (op, .terminating))
    (hsignal : ∀ n p, s'.signals n = some (p, .terminating) →
      s.signals n = some (p, .terminating)) : s'.Attended := by
  refine h.serve (.of_eq hr) (fun p r' hr' => ?_) hfresh (fun n op hn => .inl (hflag n op hn))
    fun n p hn => .inl (hsignal n p hn)
  rw [hr] at hr'
  obtain ⟨x, hx, ha⟩ := h.attends p r' hr'
  exact hp p x r' hx hr' ha

/-- A move that only changes readers. -/
theorem Attended.attend (h : s.Attended) (hserve : s.Serves s') (hp : s'.procs = s.procs)
    (hs : s'.spawns = s.spawns)
    (hflag : ∀ n op, s'.kills n = some (op, .terminating) →
      s.kills n = some (op, .terminating) ∨ ∀ p r', s'.readers p = some r' →
        r'.registered = true → op.covers r'.scope = true → r'.killed = true)
    (hsignal : ∀ n p, s'.signals n = some (p, .terminating) →
      s.signals n = some (p, .terminating) ∨ ∃ r', s'.readers p = some r' ∧ r'.killed = true) :
    s'.Attended := by
  refine h.serve hserve (fun p r' hr' => ?_)
    (fun p stage hst hsetup => .inl ⟨stage, hs ▸ hst, hsetup⟩) hflag hsignal
  rcases hserve p with ⟨-, hnone⟩ | ⟨r, r₁, hr, hr₁, hstep⟩
  · cases hnone.symm.trans hr'
  · obtain rfl := Option.some.inj (hr'.symm.trans hr₁)
    obtain ⟨x, hx, ha⟩ := h.attends p r hr
    refine ⟨x, hp ▸ hx, ?_⟩
    rcases hstep with rfl | ⟨a, -, hatt⟩
    · exact ha
    · exact hatt x hx ha

/-- A kill that has ended its loop is not before its terminations any more. -/
theorem afterKill_ne {ok : Bool} : afterKill ok op ≠ .terminating := by
  intro heq
  have := locked_afterKill ok op
  rw [heq] at this
  cases this

/-- To flag a reader is a step of it that leaves its worker alone. -/
theorem flag_step (r : JobReader) : ∃ a, r.step a = some r.flag ∧ r.Idles r.flag :=
  ⟨.flag, rfl, rfl, rfl, rfl, id, rfl, fun _ => rfl, id⟩

/-- The offer of a token is a step of the reader that leaves its worker alone, or nothing. -/
theorem offer_step (r : JobReader) :
    offer r = r ∨ ∃ a, r.step a = some (offer r) ∧ r.Idles (offer r) := by
  rw [offer]
  split
  · exact .inl rfl
  · next hw =>
      refine .inr ⟨.offer, ?_, rfl, rfl, rfl, fun _ => Nat.one_pos, rfl, id, id⟩
      rw [JobReader.step, if_neg hw]

/-- A root whose slot is gone has ended. -/
theorem Attended.registered (h : s.Attended) {r : JobReader} {x : OsProc JobObject JobExit}
    (hr : s.readers p = some r) (ha : r.Attends x) (hl : x.phase.isLive = true) :
    r.registered = true := by
  cases hreg : r.registered with
  | true => rfl
  | false =>
      obtain ⟨raw, hraw⟩ := (JobReader.inv_of_reaches (h.reached p r hr)).slot hreg
      obtain ⟨e, -, he, -⟩ := ha.exited raw hraw
      rw [he] at hl
      cases hl

/-- A spawn moves that was in its setup, or leaves it. -/
theorem setup_of_setSpawn {t : JobState} {old stage : JobSpawn} (ht : t.spawns = s.spawns)
    (hp : s.spawns p = some old) (ho : stage.isSetup = true → old.isSetup = true) :
    ∀ q st, (t.setSpawn p stage).spawns q = some st → st.isSetup = true →
      (∃ old, s.spawns q = some old ∧ old.isSetup = true) ∨ s.readers q = none := by
  intro q st hst hs
  rcases of_setSpawn hst with ⟨rfl, rfl⟩ | ⟨-, hst⟩
  · exact .inl ⟨old, hp, ho hs⟩
  · exact .inl ⟨st, ht ▸ hst, hs⟩

/-- A kill moves to another stage than that before its system calls. -/
theorem flag_of_setKill {t : JobState} {stage : JobKill} (ht : t.kills = s.kills)
    (hs : stage ≠ .terminating) :
    ∀ m op', (t.setKill n op stage).kills m = some (op', .terminating) →
      s.kills m = some (op', .terminating) := by
  intro m op' hm
  rcases of_setKill hm with ⟨-, -, heq⟩ | ⟨-, hm⟩
  · exact absurd heq.symm hs
  · exact ht ▸ hm

/-- A signal that goes on is not about to terminate anything. -/
theorem signal_of_setSignal {t : JobState} {stage : JobSignal} (ht : t.signals = s.signals)
    (hs : stage ≠ .terminating) :
    ∀ m q, (t.setSignal n p stage).signals m = some (q, .terminating) →
      s.signals m = some (q, .terminating) := by
  intro m q hm
  rcases of_setSignal hm with ⟨-, -, heq⟩ | ⟨-, hm⟩
  · exact absurd heq.symm hs
  · exact ht ▸ hm

/-- No process was killed before the slot of its root is inserted. -/
def Unkilled (s : JobState) : Prop :=
  ∀ p stage x e, s.spawns p = some stage → stage.isPending = true → s.procs[p]? = some x →
    x.phase.exit = some e → e.cause.isKill = false

/-- The spawns that are pending were so before, and their processes have not been killed since. -/
theorem Unkilled.of (h : s.Unkilled)
    (hs : ∀ p stage, s'.spawns p = some stage → stage.isPending = true →
      ∃ old, s.spawns p = some old ∧ old.isPending = true)
    (hp : ∀ p old x' e, s.spawns p = some old → old.isPending = true → s'.procs[p]? = some x' →
      x'.phase.exit = some e → e.cause.isKill = true →
      ∃ x, s.procs[p]? = some x ∧ x.phase.exit = some e) :
    s'.Unkilled := by
  intro p stage x' e hst hpend hx' he
  obtain ⟨old, hold, hop⟩ := hs p stage hst hpend
  rw [← Bool.not_eq_true]
  intro hk
  obtain ⟨x, hx, hxe⟩ := hp p old x' e hold hop hx' he hk
  cases (h p old x e hold hop hx hxe).symm.trans hk

/-- A spawn that goes on was pending if it is now. -/
theorem pending_of_setSpawn {t : JobState} {old stage : JobSpawn} (ht : t.spawns = s.spawns)
    (hp : s.spawns p = some old) (ho : stage.isPending = true → old.isPending = true) :
    ∀ q st, (t.setSpawn p stage).spawns q = some st → st.isPending = true →
      ∃ old, s.spawns q = some old ∧ old.isPending = true := by
  intro q st hst hs
  rcases of_setSpawn hst with ⟨rfl, rfl⟩ | ⟨-, hst⟩
  · exact ⟨old, hp, ho hs⟩
  · exact ⟨st, ht ▸ hst, hs⟩

/-- A pending spawn has its process. -/
theorem Confined.pending (h : s.Confined) {stage : JobSpawn} (hp : s.spawns p = some stage)
    (hs : stage.isPending = true) : ∃ x, s.procs[p]? = some x ∧
      (stage.locked = false → x.container = none) := by
  have hf := h.spawns p stage hp
  cases stage with
  | created scope => exact hf.imp fun x hx => ⟨hx.1, fun _ => hx.2⟩
  | opened scope => exact hf.imp fun x hx => ⟨hx.1, fun _ => hx.2⟩
  | entering scope => exact hf.imp fun x hx => ⟨hx.1, nofun⟩
  | assigning scope => exact hf.imp fun x hx => ⟨hx.1, nofun⟩
  | resuming scope => exact hf.imp fun x hx => ⟨hx.choose_spec.1, nofun⟩
  | inserting scope => exact hf.imp fun x hx => ⟨hx.choose_spec.1, nofun⟩
  | _ => cases hs

/-- A pending spawn is being set up. -/
theorem isSetup_of_isPending {stage : JobSpawn} (h : stage.isPending = true) :
    stage.isSetup = true := by
  cases stage <;> first | rfl | cases h

/-- **Every move keeps pending processes from being killed.** -/
theorem Unkilled.move (h : s.Unkilled) (hx : s.Exclusive) (hc : s.Confined) (ha : s.Attended)
    (hm : s.Move s') : s'.Unkilled := by
  have hsame : ∀ p old x' e, s.spawns p = some old → old.isPending = true →
      s.procs[p]? = some x' → x'.phase.exit = some e → e.cause.isKill = true →
      ∃ x, s.procs[p]? = some x ∧ x.phase.exit = some e :=
    fun p _ x' _ _ _ hx' he _ => ⟨x', hx', he⟩
  have hstill : ∀ p stage, s.spawns p = some stage → stage.isPending = true →
      ∃ old, s.spawns p = some old ∧ old.isPending = true :=
    fun p stage hst hpend => ⟨stage, hst, hpend⟩
  have hfinish : ∀ q e', e'.cause.isKill = false → ∀ p old x' e, s.spawns p = some old →
      old.isPending = true → (s.procs.finish q e')[p]? = some x' → x'.phase.exit = some e →
      e.cause.isKill = true → ∃ x, s.procs[p]? = some x ∧ x.phase.exit = some e := by
    intro q e' hnot p old x' e _ _ hx' he hk
    rw [OsProcs.getElem?_finish] at hx'
    obtain ⟨x, hx, rfl⟩ := Option.map_eq_some_iff.mp hx'
    refine ⟨x, hx, ?_⟩
    split at he
    · rcases OsProc.exit_cases he with hold | ⟨-, rfl⟩
      · exact hold
      · cases hnot.symm.trans hk
    · exact he
  cases hm with
  | @forks parent procs hf =>
      refine h.of hstill fun p old x' e hst hpend hx' he _ => ?_
      obtain ⟨x, hx, -⟩ := hc.pending hst hpend
      obtain rfl := Option.some.inj ((OsProcs.getElem?_of_fork hf hx).symm.trans hx')
      exact ⟨x, hx, he⟩
  | exits q code => exact h.of hstill (hfinish q _ rfl)
  | creates scope =>
      intro p stage x' e hst hpend hx' he
      have hx' := (OsProcs.getElem?_create ..).symm.trans hx'
      split at hx'
      · obtain rfl := Option.some.inj hx'
        cases he
      · next hne =>
          rcases of_setSpawn hst with ⟨rfl, -⟩ | ⟨-, hst⟩
          · exact absurd rfl hne
          · exact h p stage x' e hst hpend hx' he
  | @spawnGoesOn p old stage hp hl hf ho =>
      refine h.of (pending_of_setSpawn rfl hp fun hpend => ?_) hsame
      cases stage with
      | created scope => exact (hf scope rfl).elim
      | opened scope =>
          obtain rfl := ho scope rfl
          rfl
      | entering scope => cases hl
      | assigning scope => cases hl
      | resuming scope => cases hl
      | inserting scope => cases hl
      | _ => cases hpend
  | spawnLocks hp => exact h.of (pending_of_setSpawn rfl hp fun _ => rfl) hsame
  | spawnEnters hp => exact h.of (pending_of_setSpawn rfl hp fun _ => rfl) hsame
  | spawnMints hp => exact h.of (pending_of_setSpawn rfl hp fun _ => rfl) hsame
  | spawnAborts hp => exact h.of (pending_of_setSpawn rfl hp nofun) hsame
  | @spawnAssigns p scope job hp hj =>
      refine h.of (pending_of_setSpawn rfl hp fun _ => rfl) fun q old x' e hst hpend hx' he _ => ?_
      obtain ⟨x, hx, -⟩ := hc.pending hst hpend
      refine ⟨x, hx, ?_⟩
      by_cases hq : p = q
      · subst hq
        obtain rfl := Option.some.inj ((OsProcs.getElem?_assign_self hx).symm.trans hx')
        exact he
      · obtain rfl := Option.some.inj
          (((OsProcs.getElem?_assign_of_ne hq).trans hx).symm.trans hx')
        exact he
  | @spawnResumes p scope hp =>
      refine h.of (pending_of_setSpawn rfl hp fun _ => rfl) fun q old x' e hst hpend hx' he _ => ?_
      obtain ⟨x, hx, rfl⟩ := Option.map_eq_some_iff.mp
        ((OsProcs.getElem?_resume s.procs p q).symm.trans hx')
      refine ⟨x, hx, ?_⟩
      split at he
      · exact x.exit_resume.symm.trans he
      · exact he
  | spawnInserts hp => exact h.of (pending_of_setSpawn rfl hp nofun) hsame
  | @spawnKills q hp =>
      refine h.of (pending_of_setSpawn rfl hp nofun) fun p old x' e _ _ hx' he hk => ?_
      obtain ⟨x, hx₀, rfl⟩ := Option.map_eq_some_iff.mp
        ((OsProcs.getElem?_doom ..).symm.trans hx')
      refine ⟨x, hx₀, ?_⟩
      split at he
      · rcases OsProc.exit_cases ((x.exit_doom _).symm.trans he) with hold | ⟨-, rfl⟩
        · exact hold
        · cases hk
      · exact he
  | @killTerminates n op hn failed =>
      refine h.of hstill fun p old x' e hst hpend hx' he _ => ?_
      obtain ⟨x, hx₀, hnone⟩ := hc.pending hst hpend
      refine ⟨x, hx₀, ?_⟩
      have hx' := (OsProcs.getElem?_terminate ..).symm.trans hx'
      rw [hx₀, Option.map_some] at hx'
      obtain rfl := Option.some.inj hx'
      cases hl : old.locked with
      | true => cases hx.eq (inside_spawn hst hl) (inside_kill hn rfl)
      | false =>
          have hout : x.isIn (s.victim op failed) = false := by
            rw [OsProc.isIn, hnone hl]
            rfl
          rwa [hout] at he
  | @killRemoves n scope hn =>
      refine h.of hstill fun p old x' e hst hpend hx' he hk => ?_
      obtain ⟨x, hx₀, rfl⟩ := Option.map_eq_some_iff.mp
        ((OsProcs.getElem?_terminate ..).symm.trans hx')
      refine ⟨x, hx₀, ?_⟩
      split at he
      · rcases OsProc.exit_cases ((x.exit_doom _).symm.trans he) with hold | ⟨-, rfl⟩
        · exact hold
        · cases hk
      · exact he
  | @signalTerminates p n hn =>
      refine h.of hstill fun q old x' e hst hpend hx' he hk => ?_
      obtain ⟨x, hx₀, rfl⟩ := Option.map_eq_some_iff.mp
        ((OsProcs.getElem?_doom ..).symm.trans hx')
      refine ⟨x, hx₀, ?_⟩
      split at he
      · next heq =>
          subst heq
          obtain ⟨r, hr, -⟩ := ha.signalled n p hn
          cases (ha.fresh p old hst (isSetup_of_isPending hpend)).symm.trans hr
      · exact he
  | waitsInside =>
      split
      · exact h.of hstill hsame
      · exact h.of hstill hsame
  | _ => exact h.of hstill hsame

/-- **The insertion of a slot.** Its process is in the job of its scope, and has not been killed:
who kills has the mutex. -/
theorem Attended.insert (h : s.Attended) (hx : s.Exclusive) (hc : s.Confined)
    (hu : s.Unkilled) (hp : s.spawns p = some (.inserting scope)) :
    ((s.setReader p (.new scope)).release.setSpawn p .starting).Attended := by
  obtain ⟨x, job, hx₀, hcon, hjob⟩ := hc.spawns p _ hp
  refine
    { fresh := fun q st hst hs => ?_
      flagged := fun n op hn => ?_
      signalled := fun n q hn => ?_
      reached := fun q r hr => ?_
      attends := fun q r hr => ?_ }
  · rcases of_setSpawn hst with ⟨rfl, rfl⟩ | ⟨hne, hst⟩
    · cases hs
    · exact (Function.update_of_ne hne ..).trans (h.fresh q st hst hs)
  · cases hx.eq (inside_spawn hp rfl) (inside_kill hn rfl)
  · cases hx.eq (inside_spawn hp rfl) (inside_signal hn rfl)
  · rcases of_setReader hr with ⟨rfl, rfl⟩ | ⟨-, hr⟩
    · exact .initial
    · exact h.reached q r hr
  · rcases of_setReader hr with ⟨rfl, rfl⟩ | ⟨-, hr⟩
    · refine ⟨x, hx₀, ⟨job, hcon, hc.named scope job hjob⟩, fun e he hk => ?_, nofun, nofun, nofun⟩
      cases (hu q _ x e hp rfl hx₀ he).symm.trans hk
    · exact h.attends q r hr
/-- **Every move keeps the readers.** -/
theorem Attended.move (h : s.Attended) (hx : s.Exclusive) (hc : s.Confined) (hu : s.Unkilled)
    (hm : s.Move s') : s'.Attended := by
  have hstill : ∀ p stage, s.spawns p = some stage → stage.isSetup = true →
      (∃ old, s.spawns p = some old ∧ old.isSetup = true) ∨ s.readers p = none :=
    fun p stage hst hs => .inl ⟨stage, hst, hs⟩
  cases hm with
  | forks hf =>
      exact h.proceed (.of_eq fun q x hq => OsProcs.getElem?_of_fork hf hq) rfl hstill
        (fun _ _ => id) fun _ _ => id
  | exits q code =>
      exact h.proceed (proceeds_finish rfl rfl) rfl hstill (fun _ _ => id) fun _ _ => id
  | creates scope =>
      refine h.proceed (.of_eq fun q x hq => ?_) rfl (fun q st hst hs => ?_) (fun _ _ => id)
        fun _ _ => id
      · have hlt := (List.getElem?_eq_some_iff.mp hq).1
        exact (OsProcs.getElem?_create ..).trans (by rw [if_neg (Nat.ne_of_lt hlt), hq])
      · rcases of_setSpawn hst with ⟨rfl, rfl⟩ | ⟨-, hst⟩
        · refine .inr ?_
          cases hr : s.readers s.procs.length with
          | none => rfl
          | some r =>
              obtain ⟨x, hx₀, -⟩ := h.attends _ r hr
              simp at hx₀
        · exact .inl ⟨st, hst, hs⟩
  | spawnGoesOn hp _ _ _ hi =>
      exact h.proceed (.of_eq fun _ _ => id) rfl (setup_of_setSpawn rfl hp hi) (fun _ _ => id)
        fun _ _ => id
  | spawnLocks hp =>
      exact h.proceed (.of_eq fun _ _ => id) rfl (setup_of_setSpawn rfl hp fun _ => rfl)
        (fun _ _ => id) fun _ _ => id
  | spawnEnters hp =>
      exact h.proceed (.of_eq fun _ _ => id) rfl (setup_of_setSpawn rfl hp fun _ => rfl)
        (fun _ _ => id) fun _ _ => id
  | spawnMints hp =>
      exact h.proceed (.of_eq fun _ _ => id) rfl (setup_of_setSpawn rfl hp fun _ => rfl)
        (fun _ _ => id) fun _ _ => id
  | @spawnAborts p stage hp hl =>
      have hsetup : stage.isSetup = true := by
        cases stage <;> first | rfl | cases hl
      exact h.proceed (.of_eq fun _ _ => id) rfl (setup_of_setSpawn rfl hp fun _ => hsetup)
        (fun _ _ => id) fun _ _ => id
  | @spawnAssigns p scope job hp hj =>
      refine h.proceed (fun q x r hq hr ha => ⟨x, ?_, ha⟩) rfl
        (setup_of_setSpawn rfl hp fun _ => rfl) (fun _ _ => id) fun _ _ => id
      have hne : p ≠ q := by
        rintro rfl
        cases (h.fresh p _ hp rfl).symm.trans hr
      exact (OsProcs.getElem?_assign_of_ne hne).trans hq
  | spawnResumes hp =>
      exact h.proceed (proceeds_resume rfl) rfl (setup_of_setSpawn rfl hp fun _ => rfl)
        (fun _ _ => id) fun _ _ => id
  | spawnInserts hp => exact h.insert hx hc hu hp
  | spawnKills hp =>
      exact h.proceed (proceeds_doom rfl (by rintro ⟨⟩)) rfl
        (setup_of_setSpawn rfl hp fun _ => rfl) (fun _ _ => id) fun _ _ => id
  | killGoesOn _ hs =>
      refine h.proceed (.of_eq fun _ _ => id) rfl hstill (flag_of_setKill rfl ?_) fun _ _ => id
      rintro rfl
      cases hs
  | @killFlags n op hn =>
      refine h.attend (.loop (fun r => .inr (flag_step r)) rfl) rfl rfl (fun m op' hm => ?_)
        fun _ _ => .inl
      rcases of_setKill hm with ⟨rfl, rfl, -⟩ | ⟨-, hm⟩
      · refine .inr fun p r' hr' hreg hcov => ?_
        obtain ⟨r, -, rfl⟩ := of_forSlots (f := JobReader.flag) hr'
        rw [visit] at hreg hcov ⊢
        split
        · rfl
        · next hnot =>
            rw [if_neg hnot] at hreg hcov
            exact absurd (by rw [hreg, hcov]; rfl) hnot
      · exact .inl hm
  | @killTerminates n op hn failed =>
      refine h.proceed (proceeds_terminate rfl fun _ p x r hx₀ hr ha hl hin => ?_) rfl hstill
        (flag_of_setKill rfl (by simp)) fun _ _ => id
      obtain ⟨job, hjob, hv⟩ := OsProc.isIn_iff.mp hin
      obtain ⟨job', hjob', hscope⟩ := ha.inside
      obtain rfl := Option.some.inj (hjob.symm.trans hjob')
      have hcov : op.covers job.scope = true := by
        simp only [victim, Bool.and_eq_true] at hv
        exact hv.1.2
      exact h.flagged n op hn p r hr (h.registered hr ha hl) (hscope ▸ hcov)
  | killQueues =>
      exact h.attend (.loop offer_step rfl) rfl rfl
        (fun m op' hm => .inl (flag_of_setKill rfl afterKill_ne m op' hm)) fun _ _ => .inl
  | killFinds =>
      exact h.proceed (.of_eq fun _ _ => id) rfl hstill (flag_of_setKill rfl (by simp))
        fun _ _ => id
  | killRemoves =>
      exact h.proceed (proceeds_terminate rfl (by rintro ⟨⟩)) rfl hstill
        (flag_of_setKill rfl (by simp)) fun _ _ => id
  | signalGoesOn _ hs =>
      refine h.proceed (.of_eq fun _ _ => id) rfl hstill (fun _ _ => id)
        (signal_of_setSignal rfl ?_)
      rintro rfl
      cases hs
  | signalLocks =>
      exact h.proceed (.of_eq fun _ _ => id) rfl hstill (fun _ _ => id)
        (signal_of_setSignal rfl (by simp))
  | @signalFlags p n r hn hr =>
      obtain ⟨a, hs, hi⟩ := flag_step r
      refine h.attend (.one hr hs (fun x _ ha => ha.idles hi) rfl) rfl rfl (fun _ _ => .inl)
        fun m q hm => ?_
      rcases of_setSignal hm with ⟨rfl, rfl, -⟩ | ⟨-, hm⟩
      · exact .inr ⟨r.flag, Function.update_self .., rfl⟩
      · exact .inl hm
  | @signalTerminates p n hn =>
      obtain ⟨r, hr, hk⟩ := h.signalled n p hn
      refine h.proceed (proceeds_doom rfl fun _ r' hr' => ?_) rfl hstill (fun _ _ => id)
        (signal_of_setSignal rfl (by simp))
      obtain rfl := Option.some.inj (hr.symm.trans hr')
      exact hk
  | signalFails =>
      exact h.proceed (.of_eq fun _ _ => id) rfl hstill (fun _ _ => id)
        (signal_of_setSignal rfl (by simp))
  | @works p r r' status hr ha hs =>
      refine h.attend (.one hr hs (fun x hx₀ hat => hat.work (fun hw code hcode => ?_) hs) rfl)
        rfl rfl (fun _ _ => .inl) fun _ _ => .inl
      have hany := ha.2 hw code hcode
      rw [hx₀, Option.any_some, Bool.and_eq_true, beq_iff_eq] at hany
      cases hp : x.phase with
      | ended e => exact ⟨e, rfl, by simpa [exitCode, hp] using hany.2⟩
      | suspended => rw [hp] at hany; cases hany.1
      | running => rw [hp] at hany; cases hany.1
      | dying e => rw [hp] at hany; cases hany.1
  | waitsInside hl hr ha hs hc =>
      have hi := JobReader.idles_of_call ha hs
      split
      · exact h.attend (.one hr hs (fun x _ hat => hat.idles hi) rfl) rfl rfl (fun _ _ => .inl)
          fun _ _ => .inl
      · exact h.attend (.one hr hs (fun x _ hat => hat.idles hi) rfl) rfl rfl (fun _ _ => .inl)
          fun _ _ => .inl
  | waits hr ha hs =>
      have hi := JobReader.idles_of_call ha hs
      exact h.attend (.one hr hs (fun x _ hat => hat.idles hi) rfl) rfl rfl (fun _ _ => .inl)
        fun _ _ => .inl

end JobState

end Shepherd
