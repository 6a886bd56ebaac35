import Shepherd.Observation.Sampler

/-!
# Samples of One Process

* `ProcWorld.step_later` — what a step can do to the processes.
* `shows_of_stat`, `shows_of_status` — what is read is said of the process with the number.
* `Measured` — what a measurement says of a process: it had the number from the first read to the
  last, and had used that much.
* `sampled_of_observes` — every measurement of `sample` is one of a process, and an identity that
  is reported as changed has changed. The start time is read in ticks of a clock, so this assumes
  that no number is used again within the tick at which an earlier owner of it started
  (`NumberTable.Identified`).
* `observes_sample` — a process that is there, and whose files can be read, is measured.
-/

namespace Shepherd.Observation

open Conc Proc
open Prog (onOk)

variable {seconds : ℕ → ℕ → Duration} {w w' w₁ w₂ : ProcWorld} {pid p start : ℕ} {m : Meter}
  {identity : ObservedProcessIdentity} {u : ProcessUsage}

/-! ### Worlds -/

namespace ProcWorld

/-- The same processes, later. -/
structure Later (w w' : ProcWorld) : Prop where
  procs : NumberTable.Later w.procs w'.procs
  ticks : ∀ (p : ℕ) (m : Meter), w.meters[p]? = some m →
    ∃ m', w'.meters[p]? = some m' ∧ m.ticks ≤ m'.ticks
  hz : w'.hz = w.hz
  now : w.now ≤ w'.now

/-- A world is later than itself. -/
theorem Later.refl (w : ProcWorld) : Later w w :=
  ⟨.refl _, fun _ m hm => ⟨m, hm, Nat.le_refl _⟩, rfl, Nat.le_refl _⟩

/-- A world changes step by step. -/
theorem Later.trans (h : Later w w₁) (h' : Later w₁ w') : Later w w' := by
  refine ⟨h.procs.trans h'.procs, fun p m hm => ?_, h'.hz.trans h.hz, h.now.trans h'.now⟩
  obtain ⟨m₁, hm₁, hle⟩ := h.ticks p m hm
  obtain ⟨m', hm', hle'⟩ := h'.ticks p m₁ hm₁
  exact ⟨m', hm', hle.trans hle'⟩

/-- Meters that are as before. -/
theorem Later.of_meters (hp : NumberTable.Later w.procs w'.procs) (hm : w'.meters = w.meters)
    (hz : w'.hz = w.hz) (hn : w.now ≤ w'.now) : Later w w' :=
  ⟨hp, fun _ m hm' => ⟨m, hm ▸ hm', Nat.le_refl _⟩, hz, hn⟩

/-- **What a step can do**: processes stay different, and go on. -/
theorem step_later {e : ProcStep} (hd : w.procs.Distinct) (hs : w.step e = some w') :
    w'.procs.Distinct ∧ Later w w' := by
  cases e with
  | create number start =>
      obtain ⟨procs, hc, rfl⟩ := Option.map_eq_some_iff.mp hs
      refine ⟨hd.create hc, .create hc, fun p m hm => ⟨m, ?_, Nat.le_refl _⟩, rfl, Nat.le_refl _⟩
      rw [List.getElem?_append_left (List.getElem?_eq_some_iff.mp hm).1, hm]
  | finish p =>
      obtain rfl := Option.some.inj hs
      exact ⟨hd.finish, .of_meters (.finish _ p) rfl rfl (Nat.le_refl _)⟩
  | reap p =>
      obtain ⟨procs, hr, rfl⟩ := Option.map_eq_some_iff.mp hs
      exact ⟨hd.reap hr, .of_meters (.reap hr) rfl rfl (Nat.le_refl _)⟩
  | work p m' =>
      rw [step, Option.ite_none_right_eq_some] at hs
      obtain ⟨hany, hs⟩ := hs
      obtain rfl := Option.some.inj hs
      obtain ⟨old, hold, hle⟩ := (Option.any_eq_true _ _).mp hany
      refine ⟨hd, .refl _, fun q m hm => ?_, rfl, Nat.le_refl _⟩
      by_cases heq : p = q
      · subst heq
        obtain rfl := Option.some.inj (hold.symm.trans hm)
        have hlt := (List.getElem?_eq_some_iff.mp hm).1
        exact ⟨m', List.getElem?_set_self hlt, of_decide_eq_true hle⟩
      · exact ⟨m, by rw [List.getElem?_set_ne heq, hm], Nat.le_refl _⟩
  | setTime btime =>
      obtain rfl := Option.some.inj hs
      exact ⟨hd, .of_meters (.refl _) rfl rfl (Nat.le_refl _)⟩
  | elapse d =>
      obtain rfl := Option.some.inj hs
      exact ⟨hd, .of_meters (.refl _) rfl rfl (Nat.le_add_right _ _)⟩

/-- What runs do. -/
theorem later_of_reaches (hd : w.procs.Distinct) (hr : Reaches step w w') :
    w'.procs.Distinct ∧ Later w w' := by
  induction hr with
  | initial => exact ⟨hd, .refl w⟩
  | step e _ _ hs ih =>
      obtain ⟨hd', hl⟩ := step_later ih.1 hs
      exact ⟨hd', ih.2.trans hl⟩

/-- What identifies processes later identified them before. -/
theorem identified_of_reaches (hd : w.procs.Distinct) (hr : Reaches step w w')
    (hid : w'.procs.Identified) : w.procs.Identified :=
  (later_of_reaches hd hr).2.procs.identified hid

/-- The process has the number, started at this time, and has used this much. -/
structure Shows (w : ProcWorld) (pid p start : ℕ) (m : Meter) : Prop where
  holder : w.procs.holder pid = some p
  started : ∃ x, w.procs[p]? = some x ∧ x.start = start
  meter : w.meters[p]? = some m

/-- What is read under a number is the process that has it. -/
theorem shown_eq_some : w.shown pid = some (start, m) ↔ ∃ p, w.Shows pid p start m := by
  rw [shown]
  constructor
  · intro h
    obtain ⟨p, hp, h⟩ := Option.bind_eq_some_iff.mp h
    obtain ⟨x, hx, h⟩ := Option.bind_eq_some_iff.mp h
    obtain ⟨m', hm, h⟩ := Option.bind_eq_some_iff.mp h
    obtain ⟨rfl, rfl⟩ := Prod.mk.inj (Option.some.inj h)
    exact ⟨p, hp, ⟨x, hx, rfl⟩, hm⟩
  · rintro ⟨p, hp, ⟨x, hx, rfl⟩, hm⟩
    simp [hp, hx, hm]

/-- A process that has its number later has it until then. -/
theorem holder_between {v : ProcWorld} (hd : w.procs.Distinct) (h : w.procs.holder pid = some p)
    (h' : w'.procs.holder pid = some p) (hv : Reaches step w v) (hv' : Reaches step v w') :
    v.procs.holder pid = some p := by
  obtain ⟨hdv, hlv⟩ := later_of_reaches hd hv
  obtain ⟨-, hlv'⟩ := later_of_reaches hdv hv'
  refine hlv.procs.holder hdv h ?_
  cases hreaped : v.procs.isReaped p with
  | false => rfl
  | true =>
      have := hlv'.procs.isReaped hreaped
      rw [NumberTable.isReaped_of_holder h'] at this
      cases this

/-- **The same number and time are the same process**, which had the number in between. -/
theorem Shows.same {q : ℕ} {m' : Meter} (hd : w.procs.Distinct) (hid : w'.procs.Identified)
    (h : w.Shows pid p start m) (h' : w'.Shows pid q start m') (hr : Reaches step w w') :
    p = q ∧ ∀ v, Reaches step w v → Reaches step v w' → v.procs.holder pid = some p := by
  obtain ⟨-, hl⟩ := later_of_reaches hd hr
  obtain ⟨x, hx, hs⟩ := h.started
  obtain ⟨y, hy, hs'⟩ := h'.started
  obtain rfl := hl.procs.holder_unique hid h.holder h'.holder hx hy (hs.trans hs'.symm)
  exact ⟨rfl, fun v hv hv' => holder_between hd h.holder h'.holder hv hv'⟩

end ProcWorld

/-! ### Reading -/

section

variable {α : Type} {o : SampleOp} {a : SampleAnswer} {r : o.Result} {f : o.Result → SampleCode α}
  {v : α}

/-- **An observation changes nothing.** -/
theorem sampleExec_reads (h : sampleExec o a w = some (r, w')) : w' = w := by
  cases o with
  | stat pid =>
      cases a with
      | fails => exact (Prod.mk.inj (Option.some.inj h)).2.symm
      | stat st =>
          obtain ⟨⟨start, m⟩, -, h⟩ := Option.bind_eq_some_iff.mp h
          rw [Option.ite_none_right_eq_some] at h
          exact (Prod.mk.inj (Option.some.inj h.2)).2.symm
      | _ => cases h
  | status pid =>
      cases a with
      | fails => exact (Prod.mk.inj (Option.some.inj h)).2.symm
      | status st =>
          obtain ⟨⟨start, m⟩, -, h⟩ := Option.bind_eq_some_iff.mp h
          rw [Option.ite_none_right_eq_some] at h
          exact (Prod.mk.inj (Option.some.inj h.2)).2.symm
      | _ => cases h
  | bootStat =>
      cases a with
      | fails => exact (Prod.mk.inj (Option.some.inj h)).2.symm
      | boot b =>
          rw [sampleExec, Option.ite_none_right_eq_some] at h
          exact (Prod.mk.inj (Option.some.inj h.2)).2.symm
      | _ => cases h
  | clockTicks =>
      cases a with
      | fails => exact (Prod.mk.inj (Option.some.inj h)).2.symm
      | known => exact (Prod.mk.inj (Option.some.inj h)).2.symm
      | unknown => exact (Prod.mk.inj (Option.some.inj h)).2.symm
      | _ => cases h
  | now =>
      cases a with
      | known => exact (Prod.mk.inj (Option.some.inj h)).2.symm
      | _ => cases h

/-- What is asked is answered some time later. -/
theorem of_ask (h : Observes (ask o >>= f) w v w') : ∃ w₁ a r, Reaches ProcWorld.step w w₁ ∧
    sampleExec o a w₁ = some (r, w₁) ∧ Observes (f r) w₁ v w' := by
  obtain ⟨w₁, a, r, w₂, hr, he, h⟩ := Prog.Beside.of_op h
  obtain rfl := sampleExec_reads he
  exact ⟨w₂, a, r, hr, he, h⟩

/-- An observation is a run of the world. -/
theorem reaches_of_observes {p : SampleCode α} (h : Observes p w v w') :
    Reaches ProcWorld.step w w' :=
  h.reaches fun o a w r w' (he : sampleExec o a w = some (r, w')) => sampleExec_reads he

end

/-- A start time and ticks that are read are those of the process with the number. -/
theorem shows_of_stat {a : SampleAnswer} {file : FileContent} {ticks : ℕ}
    (h : sampleExec (.stat pid) a w = some (file, w')) (hu : usageStat file = .ok (start, ticks)) :
    ∃ p m, w.Shows pid p start m ∧ m.ticks = ticks := by
  cases a with
  | fails message =>
      obtain ⟨rfl, -⟩ := Prod.mk.inj (Option.some.inj h)
      cases hu
  | stat st =>
      obtain ⟨⟨start', m⟩, hm, h⟩ := Option.bind_eq_some_iff.mp h
      rw [Option.ite_none_right_eq_some] at h
      obtain ⟨⟨-, hstart, hticks⟩, h⟩ := h
      obtain ⟨rfl, -⟩ := Prod.mk.inj (Option.some.inj h)
      obtain ⟨p, hp⟩ := ProcWorld.shown_eq_some.mp hm
      have hvalid : st.comm.IsValidUTF8 := by
        by_contra hn
        rw [usageStat, readToString_line_of_not_valid hn] at hu
        cases hu
      rw [usageStat_line hvalid] at hu
      split at hu
      · obtain ⟨rfl, rfl⟩ := Prod.mk.inj (Except.ok.inj hu)
        exact ⟨p, m, hstart ▸ hp, hticks.symm⟩
      · cases hu
  | _ => cases h

/-- Memory that is read is that of the process with the number. -/
theorem shows_of_status {a : SampleAnswer} {file : FileContent} {bytes : ℕ}
    (h : sampleExec (.status pid) a w = some (file, w')) (hb : residentBytes file = .ok bytes) :
    ∃ p start m, w.Shows pid p start m ∧ bytes = m.rss * 1024 := by
  cases a with
  | fails message =>
      obtain ⟨rfl, -⟩ := Prod.mk.inj (Option.some.inj h)
      cases hb
  | status st =>
      obtain ⟨⟨start, m⟩, hm, h⟩ := Option.bind_eq_some_iff.mp h
      rw [Option.ite_none_right_eq_some] at h
      obtain ⟨hrss, h⟩ := h
      obtain ⟨rfl, -⟩ := Prod.mk.inj (Option.some.inj h)
      obtain ⟨p, hp⟩ := ProcWorld.shown_eq_some.mp hm
      rw [residentBytes_file] at hb
      cases hst : st.rss with
      | none =>
          rw [hst] at hb
          cases hb
      | some n =>
          rw [hst] at hb hrss
          obtain rfl : n = m.rss := by simpa using hrss
          dsimp only at hb
          split at hb
          · exact ⟨p, start, m, hp, (Except.ok.inj hb).symm⟩
          · cases hb
  | _ => cases h

/-- The boot time that is read is that of the kernel. -/
theorem eq_of_boot {a : SampleAnswer} {file : FileContent} {boot : ℕ}
    (h : sampleExec .bootStat a w = some (file, w')) (hb : bootTime file = .ok boot) :
    boot = w.btime := by
  cases a with
  | fails message =>
      obtain ⟨rfl, -⟩ := Prod.mk.inj (Option.some.inj h)
      cases hb
  | boot b =>
      rw [sampleExec, Option.ite_none_right_eq_some] at h
      obtain ⟨heq, h⟩ := h
      obtain ⟨rfl, -⟩ := Prod.mk.inj (Option.some.inj h)
      rw [bootTime_file] at hb
      exact (Except.ok.inj hb).symm.trans heq
  | _ => cases h

/-- The moment that is read is the present one. -/
theorem eq_of_now {a : SampleAnswer} {r : Instant} (h : sampleExec .now a w = some (r, w')) :
    r = w.now := by
  cases a with
  | known => exact (Prod.mk.inj (Option.some.inj h)).1.symm
  | _ => cases h

/-- The clock rate that is read is that of the system. -/
theorem eq_of_clock {a : SampleAnswer} {r : Except String (Option Int)} {hz : ℕ}
    (h : sampleExec .clockTicks a w = some (r, w')) (hc : clockHz r = .ok hz) :
    hz = w.hz.toNat := by
  cases a with
  | fails message =>
      obtain ⟨rfl, -⟩ := Prod.mk.inj (Option.some.inj h)
      cases hc
  | known =>
      obtain ⟨rfl, -⟩ := Prod.mk.inj (Option.some.inj h)
      rw [clockHz] at hc
      split at hc
      · cases hc
      · exact (Except.ok.inj hc).symm
  | unknown =>
      obtain ⟨rfl, -⟩ := Prod.mk.inj (Option.some.inj h)
      cases hc
  | _ => cases h

/-! ### Reads that fail -/

section

variable {α β ε : Type}

/-- A failure that neither of two steps has is not one of both. -/
theorem bind_ne_error {x : Except UsageFailure α} {f : α → Except UsageFailure β} {e : UsageFailure}
    (hx : x ≠ .error e) (hf : ∀ v, f v ≠ .error e) : (x >>= f) ≠ .error e := by
  cases x with
  | error e' => exact fun h => hx (congrArg Except.error (Except.error.inj h))
  | ok v => exact hf v

/-- A failure whose text is changed is no change of identity. -/
theorem mapError_ne_error {x : Except ε α} {f : ε → String} :
    (x.mapError fun e => UsageFailure.unavailable (f e)) ≠ .error .identityChanged := by
  cases x with
  | error e => exact fun h => UsageFailure.noConfusion (Except.error.inj h)
  | ok v => exact fun h => by cases h

end

/-- A number that cannot be read is no change of identity. -/
theorem number_ne_identityChanged {fields : List (List Char)} {index : ℕ} :
    number fields index ≠ .error .identityChanged := by
  rw [number]
  split
  · simp
  · exact mapError_ne_error

/-- A stat file that cannot be read is no change of identity. -/
theorem usageStat_ne_identityChanged {file : FileContent} :
    usageStat file ≠ .error .identityChanged := by
  rw [usageStat]
  refine bind_ne_error mapError_ne_error fun text => ?_
  split
  · simp
  · refine bind_ne_error number_ne_identityChanged fun start => ?_
    refine bind_ne_error number_ne_identityChanged fun utime => ?_
    refine bind_ne_error number_ne_identityChanged fun stime => ?_
    split <;> simp

/-- A memory size that cannot be read is no change of identity. -/
theorem residentBytes_ne_identityChanged {file : FileContent} :
    residentBytes file ≠ .error .identityChanged := by
  rw [residentBytes]
  refine bind_ne_error mapError_ne_error fun text => ?_
  split
  · simp
  · refine bind_ne_error mapError_ne_error fun kb => ?_
    split <;> simp

/-- A boot time that cannot be read is no change of identity. -/
theorem bootTime_ne_identityChanged {file : FileContent} :
    bootTime file ≠ .error .identityChanged := by
  rw [bootTime]
  refine bind_ne_error mapError_ne_error fun text => ?_
  split
  · simp
  · exact mapError_ne_error

/-- A clock rate that cannot be read is no change of identity. -/
theorem clockHz_ne_identityChanged {r : Except String (Option Int)} :
    clockHz r ≠ .error .identityChanged := by
  rw [clockHz.eq_def]
  split
  · simp
  · simp
  · split <;> simp

/-! ### Samples -/

/-- What a measurement says of a process, with the moments at which its start time was read, its
memory, and its start time again. -/
structure MeasuredAt (seconds : ℕ → ℕ → Duration) (w w' : ProcWorld)
    (identity : ObservedProcessIdentity) (u : ProcessUsage) (p : ℕ)
    (first middle last : ProcWorld) : Prop where
  began : Reaches ProcWorld.step w first
  before : Reaches ProcWorld.step first middle
  after : Reaches ProcWorld.step middle last
  ended : Reaches ProcWorld.step last w'
  holder : ∀ v, Reaches ProcWorld.step first v → Reaches ProcWorld.step v last →
    v.procs.holder identity.osPid = some p
  started : ∃ x, first.procs[p]? = some x ∧ x.start = u.nativeStart
  cpu : ∃ m, first.meters[p]? = some m ∧ u.cpuTime = seconds m.ticks first.hz.toNat
  memory : ∃ m, middle.meters[p]? = some m ∧ u.residentBytes = m.rss * 1024
  same_identity : u.identity = identity
  epoch : ∀ t ∈ identity.startTimeUnixSeconds, ∃ v, Reaches ProcWorld.step middle v ∧
    Reaches ProcWorld.step v last ∧ t = startSeconds v.btime u.nativeStart first.hz.toNat
  sampled : ∃ v, Reaches ProcWorld.step last v ∧ Reaches ProcWorld.step v w' ∧ u.sampledAt = v.now

/-- **A measurement of a process.** -/
def Measured (seconds : ℕ → ℕ → Duration) (w w' : ProcWorld) (identity : ObservedProcessIdentity)
    (u : ProcessUsage) (p : ℕ) : Prop :=
  ∃ first middle last, MeasuredAt seconds w w' identity u p first middle last

/-- The identity is not, or no more, that of the process with the number. -/
def Changed (w w' : ProcWorld) (identity : ObservedProcessIdentity) : Prop :=
  ∃ first p start m, Reaches ProcWorld.step w first ∧ first.Shows identity.osPid p start m ∧
    (w'.procs.isReaped p = true ∨ ∃ v t, Reaches ProcWorld.step first v ∧
      Reaches ProcWorld.step v w' ∧ identity.startTimeUnixSeconds = some t ∧
      t ≠ startSeconds v.btime start first.hz.toNat)

/-- **What a sample says.** -/
def Sampled (seconds : ℕ → ℕ → Duration) (w w' : ProcWorld) (identity : ObservedProcessIdentity) :
    Except UsageFailure ProcessUsage → Prop
  | .ok u => ∃ p, Measured seconds w w' identity u p
  | .error .identityChanged => Changed w w' identity
  | .error _ => True

/-- Any other failure says nothing of the process. -/
theorem sampled_of_ne {e : UsageFailure} (h : e ≠ .identityChanged) :
    Sampled seconds w w' identity (.error e) := by
  cases e with
  | identityChanged => exact absurd rfl h
  | _ => trivial

/-- **A read of a sample** fails and says so, or is of some moment later. -/
theorem sampled_of_read {α : Type} {w₀ : ProcWorld} {o : SampleOp}
    {g : o.Result → Except UsageFailure α} {k : α → SampleCode (Except UsageFailure ProcessUsage)}
    {r : Except UsageFailure ProcessUsage} (hg : ∀ x, g x ≠ .error .identityChanged)
    (h : Observes (ask o >>= fun x => onOk (g x) k) w r w') :
    Sampled seconds w₀ w' identity r ∨ ∃ w₁ a x v, Reaches ProcWorld.step w w₁ ∧
      sampleExec o a w₁ = some (x, w₁) ∧ g x = .ok v ∧ Observes (k v) w₁ r w' := by
  obtain ⟨w₁, a, x, hr, he, h⟩ := of_ask h
  rcases Prog.Beside.of_onOk h with ⟨e, hx, rfl⟩ | ⟨v, hx, h⟩
  · exact .inl (sampled_of_ne fun heq => hg x (heq ▸ hx))
  · exact .inr ⟨w₁, a, x, v, hr, he, hx, h⟩

/-- A process that has lost its number to one with another start time is reaped. -/
theorem isReaped_of_started {again : ℕ} {q : ℕ} {m' : Meter} (hd : w.procs.Distinct)
    (h : w.Shows pid p start m) (h' : w'.Shows pid q again m') (hne : again ≠ start)
    (hr : Reaches ProcWorld.step w w') : w'.procs.isReaped p = true := by
  obtain ⟨hd', hl⟩ := ProcWorld.later_of_reaches hd hr
  cases hreaped : w'.procs.isReaped p with
  | true => rfl
  | false =>
      have hp := hl.procs.holder hd' h.holder hreaped
      obtain rfl := Option.some.inj (hp.symm.trans h'.holder)
      obtain ⟨x, hx, hs⟩ := h.started
      obtain ⟨y, hy, hs'⟩ := h'.started
      obtain ⟨x', hx', -, hsx, -⟩ := hl.procs p x hx
      obtain rfl := Option.some.inj (hx'.symm.trans hy)
      exact absurd (hs'.symm.trans (hsx.trans hs)) hne

/-- **A sample**, read after read. The moment at which the second of the start is checked is that
of the read of the boot time, as the clock may be set. If the start time is the same at the end, the
number was nobody else's in between, and the memory read there is that of the same process. -/
theorem sampled_of_observes {r : Except UsageFailure ProcessUsage} (hd : w.procs.Distinct)
    (hid : w'.procs.Identified) (h : Observes (sample seconds identity) w r w') :
    Sampled seconds w w' identity r := by
  obtain hfail | ⟨w₁, a₁, file₁, ⟨start, ticks⟩, hr₁, he₁, hf₁, h⟩ :=
    sampled_of_read (fun _ => usageStat_ne_identityChanged) h
  · exact hfail
  obtain hfail | ⟨w₂, a₂, file₂, bytes, hr₂, he₂, hf₂, h⟩ :=
    sampled_of_read (fun _ => residentBytes_ne_identityChanged) h
  · exact hfail
  obtain hfail | ⟨w₃, a₃, file₃, boot, hr₃, he₃, hf₃, h⟩ :=
    sampled_of_read (fun _ => bootTime_ne_identityChanged) h
  · exact hfail
  obtain hfail | ⟨w₄, a₄, ticks', hz, hr₄, he₄, hf₄, h⟩ :=
    sampled_of_read (fun _ => clockHz_ne_identityChanged) h
  · exact hfail
  obtain ⟨p, m, hp, rfl⟩ := shows_of_stat he₁ hf₁
  obtain rfl := eq_of_boot he₃ hf₃
  obtain rfl := eq_of_clock he₄ hf₄
  obtain ⟨hd₁, -⟩ := ProcWorld.later_of_reaches hd hr₁
  have hr₁₃ := hr₂.trans hr₃
  have hr₁₄ := hr₁₃.trans hr₄
  obtain ⟨-, hl₁₄⟩ := ProcWorld.later_of_reaches hd₁ hr₁₄
  rw [hl₁₄.hz] at h
  split at h
  · next hany =>
      obtain ⟨rfl, hr₅⟩ := h.of_pure
      obtain ⟨t, ht, hne⟩ := (Option.any_eq_true _ _).mp hany
      exact ⟨w₁, p, start, m, hr₁, hp, .inr ⟨w₃, t, hr₁₃, hr₄.trans hr₅, ht, by simpa using hne⟩⟩
  next hany =>
  obtain hfail | ⟨w₅, a₅, file₅, ⟨again, ticks''⟩, hr₅, he₅, hf₅, h⟩ :=
    sampled_of_read (fun _ => usageStat_ne_identityChanged) h
  · exact hfail
  obtain ⟨q, m', hq, -⟩ := shows_of_stat he₅ hf₅
  have hr₁₅ := hr₁₄.trans hr₅
  dsimp only at h
  split at h
  · next hne =>
      obtain ⟨rfl, hr₆⟩ := h.of_pure
      have hreaped := isReaped_of_started hd₁ hp hq hne hr₁₅
      have hd₅ := (ProcWorld.later_of_reaches hd₁ hr₁₅).1
      have hl₆ := (ProcWorld.later_of_reaches hd₅ hr₆).2
      exact ⟨w₁, p, start, m, hr₁, hp, .inl (hl₆.procs.isReaped hreaped)⟩
  next heq =>
  obtain rfl := not_not.mp heq
  obtain ⟨w₆, a₆, now, hr₆, he₆, h⟩ := of_ask h
  obtain ⟨rfl, hr₇⟩ := h.of_pure
  have hd₅ := (ProcWorld.later_of_reaches hd₁ hr₁₅).1
  have hid₅ := ProcWorld.identified_of_reaches hd₅ (hr₆.trans hr₇) hid
  obtain ⟨rfl, hholder⟩ := hp.same hd₁ hid₅ hq hr₁₅
  have hepoch : ∀ t ∈ identity.startTimeUnixSeconds, ∃ v, Reaches ProcWorld.step w₂ v ∧
      Reaches ProcWorld.step v w₅ ∧ t = startSeconds v.btime again w₁.hz.toNat := by
    refine fun t ht => ⟨w₃, hr₃, hr₄.trans hr₅, ?_⟩
    by_contra hne
    exact hany ((Option.any_eq_true _ _).mpr ⟨t, ht, by simpa using hne⟩)
  obtain ⟨p₂, start₂, m₂, hp₂, rfl⟩ := shows_of_status he₂ hf₂
  obtain rfl := Option.some.inj
    (hp₂.holder.symm.trans (hholder w₂ hr₂ ((hr₃.trans hr₄).trans hr₅)))
  exact ⟨p₂, w₁, w₂, w₅, {
    began := hr₁
    before := hr₂
    after := (hr₃.trans hr₄).trans hr₅
    ended := hr₆.trans hr₇
    holder := hholder
    started := hp.started
    cpu := ⟨m, hp.meter, rfl⟩
    memory := ⟨m₂, hp₂.meter, rfl⟩
    same_identity := rfl
    epoch := hepoch
    sampled := ⟨w₆, hr₆, hr₇, eq_of_now he₆⟩ }⟩

/-! ### Processes that can be measured -/

/-- **A process is measured** if it is there, its files can be read, the name in them is text, the
numbers are not too large, and it started in the second of the identity. -/
theorem observes_sample (st : KernelStat) (k : KernelStatus) (b : KernelBoot)
    (hm : w.shown identity.osPid = some (start, m)) (hpid : st.pid = identity.osPid)
    (hstart : st.starttime = start) (hticks : st.utime + st.stime = m.ticks)
    (hvalid : st.comm.IsValidUTF8) (hsum : m.ticks ≤ U64_MAX) (hrss : k.rss = some m.rss)
    (hbytes : m.rss * 1024 ≤ U64_MAX) (hboot : b.btime = w.btime) (hz : 0 < w.hz)
    (hepoch : ∀ t ∈ identity.startTimeUnixSeconds, t = startSeconds w.btime start w.hz.toNat) :
    Observes (sample seconds identity) w
      (.ok ⟨identity, start, w.now, seconds m.ticks w.hz.toNat, m.rss * 1024, none, none, none,
        none⟩) w := by
  have hstat : sampleExec (.stat identity.osPid) (.stat st) w = some (.ok st.line, w) := by
    rw [sampleExec, hm, Option.bind_some]
    exact if_pos ⟨hpid, hstart, hticks⟩
  have hstatus : sampleExec (.status identity.osPid) (.status k) w = some (.ok k.file, w) := by
    rw [sampleExec, hm, Option.bind_some]
    exact if_pos (by simp [hrss])
  have hread : sampleExec .bootStat (.boot b) w = some (.ok b.file, w) := by
    rw [sampleExec, if_pos hboot]
  have husage : usageStat (.ok st.line) = .ok (start, m.ticks) := by
    rw [usageStat_line hvalid, hstart, hticks, if_pos hsum]
  have hresident : residentBytes (.ok k.file) = .ok (m.rss * 1024) := by
    rw [residentBytes_file, hrss]
    exact if_pos hbytes
  have hclock : clockHz (.ok (some w.hz)) = .ok w.hz.toNat :=
    if_neg (Int.not_le.mpr hz)
  have hany : identity.startTimeUnixSeconds.any (· ≠ startSeconds w.btime start w.hz.toNat) =
      false := by
    cases ht : identity.startTimeUnixSeconds with
    | none => rfl
    | some t => simpa using hepoch t ht
  refine .op (.stat st) hstat ?_
  rw [Prog.pure_bind, husage]
  refine .op (.status k) hstatus ?_
  rw [Prog.pure_bind, hresident]
  refine .op (.boot b) hread ?_
  rw [Prog.pure_bind, bootTime_file, hboot]
  refine .op .known rfl ?_
  rw [Prog.pure_bind, hclock]
  simp only [onOk, hany]
  refine .op (.stat st) hstat ?_
  rw [Prog.pure_bind, husage]
  simp only [ne_eq, not_true_eq_false, if_false]
  refine .op .known rfl ?_
  exact .pure _ _

end Shepherd.Observation
