import Shepherd.Observation.SamplerRuns

/-!
# Rates of One Process

A rate compares the measurements of two snapshots. Between them, and during each, processes end
and their numbers go to others; but never, it is assumed, within the tick of the clock at which an
earlier owner of the number started, which the start time could not tell apart.

Main results:

* `usage_is_of_one_process` — a measurement in a snapshot is one of a process that had its number
  from the first read to the last, and an identity that is reported as changed has changed.
* `rates_are_of_one_process` — the measurements that a rate is taken of are those of one process,
  and every process that was measured twice, at different times, has a rate.
-/

namespace Shepherd.Observation

open Conc Keyed Proc

variable {seconds : ℕ → ℕ → Duration} {w w' w₁ w₂ : ProcWorld} {p q : ℕ}
  {identity : ObservedProcessIdentity} {u old now : ProcessUsage}

/-! ### Snapshots -/

/-- A sample within a longer time. -/
theorem Sampled.widen {v v' : ProcWorld} {r : Except UsageFailure ProcessUsage}
    (hd : v'.procs.Distinct) (h : Sampled seconds v v' identity r)
    (hr : Reaches ProcWorld.step w v) (hr' : Reaches ProcWorld.step v' w') :
    Sampled seconds w w' identity r := by
  cases r with
  | ok u =>
      obtain ⟨p, first, middle, last, hm⟩ := h
      obtain ⟨m, hlast, hm', hnow⟩ := hm.sampled
      exact ⟨p, first, middle, last, { hm with
        began := hr.trans hm.began
        ended := hm.ended.trans hr'
        sampled := ⟨m, hlast, hm'.trans hr', hnow⟩ }⟩
  | error e =>
      by_cases he : e = .identityChanged
      · subst he
        obtain ⟨first, p, start, m, hfirst, hp, hc⟩ := h
        refine ⟨first, p, start, m, hr.trans hfirst, hp, ?_⟩
        rcases hc with hreaped | ⟨x, t, hx, hx', ht⟩
        · exact .inl ((ProcWorld.later_of_reaches hd hr').2.procs.isReaped hreaped)
        · exact .inr ⟨x, t, hx, hx'.trans hr', ht⟩
      · exact sampled_of_ne he

/-- **The samples of some members**, one after the other. -/
theorem sampled_of_sampleAll {members : List ObservedProcessIdentity} {entries : List UsageEntry}
    (hd : w.procs.Distinct) (hid : w'.procs.Identified)
    (h : Observes (sampleAll seconds members) w entries w') :
    entries.map UsageEntry.identity = members ∧
      ∀ e ∈ entries, Sampled seconds w w' e.identity e.measurement := by
  induction members generalizing w w' entries with
  | nil =>
      obtain ⟨rfl, -⟩ := h.of_pure
      exact ⟨rfl, by simp⟩
  | cons identity members ih =>
      obtain ⟨measurement, w₁, hs, h⟩ := Prog.Beside.of_bind h
      obtain ⟨rest, w₂, hall, h⟩ := Prog.Beside.of_bind h
      obtain ⟨rfl, hr₂⟩ := h.of_pure
      have hr₁ := reaches_of_observes hs
      have hd₁ := (ProcWorld.later_of_reaches hd hr₁).1
      have hr := reaches_of_observes hall
      have hd₂ := (ProcWorld.later_of_reaches hd₁ hr).1
      have hid₂ := ProcWorld.identified_of_reaches hd₂ hr₂ hid
      have hid₁ := ProcWorld.identified_of_reaches hd₁ hr hid₂
      obtain ⟨hmap, hrest⟩ := ih hd₁ hid₂ hall
      refine ⟨by rw [List.map_cons, hmap], fun e he => ?_⟩
      rcases List.mem_cons.mp he with rfl | he
      · exact (sampled_of_observes hd hid₁ hs).widen hd₁ .initial (hr.trans hr₂)
      · exact (hrest e he).widen hd₂ hr₁ hr₂

/-- What a collection measures, member by member, from a state in which no number is used twice. -/
theorem sampled_of_collect {members : List ObservedProcessIdentity} {selection : UsageSelection}
    {s : UsageSnapshot} (hd : w.procs.Distinct) (hid : w'.procs.Identified)
    (h : Observes (collect seconds members selection) w s w') :
    s.selection = selection ∧
      s.entries.map UsageEntry.identity = firsts ObservedProcessIdentity.osPid [] members ∧
      ∀ e ∈ s.entries, Sampled seconds w w' e.identity e.measurement := by
  obtain ⟨w₁, -, startedAt, hr₁, -, h⟩ := of_ask h
  obtain ⟨entries, w₂, hall, h⟩ := Prog.Beside.of_bind h
  obtain ⟨w₃, -, finishedAt, hr₃, -, h⟩ := of_ask h
  obtain ⟨rfl, hr₄⟩ := h.of_pure
  have hd₁ := (ProcWorld.later_of_reaches hd hr₁).1
  have hd₂ := (ProcWorld.later_of_reaches hd₁ (reaches_of_observes hall)).1
  have hid₂ := ProcWorld.identified_of_reaches hd₂ (hr₃.trans hr₄) hid
  obtain ⟨hmap, hall⟩ := sampled_of_sampleAll hd₁ hid₂ hall
  exact ⟨rfl, hmap, fun e he => (hall e he).widen hd₂ hr₁ (hr₃.trans hr₄)⟩

/-- In every run no number is used twice at a time. -/
theorem distinct_of_new {btime : ℕ} {hz : Int} (h : Reaches ProcWorld.step (.new btime hz) w) :
    w.procs.Distinct :=
  (ProcWorld.later_of_reaches NumberTable.distinct_nil h).1

/-- **A measurement is one of a single process.** Whatever happens while a snapshot is taken, if no
number and start time belong to two processes by its end, each member is listed once; what is
measured for it, a process had used that had the number from the first read to the last, and
started in the second of the identity; and when the identity is reported as changed, the number
belonged to a process that had started in another second, or that is reaped. -/
theorem usage_is_of_one_process {btime : ℕ} {hz : Int} {members : List ObservedProcessIdentity}
    {selection : UsageSelection} {s : UsageSnapshot}
    (hw : Reaches ProcWorld.step (.new btime hz) w) (hid : w'.procs.Identified)
    (h : Observes (collect seconds members selection) w s w') :
    s.entries.map UsageEntry.identity = firsts ObservedProcessIdentity.osPid [] members ∧
      ∀ e ∈ s.entries, Sampled seconds w w' e.identity e.measurement :=
  (sampled_of_collect (distinct_of_new hw) hid h).2

/-! ### Two measurements -/

section

variable {first middle last first' middle' last' : ProcWorld}

/-- The process that is measured has the number at the first read. -/
theorem MeasuredAt.holder_first (h : MeasuredAt seconds w w' identity u p first middle last) :
    first.procs.holder identity.osPid = some p :=
  h.holder first .initial (h.before.trans h.after)

/-- Of two measurements, the reads of the first come first. -/
theorem MeasuredAt.reaches (h : MeasuredAt seconds w w₁ identity old p first middle last)
    (h' : MeasuredAt seconds w₂ w' identity now q first' middle' last')
    (hr : Reaches ProcWorld.step w₁ w₂) : Reaches ProcWorld.step first first' :=
  h.before.trans (h.after.trans (h.ended.trans (hr.trans h'.began)))

/-- **The native start time tells processes apart.** -/
theorem MeasuredAt.nativeStart_iff (hd : w.procs.Distinct) (hid : w'.procs.Identified)
    (h : MeasuredAt seconds w w₁ identity old p first middle last)
    (h' : MeasuredAt seconds w₂ w' identity now q first' middle' last')
    (hr : Reaches ProcWorld.step w₁ w₂) : old.nativeStart = now.nativeStart ↔ p = q := by
  have hd₁ := (ProcWorld.later_of_reaches hd h.began).1
  obtain ⟨hd', hl⟩ := ProcWorld.later_of_reaches hd₁ (h.reaches h' hr)
  have hid' : first'.procs.Identified := ProcWorld.identified_of_reaches hd'
    (h'.before.trans (h'.after.trans h'.ended)) hid
  obtain ⟨x, hx, hs⟩ := h.started
  obtain ⟨y, hy, hs'⟩ := h'.started
  constructor
  · intro heq
    exact hl.procs.holder_unique hid' h.holder_first h'.holder_first hx hy
      (hs.trans (heq.trans hs'.symm))
  · rintro rfl
    obtain ⟨x', hx', -, hsx, -⟩ := hl.procs p x hx
    obtain rfl := Option.some.inj (hx'.symm.trans hy)
    exact hs.symm.trans (hsx.symm.trans hs')

/-- Processor time is never given back. -/
theorem MeasuredAt.cpuTime_le (hmono : ∀ hz a b, a ≤ b → seconds a hz ≤ seconds b hz)
    (hd : w.procs.Distinct) (h : MeasuredAt seconds w w₁ identity old p first middle last)
    (h' : MeasuredAt seconds w₂ w' identity now p first' middle' last')
    (hr : Reaches ProcWorld.step w₁ w₂) : old.cpuTime ≤ now.cpuTime := by
  have hd₁ := (ProcWorld.later_of_reaches hd h.began).1
  have hl := (ProcWorld.later_of_reaches hd₁ (h.reaches h' hr)).2
  obtain ⟨m, hm, hcpu⟩ := h.cpu
  obtain ⟨m', hm', hcpu'⟩ := h'.cpu
  obtain ⟨m₁, hm₁, hle⟩ := hl.ticks p m hm
  obtain rfl := Option.some.inj (hm₁.symm.trans hm')
  rw [hcpu, hcpu', hl.hz]
  exact hmono _ _ _ hle

end

/-- What is counted is an entry of the snapshot. -/
theorem mem_of_counted {s : UsageSnapshot} {e : UsageEntry} (h : Counted s e now) :
    e ∈ s.entries :=
  List.mem_of_find?_eq_some h.1

/-- The last measurement of an identity is one of its entries. -/
theorem mem_of_lastOk {entries : List UsageEntry} (h : LastOk entries identity old) :
    ∃ e ∈ entries, e.identity = identity ∧ e.measurement = .ok old := by
  obtain ⟨before, e, after, rfl, hid, hm, -⟩ := h
  exact ⟨e, by simp, hid, hm⟩

/-- **A rate is one of a single process.** Two trees are measured, one after the other, while
processes come and go, so that no number and start time belong to two processes. The totals count
each process once; and the rates are exactly those of the processes that were measured both times,
for the same identity, if time has passed. -/
theorem rates_are_of_one_process {R : Type} (C : Cores R)
    (hmono : ∀ hz a b, a ≤ b → seconds a hz ≤ seconds b hz) {btime : ℕ} {hz : Int}
    {tree tree' : ProcessTree} {previous current : TreeUsage}
    (hw : Reaches ProcWorld.step (.new btime hz) w) (hid : w'.procs.Identified)
    (h : Observes (measureTree seconds tree) w previous w₁) (hr : Reaches ProcWorld.step w₁ w₂)
    (h' : Observes (measureTree seconds tree') w₂ current w') :
    ∃ counted rated, CountsOnce C current.usage (some previous.usage) counted rated
        (totals C current.usage (some previous.usage)) ∧
      ∀ e now old, (e, now, old) ∈ rated ↔
        (e, now) ∈ counted ∧ LastOk previous.usage.entries e.identity old ∧
          old.sampledAt < now.sampledAt ∧ ∃ p, Measured seconds w w₁ e.identity old p ∧
            Measured seconds w₂ w' e.identity now p := by
  have hd := distinct_of_new hw
  obtain ⟨usage, v, hc, h⟩ := Prog.Beside.of_bind h
  obtain ⟨rfl, hv⟩ := h.of_pure
  obtain ⟨usage', v', hc', h'⟩ := Prog.Beside.of_bind h'
  obtain ⟨rfl, hv'⟩ := h'.of_pure
  have hdv := (ProcWorld.later_of_reaches hd (reaches_of_observes hc)).1
  have hd₂ := (ProcWorld.later_of_reaches hdv (hv.trans hr)).1
  have hdv' := (ProcWorld.later_of_reaches hd₂ (reaches_of_observes hc')).1
  have hidv' := ProcWorld.identified_of_reaches hdv' hv' hid
  have hid₂ := ProcWorld.identified_of_reaches hd₂ (reaches_of_observes hc') hidv'
  have hidv := ProcWorld.identified_of_reaches hdv (hv.trans hr) hid₂
  obtain ⟨hsel, -, hsampled⟩ := sampled_of_collect hd hidv hc
  obtain ⟨hsel', -, hsampled'⟩ := sampled_of_collect hd₂ hidv' hc'
  have htotals : CountsOnce C usage' (some usage) _ _ (totals C usage' (some usage)) :=
    totals_countsOnce
  refine ⟨_, _, htotals, fun e now old => ?_⟩
  rw [htotals.mem_rated, htotals.mem_counted]
  constructor
  · rintro ⟨hcounted, ⟨s, hs, -, hlast⟩, hstart, hat, -⟩
    obtain rfl := Option.some.inj hs
    refine ⟨hcounted, hlast, hat, ?_⟩
    obtain ⟨e', he', hsame, hm⟩ := mem_of_lastOk hlast
    have hold := (hsampled e' he').widen hdv .initial hv
    have hnow := (hsampled' e (mem_of_counted hcounted)).widen hdv' .initial hv'
    rw [hsame, hm] at hold
    rw [hcounted.2] at hnow
    obtain ⟨p, first, middle, last, hp⟩ := hold
    obtain ⟨q, first', middle', last', hq⟩ := hnow
    obtain rfl := (hp.nativeStart_iff hd hid hq hr).mp hstart
    exact ⟨p, ⟨first, middle, last, hp⟩, first', middle', last', hq⟩
  · rintro ⟨hcounted, hlast, hat, p, ⟨first, middle, last, hp⟩, first', middle', last', hq⟩
    exact ⟨hcounted, ⟨_, rfl, hsel.trans hsel'.symm, hlast⟩,
      (hp.nativeStart_iff hd hid hq hr).mpr rfl, hat, hp.cpuTime_le hmono hd hq hr⟩

/-! ### A process that works -/

/-- The status line of a shell, the process 77, after some ticks. -/
def shellStat (ticks : ℕ) (h : ticks ≤ U64_MAX) : KernelStat where
  pid := 77
  comm := "sh".toByteArray
  state := 'R'
  ppid := 5
  pgrp := 77
  session := 77
  ttyNr := 0
  tpgid := -1
  flags := 0
  minflt := 0
  cminflt := 0
  majflt := 0
  cmajflt := 0
  utime := ticks
  stime := 0
  cutime := 0
  cstime := 0
  priority := 20
  nice := 0
  numThreads := 1
  itrealvalue := 0
  starttime := 500
  rest := []
  pid_le := by decide
  state_alpha := by decide
  ppid_range := by decide
  pgrp_range := by decide
  utime_le := h
  stime_le := by decide
  starttime_le := by decide

/-- A machine on which the shell is the only process. -/
def shellWorld (m : Meter) (now : Instant) : ProcWorld :=
  ⟨[⟨77, 500, .running⟩], [m], 1000, 100, now⟩

/-- The shell, in a tree of its own. -/
def shellTree : ProcessTree :=
  ⟨⟨77, none⟩, [⟨⟨77, none⟩, none, "sh"⟩]⟩

/-- Processor time in nanoseconds. -/
def nanoseconds (ticks hz : ℕ) : Duration :=
  ticks * 10 ^ 9 / hz

/-- Whole cores. -/
def wholeCores : Cores ℕ :=
  ⟨fun work elapsed => work / elapsed, List.sum⟩

/-- The shell with what it has used. -/
def shellUsage (m : Meter) (now : Instant) : TreeUsage :=
  ⟨shellTree, ⟨.tree, now, now, [⟨⟨77, none⟩, .ok ⟨⟨77, none⟩, 500, now, nanoseconds m.ticks 100,
    m.rss * 1024, none, none, none, none⟩⟩]⟩⟩

/-- A shell without other processes is measured in one go. -/
theorem observes_shell {m : Meter} {now : Instant} (hticks : m.ticks ≤ U64_MAX)
    (hrss : m.rss ≤ U64_MAX) (hbytes : m.rss * 1024 ≤ U64_MAX) :
    Observes (collect nanoseconds [⟨77, none⟩] .tree) (shellWorld m now) (shellUsage m now).usage
      (shellWorld m now) := by
  have hsample : Observes (sample nanoseconds ⟨77, none⟩) (shellWorld m now) (.ok ⟨⟨77, none⟩, 500,
      now, nanoseconds m.ticks 100, m.rss * 1024, none, none, none, none⟩) (shellWorld m now) := by
    have hshown : (shellWorld m now).shown 77 = some (500, m) := rfl
    refine observes_sample (shellStat m.ticks hticks)
      ⟨[], some m.rss, 0, [], by simp, by simpa using hrss⟩ ⟨[], 1000, [], by simp, by decide⟩
      hshown rfl rfl rfl ?_ hticks rfl hbytes rfl ?_ (by simp)
    · exact String.isValidUTF8 "sh"
    · exact (by decide : (0 : Int) < 100)
  have hall : Observes (sampleAll nanoseconds [⟨77, none⟩]) (shellWorld m now)
      (shellUsage m now).usage.entries (shellWorld m now) :=
    Prog.Beside.bind hsample (Prog.Beside.bind (.pure [] _) (.pure _ _))
  refine .op .known rfl ?_
  rw [Prog.pure_bind]
  refine Prog.Beside.bind hall ?_
  exact .op .known rfl (.pure _ _)

/-- Nobody else has the number. -/
theorem identified_shell (m : Meter) (now : Instant) : (shellWorld m now).procs.Identified := by
  intro p q x y hx hy _ _
  have hp := (List.getElem?_eq_some_iff.mp hx).1
  have hq := (List.getElem?_eq_some_iff.mp hy).1
  simp only [shellWorld, List.length_singleton] at hp hq
  omega

/-- The machine starts the shell. -/
theorem reaches_shell (m : Meter) : Reaches ProcWorld.step (.new 1000 100) (shellWorld m 0) := by
  have hfollow : follow ProcWorld.step (.new 1000 100) [.create 77 500, .work 0 m] =
      some (shellWorld m 0) := by
    simp [follow, ProcWorld.step, ProcWorld.new, NumberTable.create, shellWorld]
  exact .of_follow hfollow

/-- The shell is measured. -/
theorem shell_is_measured : ∃ u p,
    (shellUsage ⟨7, 20⟩ 0).usage.entries = [⟨⟨77, none⟩, .ok u⟩] ∧
      Measured nanoseconds (shellWorld ⟨7, 20⟩ 0) (shellWorld ⟨7, 20⟩ 0) ⟨77, none⟩ u p := by
  obtain ⟨-, hsampled⟩ := usage_is_of_one_process (reaches_shell ⟨7, 20⟩)
    (identified_shell _ _) (observes_shell (by decide) (by decide) (by decide))
  obtain ⟨p, hp⟩ := hsampled _ List.mem_cons_self
  exact ⟨_, p, rfl, hp⟩

/-- The shell works between two measurements, and has a rate. -/
theorem working_shell_has_a_rate :
    ∃ e old now p, LastOk (shellUsage ⟨7, 20⟩ 0).usage.entries e old ∧
      Measured nanoseconds (shellWorld ⟨7, 20⟩ 0) (shellWorld ⟨7, 20⟩ 0) e old p ∧
      Measured nanoseconds (shellWorld ⟨19, 30⟩ 5) (shellWorld ⟨19, 30⟩ 5) e now p := by
  have hfollow : follow ProcWorld.step (shellWorld ⟨7, 20⟩ 0) [.work 0 ⟨19, 30⟩, .elapse 5] =
      some (shellWorld ⟨19, 30⟩ 5) := rfl
  have hmono : ∀ hz a b, a ≤ b → nanoseconds a hz ≤ nanoseconds b hz := fun hz a b h =>
    Nat.div_le_div_right (Nat.mul_le_mul_right _ h)
  have hmeasures : ∀ {m : Meter} {now : Instant}, m.ticks ≤ U64_MAX → m.rss ≤ U64_MAX →
      m.rss * 1024 ≤ U64_MAX → Observes (measureTree nanoseconds shellTree) (shellWorld m now)
        (shellUsage m now) (shellWorld m now) := fun hticks hrss hbytes =>
    Prog.Beside.bind (observes_shell hticks hrss hbytes) (.pure _ _)
  obtain ⟨counted, rated, htotals, hrated⟩ := rates_are_of_one_process wholeCores hmono
    (reaches_shell ⟨7, 20⟩) (identified_shell _ _) (hmeasures (by decide) (by decide) (by decide))
    (.of_follow hfollow) (hmeasures (by decide) (by decide) (by decide))
  have hlength : rated.length = 1 := (congrArg UsageTotal.contributors htotals.cores).symm.trans rfl
  obtain ⟨⟨e, now, old⟩, rfl⟩ := List.length_eq_one_iff.mp hlength
  obtain ⟨-, hlast, -, p, hp, hq⟩ := (hrated e now old).mp List.mem_cons_self
  exact ⟨e.identity, old, now, p, hlast, hp, hq⟩

end Shepherd.Observation
