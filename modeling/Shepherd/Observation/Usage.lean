import Shepherd.Observation.SelectTree
import Shepherd.Keyed.Firsts
import Shepherd.Supervisor.State

/-!
# Usage Totals

`UsageSnapshot::totals` sums the measurements of the members of a snapshot. Members may be
listed twice, a measurement may have failed, and the rate of a process needs its measurement in
an earlier snapshot. Rates are floating-point numbers: their arithmetic is a parameter, `Cores`.

* `totals` — the function, a loop over the entries.
* `Counted` — the measurements that count: those of the first entry of each pid.
* `Earlier` — the earlier measurement that a rate is taken against.
* `totals_count_once` — the totals, for all current and previous snapshots.
-/

namespace Shepherd.Observation

open Keyed

/-- The largest value of a 64-bit counter. -/
def U64_MAX : ℕ := 2 ^ 64 - 1

/-- Why a process could not be measured. -/
inductive UsageFailure where
  | unavailable (message : String)
  | identityChanged
  | unsupported
  deriving DecidableEq, Repr

/-- One native measurement. -/
structure ProcessUsage where
  identity : ObservedProcessIdentity
  nativeStart : ℕ
  sampledAt : Instant
  cpuTime : Duration
  residentBytes : ℕ
  physicalFootprintBytes : Option ℕ
  peakPhysicalFootprintBytes : Option ℕ
  diskReadBytes : Option ℕ
  diskWriteBytes : Option ℕ
  deriving DecidableEq, Repr

/-- A member, and its measurement or why there is none. -/
structure UsageEntry where
  identity : ObservedProcessIdentity
  measurement : Except UsageFailure ProcessUsage
  deriving DecidableEq

/-- How members were selected. -/
inductive UsageSelection where
  | tree
  | processGroup
  deriving DecidableEq, Repr

/-- A sum, and the number of its summands. -/
structure UsageTotal (T : Type) where
  value : Option T
  contributors : ℕ
  deriving DecidableEq, Repr

/-- The totals of a snapshot. -/
structure UsageTotals (R : Type) where
  residentBytes : UsageTotal ℕ
  physicalFootprintBytes : UsageTotal ℕ
  cpuCores : UsageTotal R
  deriving DecidableEq, Repr

/-- A snapshot of the selected members. -/
structure UsageSnapshot where
  selection : UsageSelection
  startedAt : Instant
  finishedAt : Instant
  entries : List UsageEntry
  deriving DecidableEq

/-- The pid of a member. -/
def UsageEntry.osPid (e : UsageEntry) : ℕ := e.identity.osPid

/-- The arithmetic of rates. -/
structure Cores (R : Type) where
  /-- `work.as_secs_f64() / elapsed.as_secs_f64()` -/
  rate : Duration → Duration → R
  /-- `iter().sum()` -/
  sum : List R → R

/-! ### The function -/

/-- `checked_sub`, and `checked_duration_since`. -/
def checkedSub (a b : ℕ) : Option ℕ :=
  if b ≤ a then some (a - b) else none

variable {R : Type} (C : Cores R)

/-- The rate of a process since its earlier measurement. -/
def cpuRate (old : Option ProcessUsage) (now : ProcessUsage) : Option R :=
  match old.filter (·.nativeStart = now.nativeStart) with
  | none => none
  | some old =>
      match checkedSub now.sampledAt old.sampledAt, checkedSub now.cpuTime old.cpuTime with
      | some elapsed, some work => if elapsed = 0 then none else some (C.rate work elapsed)
      | _, _ => none

/-- A successful measurement with its identity. -/
def pairOf (e : UsageEntry) : Option (ObservedProcessIdentity × ProcessUsage) :=
  e.measurement.toOption.map fun m => (e.identity, m)

/-- The earlier measurements by identity, in the order in which the map is filled. -/
def previousPairs (s : UsageSnapshot) (previous : Option UsageSnapshot) :
    List (ObservedProcessIdentity × ProcessUsage) :=
  ((previous.filter (·.selection = s.selection)).toList.flatMap (·.entries)).filterMap pairOf

/-- The variables of the loop. -/
structure Sums (R : Type) where
  seen : List ℕ
  rss : List ℕ
  footprint : List ℕ
  cpu : List R

/-- The body of the loop. -/
def addEntry (previous : List (ObservedProcessIdentity × ProcessUsage)) (sums : Sums R)
    (entry : UsageEntry) : Sums R :=
  if entry.osPid ∈ sums.seen then sums
  else
    let sums := { sums with seen := entry.osPid :: sums.seen }
    match entry.measurement with
    | .error _ => sums
    | .ok now =>
        { sums with
          rss := sums.rss ++ [now.residentBytes]
          footprint := sums.footprint ++ now.physicalFootprintBytes.toList
          cpu := sums.cpu ++ (cpuRate C (lastValue previous entry.identity) now).toList }

/-- `sum`. -/
def sum (values : List ℕ) : UsageTotal ℕ where
  value := if values.isEmpty then none else checkedSum U64_MAX values
  contributors := values.length

/-- `totals`. -/
def totals (s : UsageSnapshot) (previous : Option UsageSnapshot) : UsageTotals R :=
  let sums := s.entries.foldl (addEntry C (previousPairs s previous)) ⟨[], [], [], []⟩
  { residentBytes := sum sums.rss
    physicalFootprintBytes := sum sums.footprint
    cpuCores :=
      { value := if sums.cpu.isEmpty then none else some (C.sum sums.cpu)
        contributors := sums.cpu.length } }

/-! ### What counts -/

/-- A measurement counts if its entry is the first of its pid. -/
def Counted (s : UsageSnapshot) (e : UsageEntry) (now : ProcessUsage) : Prop :=
  s.entries.find? (·.osPid = e.osPid) = some e ∧ e.measurement = .ok now

/-- The last successful measurement of an identity. -/
def LastOk (entries : List UsageEntry) (identity : ObservedProcessIdentity) (m : ProcessUsage) :
    Prop :=
  ∃ before e after, entries = before ++ e :: after ∧ e.identity = identity ∧
    e.measurement = .ok m ∧ ∀ e' ∈ after, e'.identity = identity → ∀ m', e'.measurement ≠ .ok m'

/-- The measurement that a rate is taken against. -/
structure Earlier (s : UsageSnapshot) (previous : Option UsageSnapshot) (e : UsageEntry)
    (now old : ProcessUsage) : Prop where
  lastOk : ∃ p, previous = some p ∧ p.selection = s.selection ∧ LastOk p.entries e.identity old
  nativeStart : old.nativeStart = now.nativeStart
  sampledAt : old.sampledAt < now.sampledAt
  cpuTime : old.cpuTime ≤ now.cpuTime

/-- The total of these values. -/
structure IsTotal (values : List ℕ) (t : UsageTotal ℕ) : Prop where
  contributors : t.contributors = values.length
  none_iff : t.value = none ↔ values = [] ∨ U64_MAX < values.sum
  exact : ∀ v, t.value = some v → v = values.sum

/-- The rates since the earlier measurements. -/
def ratesOf (rated : List (UsageEntry × ProcessUsage × ProcessUsage)) : List R :=
  rated.map fun (_, now, old) =>
    C.rate (now.cpuTime - old.cpuTime) (now.sampledAt - old.sampledAt)

/-- **The totals count every process once.** -/
structure CountsOnce (s : UsageSnapshot) (previous : Option UsageSnapshot)
    (counted : List (UsageEntry × ProcessUsage))
    (rated : List (UsageEntry × ProcessUsage × ProcessUsage)) (t : UsageTotals R) : Prop where
  counted_nodup : (counted.map fun c => c.1.osPid).Nodup
  mem_counted : ∀ e now, (e, now) ∈ counted ↔ Counted s e now
  resident : IsTotal (counted.map fun c => c.2.residentBytes) t.residentBytes
  footprint : IsTotal (counted.filterMap fun c => c.2.physicalFootprintBytes)
    t.physicalFootprintBytes
  rated_nodup : (rated.map fun r => r.1.osPid).Nodup
  mem_rated : ∀ e now old, (e, now, old) ∈ rated ↔ Counted s e now ∧ Earlier s previous e now old
  cores : t.cpuCores =
    ⟨if rated = [] then none else some (C.sum (ratesOf C rated)), rated.length⟩

variable {C} {s s' : UsageSnapshot} {previous : Option UsageSnapshot} {e : UsageEntry}
  {now old : ProcessUsage} {entries : List UsageEntry}

/-- **When a process has a rate.** -/
theorem cpuRate_eq_some {o : Option ProcessUsage} {r : R} : cpuRate C o now = some r ↔
    ∃ old, o = some old ∧ old.nativeStart = now.nativeStart ∧ old.sampledAt < now.sampledAt ∧
      old.cpuTime ≤ now.cpuTime ∧
      C.rate (now.cpuTime - old.cpuTime) (now.sampledAt - old.sampledAt) = r := by
  cases o with
  | none => simp [cpuRate]
  | some old =>
      by_cases hn : old.nativeStart = now.nativeStart
      · rw [cpuRate, Option.filter_some, if_pos (decide_eq_true hn)]
        by_cases hs : old.sampledAt ≤ now.sampledAt
        · by_cases hc : old.cpuTime ≤ now.cpuTime
          · have hlt : now.sampledAt - old.sampledAt = 0 ↔ ¬ old.sampledAt < now.sampledAt :=
              Nat.sub_eq_zero_iff_le.trans Nat.not_lt.symm
            simp [checkedSub, hs, hc, hn, hlt]
          · simp [checkedSub, hs, hc, hn]
        · have hlt : ¬ old.sampledAt < now.sampledAt := fun h => hs (Nat.le_of_lt h)
          simp [checkedSub, hs, hn, hlt]
      · rw [cpuRate, Option.filter_some, if_neg fun h => hn (of_decide_eq_true h)]
        simp [hn]

/-- A pair is an entry that was measured. -/
theorem pairOf_eq_some {identity : ObservedProcessIdentity} {m : ProcessUsage} :
    pairOf e = some (identity, m) ↔ e.identity = identity ∧ e.measurement = .ok m := by
  rw [pairOf]
  cases e.measurement <;> simp [Except.toOption]

/-- The last pair of an identity is its last successful measurement. -/
theorem lastValue_filterMap {identity : ObservedProcessIdentity} :
    lastValue (entries.filterMap pairOf) identity = some old ↔ LastOk entries identity old := by
  rw [lastValue_eq_some]
  constructor
  · rintro ⟨before, after, heq, hafter⟩
    obtain ⟨l, r, rfl, -, hr⟩ := List.filterMap_eq_append_iff.mp heq
    obtain ⟨skipped, e, rest, rfl, hskip, he, rfl⟩ := List.filterMap_eq_cons_iff.mp hr
    obtain ⟨hid, hm⟩ := pairOf_eq_some.mp he
    refine ⟨l ++ skipped, e, rest, by simp, hid, hm, fun e' hmem hid' m' hm' => ?_⟩
    have hpair := pairOf_eq_some.mpr ⟨hid', hm'⟩
    exact hafter (identity, m') (List.mem_filterMap.mpr ⟨e', hmem, hpair⟩) rfl
  · rintro ⟨before, e, after, rfl, hid, hm, hafter⟩
    refine ⟨before.filterMap pairOf, after.filterMap pairOf, ?_, ?_⟩
    · rw [List.filterMap_append, List.filterMap_cons_some (pairOf_eq_some.mpr ⟨hid, hm⟩)]
    · rintro ⟨k, m'⟩ hp hk
      obtain ⟨e', hmem, hp⟩ := List.mem_filterMap.mp hp
      obtain ⟨hid', hm'⟩ := pairOf_eq_some.mp hp
      exact hafter e' hmem (hid'.trans hk) m' hm'

/-- The last pair of an identity is its last measurement in a snapshot of the same selection. -/
theorem lastValue_previousPairs {identity : ObservedProcessIdentity} :
    lastValue (previousPairs s previous) identity = some old ↔
      ∃ p, previous = some p ∧ p.selection = s.selection ∧ LastOk p.entries identity old := by
  have hnil : lastValue ([] : List (ObservedProcessIdentity × ProcessUsage)) identity = none := rfl
  cases previous with
  | none =>
      rw [previousPairs]
      simp [hnil]
  | some p =>
      by_cases hsel : p.selection = s.selection
      · have hpairs : previousPairs s (some p) = p.entries.filterMap pairOf := by
          simp [previousPairs, Option.filter_some, hsel]
        rw [hpairs, lastValue_filterMap]
        simp [hsel]
      · have hpairs : previousPairs s (some p) = [] := by
          simp [previousPairs, Option.filter_some, hsel]
        rw [hpairs, hnil]
        simp [hsel]

/-- The sum of the values. -/
theorem sum_isTotal (values : List ℕ) : IsTotal values (sum values) := by
  have hvalue : (sum values).value = if values = [] ∨ U64_MAX < values.sum then none
      else some values.sum := by
    rw [sum, checkedSum_eq]
    cases values with
    | nil => rfl
    | cons v values =>
        rcases Nat.lt_or_ge U64_MAX (v :: values).sum with hlt | hle
        · simp only [List.isEmpty_cons, if_neg (Nat.not_le_of_lt hlt), hlt, or_true, if_true,
            Bool.false_eq_true, if_false]
        · simp only [List.isEmpty_cons, hle, if_true, Nat.not_lt_of_le hle, or_false, reduceCtorEq,
            Bool.false_eq_true, if_false]
  constructor
  · rfl
  · rw [hvalue]
    split <;> simp [*]
  · intro v hv
    rw [hvalue] at hv
    split at hv
    · cases hv
    · exact (Option.some.inj hv).symm

/-! ### The loop -/

/-- A measurement with its entry. -/
def measuredOf (e : UsageEntry) : Option (UsageEntry × ProcessUsage) :=
  e.measurement.toOption.map fun m => (e, m)

/-- An entry that was measured. -/
theorem measuredOf_eq_some {e' : UsageEntry} :
    measuredOf e = some (e', now) ↔ e = e' ∧ e'.measurement = .ok now := by
  rw [measuredOf]
  constructor
  · intro h
    obtain ⟨m, hm, heq⟩ := Option.map_eq_some_iff.mp h
    obtain ⟨rfl, rfl⟩ := Prod.mk.inj heq
    refine ⟨rfl, ?_⟩
    cases he : e.measurement with
    | error f => rw [he] at hm; cases hm
    | ok m' => rw [he] at hm; rw [Option.some.inj hm]
  · rintro ⟨rfl, hm⟩
    rw [hm]
    rfl

/-- The measurements that the loop adds. -/
def counted (seen : List ℕ) (entries : List UsageEntry) : List (UsageEntry × ProcessUsage) :=
  (firsts UsageEntry.osPid seen entries).filterMap measuredOf

/-- The measurements were added to the sums. -/
structure Added (C : Cores R) (pairs : List (ObservedProcessIdentity × ProcessUsage))
    (sums after : Sums R) (measured : List (UsageEntry × ProcessUsage)) : Prop where
  rss : after.rss = sums.rss ++ measured.map fun c => c.2.residentBytes
  footprint : after.footprint =
    sums.footprint ++ measured.filterMap fun c => c.2.physicalFootprintBytes
  cpu : after.cpu = sums.cpu ++
    measured.filterMap fun c => cpuRate C (lastValue pairs c.1.identity) c.2

variable {pairs : List (ObservedProcessIdentity × ProcessUsage)} {sums after : Sums R}

/-- The first entry of a pid adds its measurement, if it has one. -/
theorem addEntry_added (h : e.osPid ∉ sums.seen) :
    (addEntry C pairs sums e).seen = e.osPid :: sums.seen ∧
      Added C pairs sums (addEntry C pairs sums e) (measuredOf e).toList := by
  rw [addEntry, if_neg h]
  cases hm : e.measurement with
  | error f =>
      have hnone : measuredOf e = none := by rw [measuredOf, hm]; rfl
      rw [hnone]
      exact ⟨rfl, by simp, by simp, by simp⟩
  | ok now =>
      have hsome : measuredOf e = some (e, now) := measuredOf_eq_some.mpr ⟨rfl, hm⟩
      rw [hsome]
      refine ⟨rfl, rfl, ?_, ?_⟩
      · cases now.physicalFootprintBytes <;> rfl
      · cases hr : cpuRate C (lastValue pairs e.identity) now <;> simp [hr]

/-- Sums over two lists, one after the other. -/
theorem Added.trans {middle : Sums R} {l l' : List (UsageEntry × ProcessUsage)}
    (h : Added C pairs sums middle l) (h' : Added C pairs middle after l') :
    Added C pairs sums after (l ++ l') where
  rss := by rw [h'.rss, h.rss, List.map_append, List.append_assoc]
  footprint := by rw [h'.footprint, h.footprint, List.filterMap_append, List.append_assoc]
  cpu := by rw [h'.cpu, h.cpu, List.filterMap_append, List.append_assoc]

/-- **The loop adds the measurements that count.** -/
theorem foldl_addEntry : Added C pairs sums (entries.foldl (addEntry C pairs) sums)
    (counted sums.seen entries) := by
  induction entries generalizing sums with
  | nil => exact ⟨(List.append_nil _).symm, (List.append_nil _).symm, (List.append_nil _).symm⟩
  | cons e entries ih =>
      rw [List.foldl_cons, counted, firsts]
      split
      · next hseen =>
          rw [addEntry, if_pos hseen]
          exact ih
      · next hseen =>
          obtain ⟨hs, ha⟩ : (addEntry C pairs sums e).seen = e.osPid :: sums.seen ∧
              Added C pairs sums (addEntry C pairs sums e) (measuredOf e).toList :=
            addEntry_added hseen
          have hrest : Added C pairs (addEntry C pairs sums e)
              (entries.foldl (addEntry C pairs) (addEntry C pairs sums e))
              (counted (addEntry C pairs sums e).seen entries) := ih
          rw [hs] at hrest
          have hcons : (e :: firsts UsageEntry.osPid (e.osPid :: sums.seen) entries).filterMap
              measuredOf = (measuredOf e).toList ++ counted (e.osPid :: sums.seen) entries := by
            cases hm : measuredOf e <;> simp [hm, counted]
          rw [hcons]
          exact ha.trans hrest

/-! ### The totals -/

/-- The entries that are counted. -/
theorem mem_counted : (e, now) ∈ counted [] s.entries ↔ Counted s e now := by
  rw [counted, List.mem_filterMap, Counted]
  constructor
  · rintro ⟨e', hmem, he⟩
    obtain ⟨rfl, hm⟩ := measuredOf_eq_some.mp he
    exact ⟨(mem_firsts.mp hmem).2, hm⟩
  · rintro ⟨hf, hm⟩
    exact ⟨e, mem_firsts.mpr ⟨List.not_mem_nil, hf⟩, measuredOf_eq_some.mpr ⟨rfl, hm⟩⟩

/-- A measurement with the earlier one that its rate is taken against. -/
def ratedOf (pairs : List (ObservedProcessIdentity × ProcessUsage))
    (c : UsageEntry × ProcessUsage) : Option (UsageEntry × ProcessUsage × ProcessUsage) :=
  ((lastValue pairs c.1.identity).filter fun old =>
    old.nativeStart = c.2.nativeStart ∧ old.sampledAt < c.2.sampledAt ∧
      old.cpuTime ≤ c.2.cpuTime).map fun old => (c.1, c.2, old)

/-- When a counted entry has a rate. -/
theorem ratedOf_eq_some {c : UsageEntry × ProcessUsage} : ratedOf pairs c = some (e, now, old) ↔
    c = (e, now) ∧ lastValue pairs e.identity = some old ∧ old.nativeStart = now.nativeStart ∧
      old.sampledAt < now.sampledAt ∧ old.cpuTime ≤ now.cpuTime := by
  obtain ⟨e', now'⟩ := c
  rw [ratedOf, Option.map_eq_some_iff]
  constructor
  · rintro ⟨old', hf, heq⟩
    simp only [Prod.mk.injEq] at heq
    obtain ⟨rfl, rfl, rfl⟩ := heq
    obtain ⟨hl, hc⟩ := Option.filter_eq_some_iff.mp hf
    exact ⟨rfl, hl, of_decide_eq_true hc⟩
  · rintro ⟨heq, hl, hc⟩
    obtain ⟨rfl, rfl⟩ := Prod.mk.inj heq
    exact ⟨old, Option.filter_eq_some_iff.mpr ⟨hl, decide_eq_true hc⟩, rfl⟩

/-- The rate of an entry is that of its pair, if it has one. -/
theorem cpuRate_eq_map (c : UsageEntry × ProcessUsage) :
    cpuRate C (lastValue pairs c.1.identity) c.2 = (ratedOf pairs c).map fun (_, now, old) =>
      C.rate (now.cpuTime - old.cpuTime) (now.sampledAt - old.sampledAt) := by
  obtain ⟨e, now⟩ := c
  ext r
  rw [cpuRate_eq_some, Option.map_eq_some_iff]
  constructor
  · rintro ⟨old, hl, hn, hs, hc, rfl⟩
    exact ⟨(e, now, old), ratedOf_eq_some.mpr ⟨rfl, hl, hn, hs, hc⟩, rfl⟩
  · rintro ⟨⟨e', now', old⟩, hr, rfl⟩
    obtain ⟨heq, hl, hn, hs, hc⟩ := ratedOf_eq_some.mp hr
    obtain ⟨rfl, rfl⟩ := Prod.mk.inj heq
    exact ⟨old, hl, hn, hs, hc, rfl⟩

/-- The measurements that have a rate. -/
def rated (s : UsageSnapshot) (previous : Option UsageSnapshot) :
    List (UsageEntry × ProcessUsage × ProcessUsage) :=
  (counted [] s.entries).filterMap (ratedOf (previousPairs s previous))

/-- The entries that are rated. -/
theorem mem_rated : (e, now, old) ∈ rated s previous ↔
    Counted s e now ∧ Earlier s previous e now old := by
  rw [rated, List.mem_filterMap]
  constructor
  · rintro ⟨c, hmem, hr⟩
    obtain ⟨rfl, hl, hn, hs, hc⟩ := ratedOf_eq_some.mp hr
    exact ⟨mem_counted.mp hmem, lastValue_previousPairs.mp hl, hn, hs, hc⟩
  · rintro ⟨hcount, he⟩
    refine ⟨(e, now), mem_counted.mpr hcount, ratedOf_eq_some.mpr ⟨rfl, ?_, he.nativeStart,
      he.sampledAt, he.cpuTime⟩⟩
    exact lastValue_previousPairs.mpr he.lastOk

/-- A process is counted once. -/
theorem nodup_counted : ((counted [] entries).map fun c => c.1.osPid).Nodup := by
  refine nodup_map_firsts.sublist (map_filterMap_sublist (fun e c hc => ?_) _)
  obtain ⟨e', m⟩ := c
  rw [(measuredOf_eq_some.mp hc).1]

/-- A process is rated once. -/
theorem nodup_rated : ((rated s previous).map fun r => r.1.osPid).Nodup := by
  refine nodup_counted.sublist (map_filterMap_sublist (fun c r hr => ?_) _)
  obtain ⟨e, now, old⟩ := r
  rw [(ratedOf_eq_some.mp hr).1]

/-- What the loop has computed at its end. -/
theorem totals_eq : totals C s previous =
    { residentBytes := sum ((counted [] s.entries).map fun c => c.2.residentBytes)
      physicalFootprintBytes :=
        sum ((counted [] s.entries).filterMap fun c => c.2.physicalFootprintBytes)
      cpuCores :=
        ⟨if rated s previous = [] then none else some (C.sum (ratesOf C (rated s previous))),
          (rated s previous).length⟩ } := by
  have h : Added C (previousPairs s previous) ⟨[], [], [], []⟩
      (s.entries.foldl (addEntry C (previousPairs s previous)) ⟨[], [], [], []⟩)
      (counted [] s.entries) := foldl_addEntry
  have hrates : ((counted [] s.entries).filterMap fun c =>
      cpuRate C (lastValue (previousPairs s previous) c.1.identity) c.2) =
      ratesOf C (rated s previous) := by
    rw [ratesOf, rated, List.map_filterMap]
    simp only [cpuRate_eq_map]
  rw [totals, h.rss, h.footprint, h.cpu, hrates]
  simp [ratesOf]

/-- **The totals count each process once.** -/
theorem totals_countsOnce : CountsOnce C s previous (counted [] s.entries) (rated s previous)
    (totals C s previous) := by
  rw [totals_eq]
  exact {
    counted_nodup := nodup_counted
    mem_counted _ _ := mem_counted
    resident := sum_isTotal _
    footprint := sum_isTotal _
    rated_nodup := nodup_rated
    mem_rated _ _ _ := mem_rated
    cores := rfl }

/-- Sums do not depend on the order of their summands. -/
theorem sum_perm {values values' : List ℕ} (h : values.Perm values') :
    sum values = sum values' := by
  rw [sum, sum, checkedSum_eq, checkedSum_eq, h.sum_nat, h.length_eq, h.isEmpty_eq]

/-- The sums of memory do not depend on the order of the entries, as long as the entries of each
process stay in order. -/
theorem totals_reordered {previous' : Option UsageSnapshot}
    (h : Reordered UsageEntry.osPid s.entries s'.entries) :
    (totals C s previous).residentBytes = (totals C s' previous').residentBytes ∧
      (totals C s previous).physicalFootprintBytes =
        (totals C s' previous').physicalFootprintBytes := by
  have hperm : (counted [] s.entries).Perm (counted [] s'.entries) :=
    (firsts_perm h).filterMap measuredOf
  rw [totals_eq, totals_eq]
  exact ⟨sum_perm (hperm.map _), sum_perm (hperm.filterMap _)⟩

/-- Without duplicates every order of the entries gives the same totals. -/
theorem totals_perm {previous' : Option UsageSnapshot} (h : s.entries.Perm s'.entries)
    (hn : (s.entries.map UsageEntry.osPid).Nodup) :
    (totals C s previous).residentBytes = (totals C s' previous').residentBytes ∧
      (totals C s previous).physicalFootprintBytes =
        (totals C s' previous').physicalFootprintBytes :=
  totals_reordered (.of_perm h hn)

/-- **Totals count each process once**, whatever the snapshots are: resident memory and
footprint do not depend on the order of entries with different pids. -/
theorem totals_count_once (C : Cores R) (s : UsageSnapshot) (previous : Option UsageSnapshot) :
    (∃ counted rated, CountsOnce C s previous counted rated (totals C s previous)) ∧
      ∀ s' previous', Reordered UsageEntry.osPid s.entries s'.entries →
        (totals C s previous).residentBytes = (totals C s' previous').residentBytes ∧
          (totals C s previous).physicalFootprintBytes =
            (totals C s' previous').physicalFootprintBytes :=
  ⟨⟨_, _, totals_countsOnce⟩, fun _ _ h => totals_reordered h⟩

end Shepherd.Observation
