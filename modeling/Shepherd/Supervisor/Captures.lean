import Shepherd.Supervisor.Steps

/-!
# Captures

A spawn keeps the capture of its process for `take_output`, transfers it to an admitted caller,
or gets none. A kept capture leaves the supervisor when it is claimed, or when it is evicted
from the bounded history of completed processes.

A ghost log lists what happened to captures, newest first. `Captures` relates the two stores to
the log; it is kept by a spawn (`Captures.keep`, `Captures.pass`), by the completion of a process
(`Captures.retain`) and by a claim (`Captures.take`).
-/

open Std

namespace Shepherd

open Conc

/-! ### The log -/

/-- What happens to the capture of a process. -/
inductive CaptureEvent where
  /-- The spawn kept the capture for `take_output`. -/
  | kept (pid : ProcessId) (output : ProcessOutput)
  /-- The spawn transferred the capture to its admitted caller. -/
  | transferred (pid : ProcessId)
  /-- The backend provided no capture. -/
  | uncaptured (pid : ProcessId)
  /-- `take_output` returned the capture. -/
  | claimed (pid : ProcessId) (output : ProcessOutput)
  /-- The capture of a completed process took a slot. -/
  | retained (pid : ProcessId)
  /-- The capture was removed for others. -/
  | evicted (pid : ProcessId)
  deriving DecidableEq

/-- Events with the tasks that caused them, newest first. -/
abbrev CaptureLog := List (Tid × CaptureEvent)

namespace CaptureEvent

/-- The process whose spawn is settled. -/
def settles : CaptureEvent → Option ProcessId
  | .kept pid _ | .transferred pid | .uncaptured pid => some pid
  | _ => none

/-- The process whose capture is claimed. -/
def claims : CaptureEvent → Option ProcessId
  | .claimed pid _ => some pid
  | _ => none

/-- The process whose capture is retained. -/
def retains : CaptureEvent → Option ProcessId
  | .retained pid => some pid
  | _ => none

/-- The process whose capture is evicted. -/
def evicts : CaptureEvent → Option ProcessId
  | .evicted pid => some pid
  | _ => none

end CaptureEvent

/-- The processes whose spawns are settled. -/
def settledLog (g : CaptureLog) : List ProcessId :=
  g.filterMap fun x => x.2.settles

/-- The processes whose captures were claimed. -/
def claimLog (g : CaptureLog) : List ProcessId :=
  g.filterMap fun x => x.2.claims

/-- The processes whose captures were retained. -/
def retentionLog (g : CaptureLog) : List ProcessId :=
  g.filterMap fun x => x.2.retains

/-- The processes whose captures were evicted. -/
def evictionLog (g : CaptureLog) : List ProcessId :=
  g.filterMap fun x => x.2.evicts

/-- A completion that retains the capture, after it what it evicts. -/
def completion (pid : ProcessId) (gone : List ProcessId) : List CaptureEvent :=
  gone.map CaptureEvent.evicted ++ [.retained pid]

/-- What `retain_completed_output` does. -/
def Inner.retentions (s : Inner) (pid : ProcessId) : List CaptureEvent :=
  if s.outputs.contains pid && !s.completed.contains pid then
    completion pid (Conc.retain OUTPUT_HISTORY_BOUND s.completed pid).2
  else []

section Log

variable {g : CaptureLog} {p : ProcessId} {out : ProcessOutput} {t : Tid}

/-- The log of claims lists the processes whose capture was claimed. -/
theorem mem_claimLog : p ∈ claimLog g ↔ ∃ t out, (t, .claimed p out) ∈ g := by
  simp only [claimLog, List.mem_filterMap, Prod.exists]
  constructor
  · rintro ⟨t, ev, hm, hev⟩
    cases ev with
    | claimed q out =>
        obtain rfl := Option.some.inj hev
        exact ⟨t, out, hm⟩
    | _ => cases hev
  · rintro ⟨t, out, hm⟩
    exact ⟨t, _, hm, rfl⟩

/-- A spawn that kept a capture is settled. -/
theorem mem_settledLog_of_kept (h : (t, .kept p out) ∈ g) : p ∈ settledLog g :=
  List.mem_filterMap.mpr ⟨_, h, rfl⟩

/-- The log of retentions lists the processes whose capture was retained. -/
theorem mem_retentionLog : p ∈ retentionLog g ↔ ∃ t, (t, .retained p) ∈ g := by
  simp only [retentionLog, List.mem_filterMap, Prod.exists]
  constructor
  · rintro ⟨t, ev, hm, hev⟩
    cases ev with
    | retained q =>
        obtain rfl := Option.some.inj hev
        exact ⟨t, hm⟩
    | _ => cases hev
  · rintro ⟨t, hm⟩
    exact ⟨t, _, hm, rfl⟩

/-- The log of evictions lists the processes whose capture was evicted. -/
theorem mem_evictionLog : p ∈ evictionLog g ↔ ∃ t, (t, .evicted p) ∈ g := by
  simp only [evictionLog, List.mem_filterMap, Prod.exists]
  constructor
  · rintro ⟨t, ev, hm, hev⟩
    cases ev with
    | evicted q =>
        obtain rfl := Option.some.inj hev
        exact ⟨t, hm⟩
    | _ => cases hev
  · rintro ⟨t, hm⟩
    exact ⟨t, _, hm, rfl⟩

end Log

/-- The place of a retention in the log. -/
theorem retentionLog_split {g : CaptureLog} {p : ProcessId} {l₁ l₂ : List ProcessId}
    (h : retentionLog g = l₁ ++ p :: l₂) :
    ∃ newer t older, g = newer ++ (t, .retained p) :: older ∧ retentionLog newer = l₁ := by
  obtain ⟨a, b, rfl, rfl, hb⟩ := List.filterMap_eq_append_iff.mp h
  obtain ⟨n, ⟨t, ev⟩, o, rfl, hnone, hev, -⟩ := List.filterMap_eq_cons_iff.mp hb
  cases ev with
  | retained q =>
      obtain rfl := Option.some.inj hev
      refine ⟨a ++ n, t, o, by simp, ?_⟩
      have hn : n.filterMap (fun x => x.2.retains) = [] := List.filterMap_eq_nil_iff.mpr hnone
      rw [retentionLog, List.filterMap_append, hn, List.append_nil]
  | _ => cases hev

/-- A completion logs the retention of its process, and evictions. -/
theorem logs_retain (t : Tid) (p : ProcessId) (gone : List ProcessId) (g : CaptureLog) :
    let g' := (completion p gone).map (Prod.mk t) ++ g
    retentionLog g' = p :: retentionLog g ∧ claimLog g' = claimLog g ∧
      settledLog g' = settledLog g ∧ evictionLog g' = gone ++ evictionLog g := by
  induction gone with
  | nil => exact ⟨rfl, rfl, rfl, rfl⟩
  | cons q gone ih =>
      obtain ⟨h₁, h₂, h₃, h₄⟩ := ih
      exact ⟨h₁, h₂, h₃, congrArg (q :: ·) h₄⟩

/-! ### The stores -/

/-- A capture gives way: after it was retained, as many others were as there are slots, and
none of them was claimed. -/
def Overflow (p : ProcessId) (g : CaptureLog) : Prop :=
  ∃ newer t older, g = newer ++ (t, .retained p) :: older ∧ p ∉ claimLog g ∧
    ∃ others : List ProcessId, others.Nodup ∧ others.length = OUTPUT_HISTORY_BOUND ∧
      p ∉ others ∧ ∀ q ∈ others, q ∈ retentionLog newer ∧ q ∉ claimLog g

/-- The kept captures and the slots, as the log has them. -/
structure Captures (evidence : ProcessId → Prop) (outputs : ExtTreeMap ProcessId ProcessOutput)
    (completed : List ProcessId) (g : CaptureLog) : Prop where
  queued : Queued OUTPUT_HISTORY_BOUND completed (retentionLog g)
  slot : ∀ p ∈ completed, outputs.contains p = true
  kept : ∀ {p out}, outputs[p]? = some out →
    (∃ t, (t, .kept p out) ∈ g) ∧ p ∉ claimLog g ∧ p ∉ evictionLog g
  stays : ∀ {t p out}, (t, .kept p out) ∈ g →
    outputs[p]? = some out ∨ (∃ t', (t', .claimed p out) ∈ g) ∨ p ∈ evictionLog g
  settled : (settledLog g).Nodup
  claims : (claimLog g).Nodup
  claim : ∀ {t p out}, (t, .claimed p out) ∈ g → ∃ t', (t', .kept p out) ∈ g
  retention : ∀ {p}, p ∈ retentionLog g → evidence p ∧ p ∈ settledLog g
  eviction : ∀ newer t p older, g = newer ++ (t, .evicted p) :: older → Overflow p older

namespace Captures

variable {evidence evidence' : ProcessId → Prop} {outputs : ExtTreeMap ProcessId ProcessOutput}
  {completed : List ProcessId} {g : CaptureLog} {p : ProcessId} {out : ProcessOutput} {t : Tid}

/-- Without captures there is nothing to say of them. -/
theorem empty (evidence : ProcessId → Prop) : Captures evidence ∅ [] [] where
  queued := .nil _
  slot := nofun
  kept h := by simp at h
  stays := nofun
  settled := List.nodup_nil
  claims := List.nodup_nil
  claim := nofun
  retention := nofun
  eviction newer t p older h := by simp at h

/-- More evidence bears the captures as well. -/
theorem mono (hev : ∀ p, evidence p → evidence' p) (h : Captures evidence outputs completed g) :
    Captures evidence' outputs completed g :=
  { h with retention := fun hp => (h.retention hp).imp_left (hev _) }

/-- A capture that is there was not claimed. -/
theorem unclaimed (h : Captures evidence outputs completed g)
    (hp : outputs.contains p = true) : p ∉ claimLog g := by
  rw [← ExtTreeMap.isSome_getElem?_eq_contains] at hp
  obtain ⟨out, ho⟩ := Option.isSome_iff_exists.mp hp
  exact (h.kept ho).2.1

/-- What was evicted had been retained. -/
theorem retained_of_evicted (h : Captures evidence outputs completed g)
    (hp : p ∈ evictionLog g) : p ∈ retentionLog g := by
  obtain ⟨t, hm⟩ := mem_evictionLog.mp hp
  obtain ⟨newer, older, rfl⟩ := List.append_of_mem hm
  obtain ⟨n, t', o, rfl, -⟩ := h.eviction newer t p older rfl
  exact mem_retentionLog.mpr ⟨t', by simp⟩

/-- A process that is not settled has left no trace. -/
theorem unsettled (h : Captures evidence outputs completed g) (hn : p ∉ settledLog g) :
    outputs[p]? = none ∧ p ∉ claimLog g ∧ p ∉ evictionLog g := by
  refine ⟨?_, fun hm => ?_, fun hm => hn (h.retention (h.retained_of_evicted hm)).2⟩
  · cases ho : outputs[p]? with
    | none => rfl
    | some out =>
        obtain ⟨⟨t, hm⟩, -⟩ := h.kept ho
        exact absurd (mem_settledLog_of_kept hm) hn
  · obtain ⟨t, out, hm⟩ := mem_claimLog.mp hm
    obtain ⟨t', hk⟩ := h.claim hm
    exact hn (mem_settledLog_of_kept hk)

/-- **A spawn that keeps the capture.** -/
theorem keep (h : Captures evidence outputs completed g) (hn : p ∉ settledLog g) (t : Tid)
    (out : ProcessOutput) :
    Captures evidence (outputs.insert p out) completed ((t, .kept p out) :: g) := by
  obtain ⟨hnone, hclaim, hevict⟩ := h.unsettled hn
  refine ⟨h.queued, fun q hq => ?_, fun {q o} ho => ?_, fun {t' q o} hk => ?_,
    List.nodup_cons.mpr ⟨hn, h.settled⟩, h.claims, fun {t' q o} hm => ?_,
    fun {q} hq => ⟨(h.retention hq).1, List.mem_cons_of_mem _ (h.retention hq).2⟩,
    fun newer t' q older heq => ?_⟩
  · simp [h.slot q hq]
  · rw [ExtTreeMap.getElem?_insert] at ho
    split at ho
    · next heq =>
        obtain rfl := Std.compare_eq_iff_eq.mp heq
        obtain rfl := Option.some.inj ho
        exact ⟨⟨t, List.mem_cons_self⟩, hclaim, hevict⟩
    · obtain ⟨⟨t', hm⟩, hrest⟩ := h.kept ho
      exact ⟨⟨t', List.mem_cons_of_mem _ hm⟩, hrest⟩
  · rw [ExtTreeMap.getElem?_insert]
    rcases List.mem_cons.mp hk with heq | hk
    · obtain ⟨-, heq⟩ := Prod.mk.inj heq
      obtain ⟨rfl, rfl⟩ := CaptureEvent.kept.inj heq
      exact .inl (by simp)
    · have hne : p ≠ q := fun heq => hn (heq ▸ mem_settledLog_of_kept hk)
      rw [if_neg fun heq => hne (Std.compare_eq_iff_eq.mp heq)]
      exact (h.stays hk).imp_right (.imp_left fun ⟨t', hm⟩ => ⟨t', List.mem_cons_of_mem _ hm⟩)
  · obtain ⟨t₀, hk⟩ := h.claim ((List.mem_cons.mp hm).resolve_left nofun)
    exact ⟨t₀, List.mem_cons_of_mem _ hk⟩
  · cases newer with
    | nil => cases heq
    | cons x newer => exact h.eviction newer t' q older (List.cons.inj heq).2

/-- **A spawn without a capture**, or with one that its caller gets. -/
theorem pass (h : Captures evidence outputs completed g) {ev : CaptureEvent}
    (hev : ev = .transferred p ∨ ev = .uncaptured p) (hn : p ∉ settledLog g) (t : Tid) :
    Captures evidence outputs completed ((t, ev) :: g) := by
  have hlogs : retentionLog ((t, ev) :: g) = retentionLog g ∧
      claimLog ((t, ev) :: g) = claimLog g ∧ evictionLog ((t, ev) :: g) = evictionLog g ∧
      settledLog ((t, ev) :: g) = p :: settledLog g := by
    rcases hev with rfl | rfl
    · exact ⟨rfl, rfl, rfl, rfl⟩
    · exact ⟨rfl, rfl, rfl, rfl⟩
  obtain ⟨hretain, hclaim, hevict, hsettle⟩ := hlogs
  have hold : ∀ {t' q o}, ((t', .kept q o) ∈ (t, ev) :: g → (t', .kept q o) ∈ g) ∧
      ((t', .claimed q o) ∈ (t, ev) :: g → (t', .claimed q o) ∈ g) := by
    intro t' q o
    rcases hev with rfl | rfl
    · exact ⟨fun hm => (List.mem_cons.mp hm).resolve_left nofun,
        fun hm => (List.mem_cons.mp hm).resolve_left nofun⟩
    · exact ⟨fun hm => (List.mem_cons.mp hm).resolve_left nofun,
        fun hm => (List.mem_cons.mp hm).resolve_left nofun⟩
  refine ⟨hretain ▸ h.queued, h.slot, fun {q o} ho => ?_, fun {t' q o} hk => ?_,
    hsettle ▸ List.nodup_cons.mpr ⟨hn, h.settled⟩, hclaim ▸ h.claims, fun {t' q o} hm => ?_,
    fun {q} hq => ?_, fun newer t' q older heq => ?_⟩
  · rw [hclaim, hevict]
    obtain ⟨⟨t', hm⟩, hrest⟩ := h.kept ho
    exact ⟨⟨t', List.mem_cons_of_mem _ hm⟩, hrest⟩
  · rw [hevict]
    exact (h.stays (hold.1 hk)).imp_right
      (.imp_left fun ⟨t', hm⟩ => ⟨t', List.mem_cons_of_mem _ hm⟩)
  · obtain ⟨t₀, hk⟩ := h.claim (hold.2 hm)
    exact ⟨t₀, List.mem_cons_of_mem _ hk⟩
  · rw [hretain] at hq
    rw [hsettle]
    exact ⟨(h.retention hq).1, List.mem_cons_of_mem _ (h.retention hq).2⟩
  · cases newer with
    | nil =>
        obtain ⟨heq, -⟩ := List.cons.inj heq
        obtain ⟨-, rfl⟩ := Prod.mk.inj heq
        rcases hev with hev | hev <;> cases hev
    | cons x newer => exact h.eviction newer t' q older (List.cons.inj heq).2

/-- What a completion evicts gives way. -/
theorem overflow (h : Captures evidence outputs completed g)
    (ho : outputs.contains p = true) (hc : p ∉ completed) (t : Tid) {q : ProcessId}
    (hq : q ∈ (Conc.retain OUTPUT_HISTORY_BOUND completed p).2) :
    Overflow q ((t, .retained p) :: g) := by
  have hfree : ∀ {r}, r ∈ completed ∨ r = p → r ∉ claimLog g := by
    rintro r (hr | rfl)
    · exact h.unclaimed (h.slot r hr)
    · exact h.unclaimed ho
  obtain ⟨l₁, l₂, hl, hsub, hlen, hn⟩ := h.queued.evicted hc hq
  obtain ⟨newer, t', older, hg, rfl⟩ := retentionLog_split (g := (t, .retained p) :: g) hl
  refine ⟨newer, t', older, hg, hfree (mem_of_mem_retain hq), _, (h.queued.push hc).nodup, hlen,
    hn, fun r hr => ⟨hsub hr, hfree ?_⟩⟩
  exact ((mem_retain (h.queued.nodup_push hc)).mp hr).1

/-- A completion beside it does not matter to what gives way. -/
theorem Overflow.completion {q : ProcessId} (gone : List ProcessId) (t : Tid) (p : ProcessId)
    (h : Overflow q ((t, .retained p) :: g)) :
    Overflow q ((Shepherd.completion p gone).map (Prod.mk t) ++ g) := by
  induction gone with
  | nil => exact h
  | cons r gone ih =>
      obtain ⟨newer, t', older, heq, hn, others, hnd, hlen, hq, ho⟩ := ih
      refine ⟨(t, .evicted r) :: newer, t', older, ?_, hn, others, hnd, hlen, hq, ho⟩
      exact congrArg ((t, CaptureEvent.evicted r) :: ·) heq

/-- The evictions of a completion are justified when each of them is. -/
theorem evictions_completion (h : Captures evidence outputs completed g) {gone : List ProcessId}
    (hgone : ∀ q ∈ gone, Overflow q ((t, .retained p) :: g)) {newer older : CaptureLog} {t' : Tid}
    {q : ProcessId}
    (heq : (completion p gone).map (Prod.mk t) ++ g = newer ++ (t', .evicted q) :: older) :
    Overflow q older := by
  induction gone generalizing newer with
  | nil =>
      cases newer with
      | nil => cases heq
      | cons x newer => exact h.eviction newer t' q older (List.cons.inj heq).2
  | cons r gone ih =>
      cases newer with
      | nil =>
          obtain ⟨hev, rfl⟩ := List.cons.inj heq
          obtain ⟨-, hev⟩ := Prod.mk.inj hev
          obtain rfl := CaptureEvent.evicted.inj hev
          exact Overflow.completion gone t p (hgone r List.mem_cons_self)
      | cons x newer =>
          exact ih (fun q hq => hgone q (List.mem_cons_of_mem r hq)) (List.cons.inj heq).2

/-- **A completion**: the capture takes a slot, and what is beyond the bound is evicted. -/
theorem retain (h : Captures evidence outputs completed g) (hev : evidence p)
    (ho : outputs.contains p = true) (hc : p ∉ completed) (t : Tid) :
    Captures evidence
      (eraseAll outputs (Conc.retain OUTPUT_HISTORY_BOUND completed p).2)
      (Conc.retain OUTPUT_HISTORY_BOUND completed p).1
      ((completion p (Conc.retain OUTPUT_HISTORY_BOUND completed p).2).map (Prod.mk t) ++ g) := by
  obtain ⟨hretain, hclaim, hsettle, hevict⟩ :=
    logs_retain t p (Conc.retain OUTPUT_HISTORY_BOUND completed p).2 g
  have hmem := fun q => @mem_retain _ OUTPUT_HISTORY_BOUND completed p q (h.queued.nodup_push hc)
  have hover := fun q => @overflow _ _ _ _ _ h ho hc t q
  set gone := (Conc.retain OUTPUT_HISTORY_BOUND completed p).2 with hgone
  set g' := (completion p gone).map (Prod.mk t) ++ g with hg'
  have hnew : ∀ {x}, x ∈ g' → x ∈ g ∨ x.2 = .retained p ∨ ∃ q ∈ gone, x.2 = .evicted q := by
    intro x hx
    simp only [hg', completion, List.mem_append, List.mem_map, List.mem_singleton] at hx
    rcases hx with ⟨ev, ⟨q, hq, rfl⟩ | rfl, rfl⟩ | hx
    · exact .inr (.inr ⟨q, hq, rfl⟩)
    · exact .inr (.inl rfl)
    · exact .inl hx
  have hkept : ∀ {t' q o}, (t', .kept q o) ∈ g' → (t', .kept q o) ∈ g := fun hm =>
    (hnew hm).resolve_right (by rintro (heq | ⟨_, _, heq⟩) <;> cases heq)
  have hclaimed : ∀ {t' q o}, (t', .claimed q o) ∈ g' → (t', .claimed q o) ∈ g := fun hm =>
    (hnew hm).resolve_right (by rintro (heq | ⟨_, _, heq⟩) <;> cases heq)
  have hold : ∀ {x}, x ∈ g → x ∈ g' := fun hx => List.mem_append_right _ hx
  refine ⟨hretain ▸ h.queued.push hc, fun q hq => ?_, fun {q o} hq => ?_, fun {t' q o} hk => ?_,
    hsettle ▸ h.settled, hclaim ▸ h.claims, fun {t' q o} hm => ?_, fun {q} hq => ?_,
    fun newer t' q older heq => ?_⟩
  · obtain ⟨hq, hng⟩ := (hmem q).mp hq
    rw [← ExtTreeMap.isSome_getElem?_eq_contains, getElem?_eraseAll, if_neg hng,
      ExtTreeMap.isSome_getElem?_eq_contains]
    rcases hq with hq | rfl
    · exact h.slot q hq
    · exact ho
  · rw [getElem?_eraseAll] at hq
    split at hq
    · cases hq
    · next hng =>
        obtain ⟨⟨t', hm⟩, hc', he⟩ := h.kept hq
        rw [hclaim, hevict]
        exact ⟨⟨t', hold hm⟩, hc', fun hm => (List.mem_append.mp hm).elim hng he⟩
  · rw [getElem?_eraseAll, hevict]
    by_cases hq : q ∈ gone
    · exact .inr (.inr (List.mem_append_left _ hq))
    · rw [if_neg hq]
      rcases h.stays (hkept hk) with ho | ⟨t₁, hm⟩ | he
      · exact .inl ho
      · exact .inr (.inl ⟨t₁, hold hm⟩)
      · exact .inr (.inr (List.mem_append_right _ he))
  · obtain ⟨t₁, hk⟩ := h.claim (hclaimed hm)
    exact ⟨t₁, hold hk⟩
  · rw [hretain] at hq
    rw [hsettle]
    rcases List.mem_cons.mp hq with rfl | hq
    · rw [← ExtTreeMap.isSome_getElem?_eq_contains] at ho
      obtain ⟨o, ho⟩ := Option.isSome_iff_exists.mp ho
      obtain ⟨⟨t', hm⟩, -⟩ := h.kept ho
      exact ⟨hev, mem_settledLog_of_kept hm⟩
    · exact h.retention hq
  · exact h.evictions_completion hover heq

/-- **A claim**: the capture leaves the supervisor, and its slot with it. -/
theorem take (h : Captures evidence outputs completed g) (ho : outputs[p]? = some out)
    (t : Tid) :
    Captures evidence (outputs.erase p) (completed.filter fun q => q != p)
      ((t, .claimed p out) :: g) := by
  obtain ⟨⟨t₀, hkept⟩, hclaim, hevict⟩ := h.kept ho
  refine ⟨h.queued.sublist List.filter_sublist, fun q hq => ?_, fun {q o} hq => ?_,
    fun {t' q o} hk => ?_, h.settled, List.nodup_cons.mpr ⟨hclaim, h.claims⟩,
    fun {t' q o} hm => ?_, fun {q} hq => h.retention hq, fun newer t' q older heq => ?_⟩
  · obtain ⟨hq, hne⟩ := List.mem_filter.mp hq
    have hne : p ≠ q := fun heq => by simp [heq] at hne
    simp [h.slot q hq, hne]
  · rw [ExtTreeMap.getElem?_erase] at hq
    split at hq
    · cases hq
    · next hne =>
        obtain ⟨⟨t', hm⟩, hc, he⟩ := h.kept hq
        refine ⟨⟨t', List.mem_cons_of_mem _ hm⟩, fun hm => ?_, he⟩
        rcases List.mem_cons.mp hm with rfl | hm
        · exact hne (Std.compare_eq_iff_eq.mpr rfl)
        · exact hc hm
  · rcases h.stays ((List.mem_cons.mp hk).resolve_left nofun) with hq | ⟨t₁, hm⟩ | he
    · by_cases hpq : p = q
      · subst hpq
        obtain rfl := Option.some.inj (ho.symm.trans hq)
        exact .inr (.inl ⟨t, List.mem_cons_self⟩)
      · refine .inl ?_
        rw [ExtTreeMap.getElem?_erase, if_neg fun heq => hpq (Std.compare_eq_iff_eq.mp heq)]
        exact hq
    · exact .inr (.inl ⟨t₁, List.mem_cons_of_mem _ hm⟩)
    · exact .inr (.inr he)
  · rcases List.mem_cons.mp hm with heq | hm
    · obtain ⟨-, heq⟩ := Prod.mk.inj heq
      obtain ⟨rfl, rfl⟩ := CaptureEvent.claimed.inj heq
      exact ⟨t₀, List.mem_cons_of_mem _ hkept⟩
    · obtain ⟨t₁, hk⟩ := h.claim hm
      exact ⟨t₁, List.mem_cons_of_mem _ hk⟩
  · cases newer with
    | nil => cases heq
    | cons x newer => exact h.eviction newer t' q older (List.cons.inj heq).2

/-- A claim that finds nothing. -/
theorem miss (h : Captures evidence outputs completed g) (ho : outputs[p]? = none) :
    Captures evidence (outputs.erase p) (completed.filter fun q => q != p) g := by
  have hsame : ∀ q, (outputs.erase p)[q]? = outputs[q]? := fun q => by
    rw [ExtTreeMap.getElem?_erase]
    split
    · next heq =>
        obtain rfl := Std.compare_eq_iff_eq.mp heq
        exact ho.symm
    · rfl
  refine { h with
    queued := h.queued.sublist List.filter_sublist
    slot := fun q hq => ?_
    kept := fun {q o} hq => h.kept ((hsame q).symm.trans hq)
    stays := fun {t' q o} hk => by rw [hsame q]; exact h.stays hk }
  obtain ⟨hq, -⟩ := List.mem_filter.mp hq
  have hslot := h.slot q hq
  rw [← ExtTreeMap.isSome_getElem?_eq_contains] at hslot ⊢
  rw [hsame q]
  exact hslot

end Captures

end Shepherd
