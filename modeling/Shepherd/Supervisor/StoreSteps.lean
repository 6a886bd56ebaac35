import Shepherd.Supervisor.RegistrySteps

/-!
# Store Steps

What the critical sections do to the groups of the invariant that are not about the
registry: the waiter table, the pending outcomes, the operation locks with the report
history, the cleanup channels, the flags, and the tasks.
-/

open Std

namespace Shepherd

open Conc

variable {t : Tid} {ev : Event} {h h₀ : History} {c c' : ProcessScopeId} {p q : ProcessId}
  {os : OsIdentity} {e : ProcessExit} {w : InMemoryWaiters}

/-! ### Waiters -/

/-- An exit is signalled when it says what the evidence says. The table may have been right
for a history in which the evidence of the process was not there yet. -/
theorem Signals.signalExit (hi : Signals h₀ w) (hs : h₀ <:+ h)
    (hlog : signalLog h = signalLog h₀)
    (hold : ∀ q, q ≠ p → HasEvidence h q → HasEvidence h₀ q)
    (hv : e.Verified ↔ HasEvidence h p) :
    Signals ((t, .exitSignalled p e) :: h) (w.signalExit p e) := by
  have hs' : h₀ <:+ (t, .exitSignalled p e) :: h := hs.trans (List.suffix_cons _ _)
  have hev : ∀ {q}, HasEvidence ((t, .exitSignalled p e) :: h) q → HasEvidence h q :=
    fun hq => by simpa using hq
  refine ⟨fun {q x} hg => ?_, fun {q x} hg hx hq => ?_, fun {ch x} hc => ?_, ?_⟩
  · rcases Slots.tryGet_signalExit w.wf hg with ⟨-, hg⟩ | ⟨rfl, rfl | ⟨-, hg⟩⟩
    · exact (hi.shown hg).mono hs'
    · exact happened_cons.mpr (.inl rfl)
    · exact (hi.shown hg).mono hs'
  · rcases Slots.tryGet_signalExit w.wf hg with ⟨hne, hg⟩ | ⟨rfl, rfl | ⟨hx', -⟩⟩
    · exact hi.unverified hg hx (hold q hne (hev hq))
    · exact hx (hv.mpr (hev hq))
    · exact hx hx'
  · rcases Slots.cells_signalExit w.wf hc with hc | ⟨rfl, rfl⟩
    · exact (hi.cell hc).mono hs'
    · exact happened_cons.mpr (.inl rfl)
  · have hl : signalLog ((t, .exitSignalled p e) :: h) = p :: signalLog h₀ := by
      rw [← hlog]
      rfl
    rw [hl]
    exact Slots.retained_signalExit w.wf hi.retained

/-- Registering a waiter publishes nothing. -/
theorem Signals.wait (hi : Signals h w) (p : ProcessId) : Signals h (w.wait p).2 := by
  have hg : ∀ q, (w.wait p).2.tryGet q = w.tryGet q := fun q => Slots.tryGet_wait w.wf p q
  refine ⟨fun {q x} hx => ?_, fun {q x} hx => ?_, fun hc => hi.cell (Slots.cells_wait _ p hc), ?_⟩
  · rw [hg] at hx
    exact hi.shown hx
  · rw [hg] at hx
    exact hi.unverified hx
  · have hc : (w.wait p).2.slots.completed = w.slots.completed := Slots.completed_wait _ p
    rw [hc]
    exact hi.retained

/-- The monitor's record comes before any signal of the process. -/
theorem Signals.reaped (hl : Lawful h) (hi : Signals h w) (hn : ¬ Reaped h p) :
    Signals ((t, .reaped c p e) :: h) w := by
  have hs : h <:+ (t, .reaped c p e) :: h := List.suffix_cons _ _
  refine ⟨fun hg => (hi.shown hg).mono hs, fun {q x} hg hx hq => ?_,
    fun hc => (hi.cell hc).mono hs, hi.retained⟩
  by_cases hqp : q = p
  · subst hqp
    exact hn (hl.reaped_of_signalled ⟨x, hi.shown hg⟩)
  · refine hi.unverified hg hx ((hasEvidence_cons.mp hq).resolve_left ?_)
    rintro ⟨c', e', -, heq | heq⟩
    · injection heq with _ hp _
      exact hqp hp.symm
    · cases heq

/-- What a future of a process resolves to, if verified, has evidence. -/
def FutureFor (h : History) (p : ProcessId) : WaitFuture → Prop
  | .ready e => e.Verified → HasEvidence h p
  | .receiver channel => channel.pid = p

/-- A receiver of a process stays one. -/
theorem FutureFor.mono {f : WaitFuture} (hs : h <:+ h₀) (hf : FutureFor h p f) :
    FutureFor h₀ p f := by
  cases f with
  | ready e => exact fun hv => (hf hv).mono hs
  | receiver ch => exact hf

/-- A verified exit that the waiters show has evidence. -/
theorem Signals.evidence_of_tryGet (hl : Lawful h) (hi : Signals h w)
    (hg : w.tryGet p = some e) (hv : e.Verified) : HasEvidence h p :=
  hl.evidence_of_signalled (hi.shown hg) hv

/-- What a registration with the waiters returns is a receiver of the process, or an exit of it that
was signalled. -/
theorem Signals.futureFor (hl : Lawful h) (hi : Signals h w) (p : ProcessId) :
    FutureFor h p (w.wait p).1 := by
  rcases Slots.wait_future w.wf p with ⟨e, hf, hg⟩ | ⟨ch, hf, hp⟩
  · have hf' : (w.wait p).1 = .ready e := hf
    rw [hf']
    exact hi.evidence_of_tryGet hl hg
  · have hf' : (w.wait p).1 = .receiver ch := hf
    rw [hf']
    exact hp

/-- A future resolves to an exit of its process. -/
theorem FutureFor.evidence {f : WaitFuture} (hl : Lawful h) (hi : Signals h w)
    (hf : FutureFor h p f) (hp : w.poll f = some e) (hv : e.Verified) : HasEvidence h p := by
  cases f with
  | ready e' =>
      obtain rfl := Option.some.inj hp
      exact hf hv
  | receiver ch =>
      have hf' : ch.pid = p := hf
      rw [← hf']
      exact hl.evidence_of_signalled (hi.cell hp) hv

/-- Every observer of a drained scope is for its process. -/
theorem Signals.observers (hl : Lawful h) {sc : ProcessScope} (ids : List ProcessId)
    (hsc : ∀ q e, sc.exitOf q = some e → e.Verified → HasEvidence h q)
    (hi : Signals h w) : Signals h (Inner.observers sc ids w).2 ∧
      (∀ po ∈ (Inner.observers sc ids w).1, FutureFor h po.1 po.2) ∧
      (Inner.observers sc ids w).1.map Prod.fst = ids := by
  induction ids generalizing w with
  | nil => exact ⟨hi, fun po hpo => absurd hpo (by simp [Inner.observers]), rfl⟩
  | cons q rest ih =>
      simp only [Inner.observers]
      split
      · next e he =>
          obtain ⟨h₁, h₂, h₃⟩ := ih hi
          refine ⟨h₁, fun po hpo => ?_, by rw [List.map_cons, h₃]⟩
          rcases List.mem_cons.mp hpo with rfl | hpo
          · exact hsc q e he
          · exact h₂ po hpo
      · obtain ⟨h₁, h₂, h₃⟩ := ih (hi.wait q)
        refine ⟨h₁, fun po hpo => ?_, by rw [List.map_cons, h₃]⟩
        rcases List.mem_cons.mp hpo with rfl | hpo
        · exact hi.futureFor hl q
        · exact h₂ po hpo

/-! ### Pending outcomes -/

/-- The pending outcomes after a change of one scope's entry. -/
theorem pendingIn_entry (m : ExtTreeMap ProcessScopeId Outcomes) (c c' : ProcessScopeId)
    (f : Outcomes → Outcomes) (q : ProcessId) :
    pendingIn (pendingEntry m c f) c' q =
      if c = c' then (f (m[c]?.getD ∅))[q]? else pendingIn m c' q := by
  simp only [pendingIn, pendingEntry]
  rw [ExtTreeMap.getElem?_insert]
  by_cases hc : c = c'
  · simp [hc]
  · have hcmp : compare c c' ≠ .eq := fun hcmp => hc (Std.compare_eq_iff_eq.mp hcmp)
    simp [hc, hcmp]

/-- The entry of a scope, as the invariant sees it. -/
theorem getElem?_entry (m : ExtTreeMap ProcessScopeId Outcomes) (c : ProcessScopeId)
    (q : ProcessId) : (m[c]?.getD ∅)[q]? = pendingIn m c q := by
  rw [pendingIn]
  cases m[c]? with
  | none => simp
  | some o => rfl

/-- What is pending after an outcome was entered. -/
theorem pendingIn_insert (m : ExtTreeMap ProcessScopeId Outcomes) (c c' : ProcessScopeId)
    (p q : ProcessId) (o : TerminationOutcome) :
    pendingIn (pendingEntry m c fun x => x.insert p o) c' q =
      if c = c' ∧ p = q then some o else pendingIn m c' q := by
  rw [pendingIn_entry, ExtTreeMap.getElem?_insert, getElem?_entry]
  by_cases hc : c = c'
  · subst hc
    simp only [Std.compare_eq_iff_eq, true_and, if_true]
  · simp [hc]

section Pendings

variable {pend pend' : ProcessScopeId → ProcessId → Option TerminationOutcome}

/-- More outcomes may be entered for the processes of a drained scope. -/
theorem Pendings.extend (hi : Pendings h pend)
    (hold : ∀ {c q o}, pend c q = some o → ∃ o', pend' c q = some o')
    (hnew : ∀ {c q o}, pend' c q = some o → pend c q = some o ∨
      (∃ d, Happened h (.drained c d) ∧ q ∈ d) ∧ ¬ Happened h (.pendingCleared c) ∧
        (o.isVerified = true ↔ HasEvidence h q)) : Pendings h pend' := by
  refine ⟨fun hp => ?_, fun hp => ?_, fun hp => ?_, fun hd hm hev hn => ?_, fun hp hn => ?_⟩
  · rcases hnew hp with hp | ⟨hd, -⟩
    · exact hi.drained hp
    · exact hd
  · rcases hnew hp with hp | ⟨-, hc, -⟩
    · exact hi.cleared hp
    · exact hc
  · rcases hnew hp with hp | ⟨-, -, hv⟩
    · exact hi.verified hp
    · exact hv
  · obtain ⟨o, ho⟩ := hi.evidence hd hm hev hn
    exact hold ho
  · obtain ⟨o, ho⟩ := hi.pended hp hn
    exact hold ho

/-- A process with a pending outcome was attached to the scope. -/
theorem Pendings.attached (hl : Lawful h) (hi : Pendings h pend) {o : TerminationOutcome}
    (hp : pend c p = some o) : ∃ os, Happened h (.attached c p os) := by
  obtain ⟨d, hd, hm⟩ := hi.drained hp
  obtain ⟨_, l, hs, -, -, -, hat, -⟩ := hl.of_happened hd
  obtain ⟨os, hos⟩ := hat p hm
  exact ⟨os, hos.mono hs⟩

/-- The record of an exit: into the pending outcomes once the scope drains, and only of the scope
that the process was attached to. -/
theorem Pendings.recorded (hl : Lawful h) (hi : Pendings h pend)
    (hev : ev = .reaped c p e ∨ ev = .recovered c p e) (hat : Happened h (.attached c p os))
    (hn : ¬ HasEvidence h p)
    (hcase : (¬ Drained h c ∧ pend' = pend) ∨
      ((∃ d, Happened h (.drained c d) ∧ p ∈ d) ∧ ¬ Happened h (.pendingCleared c) ∧
        ∀ c' q, pend' c' q = if c = c' ∧ p = q then some e.outcome else pend c' q)) :
    Pendings ((t, ev) :: h) pend' := by
  have hs : h <:+ (t, ev) :: h := List.suffix_cons _ _
  have hhap : ∀ {ev'}, Happened ((t, ev) :: h) ev' → (∀ c e, ev' ≠ .reaped c p e) →
      (∀ c e, ev' ≠ .recovered c p e) → Happened h ev' := by
    intro ev' hp h₁ h₂
    refine (happened_cons.mp hp).resolve_left ?_
    rcases hev with rfl | rfl
    · exact h₁ c e
    · exact h₂ c e
  have hevi : ∀ {q}, HasEvidence ((t, ev) :: h) q ↔ (q = p ∧ e.Verified) ∨ HasEvidence h q := by
    intro q
    rcases hev with rfl | rfl
    · simp [and_comm, eq_comm]
    · simp [and_comm, eq_comm]
  have hscope : ∀ {c' os'}, Happened h (.attached c' p os') → c' = c := fun ha =>
    (hl.attached_unique ha hat).1
  have hmem : ∀ {c' d}, Happened h (.drained c' d) → p ∈ d → c' = c := by
    intro c' d hd hm
    obtain ⟨_, l, hsl, -, -, -, hatt, -⟩ := hl.of_happened hd
    obtain ⟨os', hos⟩ := hatt p hm
    exact hscope (hos.mono hsl)
  have hself : ∀ {c' o}, pend c' p = some o → c' = c := fun hp => by
    obtain ⟨os', hos⟩ := hi.attached hl hp
    exact hscope hos
  rcases hcase with ⟨hnd, rfl⟩ | ⟨⟨d, hd, hpd⟩, hnc, hpend⟩
  · refine ⟨fun hp => ?_, fun hp hc => hi.cleared hp (hhap hc (by simp) (by simp)), ?_, ?_, ?_⟩
    · obtain ⟨d, hd, hm⟩ := hi.drained hp
      exact ⟨d, hd.mono hs, hm⟩
    · intro c' q o hp
      rw [hi.verified hp, hevi]
      refine ⟨.inr, fun hq => hq.resolve_left ?_⟩
      rintro ⟨rfl, -⟩
      obtain ⟨d, hd, -⟩ := hi.drained hp
      exact hnd ⟨d, hself hp ▸ hd⟩
    · intro c' d q hd hm hq hnc
      have hd' := hhap hd (by simp) (by simp)
      rcases hevi.mp hq with ⟨rfl, -⟩ | hq
      · exact absurd ⟨d, hmem hd' hm ▸ hd'⟩ hnd
      · exact hi.evidence hd' hm hq fun hc => hnc (hc.mono hs)
    · exact fun hp hnc => hi.pended (hhap hp (by simp) (by simp)) fun hc => hnc (hc.mono hs)
  · have hold : ∀ {c' q o}, pend c' q = some o → ∃ o', pend' c' q = some o' := by
      intro c' q o hp
      rw [hpend]
      split
      · exact ⟨_, rfl⟩
      · exact ⟨o, hp⟩
    refine ⟨fun {c' q o} hp => ?_, fun {c' q o} hp hc => ?_, fun {c' q o} hp => ?_,
      fun {c' d' q} hd' hm hq hn' => ?_, fun hp hn' => ?_⟩
    · rw [hpend] at hp
      split at hp
      · next heq =>
          obtain ⟨rfl, rfl⟩ := heq
          exact ⟨d, hd.mono hs, hpd⟩
      · obtain ⟨d', hd', hm⟩ := hi.drained hp
        exact ⟨d', hd'.mono hs, hm⟩
    · have hc' := hhap hc (by simp) (by simp)
      rw [hpend] at hp
      split at hp
      · next heq =>
          obtain ⟨rfl, rfl⟩ := heq
          exact hnc hc'
      · exact hi.cleared hp hc'
    · rw [hpend] at hp
      rw [hevi]
      split at hp
      · next heq =>
          obtain ⟨rfl, rfl⟩ := heq
          obtain rfl := Option.some.inj hp
          exact ⟨fun hv => .inl ⟨rfl, hv⟩, fun hq => (hq.resolve_right hn).2⟩
      · next hne =>
          rw [hi.verified hp]
          refine ⟨.inr, fun hq => hq.resolve_left ?_⟩
          rintro ⟨rfl, -⟩
          exact hne ⟨(hself hp).symm, rfl⟩
    · have hd'' := hhap hd' (by simp) (by simp)
      rcases hevi.mp hq with ⟨rfl, -⟩ | hq
      · obtain rfl := hmem hd'' hm
        exact ⟨e.outcome, by rw [hpend, if_pos ⟨rfl, rfl⟩]⟩
      · obtain ⟨o, ho⟩ := hi.evidence hd'' hm hq fun hc => hn' (hc.mono hs)
        exact hold ho
    · obtain ⟨o, ho⟩ := hi.pended (hhap hp (by simp) (by simp)) fun hc => hn' (hc.mono hs)
      exact hold ho

/-- The first draining captures the exits recorded so far. -/
theorem Pendings.drained_first (hi : Pendings h pend) {d : List ProcessId}
    (hn : ¬ Drained h c) (hnc : ¬ Happened h (.pendingCleared c))
    (hcap : ∀ q ∈ d, HasEvidence h q → ∃ o, pend' c q = some o)
    (hold : ∀ {c' q}, c ≠ c' → pend' c' q = pend c' q)
    (hnew : ∀ {q o}, pend' c q = some o → pend c q = some o ∨
      q ∈ d ∧ (o.isVerified = true ↔ HasEvidence h q)) :
    Pendings ((t, .drained c d) :: h) pend' := by
  have hs : h <:+ (t, .drained c d) :: h := List.suffix_cons _ _
  have hempty : ∀ {q o}, pend c q ≠ some o := fun hp => by
    obtain ⟨d', hd', -⟩ := hi.drained hp
    exact hn ⟨d', hd'⟩
  have hevi : ∀ {q}, HasEvidence ((t, .drained c d) :: h) q ↔ HasEvidence h q := by simp
  have hcl : ∀ {c'}, Happened ((t, .drained c d) :: h) (.pendingCleared c') ↔
      Happened h (.pendingCleared c') := by simp
  refine ⟨fun {c' q o} hp => ?_, fun {c' q o} hp => ?_, fun {c' q o} hp => ?_,
    fun {c' d' q} hd hm hq hnc' => ?_, fun {c' q} hp hnc' => ?_⟩
  · by_cases hc : c = c'
    · subst hc
      exact ⟨d, by simp, ((hnew hp).resolve_left hempty).1⟩
    · rw [hold hc] at hp
      obtain ⟨d', hd', hm⟩ := hi.drained hp
      exact ⟨d', hd'.mono hs, hm⟩
  · rw [hcl]
    by_cases hc : c = c'
    · subst hc
      exact hnc
    · rw [hold hc] at hp
      exact hi.cleared hp
  · rw [hevi]
    by_cases hc : c = c'
    · subst hc
      exact ((hnew hp).resolve_left hempty).2
    · rw [hold hc] at hp
      exact hi.verified hp
  · rcases happened_cons.mp hd with heq | hd
    · injection heq with h₁ h₂
      subst h₁ h₂
      exact hcap q hm (hevi.mp hq)
    · have hc : c ≠ c' := by
        rintro rfl
        exact hn ⟨d', hd⟩
      rw [hold hc]
      exact hi.evidence hd hm (hevi.mp hq) fun hx => hnc' (hx.mono hs)
  · have hp' : Happened h (.pended c' q) := by simpa using hp
    obtain ⟨o, ho⟩ := hi.pended hp' fun hx => hnc' (hx.mono hs)
    have hc : c ≠ c' := by
      rintro rfl
      exact hempty ho
    exact ⟨o, by rw [hold hc]; exact ho⟩

/-- The outcome of a joined worker is there. -/
theorem Pendings.joined (hi : Pendings h pend) {o : TerminationOutcome}
    (hp : pend c p = some o) : Pendings ((t, .pended c p) :: h) pend := by
  have hs : h <:+ (t, .pended c p) :: h := List.suffix_cons _ _
  refine ⟨fun hp => ?_, fun hp hc => hi.cleared hp (by simpa using hc), fun hp => ?_,
    fun hd hm hq hn => ?_, fun {c' q} hq hn => ?_⟩
  · obtain ⟨d, hd, hm⟩ := hi.drained hp
    exact ⟨d, hd.mono hs, hm⟩
  · rw [hi.verified hp]
    simp
  · exact hi.evidence (by simpa using hd) hm (by simpa using hq) fun hx => hn (hx.mono hs)
  · rcases happened_cons.mp hq with heq | hq
    · injection heq with h₁ h₂
      subst h₁ h₂
      exact ⟨o, hp⟩
    · exact hi.pended hq fun hx => hn (hx.mono hs)

/-- The commit drops the pending outcomes of its scope. -/
theorem Pendings.clear (hi : Pendings h pend)
    (hpend : ∀ c' q, pend' c' q = if c = c' then none else pend c' q) :
    Pendings ((t, .pendingCleared c) :: h) pend' := by
  have hs : h <:+ (t, .pendingCleared c) :: h := List.suffix_cons _ _
  have hback : ∀ {c' q o}, pend' c' q = some o → c ≠ c' ∧ pend c' q = some o := by
    intro c' q o hp
    rw [hpend] at hp
    split at hp
    · cases hp
    · next hne => exact ⟨hne, hp⟩
  have hforth : ∀ {c' q}, ¬ Happened ((t, .pendingCleared c) :: h) (.pendingCleared c') →
      (¬ Happened h (.pendingCleared c') → ∃ o, pend c' q = some o) →
      ∃ o, pend' c' q = some o := by
    intro c' q hn hex
    have hne : ¬ c = c' := by
      rintro rfl
      exact hn (by simp)
    rw [hpend, if_neg hne]
    exact hex fun hx => hn (hx.mono hs)
  refine ⟨fun hp => ?_, fun hp hc => ?_, fun hp => ?_, fun hd hm hq hn => ?_, fun hq hn => ?_⟩
  · obtain ⟨d, hd, hm⟩ := hi.drained (hback hp).2
    exact ⟨d, hd.mono hs, hm⟩
  · rcases happened_cons.mp hc with heq | hc
    · injection heq with heq
      exact (hback hp).1 heq.symm
    · exact hi.cleared (hback hp).2 hc
  · rw [hi.verified (hback hp).2]
    simp
  · exact hforth hn fun hn' => hi.evidence (by simpa using hd) hm (by simpa using hq) hn'
  · exact hforth hn fun hn' => hi.pended (by simpa using hq) hn'

end Pendings

/-! A fold of `keepVerified` keeps what is there, and verified outcomes for good. -/

namespace Outcomes

variable {o : TerminationOutcome}

/-- What the outcomes are after one was merged: a verified one stays. -/
theorem getElem?_keepVerified (m : Outcomes) (p q : ProcessId) (o : TerminationOutcome) :
    (m.keepVerified p o)[q]? =
      if p = q ∧ ∀ v, m[p]? = some v → v.isVerified = false then some o else m[q]? := by
  have hins : (m.insert p o)[q]? = if p = q then some o else m[q]? := by
    simp only [ExtTreeMap.getElem?_insert, Std.compare_eq_iff_eq]
  rw [keepVerified]
  cases hm : m[p]? with
  | none =>
      rw [hins]
      simp
  | some v =>
      cases hv : v.isVerified with
      | true => simp [hv]
      | false =>
          simp only [hv, Bool.false_eq_true, if_false]
          rw [hins]
          simp [hv]

variable {m : Outcomes} {outcomes : List (ProcessId × TerminationOutcome)}

/-- A verified outcome survives a merge. -/
theorem keepAll_verified (hv : o.isVerified = true) (hm : m[q]? = some o) :
    (m.keepAll outcomes)[q]? = some o := by
  induction outcomes generalizing m with
  | nil => exact hm
  | cons po rest ih =>
      refine ih ?_
      rw [getElem?_keepVerified, if_neg]
      · exact hm
      · rintro ⟨rfl, hn⟩
        rw [hn o hm] at hv
        cases hv

/-- A merge drops no process. -/
theorem keepAll_mono (hm : ∃ o, m[q]? = some o) : ∃ o, (m.keepAll outcomes)[q]? = some o := by
  induction outcomes generalizing m with
  | nil => exact hm
  | cons po rest ih =>
      refine ih ?_
      rw [getElem?_keepVerified]
      split
      · exact ⟨_, rfl⟩
      · exact hm

/-- An outcome after a merge was there, or was merged. -/
theorem of_keepAll (hk : (m.keepAll outcomes)[q]? = some o) :
    m[q]? = some o ∨ (q, o) ∈ outcomes := by
  induction outcomes generalizing m with
  | nil => exact .inl hk
  | cons po rest ih =>
      rcases ih hk with hm | hm
      · rw [getElem?_keepVerified] at hm
        split at hm
        · next hc =>
            obtain ⟨rfl, -⟩ := hc
            obtain rfl := Option.some.inj hm
            exact .inr List.mem_cons_self
        · exact .inl hm
      · exact .inr (List.mem_cons_of_mem _ hm)

/-- A process whose outcome was merged has an outcome. -/
theorem keepAll_mem (h : (q, o) ∈ outcomes) : ∃ o', (m.keepAll outcomes)[q]? = some o' := by
  induction outcomes generalizing m with
  | nil => cases h
  | cons po rest ih =>
      rcases List.mem_cons.mp h with rfl | h
      · refine keepAll_mono (m := m.keepVerified q o) ?_
        rw [getElem?_keepVerified]
        split
        · exact ⟨_, rfl⟩
        · next hc =>
            by_contra hn
            exact hc ⟨rfl, fun v hv => absurd ⟨v, hv⟩ hn⟩
      · exact ih h

end Outcomes

/-- Outcomes of the processes of a drained scope, verified only with evidence, are entered next to
what is there. Where there is evidence, a verified outcome is there already. -/
theorem Pendings.merge {m : ExtTreeMap ProcessScopeId Outcomes}
    {outcomes : List (ProcessId × TerminationOutcome)} {d : List ProcessId}
    (hi : Pendings h (pendingIn m)) (hd : Happened h (.drained c d))
    (hnc : ¬ Happened h (.pendingCleared c))
    (hout : ∀ po ∈ outcomes, po.1 ∈ d ∧ (po.2.isVerified = true → HasEvidence h po.1)) :
    Pendings h (pendingIn (pendingEntry m c fun x => x.keepAll outcomes)) := by
  refine hi.extend (fun {c' q o} hp => ?_) (fun {c' q o} hp => ?_)
  · rw [pendingIn_entry]
    split
    · next hc =>
        subst hc
        refine Outcomes.keepAll_mono ?_
        rw [getElem?_entry]
        exact ⟨o, hp⟩
    · exact ⟨o, hp⟩
  · rw [pendingIn_entry] at hp
    split at hp
    · next hc =>
        subst hc
        rcases Outcomes.of_keepAll hp with hm | hm
        · rw [getElem?_entry] at hm
          exact .inl hm
        · obtain ⟨hqd, hev⟩ := hout _ hm
          refine .inr ⟨⟨d, hd, hqd⟩, hnc, hev, fun hq => ?_⟩
          obtain ⟨v, hv⟩ := hi.evidence hd hqd hq hnc
          have hver := (hi.verified hv).mpr hq
          have hkeep : ((m[c]?.getD ∅).keepAll outcomes)[q]? = some v :=
            Outcomes.keepAll_verified hver ((getElem?_entry m c q).trans hv)
          rw [hp] at hkeep
          obtain rfl := Option.some.inj hkeep
          exact hver
    · exact .inl hp

/-! The exits captured at the draining boundary. -/

/-- Entering the exits of a draining drops no process. -/
theorem getElem?_insertNew_mono {m : Outcomes} {exits : List (ProcessId × TerminationOutcome)}
    (hm : ∃ o, m[q]? = some o) :
    ∃ o, (exits.foldl (fun m po => m.insertIfNew po.1 po.2) m)[q]? = some o := by
  induction exits generalizing m with
  | nil => exact hm
  | cons po rest ih =>
      refine ih ?_
      rw [ExtTreeMap.getElem?_insertIfNew]
      split
      · exact ⟨_, rfl⟩
      · exact hm

/-- An outcome after that was there, or is one of the exits. -/
theorem of_getElem?_insertNew {m : Outcomes} {exits : List (ProcessId × TerminationOutcome)}
    {o : TerminationOutcome}
    (hk : (exits.foldl (fun m po => m.insertIfNew po.1 po.2) m)[q]? = some o) :
    m[q]? = some o ∨ (q, o) ∈ exits := by
  induction exits generalizing m with
  | nil => exact .inl hk
  | cons po rest ih =>
      rcases ih hk with hm | hm
      · rw [ExtTreeMap.getElem?_insertIfNew] at hm
        split at hm
        · next hc =>
            obtain rfl := Std.compare_eq_iff_eq.mp hc.1
            obtain rfl := Option.some.inj hm
            exact .inr List.mem_cons_self
        · exact .inl hm
      · exact .inr (List.mem_cons_of_mem _ hm)

/-- A process whose exit was entered has an outcome. -/
theorem getElem?_insertNew_mem {m : Outcomes} {exits : List (ProcessId × TerminationOutcome)}
    {o : TerminationOutcome} (h : (q, o) ∈ exits) :
    ∃ o', (exits.foldl (fun m po => m.insertIfNew po.1 po.2) m)[q]? = some o' := by
  induction exits generalizing m with
  | nil => cases h
  | cons po rest ih =>
      rcases List.mem_cons.mp h with rfl | h
      · refine getElem?_insertNew_mono (m := m.insertIfNew q o) ?_
        rw [ExtTreeMap.getElem?_insertIfNew]
        split
        · exact ⟨_, rfl⟩
        · next hc =>
            have hm : q ∈ m := by simpa using hc
            exact ⟨m[q], ExtTreeMap.getElem?_eq_some_getElem hm⟩
      · exact ih h

/-- What the capture leaves pending: everything that was, and every captured exit. -/
theorem pendingIn_capture (m : ExtTreeMap ProcessScopeId Outcomes) (c : ProcessScopeId)
    (exits : List (ProcessId × TerminationOutcome)) {m' : ExtTreeMap ProcessScopeId Outcomes}
    (hm : m' = if exits.isEmpty then m else pendingEntry m c fun x =>
      exits.foldl (fun x po => x.insertIfNew po.1 po.2) x) :
    (∀ {c' q}, c ≠ c' → pendingIn m' c' q = pendingIn m c' q) ∧
    (∀ {c' q o}, pendingIn m c' q = some o → ∃ o', pendingIn m' c' q = some o') ∧
    (∀ {q o}, pendingIn m' c q = some o → pendingIn m c q = some o ∨ (q, o) ∈ exits) ∧
    ∀ {q o}, (q, o) ∈ exits → ∃ o', pendingIn m' c q = some o' := by
  split at hm
  · next hemp =>
      subst hm
      obtain rfl := List.isEmpty_iff.mp hemp
      exact ⟨fun _ => rfl, fun hp => ⟨_, hp⟩, .inl, fun hq => absurd hq (by simp)⟩
  · subst hm
    refine ⟨fun hne => ?_, fun {c' q o} hp => ?_, fun {q o} hp => ?_, fun hq => ?_⟩
    · rw [pendingIn_entry, if_neg hne]
    · rw [pendingIn_entry]
      split
      · next heq =>
          subst heq
          exact getElem?_insertNew_mono ⟨o, (getElem?_entry m c q).trans hp⟩
      · exact ⟨o, hp⟩
    · rw [pendingIn_entry, if_pos rfl] at hp
      rw [← getElem?_entry]
      exact of_getElem?_insertNew hp
    · rw [pendingIn_entry, if_pos rfl]
      exact getElem?_insertNew_mem hq

/-! ### Commits -/

section Commits

variable {ops ops' : ProcessScopeId → ScopeOperation}
  {reports : ExtTreeMap ProcessScopeId RetainedScopeReport} {completed : List ProcessScopeId}

/-- A lock that no commit in progress holds can change hands. -/
theorem Commits.holders (hi : Commits h ops reports completed)
    (hser : ∀ c, (ops' c).serial = (ops c).serial)
    (hhold : ∀ c, Committed h c → ¬ Handed h c → (ops' c).holder = (ops c).holder) :
    Commits h ops' reports completed := by
  refine ⟨fun {c r} => ?_, fun {c} hc hn => ?_, hi.report, hi.reported, hi.retained⟩
  · rw [hser, hi.serial]
  · obtain ⟨t', r, ht, hm⟩ := hi.inProgress hc hn
    exact ⟨t', r, by rw [hhold c hc hn, ht], hm⟩

/-- A commit begins, behind the lock of its scope. -/
theorem Commits.begin {r : ScopeTerminationReport} (hi : Commits h ops reports completed)
    (hold : (ops c).holder = some t) (hn : ¬ Committed h c) :
    Commits ((t, .committed c r) :: h)
      (Function.update ops c { ops c with serial := some r }) reports completed := by
  have hs : h <:+ (t, .committed c r) :: h := List.suffix_cons _ _
  have hcom : ∀ {c' r'}, Happened ((t, .committed c r) :: h) (.committed c' r') ↔
      (c' = c ∧ r' = r) ∨ Happened h (.committed c' r') := by simp
  refine ⟨fun {c' r'} => ?_, fun {c'} hc hnh => ?_, fun hr => ?_, ?_, hi.retained⟩
  · rw [hcom]
    by_cases hc : c' = c
    · subst hc
      rw [Function.update_self]
      constructor
      · rintro ⟨⟩
        exact .inl ⟨rfl, rfl⟩
      · rintro (⟨-, rfl⟩ | hr')
        · rfl
        · exact absurd ⟨r', hr'⟩ hn
    · rw [Function.update_of_ne hc, hi.serial]
      simp [hc]
  · by_cases hcc : c' = c
    · subst hcc
      exact ⟨t, r, by rw [Function.update_self]; exact hold, List.mem_cons_self⟩
    · obtain ⟨r', hr'⟩ := hc
      have hr'' := (hcom.mp hr').resolve_left fun hx => hcc hx.1
      obtain ⟨t', r₀, ht, hm⟩ := hi.inProgress ⟨r', hr''⟩ fun ⟨w, hw⟩ => hnh ⟨w, hw.mono hs⟩
      exact ⟨t', r₀, by rw [Function.update_of_ne hcc]; exact ht, List.mem_cons_of_mem _ hm⟩
  · obtain ⟨r', hrr, hc⟩ := hi.report hr
    exact ⟨r', hrr, hc.mono hs⟩
  · intro c'
    rw [hi.reported]
    simp

/-- A commit ends when `ScopeClosed` is handed over. -/
theorem Commits.handed {w : Tid} (hi : Commits h ops reports completed) :
    Commits ((t, .closedHanded c w) :: h) ops reports completed := by
  have hs : h <:+ (t, .closedHanded c w) :: h := List.suffix_cons _ _
  refine ⟨?_, fun {c'} hc hnh => ?_, fun hr => ?_, ?_, hi.retained⟩
  · intro c' r'
    rw [hi.serial]
    simp
  · obtain ⟨t', r, ht, hm⟩ := hi.inProgress (by simpa using hc) fun hx => hnh (by simp [hx])
    exact ⟨t', r, ht, List.mem_cons_of_mem _ hm⟩
  · obtain ⟨r', hrr, hc⟩ := hi.report hr
    exact ⟨r', hrr, hc.mono hs⟩
  · intro c'
    rw [hi.reported]
    simp

/-- The committed report enters the report map. -/
theorem Commits.report_retained (hl : Lawful h) {r : ScopeTerminationReport}
    (hi : Commits h ops reports completed) (hc : Happened h (.committed c r))
    (hn : ¬ Happened h (.reportRetained c)) :
    Commits ((t, .reportRetained c) :: h) ops (reports.insert c (.retain r)) completed := by
  have hs : h <:+ (t, .reportRetained c) :: h := List.suffix_cons _ _
  have hnc : ¬ Happened h (.scopeCompleted c) := fun hx =>
    hn (hl.retained_of_removed (hl.removed_of_completed hx))
  refine ⟨?_, fun {c'} hcm hnh => ?_, fun {c' rr} hr => ?_, ?_, hi.retained⟩
  · intro c' r'
    rw [hi.serial]
    simp
  · obtain ⟨t', r', ht, hm⟩ := hi.inProgress (by simpa using hcm) fun hx => hnh (by simp [hx])
    exact ⟨t', r', ht, List.mem_cons_of_mem _ hm⟩
  · rw [ExtTreeMap.getElem?_insert] at hr
    split at hr
    · next heq =>
        obtain rfl := Std.compare_eq_iff_eq.mp heq
        exact ⟨r, (Option.some.inj hr).symm, hc.mono hs⟩
    · obtain ⟨r', hrr, hc'⟩ := hi.report hr
      exact ⟨r', hrr, hc'.mono hs⟩
  · intro c'
    rw [ExtTreeMap.getElem?_insert]
    by_cases heq : c = c'
    · subst heq
      simp [hnc]
    · have hcmp : compare c c' ≠ .eq := fun hx => heq (Std.compare_eq_iff_eq.mp hx)
      simp only [hcmp, if_false]
      rw [hi.reported]
      simp [Ne.symm heq]

/-- The scope enters the report history, and the oldest reports beyond the bound go. -/
theorem Commits.complete (hi : Commits h ops reports completed)
    (hn : ¬ Happened h (.scopeCompleted c)) :
    Commits ((t, .scopeCompleted c) :: h) ops
      (eraseAll reports (Conc.retain SCOPE_REPORT_HISTORY_BOUND completed c).2)
      (Conc.retain SCOPE_REPORT_HISTORY_BOUND completed c).1 := by
  have hs : h <:+ (t, .scopeCompleted c) :: h := List.suffix_cons _ _
  have hlog : c ∉ completedLog h := fun hm => hn (mem_completedLog.mp hm)
  have hlog' : completedLog ((t, .scopeCompleted c) :: h) = c :: completedLog h := rfl
  refine ⟨?_, fun {c'} hcm hnh => ?_, fun {c' rr} hr => ?_, ?_, ?_⟩
  · intro c' r'
    rw [hi.serial]
    simp
  · obtain ⟨t', r', ht, hm⟩ := hi.inProgress (by simpa using hcm) fun hx => hnh (by simp [hx])
    exact ⟨t', r', ht, List.mem_cons_of_mem _ hm⟩
  · rw [getElem?_eraseAll] at hr
    split at hr
    · cases hr
    · obtain ⟨r', hrr, hc'⟩ := hi.report hr
      exact ⟨r', hrr, hc'.mono hs⟩
  · intro c'
    have hk := hi.retained.kept_push hlog c'
    rw [← hlog', mem_completedLog, mem_completedLog] at hk
    have hrr : Happened ((t, .scopeCompleted c) :: h) (.reportRetained c') ↔
        Happened h (.reportRetained c') := by simp
    rw [hrr, ← hk, getElem?_eraseAll]
    have hrep := hi.reported (c := c')
    split
    · next hev => simp [hev]
    · next hev =>
        rw [hrep]
        simp [hev]
  · rw [hlog']
    exact hi.retained.push fun hm => hlog (hi.retained.mem_log hm)

end Commits

/-! ### Observed scopes -/

section Results

variable {results owners : ExtTreeMap ProcessScopeId Unit} {completed : List ProcessScopeId}
  {cleanup : ProcessScopeId → Option CleanupResult}

/-- What a set of scopes contains after an insertion. -/
theorem contains_insert_unit (m : ExtTreeMap ProcessScopeId Unit) (c c' : ProcessScopeId) :
    (m.insert c ()).contains c' = true ↔ c' = c ∨ m.contains c' = true := by
  rw [ExtTreeMap.contains_insert, Bool.or_eq_true, beq_iff_eq, Std.compare_eq_iff_eq, eq_comm]

/-- A new scope without an owner. -/
theorem Results.create (hi : Results h results owners completed cleanup) :
    Results ((t, .scopeCreated c false) :: h) results owners completed cleanup := by
  have hs : h <:+ (t, .scopeCreated c false) :: h := List.suffix_cons _ _
  refine ⟨?_, hi.retained, fun hc => (hi.published hc).mono hs,
    fun hp hv => hi.final (by simpa using hp) hv, fun ho => (hi.owner ho).mono hs⟩
  intro c'
  rw [hi.sender]
  simp

/-- A new observed scope: its channel is empty, as it was. -/
theorem Results.observe (hi : Results h results owners completed cleanup)
    (hn : ¬ Happened h (.resultRetained c)) (hp : ∀ v, ¬ Happened h (.published c v)) :
    Results ((t, .scopeCreated c true) :: h) (results.insert c ()) (owners.insert c ())
      completed (Function.update cleanup c none) := by
  have hs : h <:+ (t, .scopeCreated c true) :: h := List.suffix_cons _ _
  have hempty : cleanup c = none := by
    cases hc : cleanup c with
    | none => rfl
    | some v => exact absurd (hi.published hc) (hp v)
  have hsame : Function.update cleanup c none = cleanup := by
    rw [← hempty, Function.update_eq_self]
  rw [hsame]
  refine ⟨fun {c'} => ?_, hi.retained, fun hc => (hi.published hc).mono hs,
    fun hp hv => hi.final (by simpa using hp) hv, fun {c'} ho => ?_⟩
  · rw [contains_insert_unit, hi.sender]
    by_cases hc : c' = c
    · subst hc
      simp [hn]
    · simp [hc, Ne.symm hc]
  · rcases (contains_insert_unit owners c c').mp ho with rfl | ho
    · simp
    · exact (hi.owner ho).mono hs

/-- A publication on a channel that holds no verified report. -/
theorem Results.publish {v : CleanupResult} (hi : Results h results owners completed cleanup)
    (hn : Inner.isVerifiedResult (cleanup c) = false) :
    Results ((t, .published c v) :: h) results owners completed
      (Function.update cleanup c (some v)) := by
  have hs : h <:+ (t, .published c v) :: h := List.suffix_cons _ _
  refine ⟨?_, hi.retained, fun {c' v'} hc => ?_, fun {c' r} hp hv => ?_,
    fun ho => (hi.owner ho).mono hs⟩
  · intro c'
    rw [hi.sender]
    simp
  · by_cases hcc : c' = c
    · subst hcc
      rw [Function.update_self] at hc
      obtain rfl := Option.some.inj hc
      simp
    · rw [Function.update_of_ne hcc] at hc
      exact (hi.published hc).mono hs
  · rcases happened_cons.mp hp with heq | hp
    · injection heq with h₁ h₂
      subst h₁ h₂
      exact Function.update_self ..
    · have hfin := hi.final hp hv
      have hcc : c' ≠ c := by
        rintro rfl
        rw [hfin] at hn
        exact absurd hv (by simpa [Inner.isVerifiedResult] using hn)
      rw [Function.update_of_ne hcc]
      exact hfin

/-- An observed scope enters its history, and the oldest results beyond the bound go. -/
theorem Results.retain (hi : Results h results owners completed cleanup)
    (hn : ¬ Happened h (.resultRetained c)) :
    Results ((t, .resultRetained c) :: h)
      (eraseAll results (Conc.retain SCOPE_REPORT_HISTORY_BOUND completed c).2) owners
      (Conc.retain SCOPE_REPORT_HISTORY_BOUND completed c).1 cleanup := by
  have hs : h <:+ (t, .resultRetained c) :: h := List.suffix_cons _ _
  have hlog : c ∉ resultLog h := fun hm => hn (mem_resultLog.mp hm)
  have hlog' : resultLog ((t, .resultRetained c) :: h) = c :: resultLog h := rfl
  refine ⟨fun {c'} => ?_, ?_, fun hc => (hi.published hc).mono hs,
    fun hp hv => hi.final (by simpa using hp) hv, fun ho => (hi.owner ho).mono hs⟩
  · have hk := hi.retained.kept_push hlog c'
    rw [← hlog', mem_resultLog, mem_resultLog] at hk
    have hob : Observed ((t, .resultRetained c) :: h) c' ↔ Observed h c' := by simp
    have hsend := hi.sender (c := c')
    rw [ExtTreeMap.contains_eq_isSome_getElem?] at hsend
    rw [hob, ← hk, ExtTreeMap.contains_eq_isSome_getElem?, getElem?_eraseAll]
    split
    · next hev => simp [hev]
    · next hev =>
        rw [hsend]
        simp [hev]
  · rw [hlog']
    exact hi.retained.push fun hm => hlog (hi.retained.mem_log hm)

/-- An owner is consumed. -/
theorem Results.takeOwner (hi : Results h results owners completed cleanup)
    (c : ProcessScopeId) : Results h results (owners.erase c) completed cleanup := by
  refine ⟨hi.sender, hi.retained, hi.published, hi.final, fun {c'} ho => hi.owner ?_⟩
  rw [ExtTreeMap.contains_erase, Bool.and_eq_true] at ho
  exact ho.2

end Results

/-! ### Flags -/

section Flags

variable {shuttingDown ownersDropped : Bool} {samplerHolder : Option Tid}

/-- The flag of a shutdown, with its event. -/
theorem Flags.shutdown (hi : Flags h shuttingDown ownersDropped samplerHolder) :
    Flags ((t, .shutdownStarted) :: h) true ownersDropped samplerHolder := by
  have hs : h <:+ (t, .shutdownStarted) :: h := List.suffix_cons _ _
  refine ⟨by simp, fun hd => (hi.dropped hd).mono hs, fun hh => ⟨by simp, fun c hc => ?_⟩⟩
  exact ((hi.sampler hh).2 c (by simpa using hc)).mono hs

/-- The flag of the dropped owners, with its event. -/
theorem Flags.drop (hi : Flags h shuttingDown ownersDropped samplerHolder) :
    Flags ((t, .ownersDropped) :: h) shuttingDown true samplerHolder := by
  have hs : h <:+ (t, .ownersDropped) :: h := List.suffix_cons _ _
  refine ⟨by rw [hi.started]; simp, fun _ => by simp, fun hh => ?_⟩
  obtain ⟨hst, hall⟩ := hi.sampler hh
  exact ⟨hst.mono hs, fun c hc => (hall c (by simpa using hc)).mono hs⟩

/-- A scope is created before any shutdown, so nobody holds the sampler mutex. -/
theorem Flags.create {observed : Bool} (hi : Flags h shuttingDown ownersDropped samplerHolder)
    (hn : ¬ Happened h .shutdownStarted) :
    Flags ((t, .scopeCreated c observed) :: h) shuttingDown ownersDropped samplerHolder := by
  have hs : h <:+ (t, .scopeCreated c observed) :: h := List.suffix_cons _ _
  refine ⟨by rw [hi.started]; simp, fun hd => (hi.dropped hd).mono hs, fun hh => ?_⟩
  exact absurd (hi.sampler hh).1 hn

/-- The sampler mutex is taken after every scope is gone, or released. -/
theorem Flags.sampler_holder {samplerHolder' : Option Tid}
    (hi : Flags h shuttingDown ownersDropped samplerHolder)
    (hh : ∀ t, samplerHolder' = some t → samplerHolder = some t ∨
      Happened h .shutdownStarted ∧ ∀ c, Created h c → Removed h c) :
    Flags h shuttingDown ownersDropped samplerHolder' := by
  refine ⟨hi.started, hi.dropped, fun {t} ht => ?_⟩
  rcases hh t ht with hh | hh
  · exact hi.sampler hh
  · exact hh

end Flags

/-! ### Tasks -/

section Tasks

variable {n n' : Tid} {ops ops' : ProcessScopeId → ScopeOperation}
  {joined : Tid → Option WorkerResult}

/-- The number of the next task may grow. -/
theorem Tasks.next (hi : Tasks h n ops joined) (hn : n ≤ n') : Tasks h n' ops joined :=
  ⟨fun hm => Nat.lt_of_lt_of_le (hi.below hm) hn,
    fun hp hw => Nat.lt_of_lt_of_le (hi.started hp hw) hn, hi.holder, hi.ended⟩

/-- Locks may change hands, to tasks that have acquired them. -/
theorem Tasks.holders (hi : Tasks h n ops joined)
    (hh : ∀ c t, (ops' c).holder = some t → (ops c).holder = some t ∨ (t, .acquired c) ∈ h) :
    Tasks h n ops' joined := by
  refine ⟨hi.below, hi.started, fun {c t} hc => ?_, hi.ended⟩
  rcases hh c t hc with hc | hc
  · exact hi.holder hc
  · exact hc

/-- A task returns, and a worker leaves its result. -/
theorem Tasks.finish {v : Ret} (hi : Tasks h n ops joined) (ht : t < n) :
    Tasks ((t, .returned v) :: h) n ops (match v with
      | .worker _ pid result => Function.update joined t (some (.ended pid result))
      | .workerFailed => Function.update joined t (some .failed)
      | _ => joined) := by
  have hlog : Tasks ((t, .returned v) :: h) n ops joined :=
    hi.log ht (by simp [Event.starts])
  refine ⟨hlog.below, hlog.started, hlog.holder, fun {w p r} hj => ?_⟩
  split at hj
  · next c pid result =>
      by_cases hw : w = t
      · subst hw
        rw [Function.update_self] at hj
        injection hj with hj
        injection hj with h₁ h₂
        subst h₁ h₂
        exact ⟨c, List.mem_cons_self⟩
      · rw [Function.update_of_ne hw] at hj
        exact hlog.ended hj
  · by_cases hw : w = t
    · subst hw
      rw [Function.update_self] at hj
      injection hj with hj
      cases hj
    · rw [Function.update_of_ne hw] at hj
      exact hlog.ended hj
  · exact hlog.ended hj

end Tasks

end Shepherd
