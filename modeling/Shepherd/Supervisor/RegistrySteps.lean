import Shepherd.Supervisor.Invariant

/-!
# Registry Steps

What the critical sections under the registry lock do to the groups `Catalogue` and
`Processes` of the invariant. Sections that only move processes through their lifecycle
leave a registry that **agrees** with the old one: the same scopes and processes, with the
same OS identities and exits.
-/

open Std

namespace Shepherd

open Conc

variable {t : Tid} {h : History} {r r' : ScopeRegistry} {c c' : ProcessScopeId}
  {p q : ProcessId} {os : OsIdentity} {e : ProcessExit} {proc : Process}
  {operations : ExtTreeMap ProcessScopeId Unit}

/-! ### Agreement -/

/-- Two scopes track the same processes, with the same OS identities and exits. -/
structure ProcessScope.Agrees (sc sc' : ProcessScope) : Prop where
  back : ∀ {p proc'}, sc'.get p = some proc' →
    ∃ proc, sc.get p = some proc ∧ proc'.os = proc.os ∧ proc'.exit = proc.exit
  forth : ∀ {p proc}, sc.get p = some proc → ∃ proc', sc'.get p = some proc'

/-- A change of some processes that keeps OS identity and exit. -/
theorem ProcessScope.agrees_of_get {sc sc' : ProcessScope} {g : Process → Process}
    (hos : ∀ p, (g p).os = p.os) (hex : ∀ p, (g p).exit = p.exit)
    (h : ∀ q, sc'.get q = sc.get q ∨ sc'.get q = (sc.get q).map g) : sc.Agrees sc' where
  back {p proc'} hp := by
    rcases h p with hq | hq
    · exact ⟨proc', hq ▸ hp, rfl, rfl⟩
    · rw [hq, Option.map_eq_some_iff] at hp
      obtain ⟨proc, hproc, rfl⟩ := hp
      exact ⟨proc, hproc, hos proc, hex proc⟩
  forth {p proc} hp := by
    rcases h p with hq | hq
    · exact ⟨proc, hq.trans hp⟩
    · exact ⟨g proc, by rw [hq, hp]; rfl⟩

/-- A request for termination changes no identity and no exit. -/
theorem ProcessScope.agrees_requestTermination (sc : ProcessScope) (p : ProcessId) :
    sc.Agrees (sc.requestTermination p).2 := by
  refine agrees_of_get Process.requestGraceful_os Process.requestGraceful_exit fun q => ?_
  rw [requestTermination_get]
  split
  · exact .inr rfl
  · exact .inl rfl

/-- An escalation changes no identity and no exit. -/
theorem ProcessScope.agrees_escalateTermination (sc : ProcessScope) (p : ProcessId) :
    sc.Agrees (sc.escalateTermination p).2 := by
  refine agrees_of_get Process.escalateToForce_os Process.escalateToForce_exit fun q => ?_
  rw [escalateTermination_get]
  split
  · exact .inr rfl
  · exact .inl rfl

/-- The start of a scope's termination changes no identity and no exit. -/
theorem ProcessScope.agrees_beginScopeTermination (sc : ProcessScope) :
    sc.Agrees sc.beginScopeTermination.2 :=
  agrees_of_get Process.requestGraceful_os Process.requestGraceful_exit fun q =>
    .inr (sc.beginScopeTermination_get q)

/-- Two registries hold the same scopes, which agree. -/
structure ScopeRegistry.Agrees (r r' : ScopeRegistry) : Prop where
  back : ∀ {c sc'}, r'.get c = some sc' → ∃ sc, r.get c = some sc ∧ sc.Agrees sc'
  forth : ∀ {c sc}, r.get c = some sc → ∃ sc', r'.get c = some sc'

/-- A change of one scope that keeps identities and exits. -/
theorem ScopeRegistry.agrees_modify {f : ProcessScope → ProcessScope}
    {hf : ∀ s, (f s).id = s.id} (ha : ∀ sc, r.get c = some sc → sc.Agrees (f sc)) :
    r.Agrees (r.modify c f hf) where
  back {c' sc'} hc := by
    rw [get_modify] at hc
    split at hc
    · next heq =>
        subst heq
        obtain ⟨sc, hsc, rfl⟩ := Option.map_eq_some_iff.mp hc
        exact ⟨sc, hsc, ha sc hsc⟩
    · exact ⟨sc', hc, fun hp => ⟨_, hp, rfl, rfl⟩, fun hp => ⟨_, hp⟩⟩
  forth {c' sc} hc := by
    rw [get_modify, hc]
    split
    · exact ⟨_, rfl⟩
    · exact ⟨_, rfl⟩

namespace ScopeRegistry.Agrees

/-- A process that an agreeing registry tracks was tracked, with this identity and exit. -/
theorem tracked_back (ha : r.Agrees r') {proc' : Process} (ht : Tracked r' c p proc') :
    ∃ proc, Tracked r c p proc ∧ proc'.os = proc.os ∧ proc'.exit = proc.exit := by
  obtain ⟨sc', hsc', hp⟩ := ht
  obtain ⟨sc, hsc, hag⟩ := ha.back hsc'
  obtain ⟨proc, hproc, hos, hex⟩ := hag.back hp
  exact ⟨proc, ⟨sc, hsc, hproc⟩, hos, hex⟩

/-- A process that was tracked is tracked by an agreeing registry. -/
theorem tracked_forth (ha : r.Agrees r') (ht : Tracked r c p proc) :
    ∃ proc', Tracked r' c p proc' := by
  obtain ⟨sc, hsc, hp⟩ := ht
  obtain ⟨sc', hsc'⟩ := ha.forth hsc
  obtain ⟨sc₀, hsc₀, hag⟩ := ha.back hsc'
  obtain rfl : sc = sc₀ := Option.some.inj (hsc.symm.trans hsc₀)
  obtain ⟨proc', hp'⟩ := hag.forth hp
  exact ⟨proc', sc', hsc', hp'⟩

end ScopeRegistry.Agrees

/-- The catalogue depends on the scopes that are there, and on the counters. -/
theorem Catalogue.agree (hi : Catalogue h r operations)
    (hback : ∀ c sc', r'.get c = some sc' → ∃ sc, r.get c = some sc)
    (hforth : ∀ c sc, r.get c = some sc → ∃ sc', r'.get c = some sc')
    (hn : r'.nextScope = r.nextScope) (hp : r.nextProcess ≤ r'.nextProcess) :
    Catalogue h r' operations where
  registered c := by
    rw [← hi.registered]
    constructor
    · rintro ⟨sc', hsc'⟩
      exact hback c sc' hsc'
    · rintro ⟨sc, hsc⟩
      exact hforth c sc hsc
  operation := hi.operation
  scopes_le c hc := hn ▸ hi.scopes_le c hc
  processes_le c p os ha := Nat.le_trans (hi.processes_le c p os ha) hp

/-- A change of one scope leaves the catalogue alone. -/
theorem Catalogue.modify (hi : Catalogue h r operations) {f : ProcessScope → ProcessScope}
    (hf : ∀ s, (f s).id = s.id) : Catalogue h (r.modify c f hf) operations := by
  refine hi.agree (fun c' sc' hc => ?_) (fun c' sc hc => ?_) rfl (Nat.le_refl _)
  · rw [ScopeRegistry.get_modify] at hc
    split at hc
    · obtain ⟨sc, hsc, -⟩ := Option.map_eq_some_iff.mp hc
      exact ⟨sc, hsc⟩
    · exact ⟨sc', hc⟩
  · rw [ScopeRegistry.get_modify, hc]
    split
    · exact ⟨_, rfl⟩
    · exact ⟨_, rfl⟩

/-- A registry that agrees keeps the processes, as long as no scope opens or closes. -/
theorem Processes.agree (hi : Processes h r) (ha : r.Agrees r')
    (ho : ∀ c sc sc', r.get c = some sc → r'.get c = some sc' → sc'.isOpen = sc.isOpen) :
    Processes h r' where
  attached ht := by
    obtain ⟨proc, ht', hos, -⟩ := ha.tracked_back ht
    rw [hos]
    exact hi.attached ht'
  tracked hat := (hi.tracked hat).imp_right fun ⟨_, ht⟩ => ha.tracked_forth ht
  signalled hat := (hi.signalled hat).imp_right
    (Or.imp_right fun ⟨_, ht⟩ => ha.tracked_forth ht)
  exit ht hex := by
    obtain ⟨proc, ht', -, hex'⟩ := ha.tracked_back ht
    exact hi.exit ht' (hex' ▸ hex)
  evidence ht hp := by
    obtain ⟨proc, ht', -, hex'⟩ := ha.tracked_back ht
    rw [hex']
    exact hi.evidence ht' hp
  open_iff hc := by
    obtain ⟨sc, hsc, -⟩ := ha.back hc
    rw [ho _ sc _ hsc hc]
    exact hi.open_iff hsc
  within ht hd := by
    obtain ⟨proc, ht', -⟩ := ha.tracked_back ht
    exact hi.within ht' hd

/-- A lifecycle change of one scope. -/
theorem Processes.modify_agree (hi : Processes h r) {f : ProcessScope → ProcessScope}
    (hf : ∀ s, (f s).id = s.id) (ha : ∀ sc : ProcessScope, sc.Agrees (f sc))
    (ho : ∀ sc, (f sc).isOpen = sc.isOpen) : Processes h (r.modify c f hf) := by
  refine hi.agree (ScopeRegistry.agrees_modify fun sc _ => ha sc) fun c' sc sc' hc hc' => ?_
  rw [ScopeRegistry.get_modify] at hc'
  split at hc'
  · rw [hc] at hc'
    obtain rfl := Option.some.inj hc'
    exact ho sc
  · rw [hc] at hc'
    obtain rfl := Option.some.inj hc'
    rfl

/-! ### Draining -/

/-- The first draining of a scope. -/
theorem Processes.drained (hi : Processes h r) {d : List ProcessId} (hn : ¬ Drained h c)
    (hd : ∀ q proc, Tracked r c q proc → q ∈ d) :
    Processes ((t, .drained c d) :: h)
      (r.modify c (fun sc => sc.beginScopeTermination.2)
        fun sc => sc.beginScopeTermination_id) := by
  have hs : h <:+ (t, .drained c d) :: h := List.suffix_cons _ _
  have ha : r.Agrees (r.modify c (fun sc => sc.beginScopeTermination.2)
      fun sc => sc.beginScopeTermination_id) :=
    ScopeRegistry.agrees_modify fun sc _ => sc.agrees_beginScopeTermination
  have hat : ∀ {c' p os}, Happened ((t, .drained c d) :: h) (.attached c' p os) →
      Happened h (.attached c' p os) := fun hp => by simpa using hp
  have hev : ∀ {p}, HasEvidence ((t, .drained c d) :: h) p → HasEvidence h p :=
    fun hp => by simpa using hp
  refine ⟨fun ht => ?_, fun hp => ?_, fun hp => ?_, fun ht hex => ?_, fun ht hp => ?_,
    fun {c' sc'} hc => ?_, fun {c' q proc' d'} ht hdr => ?_⟩
  · obtain ⟨proc, ht', hos, -⟩ := ha.tracked_back ht
    rw [hos]
    exact (hi.attached ht').mono hs
  · exact (hi.tracked (hat hp)).imp (HasEvidence.mono hs) fun ⟨_, ht⟩ => ha.tracked_forth ht
  · exact (hi.signalled (hat hp)).imp (Signalled.mono hs)
      (Or.imp (Lost.mono hs) fun ⟨_, ht⟩ => ha.tracked_forth ht)
  · obtain ⟨proc, ht', -, hex'⟩ := ha.tracked_back ht
    exact (hi.exit ht' (hex' ▸ hex)).imp (Happened.mono hs) (Happened.mono hs)
  · obtain ⟨proc, ht', -, hex'⟩ := ha.tracked_back ht
    rw [hex']
    exact hi.evidence ht' (hev hp)
  · rw [ScopeRegistry.get_modify] at hc
    split at hc
    · next heq =>
        subst heq
        obtain ⟨sc, hsc, rfl⟩ := Option.map_eq_some_iff.mp hc
        simp
    · next hne =>
        rw [hi.open_iff hc]
        simp [hne]
  · obtain ⟨proc, ht', -⟩ := ha.tracked_back ht
    rcases happened_cons.mp hdr with heq | hdr
    · injection heq with h₁ h₂
      subst h₁ h₂
      exact hd q proc ht'
    · exact hi.within ht' hdr

/-- Draining again changes nothing. -/
theorem Processes.drained_again (hi : Processes h r)
    (hn : ∀ sc, r.get c = some sc → sc.isOpen = false) :
    Processes h (r.modify c (fun sc => sc.beginScopeTermination.2)
      fun sc => sc.beginScopeTermination_id) := by
  refine hi.agree (ScopeRegistry.agrees_modify fun sc _ => sc.agrees_beginScopeTermination)
    fun c' sc sc' hc hc' => ?_
  rw [ScopeRegistry.get_modify, hc] at hc'
  split at hc'
  · next heq =>
      subst heq
      obtain rfl := Option.some.inj hc'
      rw [ProcessScope.beginScopeTermination_isOpen, hn sc hc]
  · obtain rfl := Option.some.inj hc'
    rfl

/-! ### Recording an exit -/

/-- A scope in which one process got an exit recorded. -/
structure ProcessScope.Records (sc sc' : ProcessScope) (p : ProcessId) (e : ProcessExit) :
    Prop where
  isOpen : sc'.isOpen = sc.isOpen
  self : ∀ {proc'}, sc'.get p = some proc' → proc'.exit = some e
  back : ∀ {q proc'}, sc'.get q = some proc' →
    ∃ proc, sc.get q = some proc ∧ proc'.os = proc.os ∧ (q ≠ p → proc'.exit = proc.exit)
  forth : ∀ {q proc}, sc.get q = some proc → ∃ proc', sc'.get q = some proc'

/-- The monitor's record, for a process without an exit. -/
theorem ProcessScope.recordMonitored_records {sc : ProcessScope}
    (hp : sc.get p = some proc) (hn : proc.exit = none) (e : ProcessExit) :
    sc.Records (sc.recordMonitored p e).2 p e := by
  have hget : ∀ q, (sc.recordMonitored p e).2.get q =
      if p = q then (sc.get q).map fun x => (x.markExited.2.markReaped e).2 else sc.get q := by
    intro q
    simp only [ProcessScope.recordMonitored, recordReaped_get, recordExit_get]
    split
    · cases sc.get q <;> rfl
    · rfl
  refine ⟨?_, fun hp' => ?_, fun {q proc'} hq => ?_, fun {q proc'} hq => ?_⟩
  · simp only [ProcessScope.recordMonitored, recordReaped_isOpen]
    exact isOpen_of_state (recordExit_state sc p)
  · rw [hget, if_pos rfl, hp] at hp'
    obtain rfl := Option.some.inj hp'
    rcases proc.markExited.2.markReaped_cases e with ⟨-, -, -, he⟩ | ⟨⟨e', he', -⟩, -⟩
    · exact he
    · rw [Process.markExited_exit, hn] at he'
      cases he'
  · rw [hget] at hq
    split at hq
    · next heq =>
        obtain ⟨x, hx, rfl⟩ := Option.map_eq_some_iff.mp hq
        exact ⟨x, hx, by simp, fun hne => absurd heq.symm hne⟩
    · exact ⟨proc', hq, rfl, fun _ => rfl⟩
  · rw [hget, hq]
    split
    · exact ⟨_, rfl⟩
    · exact ⟨_, rfl⟩

/-- A retry's record, over unverified evidence. -/
theorem ProcessScope.recordReaped_records {sc : ProcessScope} (hp : sc.get p = some proc)
    (hu : ∀ e', proc.exit = some e' → ¬ e'.Verified) (hv : e.Verified) :
    sc.Records (sc.recordReaped p e).2 p e := by
  refine ⟨recordReaped_isOpen sc p e, fun hp' => ?_, fun {q proc'} hq => ?_,
    fun {q proc'} hq => ?_⟩
  · rw [recordReaped_get, if_pos rfl, hp] at hp'
    obtain rfl := Option.some.inj hp'
    rcases proc.markReaped_cases e with ⟨-, -, -, he⟩ | ⟨⟨e', he', hor⟩, -⟩
    · exact he
    · exact absurd hor (not_or.mpr ⟨hu e' he', not_not.mpr hv⟩)
  · rw [recordReaped_get] at hq
    split at hq
    · next heq =>
        obtain ⟨x, hx, rfl⟩ := Option.map_eq_some_iff.mp hq
        exact ⟨x, hx, by simp, fun hne => absurd heq.symm hne⟩
    · exact ⟨proc', hq, rfl, fun _ => rfl⟩
  · rw [recordReaped_get, hq]
    split
    · exact ⟨_, rfl⟩
    · exact ⟨_, rfl⟩

/-- Recording an exit, whoever does it: the event says which, a verified one is the first evidence,
and an unverified one leaves the process without evidence. The other processes, also those of the
scope, keep their exits. -/
theorem Processes.recorded (hl : Lawful h) (hi : Processes h r) {ev : Event}
    {f : ProcessScope → ProcessScope} (hf : ∀ s, (f s).id = s.id)
    (hrec : ∀ sc, r.get c = some sc → sc.Records (f sc) p e) (ht : Tracked r c p proc)
    (hev : ev = .reaped c p e ∨ ev = .recovered c p e) (hn : ¬ HasEvidence h p) :
    Processes ((t, ev) :: h) (r.modify c f hf) := by
  have hs : h <:+ (t, ev) :: h := List.suffix_cons _ _
  have hat : ∀ {c' q os}, Happened ((t, ev) :: h) (.attached c' q os) →
      Happened h (.attached c' q os) := fun hq => by
    rcases hev with rfl | rfl <;> simpa using hq
  have hevi : ∀ {q}, HasEvidence ((t, ev) :: h) q → q = p ∧ e.Verified ∨ HasEvidence h q := by
    intro q hq
    rcases hev with rfl | rfl
    · simpa [and_comm, eq_comm] using hq
    · simpa [and_comm, eq_comm] using hq
  have hback : ∀ {c' q proc'}, Tracked (r.modify c f hf) c' q proc' →
      ∃ proc, Tracked r c' q proc ∧ proc'.os = proc.os ∧
        (q ≠ p → proc'.exit = proc.exit) ∧ (c' = c → q = p → proc'.exit = some e) := by
    rintro c' q proc' ⟨sc', hsc', hq⟩
    rw [ScopeRegistry.get_modify] at hsc'
    split at hsc'
    · next heq =>
        subst heq
        obtain ⟨sc, hsc, rfl⟩ := Option.map_eq_some_iff.mp hsc'
        obtain ⟨proc₀, h₀, hos, hex⟩ := (hrec sc hsc).back hq
        refine ⟨proc₀, ⟨sc, hsc, h₀⟩, hos, hex, fun _ hqp => ?_⟩
        subst hqp
        exact (hrec sc hsc).self hq
    · next hne =>
        exact ⟨proc', ⟨sc', hsc', hq⟩, rfl, fun _ => rfl, fun hc => absurd hc.symm hne⟩
  have hforth : ∀ {c' q}, (∃ proc, Tracked r c' q proc) →
      ∃ proc', Tracked (r.modify c f hf) c' q proc' := by
    rintro c' q ⟨proc₀, sc, hsc, hq⟩
    by_cases heq : c = c'
    · subst heq
      obtain ⟨proc', hq'⟩ := (hrec sc hsc).forth hq
      exact ⟨proc', f sc, by rw [ScopeRegistry.get_modify, if_pos rfl, hsc]; rfl, hq'⟩
    · exact ⟨proc₀, sc, by rw [ScopeRegistry.get_modify, if_neg heq]; exact hsc, hq⟩
  have hsame : ∀ {c' proc₀}, Tracked r c' p proc₀ → c' = c := fun ht₀ =>
    (hl.attached_unique (hi.attached ht₀) (hi.attached ht)).1
  refine ⟨fun htr => ?_, fun hq => ?_, fun hq => ?_, fun {c' q proc' e'} htr hex => ?_,
    fun {c' q proc'} htr hq => ?_, fun {c' sc'} hc => ?_, fun htr hd => ?_⟩
  · obtain ⟨proc₀, ht₀, hos, -⟩ := hback htr
    rw [hos]
    exact (hi.attached ht₀).mono hs
  · exact (hi.tracked (hat hq)).imp (HasEvidence.mono hs) hforth
  · exact (hi.signalled (hat hq)).imp (Signalled.mono hs) (Or.imp (Lost.mono hs) hforth)
  · obtain ⟨proc₀, ht₀, -, hne, heq⟩ := hback htr
    by_cases hqp : q = p
    · subst hqp
      rw [heq (hsame ht₀) rfl] at hex
      obtain rfl := Option.some.inj hex
      obtain rfl := hsame ht₀
      rcases hev with rfl | rfl
      · exact .inl (by simp)
      · exact .inr (by simp)
    · rw [hne hqp] at hex
      exact (hi.exit ht₀ hex).imp (Happened.mono hs) (Happened.mono hs)
  · obtain ⟨proc₀, ht₀, -, hne, heq⟩ := hback htr
    by_cases hqp : q = p
    · subst hqp
      rcases hevi hq with ⟨-, hv⟩ | hq
      · exact ⟨e, heq (hsame ht₀) rfl, hv⟩
      · exact absurd hq hn
    · rw [hne hqp]
      exact hi.evidence ht₀ ((hevi hq).resolve_left fun hc => hqp hc.1)
  · have hd : Drained ((t, ev) :: h) c' ↔ Drained h c' := by
      rcases hev with rfl | rfl <;> simp
    rw [ScopeRegistry.get_modify] at hc
    split at hc
    · next heq =>
        subst heq
        obtain ⟨sc, hsc, rfl⟩ := Option.map_eq_some_iff.mp hc
        rw [(hrec sc hsc).isOpen, hd, hi.open_iff hsc]
    · rw [hd, hi.open_iff hc]
  · obtain ⟨proc₀, ht₀, -⟩ := hback htr
    refine hi.within ht₀ ?_
    rcases hev with rfl | rfl <;> simpa using hd

/-- A tracked process whose exit is verified has evidence. -/
theorem Processes.evidence_of_exit (hi : Processes h r) (ht : Tracked r c p proc)
    (hex : proc.exit = some e) (hv : e.Verified) : HasEvidence h p :=
  ⟨c, e, hv, hi.exit ht hex⟩

/-! ### Pruning -/

/-- A prune removes a process that has evidence and was signalled. -/
theorem Processes.prune (hi : Processes h r) (hsig : Signalled h p) :
    Processes h (r.modify c (fun sc => sc.prune p) fun sc => sc.prune_id p) := by
  have hback : ∀ {c' q proc'},
      Tracked (r.modify c (fun sc => sc.prune p) fun sc => sc.prune_id p) c' q proc' →
      Tracked r c' q proc' := by
    rintro c' q proc' ⟨sc', hsc', hq⟩
    rw [ScopeRegistry.get_modify] at hsc'
    split at hsc'
    · obtain ⟨sc, hsc, rfl⟩ := Option.map_eq_some_iff.mp hsc'
      rw [ProcessScope.prune_get] at hq
      split at hq
      · cases hq
      · exact ⟨sc, hsc, hq⟩
    · exact ⟨sc', hsc', hq⟩
  have hforth : ∀ {c' q proc₀}, Tracked r c' q proc₀ →
      (∃ proc', Tracked (r.modify c (fun sc => sc.prune p) fun sc => sc.prune_id p) c' q proc') ∨
      q = p ∧ HasEvidence h q := by
    rintro c' q proc₀ ⟨sc, hsc, hq⟩
    by_cases heq : c = c'
    · subst heq
      by_cases hpr : p = q ∧ ∃ e, sc.exitOf q = some e ∧ e.Verified
      · obtain ⟨rfl, e, hex, hv⟩ := hpr
        obtain ⟨proc, hproc, hex⟩ := ProcessScope.exitOf_eq_some.mp hex
        exact .inr ⟨rfl, hi.evidence_of_exit ⟨sc, hsc, hproc⟩ hex hv⟩
      · refine .inl ⟨proc₀, sc.prune p, ?_, ?_⟩
        · rw [ScopeRegistry.get_modify, if_pos rfl, hsc]; rfl
        · rw [ProcessScope.prune_get, if_neg hpr]; exact hq
    · exact .inl ⟨proc₀, sc, by rw [ScopeRegistry.get_modify, if_neg heq]; exact hsc, hq⟩
  refine ⟨fun ht => hi.attached (hback ht), fun hat => ?_, fun hat => ?_,
    fun ht hex => hi.exit (hback ht) hex, fun ht hp => hi.evidence (hback ht) hp,
    fun {c' sc'} hc => ?_, fun ht hd => hi.within (hback ht) hd⟩
  · rcases hi.tracked hat with hp | ⟨proc₀, ht⟩
    · exact .inl hp
    · rcases hforth ht with ht | ⟨-, hp⟩
      · exact .inr ht
      · exact .inl hp
  · rcases hi.signalled hat with hp | hp | ⟨proc₀, ht⟩
    · exact .inl hp
    · exact .inr (.inl hp)
    · rcases hforth ht with ht | ⟨rfl, -⟩
      · exact .inr (.inr ht)
      · exact .inl hsig
  · rw [ScopeRegistry.get_modify] at hc
    split at hc
    · obtain ⟨sc, hsc, rfl⟩ := Option.map_eq_some_iff.mp hc
      rw [ProcessScope.isOpen_of_state (sc.prune_state p), hi.open_iff hsc]
    · exact hi.open_iff hc

/-! ### Attaching -/

/-- A fresh process in an open scope. -/
theorem Processes.attached_new (hl : Lawful h) (hi : Processes h r) (spec : ProcessSpec)
    (hnd : ¬ Drained h c) (hfresh : ∀ c' os', ¬ Happened h (.attached c' p os'))
    {sc : ProcessScope} (hsc : r.get c = some sc)
    (hatt : (sc.attachSpawned p os spec).2 = sc.insert (Process.running p os spec)) :
    Processes ((t, .attached c p os) :: h)
      (r.modify c (fun sc => (sc.attachSpawned p os spec).2)
        fun sc => sc.attachSpawned_id p os spec) := by
  have hs : h <:+ (t, .attached c p os) :: h := List.suffix_cons _ _
  have hget : ∀ c', (r.modify c (fun sc => (sc.attachSpawned p os spec).2)
      fun sc => sc.attachSpawned_id p os spec).get c' =
      if c = c' then some (sc.insert (Process.running p os spec)) else r.get c' := by
    intro c'
    rw [ScopeRegistry.get_modify]
    split
    · next heq => subst heq; rw [hsc, ← hatt]; rfl
    · rfl
  have hfresh' : ∀ {c' proc'}, ¬ Tracked r c' p proc' := fun ht =>
    hfresh _ _ (hi.attached ht)
  have hnev : ¬ HasEvidence h p := fun hp => by
    obtain ⟨c', os', ha⟩ := hl.attached_of_reaped (hl.reaped_of_evidence hp)
    exact hfresh c' os' ha
  have hback : ∀ {c' q proc'}, Tracked (r.modify c (fun sc => (sc.attachSpawned p os spec).2)
      fun sc => sc.attachSpawned_id p os spec) c' q proc' →
      (c' = c ∧ q = p ∧ proc' = Process.running p os spec) ∨ q ≠ p ∧ Tracked r c' q proc' := by
    rintro c' q proc' ⟨sc', hsc', hq⟩
    rw [hget] at hsc'
    split at hsc'
    · next heq =>
        subst heq
        obtain rfl := Option.some.inj hsc'
        rw [ProcessScope.get_insert] at hq
        split at hq
        · next hpq => exact .inl ⟨rfl, Eq.symm hpq, (Option.some.inj hq).symm⟩
        · next hpq => exact .inr ⟨fun hqp => hpq (Eq.symm hqp), sc, hsc, hq⟩
    · refine .inr ⟨?_, sc', hsc', hq⟩
      rintro rfl
      exact hfresh' ⟨sc', hsc', hq⟩
  have hforth : ∀ {c' q}, (∃ proc, Tracked r c' q proc) →
      ∃ proc', Tracked (r.modify c (fun sc => (sc.attachSpawned p os spec).2)
        fun sc => sc.attachSpawned_id p os spec) c' q proc' := by
    rintro c' q ⟨proc₀, sc₀, hsc₀, hq⟩
    by_cases heq : c = c'
    · subst heq
      obtain rfl : sc = sc₀ := Option.some.inj (hsc.symm.trans hsc₀)
      have hne : ¬ (Process.running p os spec).id = q := by
        rintro rfl
        exact hfresh' ⟨sc, hsc, hq⟩
      refine ⟨proc₀, _, by rw [hget, if_pos rfl], ?_⟩
      rw [ProcessScope.get_insert, if_neg hne]
      exact hq
    · exact ⟨proc₀, sc₀, by rw [hget, if_neg heq]; exact hsc₀, hq⟩
  have hnew : ∃ proc', Tracked (r.modify c (fun sc => (sc.attachSpawned p os spec).2)
      fun sc => sc.attachSpawned_id p os spec) c p proc' := by
    refine ⟨Process.running p os spec, _, by rw [hget, if_pos rfl], ?_⟩
    rw [ProcessScope.get_insert]
    exact if_pos rfl
  refine ⟨fun ht => ?_, fun hat => ?_, fun hat => ?_, fun ht hex => ?_,
    fun {c' q proc'} ht hp => ?_, fun {c' sc'} hc => ?_, fun {c' q proc' d} ht hd => ?_⟩
  · rcases hback ht with ⟨rfl, rfl, rfl⟩ | ⟨-, ht⟩
    · simp [Process.running]
    · exact (hi.attached ht).mono hs
  · rcases happened_cons.mp hat with heq | hat
    · injection heq with h₁ h₂ h₃
      subst h₁ h₂ h₃
      exact .inr hnew
    · exact (hi.tracked hat).imp (HasEvidence.mono hs) hforth
  · rcases happened_cons.mp hat with heq | hat
    · injection heq with h₁ h₂ h₃
      subst h₁ h₂ h₃
      exact .inr (.inr hnew)
    · exact (hi.signalled hat).imp (Signalled.mono hs) (Or.imp (Lost.mono hs) hforth)
  · rcases hback ht with ⟨rfl, rfl, rfl⟩ | ⟨-, ht⟩
    · exact absurd hex (by simp [Process.running])
    · exact (hi.exit ht hex).imp (Happened.mono hs) (Happened.mono hs)
  · have hp' : HasEvidence h q := by simpa using hp
    rcases hback ht with ⟨rfl, rfl, rfl⟩ | ⟨-, ht⟩
    · exact absurd hp' hnev
    · exact hi.evidence ht hp'
  · have hd : Drained ((t, .attached c p os) :: h) c' ↔ Drained h c' := by simp
    rw [hget] at hc
    rw [hd]
    split at hc
    · next heq =>
        subst heq
        obtain rfl := Option.some.inj hc
        have ho : (sc.insert (Process.running p os spec)).isOpen = sc.isOpen :=
          ProcessScope.isOpen_of_state rfl
        rw [ho]
        exact hi.open_iff hsc
    · exact hi.open_iff hc
  · have hd' : Happened h (.drained c' d) := by simpa using hd
    rcases hback ht with ⟨rfl, rfl, rfl⟩ | ⟨-, ht⟩
    · exact absurd ⟨d, hd'⟩ hnd
    · exact hi.within ht hd'

/-- An attachment uses the next number of a process. -/
theorem Catalogue.attached (hi : Catalogue h r operations) (hp : r.nextProcessId.1 = p)
    (hle : r.nextProcess ≤ p) (f : ProcessScope → ProcessScope) (hf : ∀ s, (f s).id = s.id) :
    Catalogue ((t, .attached c p os) :: h) (r.nextProcessId.2.modify c f hf) operations := by
  have hn : r.nextProcessId.2.nextProcess = p := hp
  have hr : Catalogue h r.nextProcessId.2 operations :=
    hi.agree (fun _ sc hsc => ⟨sc, hsc⟩) (fun _ sc hsc => ⟨sc, hsc⟩) rfl (hn ▸ hle)
  have hm : Catalogue h (r.nextProcessId.2.modify c f hf) operations := hr.modify hf
  refine ⟨fun c' => ?_, fun c' => ?_, fun c' hc => hm.scopes_le c' (by simpa using hc),
    fun c' q os' ha => ?_⟩
  · rw [hm.registered]
    simp
  · rw [hm.operation]
    simp
  · rcases happened_cons.mp ha with heq | ha
    · injection heq with _ hq _
      subst hq
      exact Nat.le_of_eq hn.symm
    · exact hm.processes_le c' q os' ha

/-! ### Removing a scope -/

/-- Removing a committed scope: its processes have evidence, and those without a signalled
exit are lost. -/
theorem Processes.remove (hl : Lawful h) (hi : Processes h r) (hc : Committed h c)
    {lost : List ProcessId}
    (hlost : ∀ q proc, Tracked r c q proc → Signalled h q ∨ q ∈ lost) :
    Processes ((t, .scopeRemoved c lost) :: h) (r.remove c) := by
  have hs : h <:+ (t, .scopeRemoved c lost) :: h := List.suffix_cons _ _
  have htr : ∀ {c' q proc'}, Tracked (r.remove c) c' q proc' ↔ c ≠ c' ∧ Tracked r c' q proc' := by
    intro c' q proc'
    simp only [Tracked]
    rw [ScopeRegistry.get_remove]
    split
    · next heq => simp [heq]
    · next hne => simp [hne]
  have hat : ∀ {c' q os}, Happened ((t, .scopeRemoved c lost) :: h) (.attached c' q os) →
      Happened h (.attached c' q os) := fun hq => by simpa using hq
  refine ⟨fun ht => (hi.attached (htr.mp ht).2).mono hs, fun {c' q os} hq => ?_,
    fun {c' q os} hq => ?_, fun ht hex => ?_, fun ht hp => ?_, fun {c' sc'} hg => ?_,
    fun ht hd => hi.within (htr.mp ht).2 (by simpa using hd)⟩
  · by_cases heq : c = c'
    · subst heq
      exact .inl ((hl.evidence_of_committed hc (hat hq)).mono hs)
    · exact (hi.tracked (hat hq)).imp (HasEvidence.mono hs)
        fun ⟨proc, ht⟩ => ⟨proc, htr.mpr ⟨heq, ht⟩⟩
  · rcases hi.signalled (hat hq) with hsig | hls | ⟨proc, ht⟩
    · exact .inl (hsig.mono hs)
    · exact .inr (.inl (hls.mono hs))
    · by_cases heq : c = c'
      · subst heq
        rcases hlost q proc ht with hsig | hm
        · exact .inl (hsig.mono hs)
        · exact .inr (.inl ⟨c, lost, by simp, hm⟩)
      · exact .inr (.inr ⟨proc, htr.mpr ⟨heq, ht⟩⟩)
  · exact (hi.exit (htr.mp ht).2 hex).imp (Happened.mono hs) (Happened.mono hs)
  · exact hi.evidence (htr.mp ht).2 (by simpa using hp)
  · rw [ScopeRegistry.get_remove] at hg
    split at hg
    · cases hg
    · rw [hi.open_iff hg]
      simp

/-- A removal takes the scope from the catalogue, with its event. -/
theorem Catalogue.remove (hi : Catalogue h r operations) (lost : List ProcessId) :
    Catalogue ((t, .scopeRemoved c lost) :: h) (r.remove c) operations where
  registered c' := by
    rw [ScopeRegistry.get_remove]
    by_cases heq : c = c'
    · simp [heq]
    · simp [heq, hi.registered]
  operation c' := by simp [hi.operation]
  scopes_le c' hc := hi.scopes_le c' (by simpa using hc)
  processes_le c' p os ha := hi.processes_le c' p os (by simpa using ha)

/-- The operation lock of a scope that has left the registry may be retired. -/
theorem Catalogue.retire (hi : Catalogue h r operations) :
    Catalogue ((t, .operationRetired c) :: h) r (operations.erase c) where
  registered c' := by simp [hi.registered]
  operation c' := by
    rw [ExtTreeMap.contains_erase]
    by_cases heq : c = c'
    · simp [heq]
    · have hcmp : compare c c' ≠ .eq := fun hx => heq (Std.compare_eq_iff_eq.mp hx)
      simp [hcmp, Ne.symm heq, hi.operation]
  scopes_le c' hc := hi.scopes_le c' (by simpa using hc)
  processes_le c' p os ha := hi.processes_le c' p os (by simpa using ha)

/-! ### Creating a scope -/

/-- Nothing is known of a scope that was not created. -/
theorem Lawful.fresh (hl : Lawful h) (hn : ¬ Created h c) :
    ¬ Drained h c ∧ ¬ Committed h c ∧ ¬ Removed h c ∧ ¬ Happened h (.operationRetired c) ∧
    ¬ Happened h (.resultRetained c) ∧ (∀ v, ¬ Happened h (.published c v)) ∧
    ∀ p os, ¬ Happened h (.attached c p os) := by
  have hd : ¬ Drained h c := fun ⟨d, hd⟩ => by
    obtain ⟨_, l, hs, hcr, -⟩ := hl.of_happened hd
    exact hn (hcr.mono hs)
  have hcm : ¬ Committed h c := fun hc => hd (hl.drained_of_committed hc)
  have hrm : ¬ Removed h c := fun hc => hcm (hl.committed_of_removed hc)
  refine ⟨hd, hcm, hrm, fun hr => hrm (hl.removed_of_retired hr),
    fun hr => hcm (hl.committed_of_result hr), fun v hp => ?_,
    fun p os ha => hn (hl.created_of_attached ha)⟩
  obtain ⟨_, l, hs, ho, -⟩ := hl.of_happened hp
  exact hn ⟨true, Happened.mono hs ho⟩

/-- A new scope tracks no process. -/
theorem Processes.create (hl : Lawful h) (hi : Processes h r) (observed : Bool)
    (hn : ¬ Created h r.createScope.1) :
    Processes ((t, .scopeCreated r.createScope.1 observed) :: h) r.createScope.2 := by
  obtain ⟨hd, -, -, -, -, -, hna⟩ := hl.fresh hn
  have hs : h <:+ (t, .scopeCreated r.createScope.1 observed) :: h := List.suffix_cons _ _
  have htr : ∀ {c' q proc'}, Tracked r.createScope.2 c' q proc' ↔
      r.createScope.1 ≠ c' ∧ Tracked r c' q proc' := by
    intro c' q proc'
    simp only [Tracked]
    rw [ScopeRegistry.get_createScope]
    split
    · next heq => simp [heq]
    · next hne => simp [hne]
  have hat : ∀ {c' q os}, Happened ((t, .scopeCreated r.createScope.1 observed) :: h)
      (.attached c' q os) → Happened h (.attached c' q os) ∧ r.createScope.1 ≠ c' := by
    intro c' q os hq
    have hq' : Happened h (.attached c' q os) := by simpa using hq
    refine ⟨hq', ?_⟩
    rintro rfl
    exact hna q os hq'
  refine ⟨fun ht => (hi.attached (htr.mp ht).2).mono hs, fun hq => ?_, fun hq => ?_,
    fun ht hex => ?_, fun ht hp => ?_, fun {c' sc'} hg => ?_,
    fun ht hd => hi.within (htr.mp ht).2 (by simpa using hd)⟩
  · exact (hi.tracked (hat hq).1).imp (HasEvidence.mono hs)
      fun ⟨proc, ht⟩ => ⟨proc, htr.mpr ⟨(hat hq).2, ht⟩⟩
  · exact (hi.signalled (hat hq).1).imp (Signalled.mono hs)
      (Or.imp (Lost.mono hs) fun ⟨proc, ht⟩ => ⟨proc, htr.mpr ⟨(hat hq).2, ht⟩⟩)
  · exact (hi.exit (htr.mp ht).2 hex).imp (Happened.mono hs) (Happened.mono hs)
  · exact hi.evidence (htr.mp ht).2 (by simpa using hp)
  · rw [ScopeRegistry.get_createScope] at hg
    have hdr : Drained ((t, .scopeCreated r.createScope.1 observed) :: h) c' ↔
        Drained h c' := by simp
    rw [hdr]
    split at hg
    · next heq =>
        subst heq
        obtain rfl := Option.some.inj hg
        simp [ProcessScope.isOpen_iff, ProcessScope.new, hd]
    · exact hi.open_iff hg

/-- A new scope uses the next number of a scope, and has its operation lock. -/
theorem Catalogue.create (hl : Lawful h) (hi : Catalogue h r operations) (observed : Bool)
    (hn : r.createScope.1 = r.nextScope + 1) :
    Catalogue ((t, .scopeCreated r.createScope.1 observed) :: h) r.createScope.2
      (operations.insert r.createScope.1 ()) := by
  have hfresh : ¬ Created h r.createScope.1 := fun hc => by
    have := hi.scopes_le _ hc
    rw [hn] at this
    exact Nat.not_succ_le_self _ this
  obtain ⟨-, -, hrm, hrt, -⟩ := hl.fresh hfresh
  have hns : r.createScope.2.nextScope = r.createScope.1 := rfl
  refine ⟨fun c' => ?_, fun c' => ?_, fun c' hc => ?_, fun c' p os ha => ?_⟩
  · rw [ScopeRegistry.get_createScope]
    by_cases heq : r.createScope.1 = c'
    · subst heq
      simp [hrm]
    · simp [heq, hi.registered]
  · rw [ExtTreeMap.contains_insert]
    by_cases heq : r.createScope.1 = c'
    · subst heq
      simp [hrt]
    · have hcmp : (compare r.createScope.1 c' == .eq) = false := by
        simpa [Std.compare_eq_iff_eq] using heq
      simp [hcmp, heq, hi.operation]
  · rw [hns]
    rcases created_cons.mp hc with ⟨b, hb⟩ | hc
    · injection hb with hb
      exact Nat.le_of_eq hb.symm
    · exact Nat.le_trans (hi.scopes_le c' hc) (hn ▸ Nat.le_succ _)
  · exact hi.processes_le c' p os (by simpa using ha)

/-- A scope identifier is fresh while the counter has not come round. -/
theorem ScopeRegistry.createScope_fst (h : r.nextScope + 1 < 2 ^ 64) :
    r.createScope.1 = r.nextScope + 1 :=
  Nat.mod_eq_of_lt h

/-- The number of a process is one more than the last, below the bound of the counter. -/
theorem ScopeRegistry.nextProcessId_fst (h : r.nextProcess + 1 < 2 ^ 64) :
    r.nextProcessId.1 = r.nextProcess + 1 :=
  Nat.mod_eq_of_lt h

end Shepherd
