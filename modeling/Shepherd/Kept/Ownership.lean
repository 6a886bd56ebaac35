import Mathlib.Tactic.Common
import Shepherd.Kept.Store

/-!
# Kept Programs are Owned by their Records

At most one program started under a name runs, and the record of the name carries its pid
and start token, whatever the owners do, however their calls are cancelled, and whenever
they crash.

A claim goes through phases. While one call **inspects** a name it is alone with it; while
a call and its launch are at a new process nobody else can touch the name; afterwards what
is under the name is **settled**: the holders write or remove a record, and none of them
starts a process. `JobSound` says what each job knows about the instances of its name, and
`Inv` that every instance that may run is the one on record.
-/

namespace Shepherd

/-- The phase of the claim that a job with this number takes part in. -/
def Job.phase (p : ℕ) : Job → ClaimPhase
  | .startReading .. | .startAttaching .. | .startPreparing .. | .adoptReading _
  | .adoptAttaching .. | .listDropping .. | .listRereading .. | .listRechecking .. | .probed _ =>
      .inspecting p
  | .startLaunching _ _ task => .launching p task
  | .launch _ _ frame _ => .launching frame p
  | _ => .settled

/-- A call that inspects a name does so for itself. -/
theorem Job.phase_inspecting {job : Job} {p q : ℕ} (h : job.phase q = .inspecting p) :
    p = q := by
  cases job <;> simp_all [Job.phase]

namespace KeptState

open Conc

variable {s s' : KeptState} {name : KeptName} {p q : ℕ} {job : Job} {launch : KeptLaunch}

/-- Every instance with this identity has ended. -/
def Ended (s : KeptState) (launch : KeptLaunch) : Prop :=
  ∀ i inst, s.instances i = some inst → inst.launch = launch → inst.phase = .ended

/-- Every instance under the name has ended. -/
def Clear (s : KeptState) (name : KeptName) : Prop :=
  ∀ i inst, s.instances i = some inst → inst.name = name → inst.phase = .ended

/-- Every instance under the name that has not ended has this identity. -/
def Only (s : KeptState) (name : KeptName) (launch : KeptLaunch) : Prop :=
  ∀ i inst, s.instances i = some inst → inst.name = name → inst.phase ≠ .ended →
    inst.launch = launch

/-- There was an instance with this identity. -/
def Known (s : KeptState) (launch : KeptLaunch) : Prop :=
  ∃ i inst, s.instances i = some inst ∧ inst.launch = launch

/-- The instance that a launch has forked. -/
def Forked (s : KeptState) (p : ℕ) (name : KeptName) (i : ℕ) (launch : KeptLaunch) : Prop :=
  ∃ inst, s.instances i = some inst ∧ inst.name = name ∧ inst.launch = launch ∧ inst.task = p

/-- What a launch tells the call that waits for it. -/
def LaunchSound (s : KeptState) (name : KeptName) : LaunchStage → Prop
  | .forking | .returned none => s.Clear name
  | .committing _ launch | .committed _ launch | .opened _ launch | .returned (some launch) =>
      s.Only name launch ∧ s.Known launch

/-- What a job knows. -/
def JobSound (s : KeptState) (p : ℕ) : Job → Prop
  | .startAttaching name _ record | .adoptAttaching name record => s.records name = some record
  | .startPreparing name _ | .startRemoving name _ | .remove name => s.Clear name
  | .startLaunching name detail task => s.owners task = s.owners p ∧
      ∃ stage, s.jobs task = some (.launch name detail p stage) ∧ s.LaunchSound name stage
  | .startRewriting name record _ | .write name record | .handle name record
  | .terminating name record | .forgetting name record _ =>
      s.Only name record.launch ∧ s.Known record.launch
  | .listAttaching _ record _ => s.Known record.launch
  | .listLocking _ record alive _ => s.Known record.launch ∧
      (alive = false → s.Ended record.launch)
  | .listRereading _ record _ => s.Known record.launch ∧ s.Ended record.launch
  | .launch name _ _ .forking => s.Clear name
  | .launch name _ _ (.committing i launch) => s.Only name launch ∧ s.Forked p name i launch
  | .launch name _ _ (.committed i launch) | .launch name _ _ (.opened i launch) =>
      s.Forked p name i launch
  | _ => True

/-- **The invariant**, but for the jobs that are on their way to another state. -/
structure InvBut (out : ℕ → Prop) (s : KeptState) : Prop where
  jobBound : ∀ q job, s.jobs q = some job → q < s.nextJob
  instBound : ∀ i inst, s.instances i = some inst → i < s.nextInstance
  unique : ∀ i j a b, s.instances i = some a → s.instances j = some b → a.launch = b.launch → i = j
  held : ∀ q job name, ¬ out q → s.jobs q = some job → job.holds = some name → q ∈ s.holders name
  staged : ∀ q job name, ¬ out q → s.jobs q = some job → job.holds = some name →
    s.phase name = job.phase q
  sound : ∀ q job, ¬ out q → s.jobs q = some job → s.JobSound q job
  gated : ∀ i inst, s.instances i = some inst → inst.phase = .gated →
    ∃ detail frame, s.jobs inst.task =
      some (.launch inst.name detail frame (.committing i inst.launch))
  recorded : ∀ i inst, s.instances i = some inst → inst.phase ≠ .ended → inst.phase ≠ .gated →
    ∃ record, s.records inst.name = some record ∧ record.launch = inst.launch
  known : ∀ name record, s.records name = some record → s.Known record.launch

/-- **The invariant.** -/
def Inv (s : KeptState) : Prop :=
  InvBut (fun _ => False) s

/-- A new directory has no records, and nothing was launched. -/
theorem inv_new : new.Inv where
  jobBound := nofun
  instBound := nofun
  unique := nofun
  held := nofun
  staged := nofun
  sound := nofun
  gated := nofun
  recorded := nofun
  known := nofun

/-- One job is on its way. -/
theorem Inv.but (h : s.Inv) (p : ℕ) : InvBut (· = p) s :=
  { h with
    held := fun q job name _ => h.held q job name id
    staged := fun q job name _ => h.staged q job name id
    sound := fun q job _ => h.sound q job id }

/-- What a launch tells depends on the instances under its name. -/
theorem LaunchSound.mono {stage : LaunchStage} (h : s.LaunchSound name stage)
    (hclear : s.Clear name → s'.Clear name) (honly : ∀ l, s.Only name l → s'.Only name l)
    (hknown : ∀ l, s.Known l → s'.Known l) : s'.LaunchSound name stage := by
  cases stage with
  | forking => exact hclear h
  | committing i launch => exact ⟨honly launch h.1, hknown launch h.2⟩
  | committed i launch => exact ⟨honly launch h.1, hknown launch h.2⟩
  | opened i launch => exact ⟨honly launch h.1, hknown launch h.2⟩
  | returned launch =>
      cases launch with
      | none => exact hclear h
      | some launch => exact ⟨honly launch h.1, hknown launch h.2⟩

/-- What a job knows depends on the instances under the name it holds, on the identities it
has seen, on the record it inspects and on the launch it waits for. -/
theorem JobSound.mono (h : s.JobSound q job)
    (hclear : ∀ n, job.holds = some n → s.Clear n → s'.Clear n)
    (honly : ∀ n l, job.holds = some n → s.Only n l → s'.Only n l)
    (hknown : ∀ l, s.Known l → s'.Known l)
    (hforked : ∀ n i l, s.Forked q n i l → s'.Forked q n i l)
    (hended : ∀ l, s.Known l → s.Ended l → s'.Ended l)
    (hrecord : ∀ n, job.holds = some n → job.phase q = .inspecting q →
      s'.records n = s.records n)
    (htask : ∀ n detail task, job = .startLaunching n detail task →
      s'.jobs task = s.jobs task ∧ (s.owners task = s.owners q → s'.owners task = s'.owners q)) :
    s'.JobSound q job := by
  cases job with
  | startAttaching name detail record => exact (hrecord name rfl rfl).trans h
  | adoptAttaching name record => exact (hrecord name rfl rfl).trans h
  | startPreparing name detail => exact hclear name rfl h
  | startRemoving name task => exact hclear name rfl h
  | remove name => exact hclear name rfl h
  | startLaunching name detail task =>
      obtain ⟨ho, stage, hj, hl⟩ := h
      obtain ⟨hjobs, howner⟩ := htask name detail task rfl
      exact ⟨howner ho, stage, hjobs.trans hj,
        hl.mono (hclear name rfl) (fun l => honly name l rfl) hknown⟩
  | startRewriting name record task => exact ⟨honly name _ rfl h.1, hknown _ h.2⟩
  | write name record => exact ⟨honly name _ rfl h.1, hknown _ h.2⟩
  | handle name record => exact ⟨honly name _ rfl h.1, hknown _ h.2⟩
  | terminating name record => exact ⟨honly name _ rfl h.1, hknown _ h.2⟩
  | forgetting name record task => exact ⟨honly name _ rfl h.1, hknown _ h.2⟩
  | listAttaching name record names => exact hknown _ h
  | listLocking name record alive names =>
      exact ⟨hknown _ h.1, fun ha => hended _ h.1 (h.2 ha)⟩
  | listRereading name record names => exact ⟨hknown _ h.1, hended _ h.1 h.2⟩
  | launch name detail frame stage =>
      cases stage with
      | forking => exact hclear name rfl h
      | committing i launch => exact ⟨honly name launch rfl h.1, hforked name i launch h.2⟩
      | committed i launch => exact hforked name i launch h
      | opened i launch => exact hforked name i launch h
      | returned launch => trivial
  | _ => trivial

/-! ### Instances -/

/-- Instances move on, and none is new. -/
structure Later (s s' : KeptState) : Prop where
  back : ∀ i inst', s'.instances i = some inst' → ∃ inst, s.instances i = some inst ∧
    inst'.name = inst.name ∧ inst'.launch = inst.launch ∧ inst'.task = inst.task ∧
    (inst.phase = .ended → inst'.phase = .ended)
  forth : ∀ i inst, s.instances i = some inst → ∃ inst', s'.instances i = some inst' ∧
    inst'.name = inst.name ∧ inst'.launch = inst.launch ∧ inst'.task = inst.task

namespace Later

/-- A step that leaves the instances alone. -/
theorem of_eq (h : s'.instances = s.instances) : Later s s' where
  back _ inst hi := ⟨inst, h ▸ hi, rfl, rfl, rfl, id⟩
  forth _ inst hi := ⟨inst, h ▸ hi, rfl, rfl, rfl⟩

/-- A launch that has ended has ended ever after. -/
theorem ended (k : Later s s') (h : s.Ended launch) : s'.Ended launch := by
  intro i inst' hi hl
  obtain ⟨inst, hi, -, hl', -, he⟩ := k.back i inst' hi
  exact he (h i inst hi (hl'.symm.trans hl))

/-- A name without a live instance stays so. -/
theorem clear (k : Later s s') (h : s.Clear name) : s'.Clear name := by
  intro i inst' hi hn
  obtain ⟨inst, hi, hn', -, -, he⟩ := k.back i inst' hi
  exact he (h i inst hi (hn'.symm.trans hn))

/-- A name whose only live instance is of this launch stays so. -/
theorem only (k : Later s s') (h : s.Only name launch) : s'.Only name launch := by
  intro i inst' hi hn hp
  obtain ⟨inst, hi, hn', hl, -, he⟩ := k.back i inst' hi
  exact hl.trans (h i inst hi (hn'.symm.trans hn) fun hended => hp (he hended))

/-- A launch that is known stays so. -/
theorem known (k : Later s s') (h : s.Known launch) : s'.Known launch := by
  obtain ⟨i, inst, hi, hl⟩ := h
  obtain ⟨inst', hi', -, hl', -⟩ := k.forth i inst hi
  exact ⟨i, inst', hi', hl'.trans hl⟩

/-- A launch that was forked stays so. -/
theorem forked {i : ℕ} (k : Later s s') (h : s.Forked p name i launch) :
    s'.Forked p name i launch := by
  obtain ⟨inst, hi, hn, hl, ht⟩ := h
  obtain ⟨inst', hi', hn', hl', ht'⟩ := k.forth i inst hi
  exact ⟨inst', hi', hn'.trans hn, hl'.trans hl, ht'.trans ht⟩

/-- What a job knows stays true, when its record and the launch it waits for stay. -/
theorem jobSound (k : Later s s') (h : s.JobSound q job)
    (hrecord : ∀ name, job.holds = some name → job.phase q = .inspecting q →
      s'.records name = s.records name)
    (htask : ∀ name detail task, job = .startLaunching name detail task →
      s'.jobs task = s.jobs task ∧ (s.owners task = s.owners q → s'.owners task = s'.owners q)) :
    s'.JobSound q job :=
  h.mono (fun _ _ => k.clear) (fun _ _ _ => k.only) (fun _ => k.known) (fun _ _ _ => k.forked)
    (fun _ _ => k.ended) hrecord htask

end Later

/-- An identity whose instances are not alive has ended. -/
theorem InvBut.ended {out : ℕ → Prop} (h : InvBut out s) (ha : ¬ s.aliveAs launch = true) :
    s.Ended launch := by
  intro i inst hi hl
  by_contra hne
  refine ha ?_
  rw [aliveAs, List.any_eq_true]
  refine ⟨i, List.mem_range.mpr (h.instBound i inst hi), ?_⟩
  simp [hi, hl, hne]

/-- An identity nobody has had. -/
theorem InvBut.fresh {out : ℕ → Prop} (h : InvBut out s) (hf : s.freshLaunch launch = true) :
    ∀ i inst, s.instances i = some inst → inst.launch ≠ launch := by
  intro i inst hi
  rw [freshLaunch, List.all_eq_true] at hf
  have hi' := hf i (List.mem_range.mpr (h.instBound i inst hi))
  simpa [hi] using hi'

/-- When its launch has ended, a name has no live instance. -/
theorem Only.clear (h : s.Only name launch) (he : s.Ended launch) : s.Clear name := by
  intro i inst hi hn
  by_contra hp
  exact hp (he i inst hi (h i inst hi hn hp))

/-- A name without a live instance has none of another launch. -/
theorem Clear.only (h : s.Clear name) : s.Only name launch :=
  fun i inst hi hn hp => absurd (h i inst hi hn) hp

/-! ### What keeps the invariant -/

section Parts

variable {out : ℕ → Prop}

/-- A claim that is cloned is held. -/
theorem mem_clone : p ∈ (s.clone name p).holders name := by
  have heq : (s.clone name p).holders name = p :: s.holders name := Function.update_self ..
  exact heq ▸ List.mem_cons_self

/-- The other holders of a claim stay. -/
theorem mem_clone_of_mem {n : KeptName} (h : q ∈ s.holders n) : q ∈ (s.clone name p).holders n := by
  by_cases hname : n = name
  · subst hname
    have heq : (s.clone n p).holders n = p :: s.holders n := Function.update_self ..
    exact heq ▸ List.mem_cons_of_mem p h
  · have heq : (s.clone name p).holders n = s.holders n := Function.update_of_ne hname ..
    exact heq ▸ h

/-- A claim that is dropped leaves the other holders. -/
theorem mem_dropClaim {n : KeptName} (h : q ∈ s.holders n) (hne : q ≠ p) :
    q ∈ (s.dropClaim name p).holders n := by
  by_cases hname : n = name
  · subst hname
    have heq : (s.dropClaim n p).holders n = (s.holders n).erase p := Function.update_self ..
    exact heq ▸ (List.mem_erase_of_ne hne).mpr h
  · have heq : (s.dropClaim name p).holders n = s.holders n := Function.update_of_ne hname ..
    exact heq ▸ h

/-- The claim that goes on is where it goes. -/
theorem enter_phase_self {phase : ClaimPhase} : (s.enter name phase).phase name = phase :=
  Function.update_self ..

/-- The other claims stay where they are. -/
theorem enter_phase_of_ne {n : KeptName} {phase : ClaimPhase} (h : n ≠ name) :
    (s.enter name phase).phase n = s.phase n :=
  Function.update_of_ne h ..

/-- The record that is stored. -/
theorem store_records_self {record : Option KeptRecord} :
    (s.store name record).records name = record :=
  Function.update_self ..

/-- The other records stay as they are. -/
theorem store_records_of_ne {n : KeptName} {record : Option KeptRecord} (h : n ≠ name) :
    (s.store name record).records n = s.records n :=
  Function.update_of_ne h ..

/-- One more clone of a claim takes nothing from anyone. -/
theorem InvBut.clone (h : InvBut out s) (name : KeptName) (p : ℕ) :
    InvBut out (s.clone name p) := by
  refine { h with held := fun q job n hq hj hn => ?_, sound := fun q job hq hj => ?_ }
  · exact mem_clone_of_mem (h.held q job n hq hj hn)
  · exact (Later.of_eq rfl).jobSound (h.sound q job hq hj) (fun _ _ _ => rfl)
      fun _ _ _ _ => ⟨rfl, id⟩

/-- A job on its way can drop its clone. -/
theorem InvBut.dropClaim (h : InvBut out s) (name : KeptName) (hp : out p) :
    InvBut out (s.dropClaim name p) := by
  refine { h with held := fun q job n hq hj hn => ?_, sound := fun q job hq hj => ?_ }
  · exact mem_dropClaim (h.held q job n hq hj hn) fun heq => hq (heq ▸ hp)
  · exact (Later.of_eq rfl).jobSound (h.sound q job hq hj) (fun _ _ _ => rfl)
      fun _ _ _ _ => ⟨rfl, id⟩

/-- A claim that only the jobs on their way hold can enter any phase. -/
theorem InvBut.enter (h : InvBut out s) (phase : ClaimPhase)
    (hfree : ∀ q job, ¬ out q → s.jobs q = some job → job.holds ≠ some name) :
    InvBut out (s.enter name phase) := by
  refine { h with staged := fun q job n hq hj hn => ?_, sound := fun q job hq hj => ?_ }
  · have hname : n ≠ name := fun heq => hfree q job hq hj (heq ▸ hn)
    exact (enter_phase_of_ne hname).trans (h.staged q job n hq hj hn)
  · exact (Later.of_eq rfl).jobSound (h.sound q job hq hj) (fun _ _ _ => rfl)
      fun _ _ _ _ => ⟨rfl, id⟩

/-- What may be put on record for a name: nothing when its instances have ended, else the
identity of the one that has not. -/
def MayStore (s : KeptState) (name : KeptName) : Option KeptRecord → Prop
  | none => s.Clear name
  | some record => s.Only name record.launch ∧ s.Known record.launch

/-- The store may change while nobody inspects the name. -/
theorem InvBut.store {record : Option KeptRecord} (h : InvBut out s)
    (hphase : ∀ q, s.phase name ≠ .inspecting q) (hmay : s.MayStore name record) :
    InvBut out (s.store name record) := by
  have k : Later s (s.store name record) := Later.of_eq rfl
  refine { h with
    sound := fun q job hq hj => ?_
    recorded := fun i inst hi he hg => ?_
    known := fun n r hr => ?_ }
  · refine k.jobSound (h.sound q job hq hj) (fun n hn hp => ?_) fun _ _ _ _ => ⟨rfl, id⟩
    have hname : n ≠ name := by
      rintro rfl
      exact hphase q ((h.staged q job n hq hj hn).trans hp)
    exact store_records_of_ne hname
  · by_cases hname : inst.name = name
    · cases record with
      | none => exact absurd (hmay i inst hi hname) he
      | some r =>
          refine ⟨r, ?_, (hmay.1 i inst hi hname he).symm⟩
          rw [hname]
          exact store_records_self
    · obtain ⟨r, hr, hl⟩ := h.recorded i inst hi he hg
      exact ⟨r, (store_records_of_ne hname).trans hr, hl⟩
  · by_cases hname : n = name
    · subst hname
      have hrec : record = some r := store_records_self.symm.trans hr
      subst hrec
      exact hmay.2
    · exact h.known n r ((store_records_of_ne hname).symm.trans hr)

/-- The instances after one of them has moved on. -/
theorem setPhase_cases {i j : ℕ} {inst' : Instance} {phase : InstancePhase}
    (h : (s.setPhase i phase).instances j = some inst') :
    s.instances j = some inst' ∧ (j = i → inst'.phase = .ended) ∨
    j = i ∧ ∃ inst, s.instances i = some inst ∧ inst.phase ≠ .ended ∧
      inst' = { inst with phase := phase } := by
  by_cases hj : j = i
  · subst hj
    have h' := (Function.update_self ..).symm.trans h
    obtain ⟨inst, hi, heq⟩ := Option.map_eq_some_iff.mp h'
    split at heq
    next he => exact .inl ⟨heq ▸ hi, fun _ => heq ▸ he⟩
    next he => exact .inr ⟨rfl, inst, hi, he, heq.symm⟩
  · exact .inl ⟨(Function.update_of_ne hj ..).symm.trans h, fun heq => absurd heq hj⟩

/-- An instance goes on. -/
theorem Later.setPhase (i : ℕ) (phase : InstancePhase) : Later s (s.setPhase i phase) where
  back j inst' hj := by
    obtain ⟨hj, -⟩ | ⟨rfl, inst, hi, he, rfl⟩ := setPhase_cases hj
    · exact ⟨inst', hj, rfl, rfl, rfl, id⟩
    · exact ⟨inst, hi, rfl, rfl, rfl, fun hended => absurd hended he⟩
  forth j inst hj := by
    by_cases hij : j = i
    · subst hij
      refine ⟨if inst.phase = .ended then inst else { inst with phase := phase }, ?_, ?_⟩
      · refine (Function.update_self ..).trans ?_
        rw [hj, Option.map_some]
      · split
        · exact ⟨rfl, rfl, rfl⟩
        · exact ⟨rfl, rfl, rfl⟩
    · exact ⟨inst, (Function.update_of_ne hij ..).trans hj, rfl, rfl, rfl⟩

/-- An instance moves on; it must be on record unless it ends. -/
theorem InvBut.setPhase {i : ℕ} {phase : InstancePhase} (h : InvBut out s)
    (hgated : phase ≠ .gated)
    (hrecord : phase ≠ .ended → ∀ inst, s.instances i = some inst → inst.phase ≠ .ended →
      ∃ record, s.records inst.name = some record ∧ record.launch = inst.launch) :
    InvBut out (s.setPhase i phase) := by
  have k : Later s (s.setPhase i phase) := Later.setPhase i phase
  refine { h with
    instBound := fun j inst' hj => ?_
    unique := fun j₁ j₂ a b ha hb hab => ?_
    sound := fun q job hq hj => ?_
    gated := fun j inst' hj hg => ?_
    recorded := fun j inst' hj he hg => ?_
    known := fun n r hr => k.known (h.known n r hr) }
  · obtain ⟨inst, hj, -⟩ := k.back j inst' hj
    exact h.instBound j inst hj
  · obtain ⟨a', ha', -, hla, -⟩ := k.back j₁ a ha
    obtain ⟨b', hb', -, hlb, -⟩ := k.back j₂ b hb
    exact h.unique j₁ j₂ a' b' ha' hb' (hla.symm.trans (hab.trans hlb))
  · exact k.jobSound (h.sound q job hq hj) (fun _ _ _ => rfl) fun _ _ _ _ => ⟨rfl, id⟩
  · obtain ⟨hj, -⟩ | ⟨rfl, inst, -, -, rfl⟩ := setPhase_cases hj
    · exact h.gated j inst' hj hg
    · exact absurd hg hgated
  · obtain ⟨hj, -⟩ | ⟨rfl, inst, hi, hne, rfl⟩ := setPhase_cases hj
    · exact h.recorded j inst' hj he hg
    · exact hrecord he inst hi hne

/-- A new job. -/
theorem InvBut.spawn (h : InvBut out s) (owner : ℕ) (job : Job)
    (hheld : ∀ n, job.holds = some n → s.nextJob ∈ s.holders n)
    (hstaged : ∀ n, job.holds = some n → s.phase n = job.phase s.nextJob)
    (hsound : (s.spawn owner job).JobSound s.nextJob job) : InvBut out (s.spawn owner job) := by
  have hnew : (s.spawn owner job).jobs s.nextJob = some job := Function.update_self ..
  have hold : ∀ q, q ≠ s.nextJob → (s.spawn owner job).jobs q = s.jobs q :=
    fun q hq => Function.update_of_ne hq ..
  have hne : ∀ q j, s.jobs q = some j → q ≠ s.nextJob := by
    intro q j hj heq
    have hlt := h.jobBound q j hj
    omega
  have hback : ∀ {q : ℕ} {j : Job}, (s.spawn owner job).jobs q = some j →
      q = s.nextJob ∧ j = job ∨ q ≠ s.nextJob ∧ s.jobs q = some j := by
    intro q j hj
    by_cases hq : q = s.nextJob
    · subst hq
      exact .inl ⟨rfl, Option.some.inj (hj.symm.trans hnew)⟩
    · exact .inr ⟨hq, (hold q hq).symm.trans hj⟩
  refine { h with
    jobBound := fun q j hj => ?_
    held := fun q j n hq hj hn => ?_
    staged := fun q j n hq hj hn => ?_
    sound := fun q j hq hj => ?_
    gated := fun i inst hi hg => ?_ }
  · change q < s.nextJob + 1
    obtain ⟨rfl, -⟩ | ⟨-, hj⟩ := hback hj
    · omega
    · have hlt := h.jobBound q j hj
      omega
  · obtain ⟨rfl, rfl⟩ | ⟨-, hj⟩ := hback hj
    · exact hheld n hn
    · exact h.held q j n hq hj hn
  · obtain ⟨rfl, rfl⟩ | ⟨-, hj⟩ := hback hj
    · exact hstaged n hn
    · exact h.staged q j n hq hj hn
  · obtain ⟨rfl, rfl⟩ | ⟨hqne, hj⟩ := hback hj
    · exact hsound
    · have hs := h.sound q j hq hj
      have k : Later s (s.spawn owner job) := Later.of_eq rfl
      refine k.jobSound hs (fun _ _ _ => rfl) ?_
      rintro name detail task rfl
      obtain ⟨-, stage, ht, -⟩ := hs
      have htask := hne task _ ht
      refine ⟨hold task htask, fun ho => ?_⟩
      exact (Function.update_of_ne htask ..).trans
        (ho.trans (Function.update_of_ne hqne ..).symm)
  · obtain ⟨detail, frame, hj⟩ := h.gated i inst hi hg
    exact ⟨detail, frame, (hold _ (hne _ _ hj)).trans hj⟩

end Parts

/-- The job that goes on is where it goes. -/
theorem move_jobs_self : (s.move p job).jobs p = some job :=
  Function.update_self ..

/-- The other jobs stay where they are. -/
theorem move_jobs_of_ne (h : q ≠ p) : (s.move p job).jobs q = s.jobs q :=
  Function.update_of_ne h ..

/-- A job arrives. A call that waits for a launch learns what the launch has come to, and a
launch that leaves its commit has no gated child. -/
theorem InvBut.move (h : InvBut (· = p) s) (hp : p < s.nextJob)
    (hheld : ∀ n, job.holds = some n → p ∈ s.holders n)
    (hstaged : ∀ n, job.holds = some n → s.phase n = job.phase p)
    (hsound : (s.move p job).JobSound p job)
    (hlaunch : ∀ n detail frame stage, s.jobs p = some (.launch n detail frame stage) →
      ∃ stage', job = .launch n detail frame stage' ∧
        (s.LaunchSound n stage → s.LaunchSound n stage'))
    (hgated : ∀ i inst, s.instances i = some inst → inst.phase = .gated → inst.task ≠ p) :
    (s.move p job).Inv := by
  have hback : ∀ {q : ℕ} {j : Job}, (s.move p job).jobs q = some j →
      q = p ∧ j = job ∨ q ≠ p ∧ s.jobs q = some j := by
    intro q j hj
    by_cases hq : q = p
    · subst hq
      exact .inl ⟨rfl, Option.some.inj (hj.symm.trans move_jobs_self)⟩
    · exact .inr ⟨hq, (move_jobs_of_ne hq).symm.trans hj⟩
  refine { h with
    jobBound := fun q j hj => ?_
    held := fun q j n _ hj hn => ?_
    staged := fun q j n _ hj hn => ?_
    sound := fun q j _ hj => ?_
    gated := fun i inst hi hg => ?_ }
  · obtain ⟨rfl, -⟩ | ⟨-, hj⟩ := hback hj
    · exact hp
    · exact h.jobBound q j hj
  · obtain ⟨rfl, rfl⟩ | ⟨hq, hj⟩ := hback hj
    · exact hheld n hn
    · exact h.held q j n hq hj hn
  · obtain ⟨rfl, rfl⟩ | ⟨hq, hj⟩ := hback hj
    · exact hstaged n hn
    · exact h.staged q j n hq hj hn
  · obtain ⟨rfl, rfl⟩ | ⟨hq, hj⟩ := hback hj
    · exact hsound
    · have hs := h.sound q j hq hj
      have k : Later s (s.move p job) := Later.of_eq rfl
      by_cases hwait : ∃ n detail, j = .startLaunching n detail p
      · obtain ⟨n, detail, rfl⟩ := hwait
        obtain ⟨ho, stage, ht, hl⟩ := hs
        obtain ⟨stage', rfl, hl'⟩ := hlaunch n detail q stage ht
        exact ⟨ho, stage', move_jobs_self,
          (hl' hl).mono k.clear (fun _ => k.only) fun _ => k.known⟩
      · refine k.jobSound hs (fun _ _ _ => rfl) ?_
        rintro n detail task rfl
        have htask : task ≠ p := by
          rintro rfl
          exact hwait ⟨n, detail, rfl⟩
        exact ⟨move_jobs_of_ne htask, id⟩
  · obtain ⟨detail, frame, hj⟩ := h.gated i inst hi hg
    exact ⟨detail, frame, (move_jobs_of_ne (hgated i inst hi hg)).trans hj⟩

/-- A job that is no launch arrives. -/
theorem InvBut.moveCall {old : Job} (h : InvBut (· = p) s) (hj : s.jobs p = some old)
    (hcall : ∀ n detail frame stage, old ≠ .launch n detail frame stage)
    (hheld : ∀ n, job.holds = some n → p ∈ s.holders n)
    (hstaged : ∀ n, job.holds = some n → s.phase n = job.phase p)
    (hsound : (s.move p job).JobSound p job) : (s.move p job).Inv := by
  refine h.move (h.jobBound p old hj) hheld hstaged hsound ?_ ?_
  · intro n detail frame stage hl
    exact absurd (Option.some.inj (hj.symm.trans hl)) (hcall n detail frame stage)
  · rintro i inst hi hg rfl
    obtain ⟨detail, frame, hl⟩ := h.gated i inst hi hg
    exact hcall _ _ _ _ (Option.some.inj (hj.symm.trans hl))

/-- A job that is no launch gives up its claim. -/
theorem InvBut.leaveCall {old : Job} (h : InvBut (· = p) s) (hj : s.jobs p = some old)
    (hcall : ∀ n detail frame stage, old ≠ .launch n detail frame stage)
    (hfree : job.holds = none) (hsound : (s.leave name p job).JobSound p job) :
    (s.leave name p job).Inv := by
  refine (h.dropClaim name rfl).moveCall hj hcall ?_ ?_ hsound
  · intro n hn
    rw [hfree] at hn
    cases hn
  · intro n hn
    rw [hfree] at hn
    cases hn

/-! ### Inspecting a name -/

section Inspecting

variable (h : s.Inv) (hj : s.jobs p = some job) (hn : job.holds = some name)
include h hj hn

/-- A job that inspects a name is the only one that holds it. -/
theorem Inv.alone (hp : job.phase p = .inspecting p) :
    ∀ q j, q ≠ p → s.jobs q = some j → j.holds ≠ some name := by
  intro q j hq hjq hnq
  have hphase := (h.staged p job name id hj hn).trans hp
  exact hq (Job.phase_inspecting ((h.staged q j name id hjq hnq).symm.trans hphase)).symm

/-- No child under a name that is inspected is in its commit. -/
theorem Inv.not_gated (hp : job.phase p = .inspecting p) {i : ℕ} {inst : Instance}
    (hi : s.instances i = some inst) (hname : inst.name = name) : inst.phase ≠ .gated := by
  intro hg
  obtain ⟨detail, frame, hl⟩ := h.gated i inst hi hg
  have hphase := (h.staged p job name id hj hn).trans hp
  rw [hname] at hl
  have hlaunch := h.staged _ _ name id hl rfl
  rw [hphase] at hlaunch
  cases hlaunch

/-- Without a record nothing runs under a name that is inspected. -/
theorem Inv.clear_of_none (hp : job.phase p = .inspecting p) (hr : s.records name = none) :
    s.Clear name := by
  intro i inst hi hname
  by_contra he
  obtain ⟨r, hr', -⟩ := h.recorded i inst hi he (h.not_gated hj hn hp hi hname)
  rw [hname, hr] at hr'
  cases hr'

/-- What runs under a name that is inspected is on record. -/
theorem Inv.only_of_some (hp : job.phase p = .inspecting p) {record : KeptRecord}
    (hr : s.records name = some record) : s.Only name record.launch := by
  intro i inst hi hname he
  obtain ⟨r, hr', hl⟩ := h.recorded i inst hi he (h.not_gated hj hn hp hi hname)
  rw [hname, hr] at hr'
  cases hr'
  exact hl.symm

end Inspecting

end KeptState

end Shepherd
