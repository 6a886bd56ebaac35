import Shepherd.Backend.JobMoves

/-!
# Confinement in Job Objects

What the Windows backend keeps true of its processes and jobs (`Confined`): what runs is in a job
whose handle is in the registry; a root that is resumed was assigned to the job of its scope; what
is in a job that a kill has terminated has ended or is being terminated, until the mutex is given
back; and a job that a cleanup removes has no active process.

The facts of a call that has the mutex hold because no other call can move then (`exclusively`);
the other moves leave the jobs alone, and create nothing in a job in which nothing runs (`Keeps`).
-/

namespace Shepherd

open Conc

namespace JobState

variable {s s' : JobState} {p q n m : ℕ} {scope : ProcessScopeId} {op : KillOp}

/-- What is known of the process of a spawn. -/
def SpawnFact (s : JobState) (p : ℕ) : JobSpawn → Prop
  | .created _ | .opened _ | .entering _ | .assigning _ =>
      ∃ x, s.procs[p]? = some x ∧ x.container = none
  | .resuming scope | .inserting scope =>
      ∃ x job, s.procs[p]? = some x ∧ x.container = some job ∧ s.jobs scope = some job
  | _ => True

/-- What is known of the processes during a kill. -/
def KillFact (s : JobState) (op : KillOp) : JobKill → Prop
  | .queueing true => s.procs.Doomed fun job => op.covers job.scope
  | .removing => ∀ scope, op = .cleanupScope scope →
      ∃ job, s.jobs scope = some job ∧ s.procs.active (· == job) = 0
  | _ => True

/-- **The invariant.** -/
structure Confined (s : JobState) : Prop where
  contained : s.procs.Contained s.Held
  named : ∀ scope job, s.jobs scope = some job → job.scope = scope
  spawns : ∀ p stage, s.spawns p = some stage → s.SpawnFact p stage
  kills : ∀ n op stage, s.kills n = some (op, stage) → s.KillFact op stage

/-- A new backend has no processes. -/
theorem confined_new : new.Confined where
  contained := OsProcs.contained_nil
  named := nofun
  spawns := nofun
  kills := nofun

/-- A process is where it was. -/
def Stays (s s' : JobState) (p : ℕ) : Prop :=
  ∀ x : OsProc JobObject JobExit, s.procs[p]? = some x →
    ∃ x', s'.procs[p]? = some x' ∧ x'.container = x.container

/-- The jobs are as before, and no container that is empty or doomed is entered. -/
structure Keeps (s s' : JobState) : Prop where
  jobs : s'.jobs = s.jobs
  containers : ∀ p, s.Stays s' p
  active : ∀ P, s.procs.active P = 0 → s'.procs.active P = 0
  doomed : ∀ P, s.procs.Doomed P → s'.procs.Doomed P

/-- A step that leaves the jobs and the processes alone. -/
theorem Keeps.of_eq (hj : s'.jobs = s.jobs) (hp : s'.procs = s.procs) : s.Keeps s' where
  jobs := hj
  containers _ x hq := ⟨x, hp ▸ hq, rfl⟩
  active _ ha := hp ▸ ha
  doomed _ hd := hp ▸ hd

/-- A fork is in the job of its parent. -/
theorem Keeps.fork {parent : ℕ} {procs : OsProcs JobObject JobExit}
    (h : s.procs.fork parent = some procs) (hj : s'.jobs = s.jobs) (hp : s'.procs = procs) :
    s.Keeps s' where
  jobs := hj
  containers _ x hq := ⟨x, hp ▸ OsProcs.getElem?_of_fork h hq, rfl⟩
  active _ ha := hp ▸ OsProcs.active_fork ha h
  doomed _ hd := hp ▸ hd.fork h

/-- A process that ends is in the job it was in. -/
theorem Keeps.finish {e : JobExit} (hj : s'.jobs = s.jobs) (hp : s'.procs = s.procs.finish p e) :
    s.Keeps s' where
  jobs := hj
  containers q x hq := by
    refine ⟨if p = q then x.finish e else x, ?_, ?_⟩
    · rw [hp, OsProcs.getElem?_finish, hq, Option.map_some]
    · split <;> rfl
  active _ ha := hp ▸ OsProcs.active_finish ha
  doomed _ hd := hp ▸ hd.finish

/-- A process that is being terminated is in the job it was in. -/
theorem Keeps.doom {e : JobExit} (hj : s'.jobs = s.jobs) (hp : s'.procs = s.procs.doom p e) :
    s.Keeps s' where
  jobs := hj
  containers q x hq := by
    refine ⟨if p = q then x.doom e else x, ?_, ?_⟩
    · rw [hp, OsProcs.getElem?_doom, hq, Option.map_some]
    · split <;> rfl
  active _ ha := hp ▸ OsProcs.active_doom ha
  doomed _ hd := hp ▸ hd.doom

/-- A new process is in no job. -/
theorem Keeps.create (hj : s'.jobs = s.jobs) (hp : s'.procs = s.procs.create) : s.Keeps s' where
  jobs := hj
  containers q x hq := by
    refine ⟨x, ?_, rfl⟩
    have hlt := (List.getElem?_eq_some_iff.mp hq).1
    rw [hp, OsProcs.getElem?_create, if_neg (Nat.ne_of_lt hlt), hq]
  active _ ha := hp ▸ OsProcs.active_create ha
  doomed _ hd := hp ▸ hd.create

/-- What is known of a spawn stays known where the processes stay in their jobs. -/
theorem SpawnFact.keep {stage : JobSpawn} (h : s.SpawnFact p stage) (hk : s.Keeps s') :
    s'.SpawnFact p stage := by
  have hout : (∃ x, s.procs[p]? = some x ∧ x.container = none) →
      ∃ x, s'.procs[p]? = some x ∧ x.container = none := by
    rintro ⟨x, hx, hc⟩
    obtain ⟨x', hx', hc'⟩ := hk.containers p x hx
    exact ⟨x', hx', hc'.trans hc⟩
  have hin : ∀ scope, (∃ x job, s.procs[p]? = some x ∧ x.container = some job ∧
        s.jobs scope = some job) →
      ∃ x job, s'.procs[p]? = some x ∧ x.container = some job ∧ s'.jobs scope = some job := by
    rintro scope ⟨x, job, hx, hc, hj⟩
    obtain ⟨x', hx', hc'⟩ := hk.containers p x hx
    exact ⟨x', job, hx', hc'.trans hc, hk.jobs ▸ hj⟩
  cases stage with
  | created scope => exact hout h
  | opened scope => exact hout h
  | entering scope => exact hout h
  | assigning scope => exact hout h
  | resuming scope => exact hin scope h
  | inserting scope => exact hin scope h
  | _ => trivial

/-- What is known of a kill stays known where the processes stay in their jobs. -/
theorem KillFact.keep {stage : JobKill} (h : s.KillFact op stage) (hk : s.Keeps s') :
    s'.KillFact op stage := by
  cases stage with
  | queueing ok =>
      cases ok with
      | true => exact hk.doomed _ h
      | false => trivial
  | removing =>
      intro scope hop
      obtain ⟨job, hj, ha⟩ := h scope hop
      exact ⟨job, hk.jobs ▸ hj, hk.active _ ha⟩
  | _ => trivial

/-- A spawn without the mutex knows of its process only that it is in no job. -/
theorem SpawnFact.other {stage : JobSpawn} (h : s.SpawnFact p stage)
    (hl : stage.locked = false) (hc : s.Stays s' p) : s'.SpawnFact p stage := by
  have hout : (∃ x, s.procs[p]? = some x ∧ x.container = none) →
      ∃ x, s'.procs[p]? = some x ∧ x.container = none := by
    rintro ⟨x, hx, hnone⟩
    obtain ⟨x', hx', hc'⟩ := hc x hx
    exact ⟨x', hx', hc'.trans hnone⟩
  cases stage with
  | created scope => exact hout h
  | opened scope => exact hout h
  | entering scope => cases hl
  | assigning scope => cases hl
  | resuming scope => cases hl
  | inserting scope => cases hl
  | _ => trivial

/-- Nothing is known of a kill that is not in the mutex. -/
theorem KillFact.of_unlocked {stage : JobKill} (h : stage.locked = false) :
    s.KillFact op stage := by
  cases stage with
  | queueing ok => cases h
  | removing => cases h
  | _ => trivial

/-- The invariant after a move that keeps the jobs and enters none. -/
theorem Confined.keep (h : s.Confined) (hk : s.Keeps s') (hc : s'.procs.Contained s.Held)
    (hs : ∀ p stage, s'.spawns p = some stage →
      s.spawns p = some stage ∨ s'.SpawnFact p stage)
    (hn : ∀ n op stage, s'.kills n = some (op, stage) →
      s.kills n = some (op, stage) ∨ s'.KillFact op stage) : s'.Confined where
  contained := hc.mono fun job hheld => by rwa [Held, hk.jobs]
  named := hk.jobs ▸ h.named
  spawns p stage hp := by
    rcases hs p stage hp with hold | hnew
    · exact (h.spawns p stage hold).keep hk
    · exact hnew
  kills n op stage hp := by
    rcases hn n op stage hp with hold | hnew
    · exact (h.kills n op stage hold).keep hk
    · exact hnew

/-- **The invariant after a move of the call that has the mutex.** The others are in stages where
nothing is known that the move could change. -/
theorem Confined.exclusively (h : s.Confined) (hx : s.Exclusive) {mover : JobHolder}
    (hm : s.Inside mover) (hc : s'.procs.Contained s'.Held)
    (hnamed : ∀ scope job, s'.jobs scope = some job → job.scope = scope)
    (hsame : ∀ p, mover ≠ .spawn p → s.Stays s' p)
    (hs : ∀ p stage, s'.spawns p = some stage →
      (mover ≠ .spawn p ∧ s.spawns p = some stage) ∨ s'.SpawnFact p stage)
    (hn : ∀ n op stage, s'.kills n = some (op, stage) →
      (mover ≠ .kill n ∧ s.kills n = some (op, stage)) ∨ s'.KillFact op stage) :
    s'.Confined where
  contained := hc
  named := hnamed
  spawns p stage hp := by
    rcases hs p stage hp with ⟨hne, hold⟩ | hnew
    · have hl : stage.locked = false := by
        rw [← Bool.not_eq_true]
        intro hl
        exact hne (hx.eq hm (inside_spawn hold hl))
      exact (h.spawns p stage hold).other hl (hsame p hne)
    · exact hnew
  kills n op stage hp := by
    rcases hn n op stage hp with ⟨hne, hold⟩ | hnew
    · refine KillFact.of_unlocked ?_
      rw [← Bool.not_eq_true]
      intro hl
      exact hne (hx.eq hm (inside_kill hold hl))
    · exact hnew

/-- A termination keeps processes where they are. -/
theorem stays_terminate {P : JobObject → Bool} {e : JobExit} (hp : s'.procs = s.procs.terminate P e)
    (p : ℕ) : s.Stays s' p := by
  intro x hx
  refine ⟨if x.isIn P then x.doom e else x, ?_, ?_⟩
  · rw [hp, OsProcs.getElem?_terminate, hx, Option.map_some]
  · split <;> rfl

/-- A process that is resumed stays where it is, and so do the others. -/
theorem stays_resume (hp : s'.procs = s.procs.resume p) (q : ℕ) : s.Stays s' q := by
  intro x hx
  refine ⟨if p = q then x.resume else x, ?_, ?_⟩
  · rw [hp, OsProcs.getElem?_resume, hx, Option.map_some]
  · split <;> rfl

/-- Every live process of the scopes of a kill is in a job that the kill terminates. -/
theorem Confined.doomed_kill (h : s.Confined) {failed : List ProcessScopeId}
    (hk : s.killed op failed = true) :
    (s.procs.terminate (s.victim op failed) ⟨KILLED, .job⟩).Doomed
      fun job => op.covers job.scope := by
  intro p y hp hin
  rw [OsProcs.getElem?_terminate] at hp
  obtain ⟨x, hx, rfl⟩ := Option.map_eq_some_iff.mp hp
  split
  · simp
  · next hspared =>
      rw [if_neg hspared] at hin
      refine Phase.exit_ne_none ?_
      rw [← Bool.not_eq_true]
      intro hl
      obtain ⟨job, hjob, hcov⟩ := OsProc.isIn_iff.mp hin
      have hheld := h.contained.held p x job hx hl hjob
      have hdone : failed.contains job.scope = false := by
        rw [← Bool.not_eq_true, List.contains_iff_mem]
        intro hmem
        have := List.all_eq_true.mp hk job.scope hmem
        simp only [hcov, Held.eq_1 s job ▸ hheld] at this
        cases this
      refine hspared (OsProc.isIn_iff.mpr ⟨job, hjob, ?_⟩)
      simp only [victim, hheld, hcov, hdone]
      rfl

/-- **Every move keeps the confinement.** -/
theorem Confined.move (h : s.Confined) (hx : s.Exclusive) (hm : s.Move s') : s'.Confined := by
  cases hm with
  | forks hf =>
      exact h.keep (.fork hf rfl rfl) (h.contained.fork hf) (fun _ _ => .inl) fun _ _ _ => .inl
  | exits p code =>
      exact h.keep (.finish rfl rfl) h.contained.finish (fun _ _ => .inl) fun _ _ _ => .inl
  | creates scope =>
      refine h.keep (.create rfl rfl) h.contained.create (fun p stage hp => ?_) fun _ _ _ => .inl
      rcases of_setSpawn hp with ⟨rfl, rfl⟩ | ⟨-, hp⟩
      · exact .inr ⟨⟨none, .suspended⟩, by simp [setSpawn, OsProcs.getElem?_create], rfl⟩
      · exact .inl hp
  | spawnGoesOn hp hl hf ho =>
      refine h.keep (.of_eq rfl rfl) h.contained (fun q stage hq => ?_) fun _ _ _ => .inl
      rcases of_setSpawn hq with ⟨rfl, rfl⟩ | ⟨-, hq⟩
      · cases stage with
        | created scope => exact (hf scope rfl).elim
        | opened scope =>
            obtain rfl := ho scope rfl
            exact .inr (h.spawns q _ hp)
        | entering scope => cases hl
        | assigning scope => cases hl
        | resuming scope => cases hl
        | inserting scope => cases hl
        | _ => exact .inr trivial
      · exact .inl hq
  | spawnLocks hp =>
      refine h.keep (.of_eq rfl rfl) h.contained (fun q stage hq => ?_) fun _ _ _ => .inl
      rcases of_setSpawn hq with ⟨rfl, rfl⟩ | ⟨-, hq⟩
      · exact .inr (h.spawns q _ hp)
      · exact .inl hq
  | spawnEnters hp =>
      refine h.keep (.of_eq rfl rfl) h.contained (fun q stage hq => ?_) fun _ _ _ => .inl
      rcases of_setSpawn hq with ⟨rfl, rfl⟩ | ⟨-, hq⟩
      · exact .inr (h.spawns q _ hp)
      · exact .inl hq
  | @spawnMints p scope hp hj =>
      have hother : ∀ job : JobObject, s.jobs job.scope = some job → job.scope ≠ scope := by
        rintro job hheld rfl
        cases hj.symm.trans hheld
      refine h.exclusively hx (inside_spawn hp rfl)
        (h.contained.mono fun job hheld => ?_) (fun sc job hs => ?_)
        (fun q _ x hq => ⟨x, hq, rfl⟩) (fun q stage hq => ?_) fun _ _ _ hn => .inl ⟨by simp, hn⟩
      · exact (Function.update_of_ne (hother job hheld) ..).trans hheld
      · by_cases hsc : sc = scope
        · subst hsc
          obtain rfl : _ = job := by simpa [setSpawn] using hs
          rfl
        · exact h.named sc job (by simpa [setSpawn, hsc] using hs)
      · rcases of_setSpawn hq with ⟨rfl, rfl⟩ | ⟨hne, hq⟩
        · exact .inr (h.spawns q _ hp)
        · exact .inl ⟨by simpa using Ne.symm hne, hq⟩
  | spawnAborts =>
      refine h.keep (.of_eq rfl rfl) h.contained (fun q stage hq => ?_) fun _ _ _ => .inl
      rcases of_setSpawn hq with ⟨rfl, rfl⟩ | ⟨-, hq⟩
      · exact .inr trivial
      · exact .inl hq
  | @spawnAssigns p scope job hp hj =>
      obtain ⟨x₀, hx₀, -⟩ := h.spawns p _ hp
      have hheld : s.Held job := by rwa [Held, h.named scope job hj]
      refine h.exclusively hx (inside_spawn hp rfl) (h.contained.assign hheld) h.named
        (fun q hne x hq => ⟨x, ?_, rfl⟩) (fun q stage hq => ?_) fun _ _ _ hn => .inl ⟨by simp, hn⟩
      · exact (OsProcs.getElem?_assign_of_ne (by simpa using hne)).trans hq
      · rcases of_setSpawn hq with ⟨rfl, rfl⟩ | ⟨hne, hq⟩
        · exact .inr ⟨_, job, OsProcs.getElem?_assign_self hx₀, rfl, hj⟩
        · exact .inl ⟨by simpa using Ne.symm hne, hq⟩
  | @spawnResumes p scope hp =>
      obtain ⟨x₀, job, hx₀, hc₀, hj⟩ := h.spawns p _ hp
      refine h.exclusively hx (inside_spawn hp rfl) (h.contained.resume fun x hq => ?_) h.named
        (fun q _ => stays_resume rfl q) (fun q stage hq => ?_)
        fun _ _ _ hn => .inl ⟨by simp, hn⟩
      · obtain rfl := Option.some.inj (hx₀.symm.trans hq)
        rw [hc₀]
        rfl
      · rcases of_setSpawn hq with ⟨rfl, rfl⟩ | ⟨hne, hq⟩
        · have hstays : s.Stays { s with procs := s.procs.resume q } q := stays_resume rfl q
          obtain ⟨x', hx', hc'⟩ := hstays x₀ hx₀
          exact .inr ⟨x', job, hx', hc'.trans hc₀, hj⟩
        · exact .inl ⟨by simpa using Ne.symm hne, hq⟩
  | spawnInserts =>
      refine h.keep (.of_eq rfl rfl) h.contained (fun q stage hq => ?_) fun _ _ _ => .inl
      rcases of_setSpawn hq with ⟨rfl, rfl⟩ | ⟨-, hq⟩
      · exact .inr trivial
      · exact .inl hq
  | spawnKills =>
      refine h.keep (.doom rfl rfl) h.contained.doom (fun q stage hq => ?_) fun _ _ _ => .inl
      rcases of_setSpawn hq with ⟨rfl, rfl⟩ | ⟨-, hq⟩
      · exact .inr trivial
      · exact .inl hq
  | killGoesOn _ hs =>
      refine h.keep (.of_eq rfl rfl) h.contained (fun _ _ => .inl) fun m op' stage hm => ?_
      rcases of_setKill hm with ⟨rfl, rfl, rfl⟩ | ⟨-, hm⟩
      · exact .inr (.of_unlocked hs)
      · exact .inl hm
  | killFlags =>
      refine h.keep (.of_eq rfl rfl) h.contained (fun _ _ => .inl) fun m op' stage hm => ?_
      rcases of_setKill hm with ⟨rfl, rfl, rfl⟩ | ⟨-, hm⟩
      · exact .inr trivial
      · exact .inl hm
  | killTerminates hn failed =>
      refine h.exclusively hx (inside_kill hn rfl) h.contained.terminate h.named
        (fun q _ => stays_terminate rfl q) (fun _ _ hq => .inl ⟨by simp, hq⟩)
        fun m op' stage hm => ?_
      rcases of_setKill hm with ⟨rfl, rfl, rfl⟩ | ⟨hne, hm⟩
      · refine .inr ?_
        cases hk : s.killed op' failed with
        | true => exact h.doomed_kill hk
        | false => trivial
      · exact .inl ⟨by simpa using Ne.symm hne, hm⟩
  | killQueues =>
      refine h.keep (.of_eq rfl rfl) h.contained (fun _ _ => .inl) fun m op' stage hm => ?_
      rcases of_setKill hm with ⟨rfl, rfl, rfl⟩ | ⟨-, hm⟩
      · exact .inr (.of_unlocked (locked_afterKill _ _))
      · exact .inl hm
  | @killFinds n scope left job _ _ hj ha =>
      refine h.keep (.of_eq rfl rfl) h.contained (fun _ _ => .inl) fun m op' stage hm => ?_
      rcases of_setKill hm with ⟨rfl, rfl, rfl⟩ | ⟨-, hm⟩
      · refine .inr fun sc hsc => ?_
        obtain rfl : scope = sc := by simpa using hsc
        exact ⟨job, hj, ha⟩
      · exact .inl hm
  | @killRemoves n scope hn =>
      obtain ⟨job, hj, ha⟩ := h.kills n _ _ hn scope rfl
      refine h.exclusively hx (inside_kill hn rfl) ?_ (fun sc job' hs => ?_)
        (fun q _ => stays_terminate rfl q) (fun _ _ hq => .inl ⟨by simp, hq⟩)
        fun m op' stage hm => ?_
      · refine (h.contained.release (P := (· == job)) ha fun k hk hnot => ?_).terminate
        have hne : k.scope ≠ scope := by
          rintro rfl
          have heq : k = job := Option.some.inj (hk.symm.trans hj)
          simp [heq] at hnot
        exact (Function.update_of_ne hne ..).trans hk
      · by_cases hsc : sc = scope
        · subst hsc
          simp [closeJob, setKill, release] at hs
        · exact h.named sc job' (by simpa [closeJob, setKill, release, hsc] using hs)
      · rcases of_setKill hm with ⟨rfl, rfl, rfl⟩ | ⟨hne, hm⟩
        · exact .inr trivial
        · exact .inl ⟨by simpa using Ne.symm hne, hm⟩
  | signalTerminates =>
      exact h.keep (.doom rfl rfl) h.contained.doom (fun _ _ => .inl) fun _ _ _ => .inl
  | waitsInside =>
      split
      · exact h.keep (.of_eq rfl rfl) h.contained (fun _ _ => .inl) fun _ _ _ => .inl
      · exact h.keep (.of_eq rfl rfl) h.contained (fun _ _ => .inl) fun _ _ _ => .inl
  | _ => exact h.keep (.of_eq rfl rfl) h.contained (fun _ _ => .inl) fun _ _ _ => .inl

end JobState

end Shepherd
