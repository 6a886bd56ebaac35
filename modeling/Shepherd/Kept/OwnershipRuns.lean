import Shepherd.Kept.Ownership

/-!
# Runs of Kept Owners

Every step of every job keeps the invariant, and so do cancellations and crashes.
-/

namespace Shepherd.KeptState

open Conc

variable {s s' : KeptState} {name : KeptName} {p q i : ℕ} {job : Job} {launch : KeptLaunch}
  {os : KeptAnswer}

/-! ### Claims -/

/-- A claim that nobody holds is acquired. -/
theorem Inv.acquire (h : s.Inv) (p : ℕ) (hfree : s.holders name = []) :
    InvBut (· = p) (s.acquire name p) := by
  refine ((h.but p).clone name p).enter _ fun q j _ hj hn => ?_
  have hm := h.held q j name id hj hn
  rw [hfree] at hm
  cases hm

/-- A call goes on under a claim that nobody held. -/
theorem Inv.acquireCall {old : Job} (h : s.Inv) (hj : s.jobs p = some old)
    (hcall : ∀ n detail frame stage, old ≠ .launch n detail frame stage)
    (hfree : s.holders name = []) (hholds : job.holds = some name)
    (hphase : job.phase p = .inspecting p)
    (hsound : ((s.acquire name p).move p job).JobSound p job) :
    ((s.acquire name p).move p job).Inv := by
  refine (h.acquire p hfree).moveCall hj hcall ?_ ?_ hsound
  · intro n hn
    obtain rfl := Option.some.inj (hholds.symm.trans hn)
    exact mem_clone
  · intro n hn
    obtain rfl := Option.some.inj (hholds.symm.trans hn)
    exact enter_phase_self.trans hphase.symm

/-- A call moves on with the claim it has. -/
theorem Inv.keepCall {old : Job} (h : s.Inv) (hj : s.jobs p = some old)
    (hcall : ∀ n detail frame stage, old ≠ .launch n detail frame stage)
    (hholds : job.holds = old.holds) (hphase : job.phase p = old.phase p)
    (hsound : (s.move p job).JobSound p job) : (s.move p job).Inv := by
  refine (h.but p).moveCall hj hcall ?_ ?_ hsound
  · intro n hn
    exact h.held p old n id hj (hholds.symm.trans hn)
  · intro n hn
    exact (h.staged p old n id hj (hholds.symm.trans hn)).trans hphase.symm

/-- A call without a claim moves on without one. -/
theorem Inv.freeCall {old : Job} (h : s.Inv) (hj : s.jobs p = some old)
    (hcall : ∀ n detail frame stage, old ≠ .launch n detail frame stage)
    (hfree : job.holds = none) (hsound : (s.move p job).JobSound p job) :
    (s.move p job).Inv := by
  refine (h.but p).moveCall hj hcall ?_ ?_ hsound
  · intro n hn
    rw [hfree] at hn
    cases hn
  · intro n hn
    rw [hfree] at hn
    cases hn

/-- A closure is submitted with a clone of the claim. -/
theorem InvBut.submitted {out : ℕ → Prop} {closure : Job} (h : InvBut out s) (owner : ℕ)
    (hholds : closure.holds = some name) (hphase : s.phase name = closure.phase s.nextJob)
    (hsound : ((s.spawn owner closure).clone name s.nextJob).JobSound s.nextJob closure) :
    InvBut out ((s.spawn owner closure).clone name s.nextJob) := by
  change InvBut out ((s.clone name s.nextJob).spawn owner closure)
  refine (h.clone name s.nextJob).spawn owner closure ?_ ?_ hsound
  · intro n hn
    obtain rfl := Option.some.inj (hholds.symm.trans hn)
    exact mem_clone
  · intro n hn
    obtain rfl := Option.some.inj (hholds.symm.trans hn)
    exact hphase

/-- A call submits a closure and awaits it with its own clone. -/
theorem InvBut.submit {old closure : Job} {await : ℕ → Job} (h : InvBut (· = p) s)
    (hj : s.jobs p = some old) (hcall : ∀ n detail frame stage, old ≠ .launch n detail frame stage)
    (hp : p ∈ s.holders name) (hholds : closure.holds = some name)
    (hphase : s.phase name = closure.phase s.nextJob)
    (hsound : ((s.spawn (s.owners p) closure).clone name s.nextJob).JobSound s.nextJob closure)
    (hawait : (await s.nextJob).holds = some name)
    (hawait' : s.phase name = (await s.nextJob).phase p)
    (hsound' : (s.submit p name closure await).JobSound p (await s.nextJob)) :
    (s.submit p name closure await).Inv := by
  have hne : p ≠ s.nextJob := Nat.ne_of_lt (h.jobBound p old hj)
  refine (h.submitted (s.owners p) hholds hphase hsound).moveCall
    ((Function.update_of_ne hne ..).trans hj) hcall ?_ ?_ hsound'
  · intro n hn
    obtain rfl := Option.some.inj (hawait.symm.trans hn)
    exact mem_clone_of_mem hp
  · intro n hn
    obtain rfl := Option.some.inj (hawait.symm.trans hn)
    exact hawait'

/-- A call submits a removal that its claim moves into. -/
theorem Inv.submitLast {await : ℕ → Job} (h : s.Inv) (hj : s.jobs p = some job)
    (hcall : ∀ n detail frame stage, job ≠ .launch n detail frame stage)
    (hholds : job.holds = some name) (hphase : job.phase p = .inspecting p)
    (hclear : s.Clear name) (hawait : (await s.nextJob).holds = none)
    (hsound : (s.submitLast p name (.remove name) await).JobSound p (await s.nextJob)) :
    (s.submitLast p name (.remove name) await).Inv := by
  have hne : p ≠ s.nextJob := Nat.ne_of_lt (h.jobBound p job hj)
  have hsettled : InvBut (· = p) (s.enter name .settled) :=
    (h.but p).enter .settled fun q j hq hjq => h.alone hj hholds hphase q j hq hjq
  have hsub : InvBut (· = p) (((s.enter name .settled).spawn (s.owners p) (.remove name)).clone
      name s.nextJob) :=
    hsettled.submitted (s.owners p) rfl enter_phase_self hclear
  exact hsub.leaveCall ((Function.update_of_ne hne ..).trans hj) hcall hawait hsound

/-! ### Calls -/

/-- While a call waits for a launch that has returned, it is the only one that holds the
name. -/
theorem Inv.alone_of_returned {detail : String} {task : ℕ} {n : KeptName} {d : String} {f : ℕ}
    {result : Option KeptLaunch} (h : s.Inv)
    (hj : s.jobs p = some (.startLaunching name detail task))
    (ht : s.jobs task = some (.launch n d f (.returned result))) :
    ∀ q j, q ≠ p → s.jobs q = some j → j.holds ≠ some name := by
  intro q j hq hjq hnq
  have hphase : j.phase q = .launching p task :=
    (h.staged q j name id hjq hnq).symm.trans (h.staged p _ name id hj rfl)
  cases j with
  | startLaunching n' detail' task' =>
      cases hphase
      exact hq rfl
  | launch n' detail' frame stage =>
      cases hphase
      cases Option.some.inj (hjq.symm.trans ht)
      cases hnq
  | _ => cases hphase

/-- The steps of `start` before its launch. -/
theorem Inv.startPreparing {detail : String} (h : s.Inv)
    (hj : s.jobs p = some (.startPreparing name detail)) :
    ((s.submit p name (.launch name detail p .forking) (.startLaunching name detail)).enter name
      (.launching p s.nextJob)).Inv := by
  have hclear : s.Clear name := h.sound p _ id hj
  have hne : p ≠ s.nextJob := Nat.ne_of_lt (h.jobBound p _ hj)
  have hentered : InvBut (· = p) (s.enter name (.launching p s.nextJob)) :=
    (h.but p).enter _ fun q j hq hjq => h.alone hj rfl rfl q j hq hjq
  refine hentered.submit hj nofun (h.held p _ name id hj rfl) rfl enter_phase_self hclear rfl
    enter_phase_self ⟨?_, .forking, ?_, hclear⟩
  · exact (Function.update_self ..).trans (Function.update_of_ne hne ..).symm
  · exact (Function.update_of_ne hne.symm ..).trans (Function.update_self ..)

/-- `start` has a running child and adds its executable to the record. -/
theorem Inv.startRewriting {detail : String} {task : ℕ} {n : KeptName} {d : String} {f : ℕ}
    (h : s.Inv) (hj : s.jobs p = some (.startLaunching name detail task))
    (ht : s.jobs task = some (.launch n d f (.returned (some launch)))) (exe : Option String) :
    ((s.submit p name (.write name ⟨launch, exe, detail⟩)
      (.startRewriting name ⟨launch, exe, detail⟩)).enter name .settled).Inv := by
  have hlaunched : s.Only name launch ∧ s.Known launch := by
    obtain ⟨-, stage, hstage, hl⟩ := h.sound p _ id hj
    cases Option.some.inj (hstage.symm.trans ht)
    exact hl
  have hentered : InvBut (· = p) (s.enter name .settled) :=
    (h.but p).enter _ (h.alone_of_returned hj ht)
  exact hentered.submit hj nofun (h.held p _ name id hj rfl) rfl enter_phase_self hlaunched rfl
    enter_phase_self hlaunched

/-- `adopt` takes over a process that it has attached to. -/
theorem Inv.adopted {record : KeptRecord} (h : s.Inv)
    (hj : s.jobs p = some (.adoptAttaching name record)) (honly : s.Only name record.launch)
    (hknown : s.Known record.launch) :
    ((s.move p (.handle name record)).enter name .settled).Inv := by
  have hentered : InvBut (· = p) (s.enter name .settled) :=
    (h.but p).enter _ fun q j hq hjq => h.alone hj rfl rfl q j hq hjq
  refine hentered.moveCall hj nofun ?_ ?_ ⟨honly, hknown⟩
  · rintro n ⟨⟩
    exact h.held p _ name id hj rfl
  · rintro n ⟨⟩
    exact enter_phase_self

/-- The launch of `start` has failed, and a record it wrote is removed. -/
theorem Inv.startRemoving {detail : String} {task : ℕ} {n : KeptName} {d : String} {f : ℕ}
    (h : s.Inv) (hj : s.jobs p = some (.startLaunching name detail task))
    (ht : s.jobs task = some (.launch n d f (.returned none))) :
    ((s.submit p name (.remove name) (.startRemoving name)).enter name .settled).Inv := by
  have hclear : s.Clear name := by
    obtain ⟨-, stage, hstage, hl⟩ := h.sound p _ id hj
    cases Option.some.inj (hstage.symm.trans ht)
    exact hl
  have hentered : InvBut (· = p) (s.enter name .settled) :=
    (h.but p).enter _ (h.alone_of_returned hj ht)
  exact hentered.submit hj nofun (h.held p _ name id hj rfl) rfl enter_phase_self hclear rfl
    enter_phase_self hclear

/-! ### Launches -/

/-- The identity of a child that has ended has ended. -/
theorem InvBut.ended_of_forked {out : ℕ → Prop} (h : InvBut out s)
    (hf : s.Forked p name i launch)
    (he : ∀ inst, s.instances i = some inst → inst.phase = .ended) : s.Ended launch := by
  obtain ⟨inst, hi, -, hl, -⟩ := hf
  intro j a ha hla
  obtain rfl := h.unique j i a inst ha hi (hla.trans hl.symm)
  exact he a ha

/-- A child whose launch is past its commit is not in it. -/
theorem InvBut.not_gated_of_stage {out : ℕ → Prop} {detail : String} {frame : ℕ}
    {stage : LaunchStage} (h : InvBut out s)
    (hj : s.jobs p = some (.launch name detail frame stage))
    (hstage : ∀ i launch, stage ≠ .committing i launch) :
    ∀ i inst, s.instances i = some inst → inst.phase = .gated → inst.task ≠ p := by
  rintro i inst hi hg rfl
  obtain ⟨detail', frame', hl⟩ := h.gated i inst hi hg
  cases Option.some.inj (hj.symm.trans hl)
  exact hstage i inst.launch rfl

/-- An instance that was ended has ended. -/
theorem setPhase_ended {inst : Instance} (hi : (s.setPhase i .ended).instances i = some inst) :
    inst.phase = .ended := by
  obtain ⟨-, he⟩ | ⟨-, old, -, -, rfl⟩ := setPhase_cases hi
  · exact he rfl
  · rfl

/-- A launch moves on, without its clone of the claim. -/
theorem InvBut.moveLaunch {detail : String} {frame : ℕ} {stage stage' : LaunchStage}
    (h : InvBut (· = p) s) (hj : s.jobs p = some (.launch name detail frame stage))
    (hfree : (Job.launch name detail frame stage').holds = none)
    (hsound : (s.move p (.launch name detail frame stage')).JobSound p
      (.launch name detail frame stage'))
    (hlaunch : s.LaunchSound name stage → s.LaunchSound name stage')
    (hgated : ∀ i inst, s.instances i = some inst → inst.phase = .gated → inst.task ≠ p) :
    (s.move p (.launch name detail frame stage')).Inv := by
  refine h.move (h.jobBound p _ hj) ?_ ?_ hsound ?_ hgated
  · intro n hn
    rw [hfree] at hn
    cases hn
  · intro n hn
    rw [hfree] at hn
    cases hn
  · intro n d f st hst
    cases Option.some.inj (hj.symm.trans hst)
    exact ⟨stage', rfl, hlaunch⟩

/-- A launch whose child has ended returns an error. -/
theorem InvBut.failLaunch {detail : String} {frame : ℕ} {stage : LaunchStage}
    (h : InvBut (· = p) s) (hj : s.jobs p = some (.launch name detail frame stage))
    (hstage : s.LaunchSound name stage → s.Only name launch) (he : s.Ended launch)
    (hgated : ∀ i inst, s.instances i = some inst → inst.phase = .gated → inst.task ≠ p) :
    (s.move p (.launch name detail frame (.returned none))).Inv :=
  h.moveLaunch hj rfl trivial (fun hl => (hstage hl).clear he) hgated

/-- No child of a launch is in its commit, once the one it commits has moved on. -/
theorem InvBut.not_gated_setPhase {out : ℕ → Prop} {detail : String} {frame : ℕ}
    {phase : InstancePhase} (h : InvBut out s)
    (hj : s.jobs p = some (.launch name detail frame (.committing i launch)))
    (hphase : phase ≠ .gated) :
    ∀ j inst, (s.setPhase i phase).instances j = some inst → inst.phase = .gated →
      inst.task ≠ p := by
  rintro j inst hinst hg rfl
  obtain ⟨hinst, he⟩ | ⟨-, old, -, -, rfl⟩ := setPhase_cases hinst
  · obtain ⟨detail', frame', hl⟩ := h.gated j inst hinst hg
    cases Option.some.inj (hj.symm.trans hl)
    rw [he rfl] at hg
    cases hg
  · exact hphase hg

/-- A commit gives up: its child ends. -/
theorem InvBut.abort {detail : String} {frame : ℕ} (h : InvBut (· = p) s)
    (hj : s.jobs p = some (.launch name detail frame (.committing i launch)))
    (hf : s.Forked p name i launch) :
    ((s.setPhase i .ended).leave name p (.launch name detail frame (.returned none))).Inv := by
  have hset : InvBut (· = p) (s.setPhase i .ended) := h.setPhase nofun fun he => absurd rfl he
  have hended : (s.setPhase i .ended).Ended launch :=
    hset.ended_of_forked ((Later.setPhase i .ended).forked hf) fun _ => setPhase_ended
  exact (hset.dropClaim name rfl).failLaunch hj And.left hended (h.not_gated_setPhase hj nofun)

section Commit

variable {detail : String} {frame : ℕ} (h : s.Inv)
  (hj : s.jobs p = some (.launch name detail frame (.committing i launch)))
include h hj

/-- The record of a commit may be written. -/
theorem Inv.write_commit : InvBut (· = p) (s.store name (some ⟨launch, none, detail⟩)) := by
  obtain ⟨honly, inst, hi, hn, hl, ht⟩ := h.sound p _ id hj
  refine (h.but p).store ?_ ⟨honly, i, inst, hi, hl⟩
  intro q hq
  have hphase := h.staged p _ name id hj rfl
  rw [hq] at hphase
  cases hphase

/-- A commit that has written its record. -/
theorem Inv.commit_ok :
    (((s.store name (some ⟨launch, none, detail⟩)).setPhase i .committed).leave name p
      (.launch name detail frame (.committed i launch))).Inv := by
  have hf : (s.store name (some ⟨launch, none, detail⟩)).Forked p name i launch :=
    (h.sound p _ id hj).2
  have hwritten := h.write_commit hj
  have hset : InvBut (· = p) ((s.store name (some ⟨launch, none, detail⟩)).setPhase i
      .committed) := by
    refine hwritten.setPhase nofun fun _ inst hi _ => ?_
    obtain ⟨inst', hi', hn, hl, -⟩ := hf
    cases Option.some.inj (hi.symm.trans hi')
    refine ⟨⟨launch, none, detail⟩, ?_, hl.symm⟩
    rw [hn]
    exact store_records_self
  have hf' := (Later.setPhase i .committed).forked hf
  exact (hset.dropClaim name rfl).moveLaunch hj rfl hf' id (hwritten.not_gated_setPhase hj nofun)

/-- A commit that has failed, with or without its record. -/
theorem Inv.commit_failed (stored : Bool) :
    (((if stored then s.store name (some ⟨launch, none, detail⟩) else s).setPhase i .ended).leave
      name p (.launch name detail frame (.returned none))).Inv := by
  have hf : s.Forked p name i launch := (h.sound p _ id hj).2
  cases stored with
  | false => exact (h.but p).abort hj hf
  | true => exact (h.write_commit hj).abort hj hf

end Commit

section Open

variable {detail : String} {frame : ℕ} (h : s.Inv)
include h

/-- A committed child is let go. -/
theorem Inv.open_ok (hj : s.jobs p = some (.launch name detail frame (.committed i launch))) :
    ((s.setPhase i .released).move p (.launch name detail frame (.opened i launch))).Inv := by
  have hf : s.Forked p name i launch := h.sound p _ id hj
  have hset : InvBut (· = p) (s.setPhase i .released) := by
    refine (h.but p).setPhase nofun fun _ inst hi he => h.recorded i inst hi he fun hg => ?_
    obtain ⟨inst', hi', -, -, ht⟩ := hf
    cases Option.some.inj (hi.symm.trans hi')
    exact InvBut.not_gated_of_stage h hj nofun i inst hi hg ht
  exact hset.moveLaunch hj rfl ((Later.setPhase i .released).forked hf) id
    (hset.not_gated_of_stage hj nofun)

/-- A committed child that cannot be let go ends. -/
theorem Inv.open_failed (hj : s.jobs p = some (.launch name detail frame (.committed i launch))) :
    ((s.setPhase i .ended).move p (.launch name detail frame (.returned none))).Inv := by
  have hf : s.Forked p name i launch := h.sound p _ id hj
  have hset : InvBut (· = p) (s.setPhase i .ended) :=
    (h.but p).setPhase nofun fun he => absurd rfl he
  have hended : (s.setPhase i .ended).Ended launch :=
    hset.ended_of_forked ((Later.setPhase i .ended).forked hf) fun _ => setPhase_ended
  exact hset.failLaunch hj And.left hended (hset.not_gated_of_stage hj nofun)

/-- A launch returns the child it has let go. -/
theorem Inv.opened_some (hj : s.jobs p = some (.launch name detail frame (.opened i launch))) :
    (s.move p (.launch name detail frame (.returned (some launch)))).Inv :=
  (h.but p).moveLaunch hj rfl trivial id (InvBut.not_gated_of_stage h hj nofun)

/-- A launch reports that the child it has let go did not run. -/
theorem Inv.opened_none (hj : s.jobs p = some (.launch name detail frame (.opened i launch)))
    (he : (s.instances i).map Instance.phase = some .ended) :
    (s.move p (.launch name detail frame (.returned none))).Inv := by
  have hended : s.Ended launch := by
    refine InvBut.ended_of_forked h (h.sound p _ id hj) fun inst hi => ?_
    rw [hi] at he
    exact Option.some.inj he
  exact (h.but p).failLaunch hj And.left hended (InvBut.not_gated_of_stage h hj nofun)

end Open

/-! ### Forks -/

/-- An instance is the new one, or it was there. -/
theorem fork_cases {child inst : Instance} (h : (s.fork child).instances i = some inst) :
    i = s.nextInstance ∧ inst = child ∨ s.instances i = some inst := by
  by_cases hi : i = s.nextInstance
  · subst hi
    exact .inl ⟨rfl, Option.some.inj (h.symm.trans (Function.update_self ..))⟩
  · exact .inr ((Function.update_of_ne hi ..).symm.trans h)

section Fork

variable {child inst : Instance} (h : s.Inv)
  (hfresh : ∀ i inst, s.instances i = some inst → inst.launch ≠ child.launch)

include h in
/-- A fork changes no instance that was there. -/
theorem Inv.fork_old (hi : s.instances i = some inst) :
    (s.fork child).instances i = some inst :=
  (Function.update_of_ne (Nat.ne_of_lt (h.instBound i inst hi)) ..).trans hi

include h hfresh

/-- What the jobs know that do not hold the name of the child. -/
theorem Inv.jobSound_fork (hs : s.JobSound q job) (hname : job.holds ≠ some child.name) :
    (s.fork child).JobSound q job := by
  have hother : ∀ {n : KeptName} {i : ℕ} {inst : Instance}, job.holds = some n →
      (s.fork child).instances i = some inst → inst.name = n → s.instances i = some inst := by
    intro n i inst hn hi hin
    obtain ⟨-, rfl⟩ | hi := fork_cases hi
    · exact absurd (hin ▸ hn) hname
    · exact hi
  refine hs.mono ?_ ?_ ?_ ?_ ?_ (fun _ _ _ => rfl) (fun _ _ _ _ => ⟨rfl, id⟩)
  · intro n hn hclear i inst hi hin
    exact hclear i inst (hother hn hi hin) hin
  · intro n l hn honly i inst hi hin
    exact honly i inst (hother hn hi hin) hin
  · rintro l ⟨i, inst, hi, hl⟩
    exact ⟨i, inst, h.fork_old hi, hl⟩
  · rintro n i l ⟨inst, hi, hf⟩
    exact ⟨inst, h.fork_old hi, hf⟩
  · rintro l ⟨j, a, hj, rfl⟩ hended i inst hi hl
    obtain ⟨-, rfl⟩ | hi := fork_cases hi
    · exact absurd hl.symm (hfresh j a hj)
    · exact hended i inst hi hl

end Fork

/-- A launch forks its child: from a name whose instances have ended to one whose only instance is
the child. Only the call that waits for the launch learns of it. -/
theorem Inv.fork_ok {detail : String} {frame : ℕ} (h : s.Inv)
    (hj : s.jobs p = some (.launch name detail frame .forking))
    (hfresh : ∀ i inst, s.instances i = some inst → inst.launch ≠ launch) :
    ((s.fork ⟨name, launch, p, .gated⟩).move p
      (.launch name detail frame (.committing s.nextInstance launch))).Inv := by
  have hclear : s.Clear name := h.sound p _ id hj
  have hphase : s.phase name = .launching frame p := h.staged p _ name id hj rfl
  have honly : (s.fork ⟨name, launch, p, .gated⟩).Only name launch := by
    intro i inst hi hn he
    obtain ⟨-, rfl⟩ | hi := fork_cases hi
    · rfl
    · exact absurd (hclear i inst hi hn) he
  have hnew : (s.fork ⟨name, launch, p, .gated⟩).instances s.nextInstance =
      some ⟨name, launch, p, .gated⟩ := Function.update_self ..
  have hothers : ∀ q j, q ≠ p → s.jobs q = some j → j.holds ≠ some name ∨
      j = .startLaunching name detail p ∧ s.owners p = s.owners q ∧ q = frame := by
    intro q j hq hjq
    by_cases hn : j.holds = some name
    · have hs := h.sound q j id hjq
      have hjphase := (h.staged q j name id hjq hn).symm.trans hphase
      cases j with
      | startLaunching n d task =>
          cases hjphase
          obtain ⟨ho, stage, ht, -⟩ := hs
          cases Option.some.inj (hj.symm.trans ht)
          exact .inr ⟨rfl, ho, rfl⟩
      | launch n d f stage =>
          cases hjphase
          exact absurd rfl hq
      | _ => cases hjphase
    · exact .inl hn
  have hback : ∀ {q : ℕ} {j : Job}, ((s.fork ⟨name, launch, p, .gated⟩).move p
      (.launch name detail frame (.committing s.nextInstance launch))).jobs q = some j →
      q = p ∧ j = .launch name detail frame (.committing s.nextInstance launch) ∨
      q ≠ p ∧ s.jobs q = some j := by
    intro q j hjq
    by_cases hq : q = p
    · subst hq
      exact .inl ⟨rfl, Option.some.inj (hjq.symm.trans move_jobs_self)⟩
    · exact .inr ⟨hq, (move_jobs_of_ne hq).symm.trans hjq⟩
  refine
    { jobBound := fun q j hjq => ?_
      instBound := fun i inst hi => ?_
      unique := fun i₁ i₂ a b ha hb hab => ?_
      held := fun q j n _ hjq hn => ?_
      staged := fun q j n _ hjq hn => ?_
      sound := fun q j _ hjq => ?_
      gated := fun i inst hi hg => ?_
      recorded := fun i inst hi he hg => ?_
      known := fun n record hr => ?_ }
  · obtain ⟨rfl, -⟩ | ⟨-, hjq⟩ := hback hjq
    · exact h.jobBound q _ hj
    · exact h.jobBound q j hjq
  · change i < s.nextInstance + 1
    obtain ⟨rfl, -⟩ | hi := fork_cases hi
    · omega
    · have hlt := h.instBound i inst hi
      omega
  · obtain ⟨rfl, rfl⟩ | ha := fork_cases ha
    · obtain ⟨rfl, rfl⟩ | hb := fork_cases hb
      · rfl
      · exact absurd hab.symm (hfresh i₂ b hb)
    · obtain ⟨rfl, rfl⟩ | hb := fork_cases hb
      · exact absurd hab (hfresh i₁ a ha)
      · exact h.unique i₁ i₂ a b ha hb hab
  · obtain ⟨rfl, rfl⟩ | ⟨-, hjq⟩ := hback hjq
    · exact h.held q _ n id hj hn
    · exact h.held q j n id hjq hn
  · obtain ⟨rfl, rfl⟩ | ⟨-, hjq⟩ := hback hjq
    · obtain rfl := Option.some.inj hn
      exact hphase
    · exact h.staged q j n id hjq hn
  · obtain ⟨rfl, rfl⟩ | ⟨hq, hjq⟩ := hback hjq
    · exact ⟨honly, _, hnew, rfl, rfl, rfl⟩
    · have k : Later (s.fork ⟨name, launch, p, .gated⟩) ((s.fork ⟨name, launch, p, .gated⟩).move p
          (.launch name detail frame (.committing s.nextInstance launch))) := Later.of_eq rfl
      obtain hn | ⟨rfl, ho, rfl⟩ := hothers q j hq hjq
      · have hs := h.sound q j id hjq
        refine k.jobSound (h.jobSound_fork hfresh hs hn) (fun _ _ _ => rfl) ?_
        rintro n d task rfl
        refine ⟨move_jobs_of_ne ?_, id⟩
        rintro rfl
        obtain ⟨-, stage, ht, -⟩ := hs
        cases Option.some.inj (hj.symm.trans ht)
        exact hn rfl
      · exact ⟨ho, _, move_jobs_self, honly, _, _, hnew, rfl⟩
  · obtain ⟨rfl, rfl⟩ | hi := fork_cases hi
    · exact ⟨detail, frame, move_jobs_self⟩
    · obtain ⟨d, f, hl⟩ := h.gated i inst hi hg
      have hne : inst.task ≠ p := InvBut.not_gated_of_stage h hj nofun i inst hi hg
      exact ⟨d, f, (move_jobs_of_ne hne).trans hl⟩
  · obtain ⟨rfl, rfl⟩ | hi := fork_cases hi
    · exact absurd rfl hg
    · exact h.recorded i inst hi he hg
  · obtain ⟨i, inst, hi, hl⟩ := h.known n record hr
    exact ⟨i, inst, h.fork_old hi, hl⟩

/-! ### Crashes -/

/-- The jobs after a crash. -/
theorem crash_cases {owner : ℕ} (h : (s.crash owner).jobs q = some job) :
    s.owners q ≠ owner ∧ s.jobs q = some job ∨ job = .finished ∧ ∃ old, s.jobs q = some old := by
  change (if s.owners q = owner then (s.jobs q).map fun _ => Job.finished else s.jobs q) =
    some job at h
  split at h
  next ho =>
    obtain ⟨old, hold, rfl⟩ := Option.map_eq_some_iff.mp h
    exact .inr ⟨rfl, old, hold⟩
  next ho => exact .inl ⟨ho, h⟩

/-- The crash of one owner leaves the jobs of the others alone. -/
theorem crash_jobs {owner : ℕ} (h : s.owners q ≠ owner) : (s.crash owner).jobs q = s.jobs q :=
  if_neg h

/-- An instance after a crash: as before, or ended with the owner that held it. -/
theorem crash_instances {owner : ℕ} {inst' : Instance}
    (h : (s.crash owner).instances i = some inst') :
    s.instances i = some inst' ∧
      (s.owners inst'.task = owner → inst'.phase ≠ .gated) ∨
    ∃ inst, s.instances i = some inst ∧ inst.phase ≠ .ended ∧
      inst' = { inst with phase := .ended } := by
  obtain ⟨inst, hi, heq⟩ := Option.map_eq_some_iff.mp h
  split at heq
  next hc =>
    refine .inr ⟨inst, hi, ?_, heq.symm⟩
    obtain hg | hg := hc.2
    · rw [hg]
      nofun
    · rw [hg]
      nofun
  next hc =>
    subst heq
    exact .inl ⟨hi, fun ho hg => hc ⟨ho, .inl hg⟩⟩

/-- What has ended has ended after the crash of an owner. -/
theorem Later.crash (s : KeptState) (owner : ℕ) : Later s (s.crash owner) where
  back i inst' hi := by
    obtain ⟨hold, -⟩ | ⟨inst, hold, -, rfl⟩ := crash_instances hi
    · exact ⟨inst', hold, rfl, rfl, rfl, id⟩
    · exact ⟨inst, hold, rfl, rfl, rfl, fun _ => rfl⟩
  forth i inst hi := by
    refine ⟨_, Option.map_eq_some_iff.mpr ⟨inst, hi, rfl⟩, ?_⟩
    split
    · exact ⟨rfl, rfl, rfl⟩
    · exact ⟨rfl, rfl, rfl⟩

/-- An owner can crash at any step. -/
theorem Inv.crash (h : s.Inv) (owner : ℕ) : (s.crash owner).Inv := by
  have k : Later s (s.crash owner) := Later.crash s owner
  refine
    { jobBound := fun q j hj => ?_
      instBound := fun i inst' hi => ?_
      unique := fun i₁ i₂ a b ha hb hab => ?_
      held := fun q j n _ hj hn => ?_
      staged := fun q j n _ hj hn => ?_
      sound := fun q j _ hj => ?_
      gated := fun i inst' hi hg => ?_
      recorded := fun i inst' hi he hg => ?_
      known := fun n record hr => k.known (h.known n record hr) }
  · obtain ⟨-, hj⟩ | ⟨-, old, hj⟩ := crash_cases hj
    · exact h.jobBound q j hj
    · exact h.jobBound q old hj
  · obtain ⟨inst, hi, -⟩ := k.back i inst' hi
    exact h.instBound i inst hi
  · obtain ⟨a', ha', -, hla, -⟩ := k.back i₁ a ha
    obtain ⟨b', hb', -, hlb, -⟩ := k.back i₂ b hb
    exact h.unique i₁ i₂ a' b' ha' hb' (hla.symm.trans (hab.trans hlb))
  · obtain ⟨ho, hj⟩ | ⟨rfl, -⟩ := crash_cases hj
    · exact List.mem_filter.mpr ⟨h.held q j n id hj hn, decide_eq_true ho⟩
    · cases hn
  · obtain ⟨ho, hj⟩ | ⟨rfl, -⟩ := crash_cases hj
    · exact h.staged q j n id hj hn
    · cases hn
  · obtain ⟨ho, hj⟩ | ⟨rfl, -⟩ := crash_cases hj
    · have hs := h.sound q j id hj
      refine k.jobSound hs (fun _ _ _ => rfl) ?_
      rintro n d task rfl
      refine ⟨crash_jobs ?_, id⟩
      rw [hs.1]
      exact ho
    · trivial
  · obtain ⟨hi, hne⟩ | ⟨inst, -, -, rfl⟩ := crash_instances hi
    · obtain ⟨d, f, hl⟩ := h.gated i inst' hi hg
      exact ⟨d, f, (crash_jobs fun ho => hne ho hg).trans hl⟩
    · cases hg
  · obtain ⟨hi, -⟩ | ⟨inst, -, -, rfl⟩ := crash_instances hi
    · exact h.recorded i inst' hi he hg
    · exact absurd rfl he

/-! ### Steps -/

/-- The steps of a launch. -/
theorem Inv.launchStep {detail : String} {frame : ℕ} {stage : LaunchStage} (h : s.Inv)
    (hj : s.jobs p = some (.launch name detail frame stage))
    (hstep : s.launchStep p os name detail frame stage = some s') : s'.Inv := by
  cases stage with
  | forking =>
      simp only [KeptState.launchStep] at hstep
      split at hstep
      · obtain rfl := Option.some.inj hstep
        have hleft : InvBut (· = p) (s.dropClaim name p) := (h.but p).dropClaim name rfl
        exact hleft.moveLaunch hj rfl trivial id (hleft.not_gated_of_stage hj nofun)
      · split at hstep
        next hfresh =>
          obtain rfl := Option.some.inj hstep
          exact h.fork_ok hj (InvBut.fresh h hfresh)
        next => cases hstep
  | committing i launch =>
      simp only [KeptState.launchStep] at hstep
      obtain rfl := Option.some.inj hstep
      split
      · exact h.commit_ok hj
      · exact h.commit_failed hj os.stored
  | committed i launch =>
      simp only [KeptState.launchStep] at hstep
      obtain rfl := Option.some.inj hstep
      split
      · exact h.open_ok hj
      · exact h.open_failed hj
  | opened i launch =>
      simp only [KeptState.launchStep] at hstep
      split at hstep
      · obtain rfl := Option.some.inj hstep
        exact h.opened_some hj
      next he =>
        obtain rfl := Option.some.inj hstep
        cases os.ok with
        | true => exact h.opened_some hj
        | false => exact h.opened_none hj he
      · cases hstep
  | returned launch => cases hstep

/-- A store closure writes what it may, and drops the last it holds. -/
theorem Inv.closure {record : Option KeptRecord} (h : s.Inv) (hj : s.jobs p = some job)
    (hcall : ∀ n detail frame stage, job ≠ .launch n detail frame stage)
    (hholds : job.holds = some name) (hphase : job.phase p = .settled)
    (hmay : s.MayStore name record) (stored : Bool) :
    ((if stored then s.store name record else s).leave name p .finished).Inv := by
  cases stored with
  | false => exact (h.but p).leaveCall hj hcall rfl trivial
  | true =>
      have hstored : InvBut (· = p) (s.store name record) := by
        refine (h.but p).store (fun q hq => ?_) hmay
        have hsettled := (h.staged p job name id hj hholds).trans hphase
        rw [hq] at hsettled
        cases hsettled
      exact hstored.leaveCall hj hcall rfl trivial

/-- The steps of a job. -/
theorem Inv.runJob (h : s.Inv) (hj : s.jobs p = some job)
    (hstep : s.runJob p os job = some s') : s'.Inv := by
  cases job with
  | startLocking name detail =>
      obtain rfl := Option.some.inj hstep
      split
      next hok => exact h.acquireCall hj nofun hok.2 rfl rfl trivial
      next =>
        split
        · exact h
        · exact h.freeCall hj nofun rfl trivial
  | startReading name detail =>
      obtain rfl := Option.some.inj hstep
      split
      · cases hr : s.records name with
        | some previous => exact h.keepCall hj nofun rfl rfl hr
        | none => exact h.keepCall hj nofun rfl rfl (h.clear_of_none hj rfl rfl hr)
      · exact (h.but p).leaveCall hj nofun rfl trivial
  | startAttaching name detail previous =>
      simp only [KeptState.runJob] at hstep
      split at hstep
      · split at hstep
        next => cases hstep
        next ha =>
          obtain rfl := Option.some.inj hstep
          have hr : s.records name = some previous := h.sound p _ id hj
          exact h.keepCall hj nofun rfl rfl
            ((h.only_of_some hj rfl rfl hr).clear (InvBut.ended h ha))
      · obtain rfl := Option.some.inj hstep
        exact (h.but p).leaveCall hj nofun rfl trivial
  | startPreparing name detail =>
      obtain rfl := Option.some.inj hstep
      exact h.startPreparing hj
  | startLaunching name detail task =>
      simp only [KeptState.runJob] at hstep
      split at hstep
      next ht =>
        obtain rfl := Option.some.inj hstep
        exact h.startRewriting hj ht os.exe
      next ht =>
        obtain rfl := Option.some.inj hstep
        exact h.startRemoving hj ht
      next => cases hstep
  | startRemoving name task =>
      simp only [KeptState.runJob, Option.ite_none_right_eq_some] at hstep
      obtain ⟨-, rfl⟩ := And.imp_right Option.some.inj hstep
      exact (h.but p).leaveCall hj nofun rfl trivial
  | startRewriting name record task =>
      simp only [KeptState.runJob, Option.ite_none_right_eq_some] at hstep
      obtain ⟨-, rfl⟩ := And.imp_right Option.some.inj hstep
      exact h.keepCall hj nofun rfl rfl (h.sound p _ id hj)
  | adoptLocking name =>
      obtain rfl := Option.some.inj hstep
      split
      next hok => exact h.acquireCall hj nofun hok.2 rfl rfl trivial
      next =>
        split
        · exact h
        · exact h.freeCall hj nofun rfl trivial
  | adoptReading name =>
      obtain rfl := Option.some.inj hstep
      split
      next hr => exact h.keepCall hj nofun rfl rfl hr
      next => exact (h.but p).leaveCall hj nofun rfl trivial
  | adoptAttaching name record =>
      have hr : s.records name = some record := h.sound p _ id hj
      have honly : s.Only name record.launch := h.only_of_some hj rfl rfl hr
      simp only [KeptState.runJob] at hstep
      split at hstep
      next =>
        obtain rfl := Option.some.inj hstep
        exact (h.but p).leaveCall hj nofun rfl trivial
      next =>
        split at hstep
        next =>
          obtain rfl := Option.some.inj hstep
          exact h.adopted hj honly (h.known name record hr)
        next =>
          split at hstep
          next => cases hstep
          next ha =>
            obtain rfl := Option.some.inj hstep
            exact h.submitLast hj nofun rfl rfl (honly.clear (InvBut.ended h ha)) rfl trivial
  | adoptRemoving task =>
      simp only [KeptState.runJob, Option.ite_none_right_eq_some] at hstep
      obtain ⟨-, rfl⟩ := And.imp_right Option.some.inj hstep
      exact h.freeCall hj nofun rfl trivial
  | listNaming =>
      obtain rfl := Option.some.inj hstep
      cases os.ok with
      | true => exact h.freeCall hj nofun rfl trivial
      | false => exact h.freeCall hj nofun rfl trivial
  | listNext names =>
      cases names with
      | nil =>
          obtain rfl := Option.some.inj hstep
          exact h.freeCall hj nofun rfl trivial
      | cons name names =>
          obtain rfl := Option.some.inj hstep
          split
          next record _ hr => exact h.freeCall hj nofun rfl (h.known name record hr)
          next => exact h.freeCall hj nofun rfl trivial
          next => exact h.freeCall hj nofun rfl trivial
  | listAttaching name record names =>
      have hknown : s.Known record.launch := h.sound p _ id hj
      simp only [KeptState.runJob] at hstep
      split at hstep
      next =>
        obtain rfl := Option.some.inj hstep
        exact h.freeCall hj nofun rfl trivial
      next =>
        split at hstep
        next => cases hstep
        next ha =>
          obtain rfl := Option.some.inj hstep
          have hended : os.attached = false → s.Ended record.launch := by
            intro hfalse
            refine InvBut.ended h fun halive => ha ?_
            rw [hfalse, halive]
            rfl
          exact h.freeCall hj nofun rfl ⟨hknown, hended⟩
  | listLocking name record alive names =>
      obtain ⟨hknown, hended⟩ := h.sound p _ id hj
      obtain rfl := Option.some.inj hstep
      split
      next => exact h.freeCall hj nofun rfl trivial
      next =>
        split
        next => exact h.freeCall hj nofun rfl trivial
        next hfree =>
          cases alive with
          | true => exact h.acquireCall hj nofun (not_not.mp hfree) rfl rfl trivial
          | false =>
              exact h.acquireCall hj nofun (not_not.mp hfree) rfl rfl ⟨hknown, hended rfl⟩
  | listDropping name names =>
      obtain rfl := Option.some.inj hstep
      exact (h.but p).leaveCall hj nofun rfl trivial
  | listRereading name record names =>
      obtain ⟨hknown, hended⟩ := h.sound p _ id hj
      obtain rfl := Option.some.inj hstep
      split
      next => exact (h.but p).leaveCall hj nofun rfl trivial
      next =>
        split
        next current hr =>
          split
          next heq =>
            subst heq
            exact h.submitLast hj nofun rfl rfl ((h.only_of_some hj rfl rfl hr).clear hended) rfl
              trivial
          next => exact h.keepCall hj nofun rfl rfl trivial
        next => exact (h.but p).leaveCall hj nofun rfl trivial
  | listRechecking name current names =>
      obtain rfl := Option.some.inj hstep
      cases os.ok with
      | true => exact (h.but p).leaveCall hj nofun rfl trivial
      | false => exact (h.but p).leaveCall hj nofun rfl trivial
  | listRemoving task names =>
      simp only [KeptState.runJob, Option.ite_none_right_eq_some] at hstep
      obtain ⟨-, rfl⟩ := And.imp_right Option.some.inj hstep
      cases os.ok with
      | true => exact h.freeCall hj nofun rfl trivial
      | false => exact h.freeCall hj nofun rfl trivial
  | handle name record => cases hstep
  | terminating name record =>
      obtain ⟨honly, hknown⟩ := h.sound p _ id hj
      simp only [KeptState.runJob] at hstep
      split at hstep
      next =>
        split at hstep
        next => cases hstep
        next ha =>
          obtain rfl := Option.some.inj hstep
          have hsettled : s.phase name = .settled := h.staged p _ name id hj rfl
          exact (h.but p).submit hj nofun (h.held p _ name id hj rfl) rfl hsettled
            (honly.clear (InvBut.ended h ha)) rfl hsettled ⟨honly, hknown⟩
      next =>
        obtain rfl := Option.some.inj hstep
        exact (h.but p).leaveCall hj nofun rfl trivial
  | forgetting name record task =>
      simp only [KeptState.runJob, Option.ite_none_right_eq_some] at hstep
      obtain ⟨-, rfl⟩ := And.imp_right Option.some.inj hstep
      exact (h.but p).leaveCall hj nofun rfl trivial
  | launch name detail frame stage => exact h.launchStep hj hstep
  | remove name =>
      obtain rfl := Option.some.inj hstep
      have hmay : s.MayStore name none := h.sound p _ id hj
      exact h.closure hj nofun rfl rfl hmay (os.ok || os.stored)
  | write name record =>
      obtain rfl := Option.some.inj hstep
      have hmay : s.MayStore name (some record) := h.sound p _ id hj
      exact h.closure hj nofun rfl rfl hmay (os.ok || os.stored)
  | probe name =>
      obtain rfl := Option.some.inj hstep
      split
      next hok => exact h.acquireCall hj nofun hok.2 rfl rfl trivial
      next => exact h.freeCall hj nofun rfl trivial
  | probed name =>
      obtain rfl := Option.some.inj hstep
      exact (h.but p).leaveCall hj nofun rfl trivial
  | finished => cases hstep

/-- A cancelled call leaves its claim, and what it has submitted goes on. -/
theorem Inv.cancel (h : s.Inv) (hj : s.jobs p = some job) (hstep : s.cancel p job = some s') :
    s'.Inv := by
  have hcall : job.cancellable = true → ∀ n detail frame stage,
      job ≠ .launch n detail frame stage := by
    rintro hc n detail frame stage rfl
    cases hc
  simp only [KeptState.cancel] at hstep
  split at hstep
  · obtain rfl := Option.some.inj hstep
    exact h.freeCall hj nofun rfl trivial
  · obtain rfl := Option.some.inj hstep
    exact h.freeCall hj nofun rfl trivial
  · obtain rfl := Option.some.inj hstep
    exact h.freeCall hj nofun rfl trivial
  · rw [Option.ite_none_right_eq_some] at hstep
    obtain ⟨hc, hstep⟩ := hstep
    obtain rfl := Option.some.inj hstep
    split
    · exact (h.but p).leaveCall hj (hcall hc) rfl trivial
    · exact h.freeCall hj (hcall hc) rfl trivial

/-- **The invariant is kept by every step.** -/
theorem Inv.step {a : KeptAction} (h : s.Inv) (hstep : s.step a = some s') : s'.Inv := by
  cases a with
  | start owner name detail =>
      obtain rfl := Option.some.inj hstep
      exact InvBut.spawn h owner _ nofun nofun trivial
  | adopt owner name =>
      obtain rfl := Option.some.inj hstep
      exact InvBut.spawn h owner _ nofun nofun trivial
  | list owner =>
      obtain rfl := Option.some.inj hstep
      exact InvBut.spawn h owner _ nofun nofun trivial
  | run p os =>
      obtain ⟨job, hj, hstep⟩ := Option.bind_eq_some_iff.mp hstep
      exact h.runJob hj hstep
  | cancel p =>
      obtain ⟨job, hj, hstep⟩ := Option.bind_eq_some_iff.mp hstep
      exact h.cancel hj hstep
  | exited p =>
      simp only [KeptState.step] at hstep
      split at hstep
      next name record hj =>
        split at hstep
        next => cases hstep
        next ha =>
          obtain rfl := Option.some.inj hstep
          have honly : s.Only name record.launch := (h.sound p _ id hj).1
          exact InvBut.submitted h (s.owners p) rfl (h.staged p _ name id hj rfl)
            (honly.clear (InvBut.ended h ha))
      next => cases hstep
  | terminate p =>
      simp only [KeptState.step] at hstep
      split at hstep
      next name record hj =>
        obtain rfl := Option.some.inj hstep
        exact h.keepCall hj nofun rfl rfl (h.sound p _ id hj)
      next => cases hstep
  | crash owner =>
      obtain rfl := Option.some.inj hstep
      exact h.crash owner
  | exec i ok =>
      simp only [KeptState.step] at hstep
      split at hstep
      next hreleased =>
        obtain rfl := Option.some.inj hstep
        refine InvBut.setPhase h ?_ fun _ inst hi he => h.recorded i inst hi he ?_
        · split
          · nofun
          · nofun
        · rw [hi] at hreleased
          rw [Option.some.inj hreleased]
          nofun
      next => cases hstep
  | exit i =>
      obtain rfl := Option.some.inj hstep
      exact InvBut.setPhase h nofun fun he => absurd rfl he

/-- **The invariant holds in every reachable state.** -/
theorem inv_of_reaches (h : Reaches step new s) : s.Inv :=
  h.invariant inv_new fun _ _ _ hi hs => hi.step hs

/-! ### A kept program is owned by its record -/

/-- **A name runs at most one program, and the record of the name is that of the program
that runs**, with its pid and start token. -/
theorem running_program_is_on_record (h : Reaches step new s) :
    (∀ i j a b, s.instances i = some a → s.instances j = some b → a.name = b.name →
      a.phase = .running → b.phase = .running → i = j) ∧
    ∀ i inst, s.instances i = some inst → inst.phase = .running →
      ∃ record, s.records inst.name = some record ∧
        record.launch.osPid = inst.launch.osPid ∧
        record.launch.startToken = inst.launch.startToken := by
  have hinv := inv_of_reaches h
  refine ⟨fun i j a b ha hb hname hra hrb => ?_, fun i inst hi hr => ?_⟩
  · obtain ⟨r, hr, hl⟩ := hinv.recorded i a ha (hra ▸ nofun) (hra ▸ nofun)
    obtain ⟨r', hr', hl'⟩ := hinv.recorded j b hb (hrb ▸ nofun) (hrb ▸ nofun)
    rw [hname, hr'] at hr
    cases hr
    exact hinv.unique i j a b ha hb (hl.symm.trans hl')
  · obtain ⟨r, hr', hl⟩ := hinv.recorded i inst hi (hr ▸ nofun) (hr ▸ nofun)
    exact ⟨r, hr', congrArg KeptLaunch.osPid hl, congrArg KeptLaunch.startToken hl⟩

/-- A start that is cancelled in its launch, while another owner lists and a third starts
under the name: the program runs, and is on record. -/
def cancelledStart : List KeptAction :=
  let yes : KeptAnswer := ⟨true, true, true, ⟨7, 1⟩, none, ["web"]⟩
  [.start 0 "web" "first", .run 0 yes, .run 0 yes, .run 0 yes, .run 1 yes, .cancel 0, .list 1,
    .run 1 yes, .start 2 "web" "second", .run 1 yes, .run 3 yes, .run 3 yes, .exec 0 true,
    .run 3 yes, .run 2 yes, .run 2 yes, .run 2 yes, .run 2 yes, .crash 0]

/-- A start that is cancelled after its launch has left a record of it. -/
theorem cancelled_start_is_on_record : ∃ s, Reaches step new s ∧
    s.instances 0 = some ⟨"web", ⟨7, 1⟩, 1, .running⟩ ∧
    ∃ record, s.records "web" = some record ∧ record.launch.osPid = 7 ∧
      record.launch.startToken = 1 := by
  obtain ⟨s, hs, hi⟩ := Reaches.exists_of_follow step new cancelledStart
    (fun s => decide (s.instances 0 = some ⟨"web", ⟨7, 1⟩, 1, .running⟩)) (by decide +kernel)
  have hrunning := of_decide_eq_true hi
  exact ⟨s, hs, hrunning, (running_program_is_on_record hs).2 0 _ hrunning rfl⟩

end Shepherd.KeptState
