import Shepherd.Backend.CgroupRuns

/-!
# What a Kill of a Control Group Leaves

`Moves` lists what a step can do to the table of processes, and `Inv.comes` reads off it how a
process comes into a tree: by a fork inside, or as a child that writes itself there. After a kill
the tree of the group can only lose processes, as long as no child of a spawn joins it
(`killed_group_dwindles`).
-/

open Function

namespace Shepherd

open Conc

namespace CgroupState

variable {s s' : CgroupState} {c : ProcessScopeId} {d g n p : ℕ} {a : CgroupAction}
  {procs : OsProcs ℕ Unit} {x : OsProc ℕ Unit}

/-! ### Later states -/

/-- A `create` adds a directory, or none. -/
theorem later_create (s : CgroupState) (c : ProcessScopeId) (answer : MembershipAnswer) :
    Dirs.Later s.dirs (s.create c answer).dirs := by
  unfold CgroupState.create
  split
  · exact .refl _
  next dirs hm =>
  replace hm : s.dirs.mkdir none c = some dirs := by
    split at hm
    · exact hm
    · cases hm
  split
  · exact .mkdir hm
  · split
    · cases hr : dirs.rmdir s.dirs.length with
      | none => exact .mkdir hm
      | some dirs' => exact (Dirs.Later.mkdir hm).trans (.rmdir hr)
    · exact .mkdir hm

/-- A step of the removal takes directories away, or adds one that was made in between. -/
theorem later_walk {listing : List ℕ} {todo todo' : List Removal} {dirs : Dirs ℕ}
    (hw : s.walk listing todo = some (dirs, todo')) : Dirs.Later s.dirs dirs := by
  unfold CgroupState.walk at hw
  split at hw
  · cases hw
  · obtain ⟨d, -, hw⟩ := Option.bind_eq_some_iff.mp hw
    rw [Option.ite_none_right_eq_some] at hw
    obtain ⟨rfl, -⟩ := Prod.mk.inj (Option.some.inj hw.2)
    exact .refl _
  · obtain ⟨d, -, hw⟩ := Option.bind_eq_some_iff.mp hw
    split at hw
    · cases hw
    · obtain ⟨dirs', hr, heq⟩ := Option.map_eq_some_iff.mp hw
      obtain ⟨rfl, -⟩ := Prod.mk.inj heq
      exact .rmdir hr

/-- A step of a call of `finish` changes directories only. -/
theorem runFinish_frame {ok : Bool} {listing : List ℕ} {call : CgroupFinish}
    (hs : s.runFinish n ok listing c call = some s') :
    s'.procs = s.procs ∧ s'.doomed = s.doomed ∧ Dirs.Later s.dirs s'.dirs := by
  unfold CgroupState.runFinish at hs
  split at hs
  · obtain rfl := Option.some.inj hs
    exact ⟨rfl, rfl, .refl _⟩
  · rw [Option.ite_none_right_eq_some] at hs
    obtain ⟨-, hs⟩ := hs
    repeat' split at hs
    all_goals
      obtain rfl := Option.some.inj hs
      exact ⟨rfl, rfl, .refl _⟩
  · obtain rfl := Option.some.inj hs
    exact ⟨rfl, rfl, .refl _⟩
  · split at hs
    · next hw =>
        obtain rfl := Option.some.inj hs
        rw [Option.ite_none_right_eq_some] at hw
        exact ⟨rfl, rfl, later_walk hw.2⟩
    · obtain rfl := Option.some.inj hs
      exact ⟨rfl, rfl, .refl _⟩
  · cases hs
  · cases hs

/-! ### What a step does to processes -/

/-- What a step can do to the table of processes. -/
inductive Moves (s : CgroupState) : CgroupAction → OsProcs ℕ Unit → Prop
  | same (a : CgroupAction) : Moves s a s.procs
  | fork {parent : ℕ} {procs : OsProcs ℕ Unit} (hd : s.doomed parent = false)
      (hf : s.procs.fork parent = some procs) : Moves s (.fork parent) procs
  | finish (a : CgroupAction) (p : ℕ) : Moves s a (s.procs.finish p ())
  /-- Within the tree that the process is in. -/
  | move {p d : ℕ} (hm : s.mayUse p d = true) : Moves s (.move p d) (s.procs.assign p d)
  | create (a : CgroupAction) : Moves s a s.procs.create
  | resume (a : CgroupAction) (p : ℕ) : Moves s a (s.procs.resume p)
  /-- The child of a spawn writes itself into the group. -/
  | join {n g p : ℕ} {c : ProcessScopeId} (hn : s.spawns n = some (.forked c g p))
      (hp : s.isPresent g = true) : Moves s (.runSpawn n true) (s.procs.assign p g)

/-- A step of a process moves the processes, and may make a directory in its own tree. -/
theorem moves_runProcess (hs : s.runProcess a = some s') :
    Moves s a s'.procs ∧ Dirs.Later s.dirs s'.dirs := by
  unfold CgroupState.runProcess at hs
  split at hs
  · split at hs
    · cases hs
    next hd =>
    obtain ⟨procs, hf, rfl⟩ := Option.map_eq_some_iff.mp hs
    exact ⟨.fork (by simpa using hd) hf, .refl _⟩
  · obtain rfl := Option.some.inj hs
    exact ⟨.finish _ _, .refl _⟩
  · rw [Option.ite_none_right_eq_some] at hs
    obtain ⟨dirs, hm, rfl⟩ := Option.map_eq_some_iff.mp hs.2
    exact ⟨.same _, .mkdir hm⟩
  · rw [Option.ite_none_right_eq_some] at hs
    obtain ⟨dirs, hr, rfl⟩ := Option.map_eq_some_iff.mp hs.2
    exact ⟨.same _, .rmdir hr⟩
  · rw [Option.ite_none_right_eq_some, Bool.and_eq_true] at hs
    obtain rfl := Option.some.inj hs.2
    exact ⟨.move hs.1.1, .refl _⟩
  · cases hs

/-- A step of a spawn moves the processes as its place says. -/
theorem moves_runSpawn {ok : Bool} {call : CgroupSpawn} (hn : s.spawns n = some call)
    (hs : s.runSpawn n ok call = some s') : Moves s (.runSpawn n ok) s'.procs := by
  cases call with
  | holding c g =>
      simp only [CgroupState.runSpawn] at hs
      split at hs
      · obtain rfl := Option.some.inj hs
        exact .create _
      · obtain rfl := Option.some.inj hs
        exact .same _
  | forked c g p =>
      simp only [CgroupState.runSpawn] at hs
      split at hs
      · next hc =>
          obtain rfl := Option.some.inj hs
          rw [Bool.and_eq_true] at hc
          obtain ⟨rfl, hp⟩ := hc
          exact .join hn hp
      · obtain rfl := Option.some.inj hs
        exact .finish _ _
  | joined c g p =>
      simp only [CgroupState.runSpawn] at hs
      split at hs
      · obtain rfl := Option.some.inj hs
        dsimp only [CgroupState.setSpawn]
        split
        · exact .same _
        · exact .resume _ _
      · obtain rfl := Option.some.inj hs
        exact .finish _ _
  | returned r => cases hs

/-- **What a step does**: directories and pending kills stay. -/
theorem moves_of_step (hs : s.step a = some s') :
    Moves s a s'.procs ∧ Dirs.Later s.dirs s'.dirs ∧
      ∀ p, s.doomed p = true → s'.doomed p = true := by
  have hdoom : ∀ P p, s.doomed p = true → (s.doom P).doomed p = true := by
    intro P p h
    simp [CgroupState.doom, h]
  unfold CgroupState.step at hs
  split at hs
  · next n c answer =>
      rw [Option.ite_none_right_eq_some] at hs
      obtain rfl := Option.some.inj hs.2
      obtain ⟨-, -, hprocs, hdoomed⟩ := membership_frame s n c answer
      rw [hprocs, hdoomed]
      refine ⟨.same _, ?_, fun _ => id⟩
      rw [CgroupState.membership]
      cases (s.groups c).isSome with
      | true =>
          simp only [if_true]
          split <;> exact .refl _
      | false =>
          simp only [Bool.false_eq_true, if_false]
          split <;> exact later_create s c answer
  · obtain ⟨call, hn, hs⟩ := Option.bind_eq_some_iff.mp hs
    obtain ⟨-, hdirs, hdoomed⟩ := runSpawn_frame hs
    rw [hdirs, hdoomed]
    exact ⟨moves_runSpawn hn hs, .refl _, fun _ => id⟩
  · rw [Option.ite_none_right_eq_some] at hs
    obtain ⟨-, hs⟩ := hs
    split at hs
    · obtain rfl := Option.some.inj hs
      exact ⟨.same _, .refl _, fun _ => id⟩
    · obtain rfl := Option.some.inj hs
      split
      · exact ⟨.same _, .refl _, hdoom _⟩
      · exact ⟨.same _, .refl _, fun _ => id⟩
  · rw [Option.ite_none_right_eq_some] at hs
    obtain rfl := Option.some.inj hs.2
    exact ⟨.same _, .refl _, hdoom _⟩
  · rw [Option.ite_none_right_eq_some] at hs
    obtain rfl := Option.some.inj hs.2
    exact ⟨.same _, .refl _, fun _ => id⟩
  · obtain ⟨⟨c, call⟩, -, hs⟩ := Option.bind_eq_some_iff.mp hs
    obtain ⟨hprocs, hdoomed, hlater⟩ := runFinish_frame hs
    rw [hprocs, hdoomed]
    exact ⟨.same _, hlater, fun _ => id⟩
  · split at hs
    · obtain rfl := Option.some.inj hs
      exact ⟨.same _, .refl _, fun _ => id⟩
    · cases hs
  · obtain ⟨-, hdoomed⟩ := runProcess_frame hs
    obtain ⟨hm, hlater⟩ := moves_runProcess hs
    rw [hdoomed]
    exact ⟨hm, hlater, fun _ => id⟩

/-! ### How a process comes into a tree -/

/-- Directories keep their tops, so that what lives stays in its tree. -/
theorem Inv.inTree_of_later (hi : s.Inv) (hl : Dirs.Later s.dirs s'.dirs)
    (hp : s.procs[p]? = some x) (hx : x.phase.isLive = true) (ht : s'.InTree g x) :
    s.InTree g x := by
  obtain ⟨d, y', hd, hy', rfl⟩ := ht
  obtain ⟨y, c, hy, -⟩ := hi.contained.held p x d hp hx hd
  obtain ⟨y'', hy'', -, -, htop, -⟩ := hl d y hy
  obtain rfl := Option.some.inj (hy'.symm.trans hy'')
  exact ⟨d, y, hd, hy, htop.symm⟩

/-- **How a process comes into a tree**: it was there, it is forked there, or it is a child that
writes itself there. -/
theorem Inv.comes (hi : s.Inv) (hs : s.step a = some s') (hp : s'.procs[p]? = some x)
    (hx : x.phase.isLive = true) (ht : s'.InTree g x) :
    (∃ y, s.procs[p]? = some y ∧ y.phase.isLive = true ∧ s.InTree g y) ∨
      (∃ parent y, s.doomed parent = false ∧ s.procs[parent]? = some y ∧
        y.phase.isLive = true ∧ s.InTree g y) ∨
      ∃ n c, a = .runSpawn n true ∧ s.spawns n = some (.forked c g p) := by
  obtain ⟨hmoves, hlater, -⟩ := moves_of_step hs
  generalize hps : s'.procs = procs at hmoves
  rw [hps] at hp
  cases hmoves with
  | same => exact .inl ⟨x, hp, hx, hi.inTree_of_later hlater hp hx ht⟩
  | @fork parent _ hd hf =>
      obtain ⟨container, hparent, rfl⟩ := OsProcs.fork_eq hf
      rw [List.getElem?_append] at hp
      split at hp
      · exact .inl ⟨x, hp, hx, hi.inTree_of_later hlater hp hx ht⟩
      · rw [List.getElem?_singleton] at hp
        split at hp
        · obtain rfl := Option.some.inj hp
          exact .inr (.inl ⟨parent, _, hd, hparent, rfl, hi.inTree_of_later hlater hparent rfl ht⟩)
        · cases hp
  | finish q =>
      rw [OsProcs.getElem?_finish] at hp
      obtain ⟨y, hy, rfl⟩ := Option.map_eq_some_iff.mp hp
      split at hx
      · simp at hx
      · next hne =>
          rw [if_neg hne] at ht
          exact .inl ⟨y, hy, hx, hi.inTree_of_later hlater hy hx ht⟩
  | @move q d hm =>
      by_cases hqp : q = p
      · subst hqp
        obtain ⟨-, y, k, yd, yk, hy, hr, hk, hyd, hyk, htop⟩ := mayUse_iff.mp hm
        rw [OsProcs.getElem?_assign_self hy] at hp
        obtain rfl := Option.some.inj hp
        obtain ⟨d', z', hd', hz', rfl⟩ := ht
        obtain rfl := Option.some.inj hd'
        obtain ⟨z, hz, -, -, hzt, -⟩ := hlater d yd hyd
        obtain rfl := Option.some.inj (hz'.symm.trans hz)
        exact .inl ⟨y, hy, by rw [hr]; rfl, k, yk, hk, hyk, htop.trans hzt.symm⟩
      · rw [OsProcs.getElem?_assign_of_ne hqp] at hp
        exact .inl ⟨x, hp, hx, hi.inTree_of_later hlater hp hx ht⟩
  | create =>
      rw [OsProcs.getElem?_create] at hp
      split at hp
      · obtain rfl := Option.some.inj hp
        obtain ⟨d, -, hd, -⟩ := ht
        cases hd
      · exact .inl ⟨x, hp, hx, hi.inTree_of_later hlater hp hx ht⟩
  | resume q =>
      rw [OsProcs.getElem?_resume] at hp
      obtain ⟨y, hy, rfl⟩ := Option.map_eq_some_iff.mp hp
      have hxy : y.phase.isLive = true ∧ s'.InTree g y := by
        split at hx
        · next heq =>
            rw [if_pos heq] at ht
            exact ⟨y.isLive_resume ▸ hx, ht⟩
        · next hne =>
            rw [if_neg hne] at ht
            exact ⟨hx, ht⟩
      exact .inl ⟨y, hy, hxy.1, hi.inTree_of_later hlater hy hxy.1 hxy.2⟩
  | @join n g' q c hn hpres =>
      by_cases hqp : q = p
      · subst hqp
        obtain ⟨y, hy⟩ := hi.child n _ hn
        rw [OsProcs.getElem?_assign_self hy] at hp
        obtain rfl := Option.some.inj hp
        obtain ⟨d', z', hd', hz', rfl⟩ := ht
        obtain rfl := Option.some.inj hd'
        have hgroup : ∃ b, s.IsGroup c g' b :=
          (hi.membership n _ c g' hn rfl).elim (⟨_, ·⟩) fun h => ⟨_, h.1⟩
        obtain ⟨b, hb⟩ := hgroup
        obtain ⟨z, hz, -, -, hzt, -⟩ := hlater g' _ hb
        obtain rfl := Option.some.inj (hz'.symm.trans hz)
        have htop : z'.top = g' := hzt.trans (hi.wf.top g' _ hb rfl)
        exact .inr (.inr ⟨n, c, rfl, htop.symm ▸ hn⟩)
      · rw [OsProcs.getElem?_assign_of_ne hqp] at hp
        exact .inl ⟨x, hp, hx, hi.inTree_of_later hlater hp hx ht⟩

/-! ### The main results -/

/-- The step is not that of a child which writes itself into the group. -/
def noJoin (g : ℕ) (s : CgroupState) : CgroupAction → Bool
  | .runSpawn n true =>
      match s.spawns n with
      | some (.forked _ g' _) => g' ≠ g
      | _ => true
  | _ => true

/-- What lives in the tree was there in the other state and has a pending kill. -/
def Dwindles (s₀ : CgroupState) (g : ℕ) (s : CgroupState) : Prop :=
  ∀ (p : ℕ) x, s.procs[p]? = some x → x.phase.isLive = true → s.InTree g x → s.doomed p = true ∧
    ∃ y, s₀.procs[p]? = some y ∧ y.phase.isLive = true ∧ s₀.InTree g y

/-- Processes with a pending kill do not fork. -/
theorem Inv.dwindles_step {s₀ : CgroupState} (hi : s.Inv) (hd : Dwindles s₀ g s)
    (hn : s.noJoin g a = true) (hs : s.step a = some s') : Dwindles s₀ g s' := by
  intro p x hp hx ht
  rcases hi.comes hs hp hx ht with ⟨y, hy, hl, hty⟩ | ⟨parent, y, hfree, hy, hl, hty⟩ |
    ⟨n, c, rfl, hc⟩
  · obtain ⟨hdoomed, hbefore⟩ := hd p y hy hl hty
    exact ⟨(moves_of_step hs).2.2 p hdoomed, hbefore⟩
  · cases hfree.symm.trans (hd parent y hy hl hty).1
  · simp [noJoin, hc] at hn

/-- **Containment.** In every run, a process that runs is in a directory of its scope's group, and
nothing of a scope without a group lives; a kill of the scope reaches all that lives of it, as
does one of all scopes that does not report it; and when `finish` succeeds, nothing of the scope
lives. -/
theorem cgroups_contain_processes (h : Reaches CgroupState.step new s) :
    (∀ (p : ℕ) x, s.procs[p]? = some x → x.phase = .running → ∃ c g d y, s.groups c = some g ∧
      s.Of c x ∧ x.container = some d ∧ s.dirs[d]? = some y ∧ y.top = g ∧ y.present = true) ∧
    (∀ c, s.groups c = none → s.Dead c) ∧
    ∀ a s', s.step a = some s' →
      (∀ c, a = .kill c true → s'.Doomed c) ∧
      (∀ failed c, a = .killAll failed → c ∉ failed → s'.Doomed c) ∧
      ∀ n c, s'.finishes n = some (c, .returned true) → s.finishes n ≠ s'.finishes n →
        s'.groups c = none ∧ s'.Dead c := by
  have hi := inv_of_reaches h
  refine ⟨fun p x hp hr => ?_, fun c hn => hi.dead hn,
    fun a s' hs => ⟨?_, ?_, fun n c hn' hn => ?_⟩⟩
  · obtain ⟨d, hd, y, -, hy, -, -⟩ := hi.contained.running hp hr
    obtain ⟨c, d', y', hg, ⟨b, hb⟩, hd', hy', htop, hpres⟩ :=
      hi.live hp (by rw [hr]; rfl) ⟨d, y, hd, hy, rfl⟩
    exact ⟨c, y.top, d', y', hg, ⟨y.top, _, ⟨d, y, hd, hy, rfl⟩, hb, rfl⟩, hd', hy', htop, hpres⟩
  · rintro c rfl
    exact hi.doomed_of_kill hs
  · rintro failed c rfl hc
    exact hi.doomed_of_killAll hs hc
  · have hnone := groups_of_finished hs hn' hn
    exact ⟨hnone, (hi.step hs).dead hnone⟩

/-- A child of a child has moved to a directory of its own, and a kill reaches it. -/
theorem moved_grandchild_is_doomed : ∃ s s', Reaches CgroupState.step new s ∧
    s.procs[1]? = some ⟨some 1, .running⟩ ∧ s.step (.kill 7 true) = some s' ∧ s'.Doomed 7 := by
  obtain ⟨s, hr, hs⟩ := Reaches.exists_of_follow CgroupState.step new
    [.spawn 0 7 ⟨true, true, true, true⟩, .runSpawn 0 true, .runSpawn 0 true, .runSpawn 0 true,
      .mkdir 0 0 5, .fork 0, .move 1 1]
    (fun s => s.procs[1]? = some ⟨some 1, .running⟩ && (s.step (.kill 7 true)).isSome)
    (by decide +kernel)
  rw [Bool.and_eq_true, decide_eq_true_eq] at hs
  obtain ⟨s', hs'⟩ := Option.isSome_iff_exists.mp hs.2
  exact ⟨s, s', hr, hs.1, hs', ((cgroups_contain_processes hr).2.2 _ _ hs').1 7 rfl⟩

/-- **A killed group can only empty.** After a kill of a scope, in every run in which no child
joins its group, what lives in the tree has a pending kill and was there when the kill came. Once
that has ended, `finish` finds the group not populated. -/
theorem killed_group_dwindles {s₁ s₂ : CgroupState} (h : Reaches CgroupState.step new s)
    (hg : s.groups c = some g) (hk : s.step (.kill c true) = some s₁)
    (hr : ReachesUnder CgroupState.step (fun t a => t.noJoin g a = true) s₁ s₂) :
    Dwindles s g s₂ ∧
      ((∀ (p : ℕ) x, s.procs[p]? = some x → s.InTree g x → ∃ y, s₂.procs[p]? = some y ∧
        y.phase.isLive = false) → s₂.populated g = false) := by
  have hi := inv_of_reaches h
  have hstart : Dwindles s g s₁ := by
    rw [CgroupState.step, hg, Option.ite_none_right_eq_some] at hk
    obtain rfl := Option.some.inj hk.2
    intro p x hp hx ht
    obtain ⟨k, hk, hb⟩ := OsProc.isIn_iff.mp (inTree_iff.mp ht)
    exact ⟨doomed_of_doom hp hx hk hb, x, hp, hx, ht⟩
  obtain ⟨-, hd⟩ : s₂.Inv ∧ Dwindles s g s₂ :=
    hr.invariant (I := fun t => t.Inv ∧ Dwindles s g t) ⟨hi.step hk, hstart⟩
      fun t a t' ht hn hs => ⟨ht.1.step hs, ht.1.dwindles_step ht.2 hn hs⟩
  refine ⟨hd, fun hended => populated_eq_false.mpr fun p x hp ht => ?_⟩
  rw [← Bool.not_eq_true]
  intro hx
  obtain ⟨-, y, hy, -, hty⟩ := hd p x hp hx ht
  obtain ⟨x', hx', hdead⟩ := hended p y hy hty
  obtain rfl := Option.some.inj (hp.symm.trans hx')
  cases hx.symm.trans hdead

/-- The child ends first; what it forked is still there, with the kill pending. -/
theorem orphan_of_killed_group : ∃ s s₂, Dwindles s 0 s₂ ∧ s₂.populated 0 = true ∧
    s₂.procs[1]? = some ⟨some 0, .running⟩ := by
  obtain ⟨s, hr, hs⟩ := Reaches.exists_of_follow CgroupState.step new
    [.spawn 0 7 ⟨true, true, true, true⟩, .runSpawn 0 true, .runSpawn 0 true, .runSpawn 0 true,
      .fork 0]
    (fun s => s.groups 7 = some 0 && (s.step (.kill 7 true)).any fun s₁ =>
      (follow (guarded CgroupState.step (noJoin 0)) s₁
        [.exit 0, .spawn 1 7 ⟨true, true, true, true⟩]).any fun s₂ =>
          s₂.populated 0 && s₂.procs[1]? = some ⟨some 0, .running⟩)
    (by decide +kernel)
  rw [Bool.and_eq_true, decide_eq_true_eq, Option.any_eq_true] at hs
  obtain ⟨hg, s₁, hs₁, hs⟩ := hs
  obtain ⟨s₂, hr₂, hs₂⟩ := ReachesUnder.exists_of_follow _ _ s₁ _ _ hs
  rw [Bool.and_eq_true, decide_eq_true_eq] at hs₂
  exact ⟨s, s₂, (killed_group_dwindles hr hg hs₁ hr₂).1, hs₂⟩

end CgroupState

end Shepherd
