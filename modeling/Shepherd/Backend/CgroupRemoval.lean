import Shepherd.Backend.CgroupKills
import Mathlib.Data.List.Perm.Basic

/-!
# The Removal of a Control Group

When nothing lives in the tree of a group, `remove_empty_tree` comes to its end if it is let alone,
whatever the order in which the system lists a directory, and leaves nothing of the tree
(`finish_clears_an_empty_scope`). `Cleared` is what a part of the removal does; the induction is
on the directories that come after the one which is removed.
-/

open Function

namespace Shepherd

open Conc

namespace CgroupState

variable {s s' s'' : CgroupState} {c : ProcessScopeId} {d e g n : ℕ} {parent : Option ℕ}
  {name : ℕ} {rest : List Removal} {order : CgroupState → List ℕ → List ℕ} {gone gone' : ℕ → Prop}

/-! ### A call by itself -/

/-- The directories in the one that a call of `finish` lists next. -/
def entries (s : CgroupState) (n : ℕ) : List ℕ :=
  match s.finishes n with
  | some (_, .removing _ (.visit parent name :: _)) =>
      ((s.dirs.lookup parent name).map s.dirs.names).getD []
  | _ => []

/-- A call of `finish` takes its steps alone, and no system call fails it. -/
def runAlone (order : CgroupState → List ℕ → List ℕ) (n : ℕ) (s : CgroupState) (_ : Unit) :
    Option CgroupState :=
  s.step (.runFinish n true (order s (s.entries n)))

/-- What a removal of directories leaves: the others. -/
structure Cleared (s s' : CgroupState) (gone : ℕ → Prop) : Prop where
  inv : s'.Inv
  procs : s'.procs = s.procs
  parents : s'.dirs.parents = s.dirs.parents
  later : Dirs.Later s.dirs s'.dirs
  others : ∀ e, ¬ gone e → s'.dirs[e]? = s.dirs[e]?

/-- Nothing is removed without a step. -/
theorem Cleared.refl (hi : s.Inv) : Cleared s s gone :=
  ⟨hi, rfl, rfl, .refl _, fun _ _ => rfl⟩

/-- Two stretches of a removal. -/
theorem Cleared.trans (h : Cleared s s' gone) (h' : Cleared s' s'' gone) : Cleared s s'' gone :=
  ⟨h'.inv, h'.procs.trans h.procs, h'.parents.trans h.parents, h.later.trans h'.later,
    fun e he => (h'.others e he).trans (h.others e he)⟩

/-- A stretch may have removed more. -/
theorem Cleared.mono (h : Cleared s s' gone) (hg : ∀ e, gone e → gone' e) : Cleared s s' gone' :=
  ⟨h.inv, h.procs, h.parents, h.later, fun e he => h.others e (he ∘ hg e)⟩

/-- A directory was there before. -/
theorem Cleared.before {y : Dir ℕ} (h : Cleared s s' gone) (hy : s'.dirs[e]? = some y)
    (hp : y.present = true) : ∃ x, s.dirs[e]? = some x ∧ x.present = true ∧
      x.parent = y.parent ∧ x.name = y.name := by
  have hlen : s.dirs.length = s'.dirs.length := by
    simpa [Dirs.parents] using congrArg List.length h.parents.symm
  have hlt : e < s.dirs.length := hlen ▸ (List.getElem?_eq_some_iff.mp hy).1
  obtain ⟨y', hy', hpar, hname, -, hpres⟩ := h.later e _ (List.getElem?_eq_getElem hlt)
  obtain rfl := Option.some.inj (hy.symm.trans hy')
  exact ⟨_, List.getElem?_eq_getElem hlt, hpres hp, hpar.symm, hname.symm⟩

/-- Nothing lives in the tree after it, if nothing did before. -/
theorem Cleared.populated (h : Cleared s s' gone) (hi : s.Inv) (hp : s.populated g = false) :
    s'.populated g = false := by
  rw [populated_eq_false] at hp ⊢
  intro p x hx ht
  rw [h.procs] at hx
  rw [← Bool.not_eq_true]
  intro hl
  exact absurd (hp p x hx (hi.inTree_of_later h.later hx hl ht)) (by simp [hl])

/-- Nothing is in a directory of a tree that is not populated. -/
theorem busy_eq_false {x : Dir ℕ} (hp : s.populated g = false) (hx : s.dirs[d]? = some x)
    (ht : x.top = g) : s.busy d = false := by
  rw [busy, bne_eq_false_iff_eq, OsProcs.active_eq_zero]
  intro p y hy hin
  obtain ⟨k, hk, hkd⟩ := OsProc.isIn_iff.mp hin
  obtain rfl := beq_iff_eq.mp hkd
  exact populated_eq_false.mp hp p y hy ⟨k, x, hk, hx, ht⟩

/-! ### The steps of a removal -/

/-- A directory is listed. -/
theorem runAlone_visit (ho : ∀ t l, (order t l).Perm l)
    (hn : s.finishes n = some (c, .removing g (.visit parent name :: rest)))
    (hl : s.dirs.lookup parent name = some d) :
    s.runAlone order n () = some (s.setFinish n c (.removing g
      ((order s (s.dirs.names d)).map (.visit (some d)) ++ .remove parent name :: rest))) := by
  have he : s.entries n = s.dirs.names d := by
    simp [entries, hn, hl]
  have hperm : (order s (s.dirs.names d)).isPerm (s.dirs.names d) = true :=
    List.isPerm_iff.mpr (ho s _)
  simp [runAlone, CgroupState.step, hn, CgroupState.runFinish, CgroupState.walk, hl, he, hperm]

/-- A directory is removed. -/
theorem runAlone_remove {dirs : Dirs ℕ}
    (hn : s.finishes n = some (c, .removing g (.remove parent name :: rest)))
    (hl : s.dirs.lookup parent name = some d) (hb : s.busy d = false)
    (hr : s.dirs.rmdir d = some dirs) :
    s.runAlone order n () = some ({ s with dirs }.setFinish n c (.removing g rest)) := by
  simp [runAlone, CgroupState.step, hn, CgroupState.runFinish, CgroupState.walk, hl, hb, hr]

/-- A step of a `finish` that runs alone keeps the invariant. -/
theorem Inv.runAlone {u : Unit} (hi : s.Inv) (hs : runAlone order n s u = some s') : s'.Inv :=
  hi.step hs

/-! ### Subtrees -/

/-- A directory that is there, in the tree of a group that is not populated. -/
structure Removable (s : CgroupState) (g d : ℕ) (x : Dir ℕ) : Prop where
  inv : s.Inv
  empty : s.populated g = false
  dir : s.dirs[d]? = some x
  present : x.present = true
  top : x.top = g

/-- The removal of a directory and of what is below it, with `k` directories from it to the end of
the table. -/
def Clearing (order : CgroupState → List ℕ → List ℕ) (n : ℕ) (c : ProcessScopeId) (g k : ℕ) :
    Prop :=
  ∀ (s : CgroupState) (d : ℕ) (x : Dir ℕ) (rest : List Removal), s.Removable g d x →
    s.dirs.length ≤ d + k →
    s.finishes n = some (c, .removing g (.visit x.parent x.name :: rest)) →
    ∃ s', Reaches (runAlone order n) s s' ∧ Cleared s s' (Dirs.Under s.dirs.parents d) ∧
      s'.finishes n = some (c, .removing g rest) ∧
      ∀ y, s'.dirs[d]? = some y → y.present = false

/-- **One after the other**, the directories of a listing are removed. -/
theorem clears_children {k q : ℕ} {ns : List ℕ} (ih : Clearing order n c g k) (hi : s.Inv)
    (hp : s.populated g = false) (hk : s.dirs.length ≤ q + 1 + k) (hns : ns.Nodup)
    (hc : ∀ name ∈ ns, ∃ (d : ℕ) (x : Dir ℕ), s.dirs[d]? = some x ∧ x.present = true ∧
      x.parent = some q ∧ x.name = name ∧ x.top = g)
    (hn : s.finishes n = some (c, .removing g (ns.map (.visit (some q)) ++ rest))) :
    ∃ s', Reaches (runAlone order n) s s' ∧
      Cleared s s' (fun e => Dirs.Under s.dirs.parents q e ∧ e ≠ q) ∧
      s'.finishes n = some (c, .removing g rest) ∧ ∀ name ∈ ns, name ∉ s'.dirs.names q := by
  induction ns generalizing s with
  | nil => exact ⟨s, .initial, .refl hi, hn, by simp⟩
  | cons name ns ihns =>
      obtain ⟨hnot, hrest⟩ := List.nodup_cons.mp hns
      obtain ⟨d, x, hx, hpres, hpar, rfl, htop⟩ := hc name List.mem_cons_self
      have hlt := (hi.wf.parent d x q hx hpar).1
      obtain ⟨s₁, hr₁, hcl₁, hn₁, habs⟩ := ih s d x (ns.map (.visit (some q)) ++ rest)
        ⟨hi, hp, hx, hpres, htop⟩ (by omega) (hpar ▸ hn)
      have hcl₁' := hcl₁.mono fun e => hi.wf.under_of_child hx hpar
      have hlen : s₁.dirs.length = s.dirs.length := by
        simpa [Dirs.parents] using congrArg List.length hcl₁.parents
      obtain ⟨s₂, hr₂, hcl₂, hn₂, hno⟩ := ihns hcl₁.inv (hcl₁.populated hi hp) (hlen ▸ hk) hrest
        (by
          intro name' hm
          obtain ⟨e, y, hy, hyp, hypar, rfl, hytop⟩ := hc name' (List.mem_cons_of_mem _ hm)
          refine ⟨e, y, (hcl₁.others e ?_).trans hy, hyp, hypar, rfl, hytop⟩
          refine hi.wf.not_under_sibling hx hy hpar hypar ?_
          rintro rfl
          obtain rfl := Option.some.inj (hx.symm.trans hy)
          exact hnot hm)
        hn₁
      rw [hcl₁.parents] at hcl₂
      refine ⟨s₂, hr₁.trans hr₂, hcl₁'.trans hcl₂, hn₂, fun name' hm => ?_⟩
      rcases List.mem_cons.mp hm with rfl | hm
      · intro hmem
        obtain ⟨e, y, hy, hyp, hypar, hyname⟩ := Dirs.mem_names.mp hmem
        obtain ⟨y₁, hy₁, hyp₁, hpar₁, hname₁⟩ := hcl₂.before hy hyp
        obtain ⟨y₀, hy₀, hyp₀, hpar₀, hname₀⟩ := hcl₁.before hy₁ hyp₁
        obtain rfl := hi.wf.unique e d y₀ x hy₀ hx hyp₀ hpres
          ((hpar₀.trans (hpar₁.trans hypar)).trans hpar.symm) (hname₀.trans (hname₁.trans hyname))
        cases hyp₁.symm.trans (habs y₁ hy₁)
      · exact hno name' hm

/-- **A directory is removed** with all that is below it. -/
theorem clears_tree (ho : ∀ t l, (order t l).Perm l) (k : ℕ) : Clearing order n c g k := by
  induction k with
  | zero =>
      intro s d x rest hd hk
      have := (List.getElem?_eq_some_iff.mp hd.dir).1
      omega
  | succ k ih =>
      intro s d x rest hd hk hn
      have h₁ := runAlone_visit ho hn (hd.inv.wf.lookup_eq hd.dir hd.present)
      have hmem : ∀ {name}, name ∈ order s (s.dirs.names d) ↔ name ∈ s.dirs.names d :=
        (ho s _).mem_iff
      set s₁ := s.setFinish n c (.removing g
        ((order s (s.dirs.names d)).map (.visit (some d)) ++ .remove x.parent x.name :: rest))
      have hn₁ : s₁.finishes n = some (c, .removing g
          ((order s (s.dirs.names d)).map (.visit (some d)) ++ .remove x.parent x.name :: rest)) :=
        update_self ..
      obtain ⟨s₂, hr₂, hcl₂, hn₂, hno⟩ := clears_children ih (hd.inv.runAlone h₁) hd.empty
        (by omega : s.dirs.length ≤ d + 1 + k) ((ho s _).nodup_iff.mpr hd.inv.wf.names_nodup)
        (by
          intro name hm
          obtain ⟨e, y, hy, hyp, hypar, hyname⟩ := Dirs.mem_names.mp (hmem.mp hm)
          obtain ⟨-, z, hz, hzt, -⟩ := hd.inv.wf.parent e y d hy hypar
          obtain rfl := Option.some.inj (hz.symm.trans hd.dir)
          exact ⟨e, y, hy, hyp, hypar, hyname, hzt.symm.trans hd.top⟩)
        hn₁
      have hx₂ : s₂.dirs[d]? = some x := (hcl₂.others d fun h => h.2 rfl).trans hd.dir
      have hp₂ := hcl₂.populated (hd.inv.runAlone h₁) hd.empty
      obtain ⟨dirs, hrm⟩ : ∃ dirs, s₂.dirs.rmdir d = some dirs := by
        refine ⟨_, if_neg fun hany => ?_⟩
        obtain ⟨y, hy, hin⟩ := List.any_eq_true.mp hany
        obtain ⟨e, he⟩ := List.mem_iff_getElem?.mp hy
        obtain ⟨hyp, hypar⟩ := Dirs.isIn_iff.mp hin
        obtain ⟨y₀, hy₀, hyp₀, hpar₀, hname₀⟩ := hcl₂.before he hyp
        refine hno y.name (hmem.mpr ?_) (Dirs.mem_names.mpr ⟨e, y, he, hyp, hypar, rfl⟩)
        exact Dirs.mem_names.mpr ⟨e, y₀, hy₀, hyp₀, hpar₀.trans hypar, hname₀⟩
      have h₃ : s₂.runAlone order n () =
          some ({ s₂ with dirs }.setFinish n c (.removing g rest)) :=
        runAlone_remove hn₂ (hcl₂.inv.wf.lookup_eq hx₂ hd.present)
          (busy_eq_false hp₂ hx₂ hd.top) hrm
      refine ⟨_, ((Reaches.initial.next () h₁).trans hr₂).next () h₃, ?_, update_self .., ?_⟩
      · have hcl₃ : Cleared s₂ ({ s₂ with dirs }.setFinish n c (.removing g rest))
            (Dirs.Under s.dirs.parents d) := by
          refine ⟨hcl₂.inv.runAlone h₃, rfl, Dirs.parents_rmdir hrm, .rmdir hrm, fun e he => ?_⟩
          refine Dirs.getElem?_rmdir_of_ne hrm ?_
          rintro rfl
          exact he .self
        refine Cleared.trans ?_ hcl₃
        exact ⟨hcl₂.inv, hcl₂.procs, hcl₂.parents, hcl₂.later, fun e he =>
          hcl₂.others e fun h => he h.1⟩
      · intro y hy
        have hy' := Dirs.getElem?_rmdir hrm d
        rw [hx₂] at hy'
        obtain rfl := Option.some.inj (hy.symm.trans hy')
        simp

/-- **The end of a scope.** Once nothing lives in the tree of a group, a call of `finish` that is
let alone removes the tree from the leaves up, in whatever order directories are listed, gives up
the group and the mutex, and leaves every other tree and all processes alone. -/
theorem finish_clears_an_empty_scope (order : CgroupState → List ℕ → List ℕ)
    (ho : ∀ t l, (order t l).Perm l) {left : ℕ}
    (h : Reaches CgroupState.step new s) (hn : s.finishes n = some (c, .polling (left + 1)))
    (hl : s.lock = none) (hg : s.groups c = some g) (hp : s.populated g = false) :
    ∃ s', Reaches (runAlone order n) s s' ∧ s'.finishes n = some (c, .returned true) ∧
      s'.groups c = none ∧ s'.lock = none ∧ s'.procs = s.procs ∧
      ∀ (d : ℕ) (x : Dir ℕ), s.dirs[d]? = some x →
        (x.top = g → ∀ y, s'.dirs[d]? = some y → y.present = false) ∧
        (x.top ≠ g → s'.dirs[d]? = some x) := by
  have hi := inv_of_reaches h
  have hgroup := hi.isGroup hl hg
  have h₁ : s.runAlone order n () = some ({ s with lock := some n }.setFinish n c
      (.removing g [.visit none c])) := by
    simp [runAlone, CgroupState.step, hn, CgroupState.runFinish, hl, hg, hp]
  obtain ⟨s₂, hr₂, hcl, hn₂, habs⟩ := clears_tree ho (s.dirs.length) _ g ⟨none, c, g, true⟩ []
    ⟨hi.runAlone h₁, hp, hgroup, rfl, rfl⟩ (Nat.le_add_left ..) (update_self ..)
  have h₃ : s₂.runAlone order n () = some ({ s₂ with
      groups := update s₂.groups c none, lock := none }.setFinish n c (.returned true)) := by
    simp [runAlone, CgroupState.step, hn₂, CgroupState.runFinish]
  refine ⟨_, ((Reaches.initial.next () h₁).trans hr₂).next () h₃, update_self .., update_self ..,
    rfl, hcl.procs, fun d x hx => ⟨fun ht y hy => ?_, fun ht => ?_⟩⟩
  · obtain ⟨z, hz, -, -, hzt, -⟩ := hcl.later g _ hgroup
    obtain ⟨y', hy', -, -, hyt, -⟩ := hcl.later d x hx
    obtain rfl := Option.some.inj (hy.symm.trans hy')
    exact hcl.inv.wf.absent_of_top hz (habs z hz) hy (hyt.trans ht)
  · refine (hcl.others d fun hu => ?_).trans hx
    obtain ⟨-, y, hy, hyt⟩ := hi.wf.of_under hu hgroup
    obtain rfl := Option.some.inj (hx.symm.trans hy)
    exact ht hyt

/-- A program has left two directories in its own and one in one of them; they are listed last
to first. -/
theorem nested_scope_is_cleared : ∃ s s', Reaches CgroupState.step new s ∧
    s.finishes 0 = some (7, .polling 500) ∧ s.dirs.map Dir.parent = [none, some 0, some 1, some 0] ∧
    Reaches (runAlone (fun _ => List.reverse) 0) s s' ∧
    s'.finishes 0 = some (7, .returned true) ∧ s'.groups 7 = none := by
  obtain ⟨s, hr, hs⟩ := Reaches.exists_of_follow CgroupState.step new
    [.spawn 0 7 ⟨true, true, true, true⟩, .runSpawn 0 true, .runSpawn 0 true, .runSpawn 0 true,
      .mkdir 0 0 5, .mkdir 0 1 6, .mkdir 0 0 4, .move 0 2, .exit 0, .finish 0 7]
    (fun s => s.finishes 0 = some (7, .polling 500) &&
      (s.dirs.map Dir.parent = [none, some 0, some 1, some 0] && (s.lock.isNone &&
      (s.groups 7 = some 0 && !s.populated 0))))
    (by decide +kernel)
  simp only [Bool.and_eq_true, decide_eq_true_eq, Bool.not_eq_true',
    Option.isNone_iff_eq_none] at hs
  obtain ⟨hn, hdirs, hl, hg, hp⟩ := hs
  obtain ⟨s', hr', hn', hg', -⟩ := finish_clears_an_empty_scope
    (fun _ => List.reverse) (fun _ l => l.reverse_perm) hr hn hl hg hp
  exact ⟨s, s', hr, hn, hdirs, hr', hn', hg'⟩

end CgroupState

end Shepherd
