import Mathlib.Data.List.Basic
import Mathlib.Data.Nat.Notation
import Mathlib.Tactic.Common

/-!
# Hierarchies of Directories

Directories as a kernel keeps them when they can be opened: a directory that was removed is not
found any more, but whoever has opened it still has it. A table of directories is a list, and a
directory its index. A directory without a parent is a **top**; a name is used once in a parent, and
only an empty directory is removed.

`Dirs.WellFormed` is kept by every operation. In a well-formed table nothing is left below a top
that was removed (`WellFormed.absent_of_top`). `Dirs.Later` says what a table keeps, and
`Dirs.Under` is the subtree of a directory.
-/

namespace Shepherd.Conc

/-- A directory: the one that it is in, the top above it, and whether it is there still. -/
structure Dir (ν : Type) where
  parent : Option ℕ
  name : ν
  top : ℕ
  present : Bool
  deriving DecidableEq, Repr

/-- The directories ever created, in order. -/
abbrev Dirs (ν : Type) :=
  List (Dir ν)

namespace Dirs

variable {ν : Type} {dirs dirs' : Dirs ν} {d e q : ℕ} {x y : Dir ν} {parent : Option ℕ} {name : ν}

section Operations

variable [DecidableEq ν]

/-- The directory has this name in this parent. -/
def isNamed (parent : Option ℕ) (name : ν) (x : Dir ν) : Bool :=
  x.present && (x.parent = parent && x.name = name)

/-- The directory of a name. -/
def lookup (dirs : Dirs ν) (parent : Option ℕ) (name : ν) : Option ℕ :=
  dirs.findIdx? (isNamed parent name)

/-- A new directory: in a parent that is there, under a name that is not used in it. -/
def mkdir (dirs : Dirs ν) (parent : Option ℕ) (name : ν) : Option (Dirs ν) :=
  if (dirs.lookup parent name).isSome then none
  else
    match parent with
    | none => some (dirs ++ [⟨none, name, dirs.length, true⟩])
    | some q =>
        match dirs[q]? with
        | some ⟨_, _, top, true⟩ => some (dirs ++ [⟨some q, name, top, true⟩])
        | _ => none

end Operations

/-- The directory is in the other one. -/
def isIn (q : ℕ) (x : Dir ν) : Bool :=
  x.present && x.parent = some q

/-- The names in a directory. -/
def names (dirs : Dirs ν) (d : ℕ) : List ν :=
  (dirs.filter (isIn d)).map Dir.name

/-- An empty directory is removed. -/
def rmdir (dirs : Dirs ν) (d : ℕ) : Option (Dirs ν) :=
  if dirs.any (isIn d) then none else some (dirs.modify d fun x => { x with present := false })

/-- The top above a directory is this one. -/
def isBelow (dirs : Dirs ν) (top d : ℕ) : Bool :=
  dirs[d]?.any fun x => x.top = top

/-! ### Well-formed tables -/

/-- Parents come first and outlive what is in them, and names are used once. -/
structure WellFormed (dirs : Dirs ν) : Prop where
  top : ∀ (d : ℕ) (x : Dir ν), dirs[d]? = some x → x.parent = none → x.top = d
  parent : ∀ (d : ℕ) (x : Dir ν) (q : ℕ), dirs[d]? = some x → x.parent = some q →
    q < d ∧ ∃ y, dirs[q]? = some y ∧ y.top = x.top ∧ (x.present = true → y.present = true)
  unique : ∀ (d e : ℕ) (x y : Dir ν), dirs[d]? = some x → dirs[e]? = some y →
    x.present = true → y.present = true → x.parent = y.parent → x.name = y.name → d = e

/-- Without directories there is nothing to say. -/
theorem wellFormed_nil : WellFormed ([] : Dirs ν) where
  top _ _ h := by simp at h
  parent _ _ _ h := by simp at h
  unique _ _ _ _ h := by simp at h

/-- **Nothing is left below a top that was removed.** -/
theorem WellFormed.absent_of_top (h : dirs.WellFormed) (hy : dirs[e]? = some y)
    (hp : y.present = false) (hd : dirs[d]? = some x) (ht : x.top = e) : x.present = false := by
  induction d using Nat.strongRecOn generalizing x with
  | ind d ih =>
      cases hx : x.parent with
      | none =>
          obtain rfl : e = d := ht.symm.trans (h.top d x hd hx)
          obtain rfl := Option.some.inj (hy.symm.trans hd)
          exact hp
      | some q =>
          obtain ⟨hlt, z, hz, hzt, hpres⟩ := h.parent d x q hd hx
          have := ih q hlt hz (hzt.trans ht)
          cases hb : x.present with
          | false => rfl
          | true => exact absurd (hpres hb) (by simp [this])

/-! ### One directory of the table -/

section Lookup

variable [DecidableEq ν]

/-- When a directory is the one of this name. -/
theorem isNamed_iff : isNamed parent name x = true ↔
    x.present = true ∧ x.parent = parent ∧ x.name = name := by
  simp [isNamed]

/-- What a name finds is there. -/
theorem getElem?_of_lookup (h : dirs.lookup parent name = some d) :
    ∃ x, dirs[d]? = some x ∧ x.present = true ∧ x.parent = parent ∧ x.name = name := by
  obtain ⟨hlt, hx, -⟩ := List.findIdx?_eq_some_iff_getElem.mp h
  exact ⟨dirs[d], List.getElem?_eq_getElem hlt, isNamed_iff.mp hx⟩

/-- **What is there is found.** -/
theorem WellFormed.lookup_eq (h : dirs.WellFormed) (hd : dirs[d]? = some x)
    (hp : x.present = true) : dirs.lookup x.parent x.name = some d := by
  cases hl : dirs.lookup x.parent x.name with
  | none =>
      have := List.findIdx?_eq_none_iff.mp hl x (List.mem_of_getElem? hd)
      simp [isNamed, hp] at this
  | some e =>
      obtain ⟨y, hy, hyp, hpar, hname⟩ := getElem?_of_lookup hl
      rw [h.unique e d y x hy hd hyp hp hpar hname]

/-- What a new directory is. -/
theorem mkdir_eq (h : dirs.mkdir parent name = some dirs') :
    dirs.lookup parent name = none ∧ ∃ top, dirs' = dirs ++ [⟨parent, name, top, true⟩] ∧
      (parent = none → top = dirs.length) ∧
      ∀ q, parent = some q → ∃ y, dirs[q]? = some y ∧ y.top = top ∧ y.present = true := by
  unfold mkdir at h
  split at h
  · cases h
  · next hn =>
      refine ⟨by simpa using hn, ?_⟩
      split at h
      · obtain rfl := Option.some.inj h
        exact ⟨_, rfl, fun _ => rfl, by rintro q ⟨⟩⟩
      · next q =>
          split at h
          · next y hq =>
              obtain rfl := Option.some.inj h
              refine ⟨_, rfl, by rintro ⟨⟩, fun q' hq' => ?_⟩
              obtain rfl := Option.some.inj hq'
              exact ⟨_, hq, rfl, rfl⟩
          · cases h

end Lookup

/-- When a directory is a child of another. -/
theorem isIn_iff : isIn q x = true ↔ x.present = true ∧ x.parent = some q := by
  simp [isIn]

/-- The names in a directory are those of its children. -/
theorem mem_names : name ∈ dirs.names d ↔
    ∃ (e : ℕ) (x : Dir ν), dirs[e]? = some x ∧ x.present = true ∧ x.parent = some d ∧
      x.name = name := by
  simp only [names, List.mem_map, List.mem_filter, isIn_iff]
  constructor
  · rintro ⟨x, ⟨hm, hp, hq⟩, rfl⟩
    obtain ⟨e, he⟩ := List.mem_iff_getElem?.mp hm
    exact ⟨e, x, he, hp, hq, rfl⟩
  · rintro ⟨e, x, he, hp, hq, rfl⟩
    exact ⟨x, ⟨List.mem_of_getElem? he, hp, hq⟩, rfl⟩

/-- What a removal does: nothing was in the directory. -/
theorem rmdir_eq (h : dirs.rmdir d = some dirs') :
    (∀ (e : ℕ) (x : Dir ν), dirs[e]? = some x → x.present = true → x.parent ≠ some d) ∧
      dirs' = dirs.modify d fun x => { x with present := false } := by
  rw [rmdir] at h
  split at h
  · cases h
  · next hn =>
      refine ⟨fun e x he hp hq => hn ?_, (Option.some.inj h).symm⟩
      exact List.any_eq_true.mpr ⟨x, List.mem_of_getElem? he, isIn_iff.mpr ⟨hp, hq⟩⟩

/-- A directory after a removal. -/
theorem getElem?_rmdir (h : dirs.rmdir d = some dirs') (e : ℕ) :
    dirs'[e]? = dirs[e]?.map fun x => if d = e then { x with present := false } else x := by
  obtain ⟨-, rfl⟩ := rmdir_eq h
  rw [List.getElem?_modify]
  split <;> simp

/-- Other directories are left alone. -/
theorem getElem?_rmdir_of_ne (h : dirs.rmdir d = some dirs') (hne : d ≠ e) :
    dirs'[e]? = dirs[e]? := by
  rw [getElem?_rmdir h]
  simp [hne]

/-- A new directory changes no other. -/
theorem getElem?_mkdir [DecidableEq ν] (h : dirs.mkdir parent name = some dirs')
    (hd : dirs[d]? = some x) : dirs'[d]? = some x := by
  obtain ⟨-, top, rfl, -, -⟩ := mkdir_eq h
  rw [List.getElem?_append_left (List.getElem?_eq_some_iff.mp hd).1, hd]

/-! ### Later tables -/

/-- No directory has changed its place, and none that was removed is there again. -/
def Later (dirs dirs' : Dirs ν) : Prop :=
  ∀ (d : ℕ) (x : Dir ν), dirs[d]? = some x → ∃ x', dirs'[d]? = some x' ∧ x'.parent = x.parent ∧
    x'.name = x.name ∧ x'.top = x.top ∧ (x'.present = true → x.present = true)

/-- A tree is later than itself. -/
theorem Later.refl (dirs : Dirs ν) : Later dirs dirs :=
  fun _ x hx => ⟨x, hx, rfl, rfl, rfl, id⟩

/-- A tree with a new directory is later. -/
theorem Later.mkdir [DecidableEq ν] (h : dirs.mkdir parent name = some dirs') :
    Later dirs dirs' :=
  fun _ x hx => ⟨x, getElem?_mkdir h hx, rfl, rfl, rfl, id⟩

/-- A tree without an empty directory is later. -/
theorem Later.rmdir (h : dirs.rmdir d = some dirs') : Later dirs dirs' := by
  intro e x hx
  have hx' := getElem?_rmdir h e
  rw [hx] at hx'
  refine ⟨_, hx', ?_⟩
  split
  · exact ⟨rfl, rfl, rfl, by rintro ⟨⟩⟩
  · exact ⟨rfl, rfl, rfl, id⟩

/-- Trees change step by step. -/
theorem Later.trans {dirs'' : Dirs ν} (h : Later dirs dirs') (h' : Later dirs' dirs'') :
    Later dirs dirs'' := by
  intro d x hx
  obtain ⟨x', hx', hpar, hname, htop, hp⟩ := h d x hx
  obtain ⟨x'', hx'', hpar', hname', htop', hp'⟩ := h' d x' hx'
  exact ⟨x'', hx'', hpar'.trans hpar, hname'.trans hname, htop'.trans htop, hp ∘ hp'⟩

/-! ### Subtrees -/

/-- The parents of the directories. -/
def parents (dirs : Dirs ν) : List (Option ℕ) :=
  dirs.map Dir.parent

/-- The directory is the other one, or below it. -/
inductive Under (ps : List (Option ℕ)) (d : ℕ) : ℕ → Prop
  | self : Under ps d d
  | inside {e q : ℕ} (he : ps[e]? = some (some q)) (h : Under ps d q) : Under ps d e

/-- The parent of a directory, in the list of parents. -/
theorem parents_getElem? (hd : dirs[d]? = some x) : dirs.parents[d]? = some x.parent := by
  simp [parents, hd]

/-- A parent in the list is that of a directory. -/
theorem getElem?_of_parents (h : dirs.parents[d]? = some parent) :
    ∃ x, dirs[d]? = some x ∧ x.parent = parent := by
  simpa [parents] using h

/-- A removal changes no parent. -/
theorem parents_rmdir (h : dirs.rmdir d = some dirs') : dirs'.parents = dirs.parents := by
  refine List.ext_getElem? fun e => ?_
  rw [parents, parents, List.getElem?_map, List.getElem?_map, getElem?_rmdir h, Option.map_map]
  congr 1
  funext x
  dsimp only [Function.comp_apply]
  split <;> rfl

/-- What is below something below is below. -/
theorem Under.trans {ps : List (Option ℕ)} (h : Under ps d q) (h' : Under ps q e) :
    Under ps d e := by
  induction h' with
  | self => exact h
  | inside he _ ih => exact .inside he ih

/-- What is below a directory comes after it, and has its top. -/
theorem WellFormed.of_under (h : dirs.WellFormed) (hu : Under dirs.parents d e)
    (hx : dirs[d]? = some x) : d ≤ e ∧ ∃ y, dirs[e]? = some y ∧ y.top = x.top := by
  induction hu with
  | self => exact ⟨Nat.le_refl d, x, hx, rfl⟩
  | inside he _ ih =>
      obtain ⟨hle, z, hz, hzt⟩ := ih
      obtain ⟨y, hy, hpar⟩ := getElem?_of_parents he
      obtain ⟨hlt, z', hz', hzt', -⟩ := h.parent _ y _ hy hpar
      obtain rfl := Option.some.inj (hz.symm.trans hz')
      exact ⟨by omega, y, hy, hzt'.symm.trans hzt⟩

/-- What is below a directory in another one is below that one, and is not it. -/
theorem WellFormed.under_of_child (h : dirs.WellFormed) (hx : dirs[d]? = some x)
    (hp : x.parent = some q) (hu : Under dirs.parents d e) : Under dirs.parents q e ∧ e ≠ q := by
  refine ⟨(Under.inside ((parents_getElem? hx).trans (congrArg some hp)) .self).trans hu, ?_⟩
  have hlt := (h.parent d x q hx hp).1
  have hle := (h.of_under hu hx).1
  omega

/-- **Nothing is below two directories of one parent**, in particular not one of them. -/
theorem WellFormed.not_under_sibling (h : dirs.WellFormed) (hx : dirs[d]? = some x)
    (hy : dirs[e]? = some y) (hxp : x.parent = some q) (hyp : y.parent = some q) (hne : e ≠ d) :
    ¬ Under dirs.parents d e := by
  intro hu
  cases hu with
  | self => exact hne rfl
  | inside he hu =>
      obtain rfl := Option.some.inj
        ((Option.some.inj ((parents_getElem? hy).symm.trans he)).symm.trans hyp)
      exact (h.under_of_child hx hxp hu).2 rfl

/-- The names in a directory are different. -/
theorem WellFormed.names_nodup (h : dirs.WellFormed) : (dirs.names d).Nodup := by
  rw [names, List.Nodup, List.pairwise_map, List.pairwise_filter, List.pairwise_iff_getElem]
  intro i j hi hj hlt hin hjn hname
  rw [isIn_iff] at hin hjn
  have := h.unique i j _ _ (List.getElem?_eq_getElem hi) (List.getElem?_eq_getElem hj) hin.1 hjn.1
    (hin.2.trans hjn.2.symm) hname
  omega

/-! ### What keeps a table well-formed -/

/-- A new directory in one that is there keeps the tree well formed. -/
theorem WellFormed.mkdir [DecidableEq ν] (h : dirs.WellFormed)
    (hm : dirs.mkdir parent name = some dirs') : dirs'.WellFormed := by
  obtain ⟨hnone, top, rfl, htop, hpar⟩ := mkdir_eq hm
  have hold : ∀ {e : ℕ} {y : Dir ν}, dirs[e]? = some y → y.present = true → y.parent = parent →
      y.name ≠ name := by
    intro e y hy hp hq hn
    have := h.lookup_eq hy hp
    rw [hq, hn, hnone] at this
    cases this
  have hcases : ∀ {e : ℕ} {y : Dir ν}, (dirs ++ [⟨parent, name, top, true⟩])[e]? = some y →
      dirs[e]? = some y ∨ e = dirs.length ∧ y = ⟨parent, name, top, true⟩ := by
    intro e y hy
    rw [List.getElem?_append] at hy
    split at hy
    · exact .inl hy
    · next hlt =>
        rw [List.getElem?_singleton] at hy
        split at hy
        · exact .inr ⟨by omega, (Option.some.inj hy).symm⟩
        · cases hy
  have hkeep : ∀ {e : ℕ} {y : Dir ν}, dirs[e]? = some y →
      (dirs ++ [⟨parent, name, top, true⟩])[e]? = some y := fun hy =>
    (List.getElem?_append_left (List.getElem?_eq_some_iff.mp hy).1).trans hy
  refine { top := fun e y hy hp => ?_, parent := fun e y q hy hp => ?_, unique := ?_ }
  · rcases hcases hy with hy | ⟨rfl, rfl⟩
    · exact h.top e y hy hp
    · exact htop hp
  · rcases hcases hy with hy | ⟨rfl, rfl⟩
    · obtain ⟨hlt, z, hz, hrest⟩ := h.parent e y q hy hp
      exact ⟨hlt, z, hkeep hz, hrest⟩
    · obtain ⟨z, hz, hzt, hzp⟩ := hpar q hp
      exact ⟨(List.getElem?_eq_some_iff.mp hz).1, z, hkeep hz, hzt, fun _ => hzp⟩
  · intro d e x y hx hy hxp hyp hpp hnn
    rcases hcases hx with hx | ⟨rfl, rfl⟩
    · rcases hcases hy with hy | ⟨rfl, rfl⟩
      · exact h.unique d e x y hx hy hxp hyp hpp hnn
      · exact absurd hnn (hold hx hxp hpp)
    · rcases hcases hy with hy | ⟨rfl, rfl⟩
      · exact absurd hnn.symm (hold hy hyp hpp.symm)
      · rfl

/-- The removal of an empty directory keeps the tree well formed. -/
theorem WellFormed.rmdir (h : dirs.WellFormed) (hr : dirs.rmdir d = some dirs') :
    dirs'.WellFormed := by
  have hempty := (rmdir_eq hr).1
  have hcases : ∀ {e : ℕ} {y : Dir ν}, dirs'[e]? = some y →
      ∃ x, dirs[e]? = some x ∧ y.parent = x.parent ∧
      y.name = x.name ∧ y.top = x.top ∧ (y.present = true → x.present = true ∧ d ≠ e) := by
    intro e y hy
    rw [getElem?_rmdir hr] at hy
    obtain ⟨x, hx, rfl⟩ := Option.map_eq_some_iff.mp hy
    refine ⟨x, hx, ?_⟩
    split
    · exact ⟨rfl, rfl, rfl, by rintro ⟨⟩⟩
    · next hne => exact ⟨rfl, rfl, rfl, fun hp => ⟨hp, hne⟩⟩
  refine { top := fun e y hy hp => ?_, parent := fun e y q hy hp => ?_, unique := ?_ }
  · obtain ⟨x, hx, hpar, -, htop, -⟩ := hcases hy
    exact htop.trans (h.top e x hx (hpar ▸ hp))
  · obtain ⟨x, hx, hpar, -, htop, hpres⟩ := hcases hy
    obtain ⟨hlt, z, hz, hzt, hzp⟩ := h.parent e x q hx (hpar ▸ hp)
    have hz' := getElem?_rmdir hr q
    rw [hz] at hz'
    refine ⟨hlt, _, hz', ?_, fun hy' => ?_⟩
    · split <;> exact hzt.trans htop.symm
    · obtain ⟨hxp, -⟩ := hpres hy'
      split
      · next heq => exact absurd (hpar ▸ hp) (heq ▸ hempty e x hx hxp)
      · exact hzp hxp
  · intro e f y z hy hz hyp hzp hpp hnn
    obtain ⟨x, hx, hpar, hname, -, hpres⟩ := hcases hy
    obtain ⟨x', hx', hpar', hname', -, hpres'⟩ := hcases hz
    exact h.unique e f x x' hx hx' (hpres hyp).1 (hpres' hzp).1 (hpar.symm.trans (hpp.trans hpar'))
      (hname.symm.trans (hnn.trans hname'))

end Dirs

end Shepherd.Conc
