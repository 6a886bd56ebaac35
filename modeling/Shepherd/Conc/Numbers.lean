import Mathlib.Data.List.Basic
import Mathlib.Data.Nat.Notation
import Mathlib.Tactic.Common

/-!
# Recycled Numbers

Processes as a kernel names them: a process has its number until it is reaped, and then the number
can be given to another one. It also has the time at which it started, as the kernel counts it. The
kernel gives out free numbers only (`Distinct`). It does not promise that a number is not used
again within the same tick of the clock: that a number and a time never belong to two processes
(`Identified`) is an assumption, which a result states where it needs it.

A table is a list, a process its index. `NumberTable.holder` is who has a number now, and
`NumberTable.startOf` the time that is read for the number. If what is read for the number of a
process is its own time, the process has the number still (`Distinct.holder_of_startOf`, of tables
that are `Identified`), for as long as it is not reaped (`Later.holder`).
-/

namespace Shepherd.Conc

/-- How far a process is. -/
inductive Life where
  | running
  /-- Ended, and not reaped. -/
  | zombie
  | reaped
  deriving DecidableEq, Repr

/-- A process with its number and the time at which it started. -/
structure Numbered where
  number : ℕ
  start : ℕ
  life : Life
  deriving DecidableEq, Repr

namespace Numbered

/-- The process ends, if it runs. -/
def finish (x : Numbered) : Numbered :=
  { x with life := if x.life = .running then .zombie else x.life }

def reap (x : Numbered) : Numbered :=
  { x with life := .reaped }

/-- The same process, later. -/
def Later (x x' : Numbered) : Prop :=
  x'.number = x.number ∧ x'.start = x.start ∧ (x.life = .reaped → x'.life = .reaped)

/-- A process is later than itself. -/
theorem Later.refl (x : Numbered) : Later x x :=
  ⟨rfl, rfl, id⟩

/-- A process changes step by step. -/
theorem Later.trans {x y z : Numbered} (h : Later x y) (h' : Later y z) : Later x z :=
  ⟨h'.1.trans h.1, h'.2.1.trans h.2.1, h'.2.2 ∘ h.2.2⟩

/-- A process that ends is the same process. -/
theorem later_finish (x : Numbered) : Later x x.finish := by
  refine ⟨rfl, rfl, fun hl => ?_⟩
  rw [finish, if_neg (by simp [hl]), hl]

/-- A process that is reaped is the same process. -/
theorem later_reap (x : Numbered) : Later x x.reap :=
  ⟨rfl, rfl, fun _ => rfl⟩

end Numbered

/-- The processes ever created, in order. -/
abbrev NumberTable :=
  List Numbered

namespace NumberTable

/-- The process has the number now. -/
def has (n : ℕ) (x : Numbered) : Bool :=
  x.number = n && x.life ≠ .reaped

/-- Who has a number. -/
def holder (ps : NumberTable) (n : ℕ) : Option ℕ :=
  ps.findIdx? (has n)

/-- The time at which the process with a number started. -/
def startOf (ps : NumberTable) (n : ℕ) : Option ℕ :=
  (ps.find? (has n)).map Numbered.start

/-- The process was reaped. -/
def isReaped (ps : NumberTable) (p : ℕ) : Bool :=
  ps[p]?.any fun x => x.life = .reaped

/-- A new process, with a number that is free. -/
def create (ps : NumberTable) (n start : ℕ) : Option NumberTable :=
  if ps.any (has n) then none else some (ps ++ [⟨n, start, .running⟩])

/-- No process had the number and the time. -/
def isFresh (ps : NumberTable) (n start : ℕ) : Bool :=
  !ps.any fun x => x.number = n && x.start = start

/-- A process ends. -/
def finish (ps : NumberTable) (p : ℕ) : NumberTable :=
  ps.modify p Numbered.finish

/-- A process that has ended is reaped. -/
def reap (ps : NumberTable) (p : ℕ) : Option NumberTable :=
  if ps[p]?.any fun x => x.life = .zombie then some (ps.modify p Numbered.reap) else none

variable {ps ps' ps'' : NumberTable} {n p q start : ℕ} {x y : Numbered}

/-! ### Different processes -/

/-- A number has one process. -/
def Distinct (ps : NumberTable) : Prop :=
  ∀ (p q : ℕ) (x y : Numbered), ps[p]? = some x → ps[q]? = some y →
    x.life ≠ .reaped → y.life ≠ .reaped → x.number = y.number → p = q

/-- A number with a time only ever had one process. -/
def Identified (ps : NumberTable) : Prop :=
  ∀ (p q : ℕ) (x y : Numbered), ps[p]? = some x → ps[q]? = some y →
    x.number = y.number → x.start = y.start → p = q

/-- In an empty table no number is used twice. -/
theorem distinct_nil : Distinct [] :=
  fun _ _ _ _ h => by simp at h

/-- In an empty table nothing shares its identity. -/
theorem identified_nil : Identified [] :=
  fun _ _ _ _ h => by simp at h

/-- A process has its number until it is reaped. -/
theorem has_iff : has n x = true ↔ x.number = n ∧ x.life ≠ .reaped := by
  simp [has]

/-- The holder of a number has it. -/
theorem getElem?_of_holder (h : ps.holder n = some p) :
    ∃ x, ps[p]? = some x ∧ x.number = n ∧ x.life ≠ .reaped := by
  obtain ⟨hlt, hx, -⟩ := List.findIdx?_eq_some_iff_getElem.mp h
  exact ⟨ps[p], List.getElem?_eq_getElem hlt, has_iff.mp hx⟩

/-- A process that is not reaped is the holder of its number. -/
theorem Distinct.holder_eq (h : ps.Distinct) (hp : ps[p]? = some x) (hx : x.life ≠ .reaped) :
    ps.holder x.number = some p := by
  cases hh : ps.holder x.number with
  | none =>
      have := List.findIdx?_eq_none_iff.mp hh x (List.mem_of_getElem? hp)
      simp [has, hx] at this
  | some q =>
      obtain ⟨y, hy, hn, hl⟩ := getElem?_of_holder hh
      rw [h q p y x hy hp hl hx hn]

/-- A start time that can be read is that of a process with the number. -/
theorem getElem?_of_startOf (h : ps.startOf n = some start) :
    ∃ (p : ℕ) (x : Numbered), ps[p]? = some x ∧ x.number = n ∧ x.life ≠ .reaped ∧
      x.start = start := by
  obtain ⟨x, hx, rfl⟩ := Option.map_eq_some_iff.mp h
  obtain ⟨hn, hl⟩ := has_iff.mp (List.find?_some hx)
  obtain ⟨p, hp⟩ := List.mem_iff_getElem?.mp (List.mem_of_find?_eq_some hx)
  exact ⟨p, x, hp, hn, hl, rfl⟩

/-- What is read for the number of a process that is not reaped is its time. -/
theorem Distinct.startOf_eq (h : ps.Distinct) (hp : ps[p]? = some x) (hx : x.life ≠ .reaped) :
    ps.startOf x.number = some x.start := by
  cases hs : ps.startOf x.number with
  | none =>
      rw [startOf, Option.map_eq_none_iff, List.find?_eq_none] at hs
      exact absurd (has_iff.mpr ⟨rfl, hx⟩) (hs x (List.mem_of_getElem? hp))
  | some start =>
      obtain ⟨q, y, hy, hn, hl, rfl⟩ := getElem?_of_startOf hs
      obtain rfl := h q p y x hy hp hl hx hn
      rw [Option.some.inj (hy.symm.trans hp)]

/-- **A process whose time is read for its number has the number.** -/
theorem Distinct.holder_of_startOf (h : ps.Distinct) (hid : ps.Identified) (hp : ps[p]? = some x)
    (hs : ps.startOf x.number = some x.start) :
    ps.holder x.number = some p ∧ x.life ≠ .reaped := by
  obtain ⟨q, y, hq, hn, hl, hst⟩ := getElem?_of_startOf hs
  obtain rfl := hid q p y x hq hp hn hst
  obtain rfl := Option.some.inj (hq.symm.trans hp)
  exact ⟨h.holder_eq hp hl, hl⟩

/-- A process that is not reaped, as a check and as a fact. -/
theorem life_of_isReaped (hp : ps[p]? = some x) (hr : ps.isReaped p = false) :
    x.life ≠ .reaped := by
  simpa [isReaped, hp] using hr

/-- A process that is reaped, as a check and as a fact. -/
theorem isReaped_iff : ps.isReaped p = true ↔ ∃ x, ps[p]? = some x ∧ x.life = .reaped := by
  simp [isReaped, Option.any_eq_true]

/-! ### Later tables -/

/-- Processes keep their numbers, and what was reaped stays so. -/
def Later (ps ps' : NumberTable) : Prop :=
  ∀ (p : ℕ) (x : Numbered), ps[p]? = some x → ∃ x', ps'[p]? = some x' ∧ x.Later x'

/-- A table is later than itself. -/
theorem Later.refl (ps : NumberTable) : Later ps ps :=
  fun _ x hx => ⟨x, hx, .refl x⟩

/-- A table changes step by step. -/
theorem Later.trans (h : Later ps ps') (h' : Later ps' ps'') : Later ps ps'' := by
  intro p x hx
  obtain ⟨y, hy, hxy⟩ := h p x hx
  obtain ⟨z, hz, hyz⟩ := h' p y hy
  exact ⟨z, hz, hxy.trans hyz⟩

/-- What is reaped stays reaped. -/
theorem Later.isReaped (h : Later ps ps') (hp : ps.isReaped p = true) :
    ps'.isReaped p = true := by
  obtain ⟨x, hx, hl⟩ := isReaped_iff.mp hp
  obtain ⟨x', hx', -, -, hl'⟩ := h p x hx
  exact isReaped_iff.mpr ⟨x', hx', hl' hl⟩

/-- What identifies processes later identified them before. -/
theorem Later.identified (h : Later ps ps') (hid : ps'.Identified) : ps.Identified := by
  intro p q x y hx hy hn hs
  obtain ⟨x', hx', hxn, hxs, -⟩ := h p x hx
  obtain ⟨y', hy', hyn, hys, -⟩ := h q y hy
  exact hid p q x' y' hx' hy' (hxn.trans (hn.trans hyn.symm)) (hxs.trans (hs.trans hys.symm))

/-- **A process has its number as long as it is not reaped.** -/
theorem Later.holder (h : Later ps ps') (hd : ps'.Distinct) (hp : ps.holder n = some p)
    (hr : ps'.isReaped p = false) : ps'.holder n = some p := by
  obtain ⟨x, hx, rfl, -⟩ := getElem?_of_holder hp
  obtain ⟨x', hx', hn, -⟩ := h p x hx
  exact hn ▸ hd.holder_eq hx' (life_of_isReaped hx' hr)

/-- The same number with the same time belongs to the same process. -/
theorem Later.holder_unique (h : Later ps ps') (hid : ps'.Identified) (hp : ps.holder n = some p)
    (hq : ps'.holder n = some q) (hx : ps[p]? = some x) (hy : ps'[q]? = some y)
    (hs : x.start = y.start) : p = q := by
  obtain ⟨x₁, hx₁, hn, -⟩ := getElem?_of_holder hp
  obtain rfl := Option.some.inj (hx₁.symm.trans hx)
  obtain ⟨y₁, hy₁, hn', -⟩ := getElem?_of_holder hq
  obtain rfl := Option.some.inj (hy₁.symm.trans hy)
  obtain ⟨x', hx', hnx, hsx, -⟩ := h p x₁ hx
  exact hid p q x' y₁ hx' hy (hnx.trans (hn.trans hn'.symm)) (hsx.trans hs)

/-- The holder of a number is not reaped. -/
theorem isReaped_of_holder (hp : ps.holder n = some p) : ps.isReaped p = false := by
  obtain ⟨x, hx, -, hl⟩ := getElem?_of_holder hp
  simp [isReaped, hx, hl]

/-! ### What the operations do -/

/-- A creation adds a process with a number that nobody has. -/
theorem create_eq (h : ps.create n start = some ps') :
    ps' = ps ++ [⟨n, start, .running⟩] ∧ ∀ (p : ℕ) (x : Numbered), ps[p]? = some x →
      x.number = n → x.life = .reaped := by
  unfold create at h
  split at h
  · cases h
  · next hany =>
      refine ⟨(Option.some.inj h).symm, fun p x hp hn => ?_⟩
      rw [Bool.not_eq_true, List.any_eq_false] at hany
      have := hany x (List.mem_of_getElem? hp)
      simpa [has, hn] using this

/-- A reap changes one process. -/
theorem reap_eq (h : ps.reap p = some ps') : ps' = ps.modify p Numbered.reap := by
  rw [reap, Option.ite_none_right_eq_some] at h
  exact (Option.some.inj h.2).symm

/-- A process of the table, after one of them was changed. -/
theorem getElem?_modify (ps : NumberTable) (p q : ℕ) (f : Numbered → Numbered) :
    (ps.modify p f)[q]? = ps[q]?.map fun x => if p = q then f x else x := by
  rw [List.getElem?_modify]
  split <;> simp

/-- The process that was created. -/
theorem getElem?_create_length (h : ps.create n start = some ps') :
    ps'[ps.length]? = some ⟨n, start, .running⟩ := by
  obtain ⟨rfl, -⟩ := create_eq h
  simp

/-- A process after the creation of one. -/
theorem getElem?_of_create (h : ps.create n start = some ps') (hq : ps'[q]? = some y) :
    ps[q]? = some y ∨ q = ps.length ∧ y = ⟨n, start, .running⟩ := by
  obtain ⟨rfl, -⟩ := create_eq h
  rw [List.getElem?_append] at hq
  split at hq
  · exact .inl hq
  · next hlt =>
      rw [List.getElem?_singleton] at hq
      split at hq
      · exact .inr ⟨by omega, (Option.some.inj hq).symm⟩
      · cases hq

/-- A creation changes no process that was there. -/
theorem Later.create (h : ps.create n start = some ps') : Later ps ps' := by
  obtain ⟨rfl, -⟩ := create_eq h
  intro p x hx
  refine ⟨x, ?_, .refl x⟩
  rw [List.getElem?_append_left (List.getElem?_eq_some_iff.mp hx).1, hx]

/-- A change of one process that keeps its identity. -/
theorem Later.modify {f : Numbered → Numbered} (hf : ∀ x, Numbered.Later x (f x))
    (ps : NumberTable) (p : ℕ) : Later ps (ps.modify p f) := by
  intro q x hx
  refine ⟨_, by rw [getElem?_modify, hx]; rfl, ?_⟩
  split
  · exact hf x
  · exact .refl x

/-- The end of a process makes a later table. -/
theorem Later.finish (ps : NumberTable) (p : ℕ) : Later ps (ps.finish p) :=
  .modify Numbered.later_finish ps p

/-- The reap of a process makes a later table. -/
theorem Later.reap (h : ps.reap p = some ps') : Later ps ps' :=
  reap_eq h ▸ .modify Numbered.later_reap ps p

/-! ### Who is reaped -/

/-- Only the process that is reaped is. -/
theorem isReaped_reap (h : ps.reap p = some ps') (hne : p ≠ q) :
    ps'.isReaped q = ps.isReaped q := by
  rw [reap_eq h, isReaped, getElem?_modify, isReaped]
  cases ps[q]? <;> simp [hne]

/-- The end of a process reaps none. -/
theorem isReaped_finish (ps : NumberTable) (p q : ℕ) :
    (ps.finish p).isReaped q = ps.isReaped q := by
  rw [finish, isReaped, getElem?_modify, isReaped]
  cases ps[q]? with
  | none => rfl
  | some x =>
      obtain ⟨number, start, life⟩ := x
      cases life <;> by_cases h : p = q <;> simp [h, Numbered.finish]

/-- A creation reaps none. -/
theorem isReaped_create (h : ps.create n start = some ps') :
    ps'.isReaped q = ps.isReaped q := by
  obtain ⟨rfl, -⟩ := create_eq h
  rw [isReaped, isReaped, List.getElem?_append]
  split
  · rfl
  · next hlt =>
      rw [List.getElem?_eq_none (Nat.not_lt.mp hlt), List.getElem?_singleton]
      split <;> rfl

/-! ### What keeps processes different -/

/-- A process whose life was changed was in the table before. -/
theorem getElem?_of_modify {f : Numbered → Numbered} (hf : ∀ x, Numbered.Later x (f x))
    (h : (ps.modify p f)[q]? = some y) : ∃ x, ps[q]? = some x ∧ x.Later y := by
  rw [getElem?_modify] at h
  obtain ⟨x, hx, rfl⟩ := Option.map_eq_some_iff.mp h
  refine ⟨x, hx, ?_⟩
  split
  · exact hf x
  · exact .refl x

/-- A change of lives that brings none back. -/
theorem Distinct.modify (h : ps.Distinct) {f : Numbered → Numbered}
    (hf : ∀ x, Numbered.Later x (f x)) : Distinct (ps.modify p f) := by
  intro p q x' y' hx' hy' hxl hyl hn
  obtain ⟨x, hx, hxn, -, hx''⟩ := getElem?_of_modify hf hx'
  obtain ⟨y, hy, hyn, -, hy''⟩ := getElem?_of_modify hf hy'
  exact h p q x y hx hy (hxl ∘ hx'') (hyl ∘ hy'') (hxn.symm.trans (hn.trans hyn))

/-- A change of one process that keeps its identity shares none. -/
theorem Identified.modify (h : ps.Identified) {f : Numbered → Numbered}
    (hf : ∀ x, Numbered.Later x (f x)) : Identified (ps.modify p f) := by
  intro p q x' y' hx' hy' hn hs
  obtain ⟨x, hx, hxn, hxs, -⟩ := getElem?_of_modify hf hx'
  obtain ⟨y, hy, hyn, hys, -⟩ := getElem?_of_modify hf hy'
  exact h p q x y hx hy (hxn.symm.trans (hn.trans hyn)) (hxs.symm.trans (hs.trans hys))

/-- A process that ends keeps its number to itself. -/
theorem Distinct.finish (h : ps.Distinct) : (ps.finish p).Distinct :=
  h.modify Numbered.later_finish

/-- A process that ends shares no identity. -/
theorem Identified.finish (h : ps.Identified) : (ps.finish p).Identified :=
  h.modify Numbered.later_finish

/-- A reap gives a number back. -/
theorem Distinct.reap (h : ps.Distinct) (hr : ps.reap p = some ps') : ps'.Distinct :=
  reap_eq hr ▸ h.modify Numbered.later_reap

/-- A reap changes no number and no start time. -/
theorem Identified.reap (h : ps.Identified) (hr : ps.reap p = some ps') : ps'.Identified :=
  reap_eq hr ▸ h.modify Numbered.later_reap

/-- A number that is free is given to a process. -/
theorem Distinct.create (h : ps.Distinct) (hc : ps.create n start = some ps') : ps'.Distinct := by
  have hfree := (create_eq hc).2
  intro p q x y hx hy hxl hyl hn
  rcases getElem?_of_create hc hx with hx | ⟨rfl, rfl⟩
  · rcases getElem?_of_create hc hy with hy | ⟨rfl, rfl⟩
    · exact h p q x y hx hy hxl hyl hn
    · exact absurd (hfree p x hx hn) hxl
  · rcases getElem?_of_create hc hy with hy | ⟨rfl, rfl⟩
    · exact absurd (hfree q y hy hn.symm) hyl
    · rfl

/-- A number is given to a process at a time at which nobody who had it started. -/
theorem Identified.create (h : ps.Identified) (hf : ps.isFresh n start = true)
    (hc : ps.create n start = some ps') : ps'.Identified := by
  have hfresh : ∀ (p : ℕ) (x : Numbered), ps[p]? = some x → x.number = n → x.start ≠ start := by
    intro p x hp hn
    rw [isFresh, Bool.not_eq_true', List.any_eq_false] at hf
    simpa [hn] using hf x (List.mem_of_getElem? hp)
  intro p q x y hx hy hn hs
  rcases getElem?_of_create hc hx with hx | ⟨rfl, rfl⟩
  · rcases getElem?_of_create hc hy with hy | ⟨rfl, rfl⟩
    · exact h p q x y hx hy hn hs
    · exact absurd hs (hfresh p x hx hn)
  · rcases getElem?_of_create hc hy with hy | ⟨rfl, rfl⟩
    · exact absurd hs.symm (hfresh q y hy hn.symm)
    · rfl

end NumberTable

end Shepherd.Conc
