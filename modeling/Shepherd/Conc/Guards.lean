import Mathlib.Data.Finset.Card
import Mathlib.Logic.Function.Basic

/-!
# Guards

A party that needs a resource for itself raises its flag, and a party that needs one of a number
of permits takes one from a semaphore; what it gets are guards, and a guard that is dropped
lowers the flag or gives the permit back. Guards can be moved, so it is not plain from a program
that they are dropped once.

A `Ledger` has the flags and the free permits, the guards of each party, and a log of what was
raised, taken, given back and lowered. Its moves are partial in the parties' favour: a party may
raise a flag that is down, take a permit that is free, and drop a guard that it has.

The invariant `Ledger.Inv` is kept by every move. It says that a flag is up while one party has
its guard, that the permits that are not free are held one by one, and that of everything a
party ever got, all but what it still has was given back once.
-/

namespace Shepherd.Conc

/-- What happened to a guard of a party. -/
inductive GuardEvent (φ : Type) where
  | raised (flag : φ)
  | acquired
  | permitReleased
  | lowered (flag : φ)
  deriving DecidableEq, Repr

/-- Flags, permits and who holds their guards. -/
structure Ledger (ι φ : Type) where
  free : ℕ
  flags : φ → Bool
  flag : ι → Option φ
  permit : ι → Bool
  /-- The newest first. -/
  log : List (ι × GuardEvent φ)

namespace Ledger

variable {ι φ : Type} [DecidableEq ι] [DecidableEq φ]

/-- All permits are free, and all flags down. -/
def new (cap : ℕ) : Ledger ι φ where
  free := cap
  flags := fun _ => false
  flag := fun _ => none
  permit := fun _ => false
  log := []

/-- A party raises a flag. -/
def raise (l : Ledger ι φ) (i : ι) (f : φ) : Ledger ι φ :=
  { l with
    flags := Function.update l.flags f true
    flag := Function.update l.flag i (some f)
    log := (i, .raised f) :: l.log }

/-- A party takes a permit. -/
def acquire (l : Ledger ι φ) (i : ι) : Ledger ι φ :=
  { l with
    free := l.free - 1
    permit := Function.update l.permit i true
    log := (i, .acquired) :: l.log }

/-- A party drops its permit. -/
def release (l : Ledger ι φ) (i : ι) : Ledger ι φ :=
  { l with
    free := l.free + 1
    permit := Function.update l.permit i false
    log := (i, .permitReleased) :: l.log }

/-- A party drops the guard of a flag. -/
def lower (l : Ledger ι φ) (i : ι) (f : φ) : Ledger ι φ :=
  { l with
    flags := Function.update l.flags f false
    flag := Function.update l.flag i none
    log := (i, .lowered f) :: l.log }

/-- The flags are accounted for: a flag is up while one party has its guard, and every party
that raised a flag has its guard or dropped it once. -/
structure Flagged (l : Ledger ι φ) : Prop where
  raised : ∀ f, l.flags f = true ↔ ∃ i, l.flag i = some f
  exclusive : ∀ i j f, l.flag i = some f → l.flag j = some f → i = j
  flagOnce : ∀ i f, l.log.count (i, .raised f) ≤ 1
  flagBalance : ∀ i f, l.log.count (i, .lowered f) + (if l.flag i = some f then 1 else 0) =
    l.log.count (i, .raised f)

/-- The permits are accounted for: those that are not free are held one by one, and every party
that took a permit has it or gave it back once. -/
structure Permitted (cap : ℕ) (l : Ledger ι φ) : Prop where
  counted : ∃ holders : Finset ι, (∀ i, i ∈ holders ↔ l.permit i = true) ∧
    holders.card + l.free = cap
  permitOnce : ∀ i, l.log.count (i, .acquired) ≤ 1
  permitBalance : ∀ i, l.log.count (i, .permitReleased) + (if l.permit i then 1 else 0) =
    l.log.count (i, .acquired)

/-- The guards are accounted for. -/
structure Inv (cap : ℕ) (l : Ledger ι φ) : Prop extends Flagged l, Permitted cap l

variable {cap : ℕ} {l : Ledger ι φ} {i : ι} {f : φ}

/-- A new ledger has all its permits, and no flag is raised. -/
theorem inv_new (cap : ℕ) : Inv cap (new cap : Ledger ι φ) where
  raised f := ⟨nofun, fun ⟨_, h⟩ => nomatch h⟩
  exclusive := nofun
  counted := ⟨∅, fun i => by simp [new], by simp [new]⟩
  flagOnce _ _ := Nat.zero_le _
  flagBalance _ _ := rfl
  permitOnce _ := Nat.zero_le _
  permitBalance _ := rfl

/-! ### Flags -/

/-- Flags do not change with what happens to a permit. -/
theorem Flagged.frame (h : l.Flagged) {e : GuardEvent φ} (free : ℕ) (permit : ι → Bool)
    (hr : ∀ f, e ≠ .raised f) (hl : ∀ f, e ≠ .lowered f) :
    Flagged { l with free, permit, log := (i, e) :: l.log } where
  raised := h.raised
  exclusive := h.exclusive
  flagOnce j f := by
    rw [List.count_cons_of_ne fun heq => hr f (Prod.mk.inj heq).2]
    exact h.flagOnce j f
  flagBalance j f := by
    rw [List.count_cons_of_ne fun heq => hr f (Prod.mk.inj heq).2,
      List.count_cons_of_ne fun heq => hl f (Prod.mk.inj heq).2]
    exact h.flagBalance j f

/-- A party that raised no flag has no guard of one. -/
theorem Flagged.flag_none (h : l.Flagged) (hfresh : ∀ g, (i, .raised g) ∉ l.log) :
    l.flag i = none := by
  rw [Option.eq_none_iff_forall_ne_some]
  intro g hg
  have hb := h.flagBalance i g
  rw [if_pos hg, List.count_eq_zero.mpr (hfresh g)] at hb
  cases hb

/-- A flag that is down, and was never raised by this holder, may be raised. -/
theorem Flagged.raise (h : l.Flagged) (hf : l.flags f = false)
    (hfresh : ∀ g, (i, .raised g) ∉ l.log) : (l.raise i f).Flagged := by
  have hi := h.flag_none hfresh
  have hdown : ∀ j, l.flag j ≠ some f := by
    intro j hj
    rw [(h.raised f).mpr ⟨j, hj⟩] at hf
    cases hf
  refine
    { raised := fun g => ?_
      exclusive := fun j k g hj hk => ?_
      flagOnce := fun j g => ?_
      flagBalance := fun j g => ?_ }
  · change Function.update l.flags f true g = true ↔
      ∃ j, Function.update l.flag i (some f) j = some g
    by_cases hg : g = f
    · subst hg
      simp only [Function.update_self, true_iff]
      exact ⟨i, Function.update_self ..⟩
    · rw [Function.update_of_ne hg, h.raised]
      refine exists_congr fun j => ?_
      by_cases hj : j = i
      · subst hj
        simp [hi, Ne.symm hg]
      · rw [Function.update_of_ne hj]
  · simp only [Ledger.raise, Function.update_apply] at hj hk
    grind [h.exclusive j k g]
  · have ho := h.flagOnce j g
    have hzero := List.count_eq_zero.mpr (hfresh g)
    simp only [Ledger.raise, List.count_cons]
    grind
  · have hb := h.flagBalance j g
    simp only [Ledger.raise, List.count_cons, Function.update_apply]
    grind

/-- The holder of a flag may lower it. -/
theorem Flagged.lower (h : l.Flagged) (hi : l.flag i = some f) : (l.lower i f).Flagged := by
  refine
    { raised := fun g => ?_
      exclusive := fun j k g hj hk => ?_
      flagOnce := fun j g => ?_
      flagBalance := fun j g => ?_ }
  · change Function.update l.flags f false g = true ↔
      ∃ j, Function.update l.flag i none j = some g
    by_cases hg : g = f
    · subst hg
      simp only [Function.update_self, Bool.false_eq_true, false_iff, not_exists]
      intro j hj
      by_cases hji : j = i
      · subst hji
        simp at hj
      · rw [Function.update_of_ne hji] at hj
        exact hji (h.exclusive j i g hj hi)
    · rw [Function.update_of_ne hg, h.raised]
      refine exists_congr fun j => ?_
      by_cases hj : j = i
      · subst hj
        simp [hi, Ne.symm hg]
      · rw [Function.update_of_ne hj]
  · simp only [Ledger.lower, Function.update_apply] at hj hk
    grind [h.exclusive j k g]
  · have ho := h.flagOnce j g
    simp only [Ledger.lower, List.count_cons]
    grind
  · have hb := h.flagBalance j g
    simp only [Ledger.lower, List.count_cons, Function.update_apply]
    grind

/-! ### Permits -/

/-- Permits do not change with what happens to a flag. -/
theorem Permitted.frame (h : l.Permitted cap) {e : GuardEvent φ} (flags : φ → Bool)
    (flag : ι → Option φ) (ha : e ≠ .acquired) (hr : e ≠ .permitReleased) :
    Permitted cap { l with flags, flag, log := (i, e) :: l.log } where
  counted := h.counted
  permitOnce j := by
    rw [List.count_cons_of_ne fun heq => ha (Prod.mk.inj heq).2]
    exact h.permitOnce j
  permitBalance j := by
    rw [List.count_cons_of_ne fun heq => ha (Prod.mk.inj heq).2,
      List.count_cons_of_ne fun heq => hr (Prod.mk.inj heq).2]
    exact h.permitBalance j

/-- A party that took no permit has none. -/
theorem Permitted.permit_false (h : l.Permitted cap) (hfresh : (i, .acquired) ∉ l.log) :
    l.permit i = false := by
  rw [← Bool.not_eq_true]
  intro hp
  have hb := h.permitBalance i
  rw [if_pos hp, List.count_eq_zero.mpr hfresh] at hb
  cases hb

/-- A free permit may be acquired by somebody who never had one. -/
theorem Permitted.acquire (h : l.Permitted cap) (hfree : 0 < l.free)
    (hfresh : (i, .acquired) ∉ l.log) : (l.acquire i).Permitted cap := by
  have hi := h.permit_false hfresh
  refine
    { counted := ?_
      permitOnce := fun j => ?_
      permitBalance := fun j => ?_ }
  · obtain ⟨holders, hm, hcard⟩ := h.counted
    have hnew : i ∉ holders := by
      rw [hm, hi]
      nofun
    refine ⟨insert i holders, fun j => ?_, ?_⟩
    · simp only [Ledger.acquire, Finset.mem_insert, Function.update_apply, hm]
      split
      · next heq => simp [heq]
      · next hne => simp [hne]
    · simp only [Ledger.acquire, Finset.card_insert_of_notMem hnew]
      omega
  · have ho := h.permitOnce j
    have hzero := List.count_eq_zero.mpr hfresh
    simp only [Ledger.acquire, List.count_cons]
    grind
  · have hb := h.permitBalance j
    simp only [Ledger.acquire, List.count_cons, Function.update_apply]
    grind

/-- The holder of a permit may release it. -/
theorem Permitted.release (h : l.Permitted cap) (hi : l.permit i = true) :
    (l.release i).Permitted cap := by
  refine
    { counted := ?_
      permitOnce := fun j => ?_
      permitBalance := fun j => ?_ }
  · obtain ⟨holders, hm, hcard⟩ := h.counted
    have hold : i ∈ holders := (hm i).mpr hi
    have hpos := Finset.card_pos.mpr ⟨i, hold⟩
    refine ⟨holders.erase i, fun j => ?_, ?_⟩
    · simp only [Ledger.release, Finset.mem_erase, Function.update_apply, hm]
      split
      · next heq => simp [heq]
      · next hne => simp [hne]
    · simp only [Ledger.release, Finset.card_erase_of_mem hold]
      omega
  · have ho := h.permitOnce j
    simp only [Ledger.release, List.count_cons]
    grind
  · have hb := h.permitBalance j
    simp only [Ledger.release, List.count_cons, Function.update_apply]
    grind

/-! ### Moves -/

/-- **Raising a flag** that is down, for the first time. -/
theorem Inv.raise (h : l.Inv cap) (hf : l.flags f = false)
    (hfresh : ∀ g, (i, .raised g) ∉ l.log) : (l.raise i f).Inv cap :=
  ⟨h.toFlagged.raise hf hfresh, h.toPermitted.frame _ _ nofun nofun⟩

/-- **Taking a permit** that is free, for the first time. -/
theorem Inv.acquire (h : l.Inv cap) (hfree : 0 < l.free) (hfresh : (i, .acquired) ∉ l.log) :
    (l.acquire i).Inv cap :=
  ⟨h.toFlagged.frame _ _ nofun nofun, h.toPermitted.acquire hfree hfresh⟩

/-- **Dropping a permit.** -/
theorem Inv.release (h : l.Inv cap) (hi : l.permit i = true) : (l.release i).Inv cap :=
  ⟨h.toFlagged.frame _ _ nofun nofun, h.toPermitted.release hi⟩

/-- **Dropping the guard of a flag.** -/
theorem Inv.lower (h : l.Inv cap) (hi : l.flag i = some f) : (l.lower i f).Inv cap :=
  ⟨h.toFlagged.lower hi, h.toPermitted.frame _ _ nofun nofun⟩

/-! ### What is accounted for -/

/-- At most as many parties have a permit as there are permits. -/
theorem Inv.length_le (h : l.Inv cap) {is : List ι} (hn : is.Nodup)
    (hp : ∀ i ∈ is, l.permit i = true) : is.length ≤ cap := by
  obtain ⟨holders, hm, hcard⟩ := h.counted
  have hsub : is.toFinset ⊆ holders :=
    fun i hi => (hm i).mpr (hp i (List.mem_toFinset.mp hi))
  have hle := Finset.card_le_card hsub
  rw [List.toFinset_card_of_nodup hn] at hle
  omega

/-- All permits are free when nobody has one. -/
theorem Inv.free_eq (h : l.Inv cap) (hp : ∀ i, l.permit i = false) : l.free = cap := by
  obtain ⟨holders, hm, hcard⟩ := h.counted
  have hempty : holders = ∅ := by
    refine Finset.eq_empty_of_forall_notMem fun i hi => ?_
    rw [hm, hp] at hi
    cases hi
  rwa [hempty, Finset.card_empty, Nat.zero_add] at hcard

/-- All flags are down when nobody has a guard. -/
theorem Inv.flags_eq (h : l.Inv cap) (hf : ∀ i, l.flag i = none) (f : φ) : l.flags f = false := by
  rw [← Bool.not_eq_true, h.raised]
  rintro ⟨i, hi⟩
  cases (hf i).symm.trans hi

/-- The guard of a flag that a party still has was not dropped. -/
theorem Inv.not_lowered (h : l.Inv cap) (hi : l.flag i = some f) : (i, .lowered f) ∉ l.log := by
  have hb := h.flagBalance i f
  have ho := h.flagOnce i f
  rw [if_pos hi] at hb
  exact List.count_eq_zero.mp (by omega)

/-- A permit that a party still has was not given back. -/
theorem Inv.not_released (h : l.Inv cap) (hi : l.permit i = true) :
    (i, .permitReleased) ∉ l.log := by
  have hb := h.permitBalance i
  have ho := h.permitOnce i
  rw [if_pos hi] at hb
  exact List.count_eq_zero.mp (by omega)

end Ledger

end Shepherd.Conc
