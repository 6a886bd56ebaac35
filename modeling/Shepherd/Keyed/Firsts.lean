import Mathlib.Algebra.Order.Ring.Nat
import Mathlib.Data.List.Nodup
import Mathlib.Data.Nat.Notation

/-!
# First and Last Entries, and Checked Sums

What loops over a sequence of keyed entries compute when entries may repeat.

* `firsts` — the entries whose key was not seen before; `mem_firsts` says which these are, and
  `firsts_perm` that only the order of entries with the same key matters.
* `lastValue` — what a map that is filled in order has at a key.
* `checkedSum` — a sum that fails beyond a bound; it never fails on the way alone.
-/

namespace Shepherd.Keyed

variable {α κ β : Type*}

/-- Entries that are picked out keep their keys, in order. -/
theorem map_filterMap_sublist {f : α → Option β} {key : α → κ} {key' : β → κ}
    (hf : ∀ a b, f a = some b → key' b = key a) (l : List α) :
    ((l.filterMap f).map key').Sublist (l.map key) := by
  induction l with
  | nil => exact List.nil_sublist []
  | cons a l ih =>
      cases ha : f a with
      | none =>
          rw [List.filterMap_cons_none ha]
          exact ih.cons _
      | some b =>
          rw [List.filterMap_cons_some ha, List.map_cons, List.map_cons, hf a b ha]
          exact ih.cons_cons _

variable [DecidableEq κ]

/-! ### First entries -/

/-- The entries with a key that is not among `seen` and not that of an earlier entry. -/
def firsts (key : α → κ) : List κ → List α → List α
  | _, [] => []
  | seen, a :: l =>
      if key a ∈ seen then firsts key seen l else a :: firsts key (key a :: seen) l

variable {key : α → κ} {seen : List κ} {l l' : List α} {a : α}

/-- The first entries are the ones that a search for their key finds. -/
theorem mem_firsts : a ∈ firsts key seen l ↔
    key a ∉ seen ∧ l.find? (key · = key a) = some a := by
  induction l generalizing seen with
  | nil => simp [firsts]
  | cons b l ih =>
      rw [firsts]
      by_cases hkey : key b = key a
      · rw [List.find?_cons_of_pos (by simpa using hkey), Option.some.injEq]
        split
        · next hb =>
            rw [hkey] at hb
            rw [ih]
            exact ⟨fun h => (h.1 hb).elim, fun h => (h.1 hb).elim⟩
        · next hb =>
            rw [hkey] at hb
            rw [List.mem_cons, ih, hkey]
            constructor
            · rintro (rfl | ⟨hn, -⟩)
              · exact ⟨hb, rfl⟩
              · exact (hn List.mem_cons_self).elim
            · exact fun h => .inl h.2.symm
      · rw [List.find?_cons_of_neg (by simpa using hkey)]
        split
        · exact ih
        · rw [List.mem_cons, ih, List.mem_cons, not_or]
          constructor
          · rintro (rfl | ⟨⟨-, hn⟩, hf⟩)
            · exact (hkey rfl).elim
            · exact ⟨hn, hf⟩
          · exact fun h => .inr ⟨⟨fun heq => hkey heq.symm, h.1⟩, h.2⟩

/-- Each key has one first entry. -/
theorem nodup_map_firsts : ((firsts key seen l).map key).Nodup := by
  induction l generalizing seen with
  | nil => exact List.nodup_nil
  | cons a l ih =>
      rw [firsts]
      split
      · exact ih
      · rw [List.map_cons, List.nodup_cons]
        refine ⟨fun hm => ?_, ih⟩
        obtain ⟨b, hb, heq⟩ := List.mem_map.mp hm
        exact (mem_firsts.mp hb).1 (heq ▸ List.mem_cons_self)

/-- What occurs first under its key occurs once. -/
theorem nodup_firsts : (firsts key seen l).Nodup :=
  List.Nodup.of_map key nodup_map_firsts

/-- Two sequences that only differ in the order of entries with different keys. -/
def Reordered (key : α → κ) (l l' : List α) : Prop :=
  ∀ k, l.filter (key · = k) = l'.filter (key · = k)

/-- Without repeated keys every order will do. -/
theorem Reordered.of_perm (h : l.Perm l') (hn : (l.map key).Nodup) : Reordered key l l' := by
  intro k
  have hperm := h.filter (key · = k)
  have hsmall : (l.filter (key · = k)).length ≤ 1 := by
    by_contra hlong
    have hmap : ((l.filter (key · = k)).map key).Nodup :=
      hn.sublist (List.filter_sublist.map key)
    have heq : (l.filter (key · = k)).map key = List.replicate _ k :=
      List.eq_replicate_of_mem fun x hx => by
        obtain ⟨a, ha, rfl⟩ := List.mem_map.mp hx
        simpa using (List.mem_filter.mp ha).2
    rw [heq, List.nodup_replicate, List.length_map] at hmap
    exact hlong hmap
  match hl : l.filter (key · = k), hsmall, hperm with
  | [], _, hp => exact hp.nil_eq
  | [a], _, hp => exact (List.perm_singleton.mp hp.symm).symm

/-- The first entries do not depend on the order of entries with different keys. -/
theorem firsts_perm (h : Reordered key l l') :
    (firsts key seen l).Perm (firsts key seen l') := by
  rw [List.perm_ext_iff_of_nodup nodup_firsts nodup_firsts]
  intro a
  rw [mem_firsts, mem_firsts, ← List.head?_filter, ← List.head?_filter, h]

/-! ### Last entries -/

/-- The value of the last pair with a key. -/
def lastValue (pairs : List (κ × β)) (k : κ) : Option β :=
  (pairs.reverse.find? (·.1 = k)).map Prod.snd

/-- The last pair has the key, and none after it. -/
theorem lastValue_eq_some {pairs : List (κ × β)} {k : κ} {v : β} :
    lastValue pairs k = some v ↔
      ∃ before after, pairs = before ++ (k, v) :: after ∧ ∀ p ∈ after, p.1 ≠ k := by
  simp only [lastValue, Option.map_eq_some_iff, List.find?_eq_some_iff_append, decide_eq_true_eq,
    Bool.not_eq_true', decide_eq_false_iff_not]
  constructor
  · rintro ⟨⟨k, v⟩, ⟨rfl, after, before, hrev, hafter⟩, rfl⟩
    refine ⟨before.reverse, after.reverse, ?_, fun p hp => hafter p (List.mem_reverse.mp hp)⟩
    rw [← List.reverse_reverse pairs, hrev]
    simp
  · rintro ⟨before, after, rfl, hafter⟩
    refine ⟨(k, v), ⟨rfl, after.reverse, before.reverse, by simp, fun p hp => ?_⟩, rfl⟩
    exact hafter p (List.mem_reverse.mp hp)

/-! ### Checked sums -/

/-- Adds the values, as long as the sum is within the bound. -/
def checkedSum (bound : ℕ) (values : List ℕ) : Option ℕ :=
  values.foldlM (fun a b => if a + b ≤ bound then some (a + b) else none) 0

/-- A sum with a check at each step is the sum, if it is within the bound. -/
theorem foldlM_checkedAdd (bound : ℕ) (values : List ℕ) {acc : ℕ} (hacc : acc ≤ bound) :
    values.foldlM (fun a b => if a + b ≤ bound then some (a + b) else none) acc =
      if acc + values.sum ≤ bound then some (acc + values.sum) else none := by
  induction values generalizing acc with
  | nil => simp [hacc]
  | cons b values ih =>
      rw [List.foldlM_cons, List.sum_cons, ← Nat.add_assoc]
      by_cases hb : acc + b ≤ bound
      · rw [if_pos hb]
        exact ih hb
      · rw [if_neg hb, if_neg (by omega)]
        rfl

/-- **A checked sum is exact**: it fails only if the whole sum is beyond the bound. -/
theorem checkedSum_eq (bound : ℕ) (values : List ℕ) :
    checkedSum bound values = if values.sum ≤ bound then some values.sum else none := by
  rw [checkedSum, foldlM_checkedAdd bound values (Nat.zero_le bound), Nat.zero_add]

/-- Values that are read one by one, and added as they are read. -/
theorem foldlM_bind_eq (value : α → Option β) {γ : Type*} (add : γ → β → Option γ) (l : List α)
    (acc : γ) : l.foldlM (fun acc a => (value a).bind (add acc)) acc =
      (l.mapM value).bind fun values => values.foldlM add acc := by
  induction l generalizing acc with
  | nil => rfl
  | cons a l ih =>
      rw [List.foldlM_cons, List.mapM_cons]
      cases value a with
      | none => rfl
      | some b =>
          have hrest : ((l.mapM value).bind fun bs => some (b :: bs)).bind
              (fun values => values.foldlM add acc) =
              (l.mapM value).bind fun bs => (add acc b).bind fun acc' => bs.foldlM add acc' := by
            rw [Option.bind_assoc]
            rfl
          refine Eq.trans ?_ hrest.symm
          cases hb : add acc b with
          | none => cases l.mapM value <;> simp [hb]
          | some acc' => simpa [hb] using ih acc'

end Shepherd.Keyed
