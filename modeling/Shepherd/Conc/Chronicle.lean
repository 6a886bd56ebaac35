import Mathlib.Data.List.Basic
import Shepherd.Conc.Prog

/-!
# Chronicles

A history lists events with the tasks that caused them, newest first. A **chronicle** is a
history in which every event is justified by the events before it. To extend a chronicle,
one event has to be justified; everything an event was justified by is then known of every
later history.

* `Happened` — the event occurs in the history, whoever caused it.
* `Chronicle.justified`, `Chronicle.of_happened` — the justification of an event, at the
  point of the history where it occurred.
* `Chronicle.of_happened₂` — of two events one came later, and was justified by a history
  with the other.
-/

namespace Shepherd.Conc

variable {E : Type} {t t' : Tid} {ev ev' : E} {h h' : List (Tid × E)}

/-- The event occurs in the history. -/
def Happened (h : List (Tid × E)) (ev : E) : Prop :=
  ∃ t, (t, ev) ∈ h

/-- Nothing has happened in an empty history. -/
@[simp] theorem not_happened_nil (ev : E) : ¬ Happened [] ev := by
  simp [Happened]

/-- What has happened is the newest event, or had happened before. -/
@[simp] theorem happened_cons :
    Happened ((t, ev') :: h) ev ↔ ev = ev' ∨ Happened h ev := by
  constructor
  · rintro ⟨t', ht⟩
    rcases List.mem_cons.mp ht with heq | ht
    · exact .inl (Prod.mk.inj heq).2
    · exact .inr ⟨t', ht⟩
  · rintro (rfl | ⟨t', ht⟩)
    · exact ⟨t, List.mem_cons_self⟩
    · exact ⟨t', List.mem_cons_of_mem _ ht⟩

/-- An event of some task has happened. -/
theorem Happened.of_mem (hm : (t, ev) ∈ h) : Happened h ev :=
  ⟨t, hm⟩

/-- What has happened has happened ever after. -/
theorem Happened.mono (hs : h <:+ h') (hp : Happened h ev) : Happened h' ev := by
  obtain ⟨t, ht⟩ := hp
  exact ⟨t, hs.mem ht⟩

/-- Every event is justified by the events before it. -/
def Chronicle (J : Tid → E → List (Tid × E) → Prop) : List (Tid × E) → Prop
  | [] => True
  | (t, ev) :: h => J t ev h ∧ Chronicle J h

namespace Chronicle

variable {J : Tid → E → List (Tid × E) → Prop}

/-- The past of a chronicle is a chronicle. -/
theorem of_suffix (hc : Chronicle J h') (hs : h <:+ h') : Chronicle J h := by
  obtain ⟨l, rfl⟩ := hs
  induction l with
  | nil => exact hc
  | cons x l ih => exact ih hc.2

/-- The justification of an event, where it occurred. -/
theorem justified {l₁ l₂ : List (Tid × E)} (hc : Chronicle J (l₁ ++ (t, ev) :: l₂)) :
    J t ev l₂ :=
  (hc.of_suffix (List.suffix_append l₁ _)).1

/-- An event of a chronicle was justified by what was before it. -/
theorem of_mem (hc : Chronicle J h) (hm : (t, ev) ∈ h) :
    ∃ l₁ l₂, h = l₁ ++ (t, ev) :: l₂ ∧ J t ev l₂ := by
  obtain ⟨l₁, l₂, rfl⟩ := List.append_of_mem hm
  exact ⟨l₁, l₂, rfl, hc.justified⟩

/-- The justification of an event that happened: it holds of an earlier history. -/
theorem of_happened (hc : Chronicle J h) (hp : Happened h ev) :
    ∃ t l, l <:+ h ∧ J t ev l := by
  obtain ⟨t, ht⟩ := hp
  obtain ⟨l₁, l₂, rfl, hj⟩ := hc.of_mem ht
  exact ⟨t, l₂, ⟨l₁ ++ [(t, ev)], by simp⟩, hj⟩

/-- Of two different events, one was justified when the other had already happened. -/
theorem of_happened₂ {a b : E} (hc : Chronicle J h) (ha : Happened h a) (hb : Happened h b)
    (hne : a ≠ b) :
    (∃ t l, l <:+ h ∧ J t a l ∧ Happened l b) ∨ ∃ t l, l <:+ h ∧ J t b l ∧ Happened l a := by
  induction h with
  | nil => exact absurd ha (not_happened_nil a)
  | cons x h ih =>
      obtain ⟨t, ev⟩ := x
      have hs : h <:+ (t, ev) :: h := List.suffix_cons _ _
      rcases happened_cons.mp ha with rfl | ha'
      · exact .inl ⟨t, h, hs, hc.1, (happened_cons.mp hb).resolve_left (Ne.symm hne)⟩
      · rcases happened_cons.mp hb with rfl | hb'
        · exact .inr ⟨t, h, hs, hc.1, ha'⟩
        · rcases ih hc.2 ha' hb' with ⟨t', l, hl, hj, hp⟩ | ⟨t', l, hl, hj, hp⟩
          · exact .inl ⟨t', l, hl.trans hs, hj, hp⟩
          · exact .inr ⟨t', l, hl.trans hs, hj, hp⟩

end Chronicle

end Shepherd.Conc
