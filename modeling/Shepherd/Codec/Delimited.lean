import Mathlib.Data.Nat.Notation
import Mathlib.Tactic.Common

/-!
# Self-Delimiting Encodings

An encoding delimits itself when the end of an encoded value can be told from what follows, so
that encodings can be put one after another. It is enough that this holds of the values that
meet a condition, such as a bound on a length.

Encodings of one length are self-delimiting, and so are the usual formats built from a
self-delimiting encoding of numbers: texts after their length, lists after their count, tagged
values, and sequences of such parts.
-/

namespace Shepherd.Codec

variable {α β γ B : Type} {P : α → Prop} {Q : β → Prop} {enc : α → List B} {enc' : β → List B}
  {num : ℕ → List B} {N : ℕ → Prop}

/-- The encoding of a value that meets the condition ends where its value says. -/
def Delimited (P : α → Prop) (enc : α → List B) : Prop :=
  ∀ a b x y, P a → P b → enc a ++ x = enc b ++ y → a = b ∧ x = y

namespace Delimited

/-- A self-delimiting encoding is injective. -/
theorem injective (h : Delimited P enc) {a b : α} (ha : P a) (hb : P b) (heq : enc a = enc b) :
    a = b :=
  (h a b [] [] ha hb (by rw [heq])).1

/-- An encoding of a fixed length. -/
theorem of_length {n : ℕ} (hn : ∀ a, (enc a).length = n)
    (hi : ∀ a b, P a → P b → enc a = enc b → a = b) : Delimited P enc := by
  intro a b x y ha hb heq
  obtain ⟨hab, hxy⟩ := List.append_inj heq ((hn a).trans (hn b).symm)
  exact ⟨hi a b ha hb hab, hxy⟩

/-- One part after another. -/
theorem append (h : Delimited P enc) (h' : Delimited Q enc') :
    Delimited (fun p : α × β => P p.1 ∧ Q p.2) fun p => enc p.1 ++ enc' p.2 := by
  intro p q x y hp hq heq
  rw [List.append_assoc, List.append_assoc] at heq
  obtain ⟨h₁, heq⟩ := h _ _ _ _ hp.1 hq.1 heq
  obtain ⟨h₂, heq⟩ := h' _ _ _ _ hp.2 hq.2 heq
  exact ⟨Prod.ext h₁ h₂, heq⟩

/-- A list whose length is known. -/
theorem flatMap (h : Delimited P enc) {l l' : List α} {x y : List B}
    (hlen : l.length = l'.length) (hl : ∀ a ∈ l, P a) (hl' : ∀ a ∈ l', P a)
    (heq : l.flatMap enc ++ x = l'.flatMap enc ++ y) : l = l' ∧ x = y := by
  induction l generalizing l' with
  | nil =>
      obtain rfl := List.eq_nil_of_length_eq_zero hlen.symm
      exact ⟨rfl, heq⟩
  | cons a l ih =>
      cases l' with
      | nil => cases hlen
      | cons b l' =>
          rw [List.flatMap_cons, List.flatMap_cons, List.append_assoc, List.append_assoc] at heq
          obtain ⟨rfl, htail⟩ :=
            h _ _ _ _ (hl a List.mem_cons_self) (hl' b List.mem_cons_self) heq
          obtain ⟨rfl, hrest⟩ := ih (Nat.succ.inj hlen)
            (fun c hc => hl c (List.mem_cons_of_mem _ hc))
            (fun c hc => hl' c (List.mem_cons_of_mem _ hc)) htail
          exact ⟨rfl, hrest⟩

/-- A list after its length. -/
theorem counted (hnum : Delimited N num) (h : Delimited P enc) :
    Delimited (fun l : List α => N l.length ∧ ∀ a ∈ l, P a)
      fun l => num l.length ++ l.flatMap enc := by
  intro l l' x y hl hl' heq
  rw [List.append_assoc, List.append_assoc] at heq
  obtain ⟨hlen, heq⟩ := hnum _ _ _ _ hl.1 hl'.1 heq
  exact h.flatMap hlen hl.2 hl'.2 heq

/-- A text after its length. -/
theorem text (hnum : Delimited N num) :
    Delimited (fun l : List B => N l.length) fun l => num l.length ++ l := by
  intro l l' x y hl hl' heq
  rw [List.append_assoc, List.append_assoc] at heq
  obtain ⟨hlen, heq⟩ := hnum _ _ _ _ hl hl' heq
  exact List.append_inj heq hlen

/-- A value after its tag, where values of one tag delimit themselves. -/
theorem tagged (hnum : Delimited N num) {tag : α → ℕ} (htag : ∀ a, N (tag a))
    (h : ∀ a b x y, P a → P b → tag a = tag b → enc a ++ x = enc b ++ y → a = b ∧ x = y) :
    Delimited P fun a => num (tag a) ++ enc a := by
  intro a b x y ha hb heq
  rw [List.append_assoc, List.append_assoc] at heq
  obtain ⟨htags, heq⟩ := hnum _ _ _ _ (htag a) (htag b) heq
  exact h a b x y ha hb htags heq

/-- An optional value: a tag, and the value if there is one. -/
theorem option (hnum : Delimited N num) (h₀ : N 0) (h₁ : N 1) (h : Delimited P enc) :
    Delimited (fun o : Option α => ∀ a ∈ o, P a) fun o =>
      match o with
      | some a => num 1 ++ enc a
      | none => num 0 := by
  intro o o' x y ho ho' heq
  cases o with
  | none =>
      cases o' with
      | none => exact ⟨rfl, List.append_cancel_left heq⟩
      | some b =>
          simp only [List.append_assoc] at heq
          exact absurd (hnum _ _ _ _ h₀ h₁ heq).1 (by decide)
  | some a =>
      cases o' with
      | none =>
          simp only [List.append_assoc] at heq
          exact absurd (hnum _ _ _ _ h₁ h₀ heq).1 (by decide)
      | some b =>
          simp only [List.append_assoc] at heq
          obtain ⟨-, hbody⟩ := hnum _ _ _ _ h₁ h₁ heq
          obtain ⟨rfl, hrest⟩ := h _ _ _ _ (ho a rfl) (ho' b rfl) hbody
          exact ⟨rfl, hrest⟩

end Delimited

end Shepherd.Codec
