import Mathlib.Algebra.Order.Ring.Nat
import Shepherd.Domain.Restart

/-!
# Exact Backoff

The loop of `RestartPolicy::delay` multiplies with saturation and stops once it is past the
maximum. What it computes is the capped power `min max (initial * factor ^ (n - 1))` over the
unbounded integers (`delay_eq`): the loop saturates at the largest duration, which is past
every maximum, and a factor of at least 1 never leads back below it.

`Built` are the policies that the constructors and builders make; they are all `Bounded`.
-/

namespace Shepherd.RestartPolicy

/-- The policies that `default`, `new` and the builders make. -/
inductive Built : RestartPolicy → Prop
  | default : Built default
  | new {initial max : Duration} :
      initial ≤ DURATION_MAX → max ≤ DURATION_MAX → Built (.new initial max)
  | factor {p : RestartPolicy} (factor : ℕ) : Built p → Built (p.withFactor factor)
  | healthyAfter {p : RestartPolicy} (healthyAfter : Duration) :
      Built p → Built (p.withHealthyAfter healthyAfter)
  | maxFailures {p : RestartPolicy} (maxFailures : Option ℕ) :
      Built p → Built (p.withMaxFailures maxFailures)

/-- What the builders keep. -/
structure Bounded (p : RestartPolicy) : Prop where
  initial_le : p.initial ≤ p.max
  max_le : p.max ≤ DURATION_MAX
  factor_pos : 1 ≤ p.factor

/-- The delay over the unbounded integers. -/
def exactDelay (p : RestartPolicy) (n : ℕ) : ℕ :=
  if n = 0 then 0 else min p.max (p.initial * p.factor ^ (n - 1))

/-- What a policy promises about its delays. -/
structure ExactBackoff (p : RestartPolicy) : Prop where
  exact : ∀ n, p.delay n = p.exactDelay n
  mono : ∀ m n, m ≤ n → p.delay m ≤ p.delay n
  initial_le : ∀ n, 1 ≤ n → p.initial ≤ p.delay n
  le_max : ∀ n, p.delay n ≤ p.max

variable {p : RestartPolicy}

/-- What the builder accepts is bounded. -/
theorem Built.bounded (h : Built p) : p.Bounded := by
  induction h with
  | default => exact ⟨by decide, by decide, by decide⟩
  | new hi hm => exact ⟨Nat.le_max_right _ _, Nat.max_le.mpr ⟨hm, hi⟩, Nat.le_succ 1⟩
  | factor f _ ih => exact ⟨ih.initial_le, ih.max_le, Nat.le_max_right _ _⟩
  | healthyAfter _ _ ih => exact ⟨ih.initial_le, ih.max_le, ih.factor_pos⟩
  | maxFailures _ _ ih => exact ⟨ih.initial_le, ih.max_le, ih.factor_pos⟩

/-- **Capped, the loop computes the power**: it ends early and it saturates only beyond the maximum,
where both sides are cut off. -/
theorem Bounded.min_grow (h : p.Bounded) (k : ℕ) (d : Duration) :
    min (p.grow k d) p.max = min p.max (d * p.factor ^ k) := by
  induction k generalizing d with
  | zero => rw [grow, pow_zero, mul_one, min_comm]
  | succ k ih =>
      have hpow (k : ℕ) : 1 ≤ p.factor ^ k := Nat.one_le_pow _ _ h.factor_pos
      rw [grow]
      split
      · next hd =>
          have hle : p.max ≤ d * p.factor ^ (k + 1) := hd.trans (Nat.le_mul_of_pos_right d (hpow _))
          rw [min_eq_right hd, min_eq_left hle]
      · rw [ih, pow_succ', ← mul_assoc]
        rcases Nat.le_total (d * p.factor) DURATION_MAX with hle | hle
        · rw [saturatingMul, min_eq_left hle]
        · have hsat : p.max ≤ DURATION_MAX * p.factor ^ k :=
            h.max_le.trans (Nat.le_mul_of_pos_right _ (hpow k))
          rw [saturatingMul, min_eq_right hle, min_eq_left hsat,
            min_eq_left (hsat.trans (Nat.mul_le_mul_right _ hle))]

/-- **The delay that is computed with saturation is the exact one**, cut off at the maximum. -/
theorem Bounded.delay_eq (h : p.Bounded) (n : ℕ) : p.delay n = p.exactDelay n := by
  rw [delay, exactDelay]
  split
  · rfl
  · exact h.min_grow (n - 1) p.initial

/-- More failures never mean a shorter delay. -/
theorem Bounded.exactDelay_mono (h : p.Bounded) {m n : ℕ} (hmn : m ≤ n) :
    p.exactDelay m ≤ p.exactDelay n := by
  rw [exactDelay, exactDelay]
  split
  · exact Nat.zero_le _
  · rw [if_neg (by omega)]
    have hpow : p.factor ^ (m - 1) ≤ p.factor ^ (n - 1) :=
      Nat.pow_le_pow_right h.factor_pos (Nat.sub_le_sub_right hmn 1)
    exact min_le_min_left _ (Nat.mul_le_mul_left _ hpow)

/-- **Restart delays are exact capped exponential backoff.** -/
theorem backoff_is_exact (h : Built p) : p.ExactBackoff := by
  have hb := h.bounded
  constructor
  · exact hb.delay_eq
  · intro m n hmn
    rw [hb.delay_eq, hb.delay_eq]
    exact hb.exactDelay_mono hmn
  · intro n hn
    have hpow : 1 ≤ p.factor ^ (n - 1) := Nat.one_le_pow _ _ hb.factor_pos
    rw [hb.delay_eq, exactDelay, if_neg (by omega)]
    exact le_min hb.initial_le (Nat.le_mul_of_pos_right _ hpow)
  · intro n
    rw [hb.delay_eq, exactDelay]
    split
    · exact Nat.zero_le _
    · exact min_le_left _ _

/-- The policy whose delays saturate. -/
theorem huge_backoff_is_exact :
    ((new (DURATION_MAX / 2) DURATION_MAX).withFactor U32_MAX).ExactBackoff :=
  backoff_is_exact (.factor _ (.new (by decide) (by decide)))

end Shepherd.RestartPolicy
