import Mathlib.Data.List.Nodup
import Mathlib.Data.Nat.Notation
import Mathlib.Tactic.Common

/-!
# Bounded Retention

A bounded history keeps the last `bound` entries: an entry is pushed at the back, and
entries are popped from the front while the queue is longer than the bound, each one
together with what a map holds under it. `evict` is that loop on the queue, returning the
queue and the entries it popped, `eraseAll` its effect on the map, and `retain` a push
followed by the loop.

The invariant `Retained` relates the queue to the log of all entries ever published,
newest first: the queue has no duplicates and respects the bound, every entry behind `p`
in the queue was published after a publication of `p`, and an entry that was published
but is no longer in the queue has been **displaced** — `bound` distinct other entries were
published after a publication of it.

When entries are withdrawn from the queue, only its order is left (`Queued`): it is kept by a
push and by a withdrawal, and says what an eviction is (`Queued.evicted`).

When only pushes change the queue, it is a **window** of the log of the pushes: its newest
`bound` entries, oldest first (`window_retain`), and what a push evicts is the entry before them
(`evicted_window`).
-/

open Std

namespace Shepherd.Conc

variable {α : Type}

/-- Pops from the front while the queue is longer than the bound; the rest of the queue
and the popped entries. -/
def evict (bound : ℕ) (queue : List α) : List α × List α :=
  (queue.drop (queue.length - bound), queue.take (queue.length - bound))

/-- Pushes `x` and evicts from the front what is beyond the bound. -/
def retain (bound : ℕ) (queue : List α) (x : α) : List α × List α :=
  evict bound (queue ++ [x])

/-- Removes every key of a list from a map. -/
def eraseAll {β : Type} (m : ExtTreeMap ℕ β) (keys : List ℕ) : ExtTreeMap ℕ β :=
  keys.foldl (fun m k => m.erase k) m

/-- A map after the erasure of some keys. -/
theorem getElem?_eraseAll {β : Type} (m : ExtTreeMap ℕ β) (keys : List ℕ) (k : ℕ) :
    (eraseAll m keys)[k]? = if k ∈ keys then none else m[k]? := by
  induction keys generalizing m with
  | nil => simp [eraseAll]
  | cons x keys ih =>
      have hx : (eraseAll m (x :: keys))[k]? = (eraseAll (m.erase x) keys)[k]? := rfl
      rw [hx, ih, ExtTreeMap.getElem?_erase]
      by_cases hk : k ∈ keys
      · simp [hk]
      · by_cases hkx : k = x
        · simp [hkx]
        · have hc : compare x k ≠ .eq := fun h => hkx (Std.compare_eq_iff_eq.mp h).symm
          simp [hk, hkx, hc]

/-- A queue within the bound is left alone. -/
theorem evict_of_le {bound : ℕ} {queue : List α} (h : queue.length ≤ bound) :
    evict bound queue = (queue, []) := by
  simp [evict, Nat.sub_eq_zero_of_le h]

/-- A retention drops from the front what is beyond the bound, and returns it. -/
theorem retain_eq (bound : ℕ) (queue : List α) (x : α) :
    retain bound queue x = ((queue ++ [x]).drop (queue.length + 1 - bound),
      (queue ++ [x]).take (queue.length + 1 - bound)) := by
  simp [retain, evict]

/-- `bound` distinct others were published after a publication of `p`. -/
def Displaced (bound : ℕ) (p : α) (log : List α) : Prop :=
  ∃ l₁ l₂, log = l₁ ++ p :: l₂ ∧
    ∃ others : List α, others.Nodup ∧ others.length = bound ∧ p ∉ others ∧ others ⊆ l₁

/-- What is displaced stays so when more is published. -/
theorem Displaced.cons {bound : ℕ} {p : α} {log : List α} (h : Displaced bound p log)
    (x : α) : Displaced bound p (x :: log) := by
  obtain ⟨l₁, l₂, rfl, others, hn, hl, hp, hs⟩ := h
  exact ⟨x :: l₁, l₂, rfl, others, hn, hl, hp, fun q hq => List.mem_cons_of_mem x (hs hq)⟩

/-- The queue is in the order of the log: every entry behind `p` was published after a
publication of `p`. Entries may have been withdrawn from it. -/
structure Queued (bound : ℕ) (queue log : List α) : Prop where
  nodup : queue.Nodup
  length_le : queue.length ≤ bound
  behind : ∀ front p back, queue = front ++ p :: back →
    ∃ l₁ l₂, log = l₁ ++ p :: l₂ ∧ back ⊆ l₁

namespace Queued

variable {bound : ℕ} {queue queue' log : List α} {x y : α}

/-- An empty queue, of an empty log. -/
theorem nil (bound : ℕ) : Queued bound ([] : List α) [] :=
  ⟨List.nodup_nil, Nat.zero_le _, fun _ _ _ h => absurd h (by simp)⟩

/-- What is queued was published. -/
theorem mem_log (h : Queued bound queue log) {p : α} (hp : p ∈ queue) : p ∈ log := by
  obtain ⟨front, back, rfl⟩ := List.append_of_mem hp
  obtain ⟨l₁, l₂, rfl, -⟩ := h.behind front p back rfl
  simp

/-- Publishing anything keeps the order of the queue. -/
theorem again (h : Queued bound queue log) (x : α) : Queued bound queue (x :: log) where
  nodup := h.nodup
  length_le := h.length_le
  behind front p back hq := by
    obtain ⟨l₁, l₂, rfl, hb⟩ := h.behind front p back hq
    exact ⟨x :: l₁, l₂, rfl, fun q hq => List.mem_cons_of_mem x (hb hq)⟩

/-- **Withdrawing entries** keeps the order of the others. -/
theorem sublist (h : Queued bound queue log) (hs : queue'.Sublist queue) :
    Queued bound queue' log where
  nodup := h.nodup.sublist hs
  length_le := Nat.le_trans hs.length_le h.length_le
  behind front p back hq := by
    subst hq
    obtain ⟨r₁, r₂, rfl, -, htail⟩ := List.append_sublist_iff.mp hs
    obtain ⟨r₃, r₄, rfl, hp, hback⟩ := List.cons_sublist_iff.mp htail
    obtain ⟨r₅, r₆, rfl⟩ := List.append_of_mem hp
    obtain ⟨l₁, l₂, hl, hb⟩ := h.behind (r₁ ++ r₅) p (r₆ ++ r₄) (by simp)
    exact ⟨l₁, l₂, hl, fun q hq => hb (List.mem_append_right _ (hback.subset hq))⟩

/-- The queue with a new entry behind, before the bound is enforced. -/
theorem behind_push (h : Queued bound queue log) (x : α) (front : List α) {back : List α}
    {p : α} (hq : queue ++ [x] = front ++ p :: back) :
    ∃ l₁ l₂, x :: log = l₁ ++ p :: l₂ ∧ back ⊆ l₁ := by
  rcases List.eq_nil_or_concat' back with rfl | ⟨back', y, rfl⟩
  · obtain ⟨-, hy⟩ := List.append_inj' hq rfl
    obtain rfl : x = p := by simpa using hy
    exact ⟨[], log, rfl, by simp⟩
  · rw [← List.cons_append, ← List.append_assoc] at hq
    obtain ⟨hq', hy⟩ := List.append_inj' hq rfl
    obtain rfl : x = y := by simpa using hy
    obtain ⟨l₁, l₂, rfl, hb⟩ := h.behind front p back' hq'
    refine ⟨x :: l₁, l₂, rfl, fun q hq => ?_⟩
    rcases List.mem_append.mp hq with hq | hq
    · exact List.mem_cons_of_mem x (hb hq)
    · exact List.mem_cons.mpr (.inl (List.mem_singleton.mp hq))

/-- A queue has no duplicates after something new was pushed. -/
theorem nodup_push (h : Queued bound queue log) (hx : x ∉ queue) : (queue ++ [x]).Nodup :=
  List.nodup_append.mpr ⟨h.nodup, List.nodup_singleton x, by
    rintro a ha b hb rfl
    exact hx (List.mem_singleton.mp hb ▸ ha)⟩

/-- **Publishing a new entry** at the back of the queue. -/
theorem push (h : Queued bound queue log) (hx : x ∉ queue) :
    Queued bound (retain bound queue x).1 (x :: log) where
  nodup := (h.nodup_push hx).sublist (List.drop_sublist _ _)
  length_le := by
    have hlen := h.length_le
    simp only [retain_eq, List.length_drop, List.length_append, List.length_singleton]
    omega
  behind front p back hq := by
    have hsplit := List.take_append_drop (queue.length + 1 - bound) (queue ++ [x])
    refine h.behind_push x ((queue ++ [x]).take (queue.length + 1 - bound) ++ front) ?_
    rw [List.append_assoc, ← hq, retain_eq, hsplit]

/-- **What a new entry evicts** was at the front of a full queue: the whole rest of the queue
was published after it. -/
theorem evicted (h : Queued bound queue log) (hx : x ∉ queue)
    (hy : y ∈ (retain bound queue x).2) :
    ∃ l₁ l₂, x :: log = l₁ ++ y :: l₂ ∧ (retain bound queue x).1 ⊆ l₁ ∧
      (retain bound queue x).1.length = bound ∧ y ∉ (retain bound queue x).1 := by
  have hlen := h.length_le
  have hnd := h.nodup_push hx
  have hone : queue.length + 1 - bound = 1 := by
    rw [retain_eq] at hy
    have hpos := List.length_pos_of_mem hy
    rw [List.length_take] at hpos
    omega
  rw [retain_eq, hone] at hy ⊢
  cases hqx : queue ++ [x] with
  | nil => simp at hqx
  | cons z rest =>
      rw [hqx] at hy hnd
      obtain rfl : y = z := by simpa using hy
      obtain ⟨l₁, l₂, hl, hb⟩ := h.behind_push x [] hqx
      have hrest := congrArg List.length hqx
      simp only [List.length_append, List.length_cons, List.length_nil] at hrest
      exact ⟨l₁, l₂, hl, hb, by simp only [List.drop_succ_cons, List.drop_zero]; omega,
        (List.nodup_cons.mp hnd).1⟩

end Queued

/-- The queue is a bounded history of the log. -/
structure Retained (bound : ℕ) (queue log : List α) : Prop where
  nodup : queue.Nodup
  length_le : queue.length ≤ bound
  behind : ∀ front p back, queue = front ++ p :: back →
    ∃ l₁ l₂, log = l₁ ++ p :: l₂ ∧ back ⊆ l₁
  displaced : ∀ p ∈ log, p ∉ queue → Displaced bound p log

namespace Retained

variable {bound : ℕ} {queue log : List α}

/-- An empty queue has retained an empty log. -/
theorem nil (bound : ℕ) : Retained bound ([] : List α) [] :=
  ⟨List.nodup_nil, Nat.zero_le _, fun _ _ _ h => absurd h (by simp), fun _ h => absurd h (by simp)⟩

/-- What is retained is queued. -/
theorem queued (h : Retained bound queue log) : Queued bound queue log :=
  ⟨h.nodup, h.length_le, h.behind⟩

/-- A queue that holds all but what is displaced has retained its log. -/
theorem of_queued (h : Queued bound queue log)
    (hd : ∀ p ∈ log, p ∉ queue → Displaced bound p log) : Retained bound queue log :=
  ⟨h.nodup, h.length_le, h.behind, hd⟩

/-- What is retained was published. -/
theorem mem_log (h : Retained bound queue log) {p : α} (hp : p ∈ queue) : p ∈ log :=
  h.queued.mem_log hp

/-- Publishing again what is retained keeps the queue. -/
theorem again (h : Retained bound queue log) {x : α} (hx : x ∈ queue) :
    Retained bound queue (x :: log) := by
  refine .of_queued (h.queued.again x) fun p hp hq => ?_
  rcases List.mem_cons.mp hp with rfl | hp
  · exact absurd hx hq
  · exact (h.displaced p hp hq).cons x

/-- **Publishing a new entry.** The entry enters the queue; what leaves it is displaced. -/
theorem push (h : Retained bound queue log) {x : α} (hx : x ∉ queue) :
    Retained bound (retain bound queue x).1 (x :: log) := by
  have hq' := h.queued.push hx
  refine .of_queued hq' fun p hp hq => ?_
  by_cases hmem : p ∈ queue ++ [x]
  · have hev : p ∈ (retain bound queue x).2 := by
      have hsplit := List.take_append_drop (queue.length + 1 - bound) (queue ++ [x])
      rw [retain_eq] at hq ⊢
      rw [← hsplit, List.mem_append] at hmem
      exact hmem.resolve_right hq
    obtain ⟨l₁, l₂, hl, hb, hlen, hn⟩ := h.queued.evicted hx hev
    exact ⟨l₁, l₂, hl, _, hq'.nodup, hlen, hn, hb⟩
  · have hpq : p ∉ queue := fun hc => hmem (List.mem_append_left [x] hc)
    have hpx : p ≠ x := fun hc => hmem (by simp [hc])
    exact (h.displaced p ((List.mem_cons.mp hp).resolve_left hpx) hpq).cons x

end Retained

/-- A new entry is in the queue after it was pushed. -/
theorem mem_retain_self {bound : ℕ} {queue : List α} {x : α} (hb : 0 < bound) :
    x ∈ (retain bound queue x).1 := by
  have hk : queue.length + 1 - bound ≤ queue.length := by omega
  simp [retain_eq, List.drop_append_of_le_length hk]

/-- The queue after a push: the old entries that were not evicted, and the new one. -/
theorem mem_retain {bound : ℕ} {queue : List α} {x p : α} (hn : (queue ++ [x]).Nodup) :
    p ∈ (retain bound queue x).1 ↔
      (p ∈ queue ∨ p = x) ∧ p ∉ (retain bound queue x).2 := by
  have hsplit := List.take_append_drop (queue.length + 1 - bound) (queue ++ [x])
  have hmem : p ∈ queue ∨ p = x ↔
      p ∈ (queue ++ [x]).take (queue.length + 1 - bound) ∨
        p ∈ (queue ++ [x]).drop (queue.length + 1 - bound) := by
    rw [← List.mem_append, hsplit]
    simp
  rw [← hsplit] at hn
  have hd := (List.nodup_append.mp hn).2.2
  simp only [retain_eq]
  constructor
  · intro h
    exact ⟨hmem.mpr (.inr h), fun h' => hd p h' p h rfl⟩
  · rintro ⟨h, h'⟩
    exact (hmem.mp h).resolve_left h'

/-- What is evicted was in the queue, or is the new entry. -/
theorem mem_of_mem_retain {bound : ℕ} {queue : List α} {x p : α}
    (h : p ∈ (retain bound queue x).2) : p ∈ queue ∨ p = x := by
  rw [retain_eq] at h
  have hm := List.mem_of_mem_take h
  rwa [List.mem_append, List.mem_singleton] at hm

/-- **The keys of a map beside the queue.** A key is there while it is not published, or
published and in the queue; a push with its evictions keeps this. -/
theorem Retained.kept_push {bound : ℕ} {queue log : List α} (h : Retained bound queue log)
    {x : α} (hx : x ∉ log) (p : α) :
    (p ∈ log → p ∈ queue) ∧ p ∉ (retain bound queue x).2 ↔
      (p ∈ x :: log → p ∈ (retain bound queue x).1) := by
  have hnd := h.queued.nodup_push fun hm => hx (h.mem_log hm)
  constructor
  · rintro ⟨hq, hev⟩ hp
    refine (mem_retain hnd).mpr ⟨?_, hev⟩
    rcases List.mem_cons.mp hp with rfl | hp
    · exact .inr rfl
    · exact .inl (hq hp)
  · intro hq
    refine ⟨fun hp => ?_, fun hev => ?_⟩
    · have hpx : p ≠ x := by
        rintro rfl
        exact hx hp
      exact (((mem_retain hnd).mp (hq (List.mem_cons_of_mem x hp))).1).resolve_right hpx
    · have hp : p ∈ x :: log := by
        rcases mem_of_mem_retain hev with hm | rfl
        · exact List.mem_cons_of_mem x (h.mem_log hm)
        · exact List.mem_cons_self
      exact ((mem_retain hnd).mp (hq hp)).2 hev

/-- The newest `bound` entries of a log, oldest first. -/
def window (bound : ℕ) (log : List α) : List α :=
  (log.take bound).reverse

/-- The window holds the newest entries of the log. -/
theorem mem_window {bound : ℕ} {log : List α} {p : α} :
    p ∈ window bound log ↔ p ∈ log.take bound :=
  List.mem_reverse

/-- The window keeps to the bound. -/
theorem length_window_le (bound : ℕ) (log : List α) : (window bound log).length ≤ bound := by
  rw [window, List.length_reverse]
  exact List.length_take_le bound log

/-- An eviction from a queue that lists a log from its oldest entry on. -/
theorem evict_reverse (bound : ℕ) (log : List α) :
    evict bound log.reverse = ((log.take bound).reverse, (log.drop bound).reverse) := by
  rw [evict, List.length_reverse, List.drop_reverse, List.take_reverse]
  rcases Nat.le_total bound log.length with hle | hle
  · rw [Nat.sub_sub_self hle]
  · rw [Nat.sub_eq_zero_of_le hle, Nat.sub_zero, List.take_length, List.drop_length,
      List.take_of_length_le hle, List.drop_of_length_le hle]

/-- A retention moves the window. -/
theorem retain_window (bound : ℕ) (log : List α) (x : α) :
    retain bound (window bound log) x = evict bound ((x :: log).take (bound + 1)).reverse := by
  rw [retain, window, List.take_succ_cons, List.reverse_cons]

/-- **A push moves the window on.** -/
theorem window_retain (bound : ℕ) (log : List α) (x : α) :
    (retain bound (window bound log) x).1 = window bound (x :: log) := by
  rw [retain_window, evict_reverse, window, List.take_take, Nat.min_eq_left (Nat.le_succ bound)]

/-- **What a push evicts** is the entry before the new window, if there is one. -/
theorem evicted_window (bound : ℕ) (log : List α) (x : α) :
    (retain bound (window bound log) x).2 = (x :: log)[bound]?.toList := by
  have hone : ((x :: log).take (bound + 1)).drop bound = ((x :: log)[bound]?).toList := by
    rw [List.drop_take, Nat.add_sub_cancel_left, List.take_one, List.head?_drop]
  rw [retain_window, evict_reverse, hone]
  cases (x :: log)[bound]? with
  | none => rfl
  | some y => rfl

end Shepherd.Conc
