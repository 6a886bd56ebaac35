import Shepherd.Domain.Types

/-!
# The Process Entity

A `Process` is created running by a successful spawn and changed only by the four
transitions of its owning scope. Its fields are private in the source, so the values
that can occur are those the transitions build; the structure carries the two facts
this gives as fields:

* `exit_iff` — an exit is stored exactly in the state `reaped`;
* `attached` — the two states that belong to the spawn itself never occur.

Each transition returns whether it moved the process, together with the process after
it. The `_cases` lemmas say once what a transition can do; later modules use them and
do not unfold the transitions.
-/

namespace Shepherd

/-- A supervised OS process. -/
structure Process where
  id : ProcessId
  os : OsIdentity
  spec : ProcessSpec
  state : ProcessLifecycle
  forced : Bool
  exit : Option ProcessExit
  exit_iff : exit.isSome = true ↔ state = .reaped
  attached : state ≠ .spawning ∧ state ≠ .spawnFailed
  deriving DecidableEq

namespace Process

/-- A running process, from a successful spawn. -/
def running (id : ProcessId) (os : OsIdentity) (spec : ProcessSpec) : Process where
  id := id
  os := os
  spec := spec
  state := .running
  forced := false
  exit := none
  exit_iff := by decide
  attached := by decide

/-- Before the reap no exit is stored. -/
theorem exit_eq_none {p : Process} (h : p.state ≠ .reaped) : p.exit = none := by
  cases he : p.exit with
  | none => rfl
  | some e => exact absurd (p.exit_iff.mp (by rw [he]; rfl)) h

/-- A stored exit means the process is reaped. -/
theorem state_of_exit {p : Process} {e : ProcessExit} (h : p.exit = some e) :
    p.state = .reaped :=
  p.exit_iff.mp (by rw [h]; rfl)

/-- Requests graceful termination; moves a process that was not asked before. -/
def requestGraceful (p : Process) : Bool × Process :=
  if h : p.state = .running ∨ p.state = .spawning then
    (true, { p with
      state := .gracefulRequested
      exit_iff := by
        rw [exit_eq_none (by rcases h with h | h <;> rw [h] <;> decide)]
        decide
      attached := by decide })
  else (false, p)

/-- Escalates to forceful termination. -/
def escalateToForce (p : Process) : Bool × Process :=
  if h : p.state = .running ∨ p.state = .spawning ∨ p.state = .gracefulRequested then
    (true, { p with
      state := .forcing
      forced := true
      exit_iff := by
        rw [exit_eq_none (by rcases h with h | h | h <;> rw [h] <;> decide)]
        decide
      attached := by decide })
  else (false, p)

/-- Records that the process was observed to have exited. -/
def markExited (p : Process) : Bool × Process :=
  if h : p.state.isLive = true then
    (true, { p with
      state := .exitedUnreaped
      exit_iff := by
        rw [exit_eq_none (by rintro hs; rw [hs] at h; exact absurd h (by decide))]
        decide
      attached := by decide })
  else (false, p)

/-- Whether a reap with `exit` takes effect: a first reap of a process that is not
being spawned, or a verified correction of unverified evidence. -/
def acceptsReap (p : Process) (exit : ProcessExit) : Bool :=
  match p.state with
  | .exitedUnreaped | .running | .gracefulRequested | .forcing => true
  | .reaped =>
      (match p.exit with
        | some previous => !previous.outcome.isVerified
        | none => false) && exit.outcome.isVerified
  | _ => false

/-- Records that the process was reaped, storing its terminal exit. -/
def markReaped (p : Process) (exit : ProcessExit) : Bool × Process :=
  if p.acceptsReap exit = true then
    (true, { p with
      state := .reaped
      exit := some exit
      exit_iff := by simp
      attached := by decide })
  else (false, p)

/-! ### What a transition can do -/

/-- A graceful request moves exactly a running process, and only its state. -/
theorem requestGraceful_cases (p : Process) :
    (p.state = .running ∧ p.requestGraceful.1 = true ∧
      p.requestGraceful.2.state = .gracefulRequested ∧
      p.requestGraceful.2.exit = none ∧ p.exit = none) ∨
    (p.state ≠ .running ∧ p.requestGraceful = (false, p)) := by
  by_cases h : p.state = .running
  · have hx : p.exit = none := exit_eq_none (by rw [h]; decide)
    refine .inl ⟨h, ?_, ?_, ?_, hx⟩ <;> simp [requestGraceful, h, hx]
  · exact .inr ⟨h, by simp [requestGraceful, h, p.attached.1]⟩

/-- Escalation moves exactly a process that is running or asked to stop. -/
theorem escalateToForce_cases (p : Process) :
    ((p.state = .running ∨ p.state = .gracefulRequested) ∧
      p.escalateToForce.1 = true ∧ p.escalateToForce.2.state = .forcing ∧
      p.escalateToForce.2.exit = none ∧ p.exit = none) ∨
    (p.state ≠ .running ∧ p.state ≠ .gracefulRequested ∧
      p.escalateToForce = (false, p)) := by
  by_cases h : p.state = .running ∨ p.state = .gracefulRequested
  · have hx : p.exit = none :=
      exit_eq_none (by rcases h with h | h <;> rw [h] <;> decide)
    refine .inl ⟨h, ?_, ?_, ?_, hx⟩ <;>
      rcases h with h | h <;> simp [escalateToForce, h, hx]
  · push Not at h
    exact .inr ⟨h.1, h.2, by simp [escalateToForce, h, p.attached.1]⟩

/-- An observed exit moves exactly a live process. -/
theorem markExited_cases (p : Process) :
    (p.state.isLive = true ∧ p.markExited.1 = true ∧
      p.markExited.2.state = .exitedUnreaped ∧
      p.markExited.2.exit = none ∧ p.exit = none) ∨
    (p.state.isLive = false ∧ p.markExited = (false, p)) := by
  cases h : p.state.isLive with
  | true =>
      have hx : p.exit = none :=
        exit_eq_none (by rintro hs; rw [hs] at h; exact absurd h (by decide))
      refine .inl ⟨rfl, ?_, ?_, ?_, hx⟩ <;> simp [markExited, h, hx]
  | false => exact .inr ⟨rfl, by simp [markExited, h]⟩

/-- A reap takes effect on a process without an exit, and corrects an unverified exit
by a verified one; a verified exit is final. -/
theorem acceptsReap_iff (p : Process) (exit : ProcessExit) :
    p.acceptsReap exit = true ↔
      p.exit = none ∨ ∃ e, p.exit = some e ∧ ¬ e.Verified ∧ exit.Verified := by
  cases hs : p.state with
  | reaped =>
      cases he : p.exit with
      | none => exact absurd (p.exit_iff.mpr hs) (by simp [he])
      | some e => simp [acceptsReap, hs, he, ProcessExit.Verified]
  | spawning => exact absurd hs p.attached.1
  | spawnFailed => exact absurd hs p.attached.2
  | _ =>
      have hx : p.exit = none := exit_eq_none (by rw [hs]; decide)
      simp [acceptsReap, hs, hx]

/-- The two ways a reap can end. -/
theorem markReaped_cases (p : Process) (exit : ProcessExit) :
    ((p.exit = none ∨ ∃ e, p.exit = some e ∧ ¬ e.Verified ∧ exit.Verified) ∧
      (p.markReaped exit).1 = true ∧ (p.markReaped exit).2.state = .reaped ∧
      (p.markReaped exit).2.exit = some exit) ∨
    ((∃ e, p.exit = some e ∧ (e.Verified ∨ ¬ exit.Verified)) ∧
      p.markReaped exit = (false, p)) := by
  by_cases h : p.acceptsReap exit = true
  · exact .inl ⟨(acceptsReap_iff p exit).mp h, by simp [markReaped, h]⟩
  · refine .inr ⟨?_, by simp [markReaped, h]⟩
    rw [acceptsReap_iff] at h
    push Not at h
    obtain ⟨hn, hc⟩ := h
    obtain ⟨e, he⟩ := Option.ne_none_iff_exists'.mp hn
    refine ⟨e, he, ?_⟩
    by_contra hv
    push Not at hv
    exact hc e he hv.1 hv.2

/-! ### Repeating a transition -/

/-- A second request changes nothing. -/
theorem requestGraceful_again (p : Process) :
    p.requestGraceful.2.requestGraceful = (false, p.requestGraceful.2) := by
  rcases p.requestGraceful.2.requestGraceful_cases with ⟨hr, -⟩ | ⟨-, h⟩
  · rcases p.requestGraceful_cases with ⟨-, -, hs, -⟩ | ⟨hn, h⟩
    · exact absurd (hs.symm.trans hr) (by decide)
    · rw [h] at hr; exact absurd hr hn
  · exact h

/-- A second escalation changes nothing. -/
theorem escalateToForce_again (p : Process) :
    p.escalateToForce.2.escalateToForce = (false, p.escalateToForce.2) := by
  rcases p.escalateToForce.2.escalateToForce_cases with ⟨hr, -⟩ | ⟨-, -, h⟩
  · rcases p.escalateToForce_cases with ⟨-, -, hs, -⟩ | ⟨h1, h2, h⟩
    · rcases hr with hr | hr <;> exact absurd (hs.symm.trans hr) (by decide)
    · rw [h] at hr
      exact absurd hr (not_or.mpr ⟨h1, h2⟩)
  · exact h

/-- An exit is marked once. -/
theorem markExited_again (p : Process) :
    p.markExited.2.markExited = (false, p.markExited.2) := by
  rcases p.markExited.2.markExited_cases with ⟨hr, -⟩ | ⟨-, h⟩
  · rcases p.markExited_cases with ⟨-, -, hs, -⟩ | ⟨hn, h⟩
    · rw [hs] at hr; exact absurd hr (by decide)
    · rw [h, hn] at hr; exact absurd hr (by decide)
  · exact h

/-- A process is reaped once. -/
theorem markReaped_again (p : Process) (exit : ProcessExit) :
    (p.markReaped exit).2.markReaped exit = (false, (p.markReaped exit).2) := by
  rcases (p.markReaped exit).2.markReaped_cases exit with ⟨hx, -⟩ | ⟨-, h⟩
  · rcases p.markReaped_cases exit with ⟨-, -, -, he⟩ | ⟨⟨e, he, hor⟩, h⟩
    · rcases hx with hx | ⟨e, hx, hu, hv⟩
      · rw [he] at hx; exact absurd hx (by simp)
      · rw [he] at hx
        obtain rfl := Option.some.inj hx
        exact absurd hv hu
    · rw [h] at hx
      rcases hx with hx | ⟨e', hx, hu, hv⟩
      · rw [he] at hx; exact absurd hx (by simp)
      · rw [he] at hx
        obtain rfl := Option.some.inj hx
        exact absurd hor (not_or.mpr ⟨hu, not_not.mpr hv⟩)
  · exact h

/-! ### Fields no transition changes -/

/-- A request keeps the identifier. -/
@[simp] theorem requestGraceful_id (p : Process) : p.requestGraceful.2.id = p.id := by
  rw [requestGraceful]; split <;> rfl

/-- An escalation keeps the identifier. -/
@[simp] theorem escalateToForce_id (p : Process) : p.escalateToForce.2.id = p.id := by
  rw [escalateToForce]; split <;> rfl

/-- The mark of an exit keeps the identifier. -/
@[simp] theorem markExited_id (p : Process) : p.markExited.2.id = p.id := by
  rw [markExited]; split <;> rfl

/-- The reap keeps the identifier. -/
@[simp] theorem markReaped_id (p : Process) (e : ProcessExit) :
    (p.markReaped e).2.id = p.id := by
  rw [markReaped]; split <;> rfl

/-- A request keeps the OS identity. -/
@[simp] theorem requestGraceful_os (p : Process) : p.requestGraceful.2.os = p.os := by
  rw [requestGraceful]; split <;> rfl

/-- An escalation keeps the OS identity. -/
@[simp] theorem escalateToForce_os (p : Process) : p.escalateToForce.2.os = p.os := by
  rw [escalateToForce]; split <;> rfl

/-- The mark of an exit keeps the OS identity. -/
@[simp] theorem markExited_os (p : Process) : p.markExited.2.os = p.os := by
  rw [markExited]; split <;> rfl

/-- The reap keeps the OS identity. -/
@[simp] theorem markReaped_os (p : Process) (e : ProcessExit) :
    (p.markReaped e).2.os = p.os := by
  rw [markReaped]; split <;> rfl

/-- A request stores no exit. -/
@[simp] theorem requestGraceful_exit (p : Process) : p.requestGraceful.2.exit = p.exit := by
  rw [requestGraceful]; split <;> rfl

/-- An escalation stores no exit. -/
@[simp] theorem escalateToForce_exit (p : Process) : p.escalateToForce.2.exit = p.exit := by
  rw [escalateToForce]; split <;> rfl

/-- That a process has exited says nothing of how. -/
@[simp] theorem markExited_exit (p : Process) : p.markExited.2.exit = p.exit := by
  rw [markExited]; split <;> rfl

end Process

end Shepherd
