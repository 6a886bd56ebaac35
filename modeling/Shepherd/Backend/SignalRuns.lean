import Shepherd.Backend.Signals

/-!
# Whom Signals to Roots Reach

* `Exposed` processes, which are set up or about to be killed by their number, are not reaped in a
  run whose reaps are timely, so that a number that was compared is the root's still.
* `Right` — who may be signalled for a root: the root, or another one of the same number if the
  start time of neither could be read.
* `Numeric` — a root whose number may be signalled: it has no pidfd, or was not set up.
* `Answered` — a call has signalled its root, or need not, or could not read who has the number.
-/

namespace Shepherd

open Conc

/-- An entry of a list in which one was replaced. -/
theorem getElem?_of_set {α : Type} {l : List α} {a b : α} {n m : ℕ}
    (h : (l.set n a)[m]? = some b) : m = n ∧ b = a ∨ m ≠ n ∧ l[m]? = some b := by
  rw [List.getElem?_set] at h
  split at h
  · next heq =>
      split at h
      · exact .inl ⟨heq.symm, (Option.some.inj h).symm⟩
      · cases h
  · next hne => exact .inr ⟨Ne.symm hne, h⟩

/-- An entry of a list that was added to. -/
theorem getElem?_of_append {α : Type} {l : List α} {a b : α} {m : ℕ}
    (h : (l ++ [a])[m]? = some b) : l[m]? = some b ∨ m = l.length ∧ b = a := by
  rw [List.getElem?_append] at h
  split at h
  · exact .inl h
  · next hlt =>
      rw [List.getElem?_singleton] at h
      split at h
      · exact .inr ⟨by omega, (Option.some.inj h).symm⟩
      · cases h

/-- The identity is that of the process, as far as it was read. -/
def OsIdentity.Names (os : OsIdentity) (x : Numbered) : Prop :=
  os.pid = x.number ∧ ∀ t, os.reuseToken = .startTime t → t = x.start

/-- An identity names the process it named. -/
theorem OsIdentity.Names.later {os : OsIdentity} {x x' : Numbered} (h : os.Names x)
    (hl : x.Later x') : os.Names x' :=
  ⟨h.1.trans hl.1.symm, fun t ht => (h.2 t ht).trans hl.2.1.symm⟩

/-- A key with a start time. -/
theorem eq_of_childKey {os : OsIdentity} {key : ChildKey} (hk : key = childKey os)
    (hz : key.2 ≠ 0) : os = ⟨key.1, .startTime key.2⟩ := by
  obtain ⟨pid, token⟩ := os
  subst hk
  cases token with
  | startTime t => rfl
  | unavailable => exact absurd rfl hz

namespace SignalState

variable {s s' : SignalState} {n root p : ℕ} {os : OsIdentity} {key : ChildKey} {slot : RootSlot}
  {pidfd : Option ℕ} {c : ProcessScopeId} {scope : Option ProcessScopeId} {caller : SignalCaller}
  {ok : Bool}

/-! ### The invariant -/

/-- What `spawn` has returned for the root, and the pidfd that was registered. -/
def Returned (s : SignalState) (root : ℕ) (os : OsIdentity) (pidfd : Option ℕ) : Prop :=
  ∃ (n : ℕ) (c : ProcessScopeId), s.spawns[n]? = some (c, root, .registered os pidfd)

/-- Who may be signalled for the root. -/
def Right (s : SignalState) (root p : ℕ) : Prop :=
  p = root ∨ ∃ pid pidfd pidfd', s.Returned root ⟨pid, .unavailable⟩ pidfd ∧
    s.Returned p ⟨pid, .unavailable⟩ pidfd'

/-- The number of the root may be signalled: the root was returned without a pidfd, or the call
is a spawn that failed to set it up. -/
def Numeric (s : SignalState) (caller : SignalCaller) (root : ℕ) : Prop :=
  (∃ os, s.Returned root os none) ∨
    ∃ (n : ℕ) (c : ProcessScopeId), caller = .spawn n ∧ s.spawns[n]? = some (c, root, .failed)

/-- What is recorded of a signal is in order. -/
def EventSound (s : SignalState) : SignalEvent → Prop
  | .hit _ root p => s.Right root p
  | .numeric caller root => s.Numeric caller root
  | .unread _ _ | .refused _ _ => True

/-- The root was signalled, or is reaped, or its number could not be looked at. -/
def Answered (s : SignalState) (caller : SignalCaller) (root : ℕ) : Prop :=
  .hit caller root root ∈ s.log ∨ s.procs.isReaped root = true ∨ .unread caller root ∈ s.log

/-- A hard kill has done what it can for a slot. -/
def Handled (s : SignalState) (n : ℕ) (key : ChildKey) (slot : RootSlot) : Prop :=
  s.Answered (.hardKill n) slot.root ∨ .refused (.hardKill n) slot.root ∈ s.log ∨
    slot.pidfd = none ∧ key.2 = 0

/-- A hard kill is done with the slots of its scope, but for these. -/
def Swept (s : SignalState) (n : ℕ) (scope : Option ProcessScopeId) (todo : List ChildKey) : Prop :=
  ∀ key slot, s.children.lookup key = some slot → isKilled scope slot = true →
    key ∈ todo ∨ s.Handled n key slot

/-- What is known of a call of `spawn`. -/
def SpawnSound (s : SignalState) (root : ℕ) : RootSpawn → Prop
  | .forked | .failed => ∃ x, s.procs[root]? = some x
  | .identified os => ∃ x, s.procs[root]? = some x ∧ os.Names x
  | .opened os pidfd | .registered os pidfd =>
      (∃ x, s.procs[root]? = some x ∧ os.Names x) ∧ ∀ p, pidfd = some p → p = root

/-- What is known of a call of `signal`. -/
def SignalSound (s : SignalState) (n root : ℕ) (os : OsIdentity) : RootSignal → Prop
  | .identifying => ∀ t, os.reuseToken = .startTime t →
      s.procs.isReaped root = true ∨ s.Returned root os none
  | .killing => (∃ t, os.reuseToken = .startTime t) ∧ s.Returned root os none
  | .returned true => ∀ t, os.reuseToken = .startTime t → s.Answered (.signal n) root
  | _ => True

/-- What is known of a hard kill. -/
def KillSound (s : SignalState) (n : ℕ) (scope : Option ProcessScopeId) : HardKill → Prop
  | .sweeping todo => s.lock = some n ∧ s.Swept n scope todo
  | .killing root key todo => s.lock = some n ∧ s.Swept n scope (key :: todo) ∧ key.2 ≠ 0 ∧
      ∃ slot, s.children.lookup key = some slot ∧ slot.root = root ∧ slot.pidfd = none
  | .returned => True

/-- **The invariant** of runs whose reaps are timely. -/
structure Inv (s : SignalState) : Prop where
  distinct : s.procs.Distinct
  identified : s.procs.Identified
  starts : ∀ (p : ℕ) (x : Numbered), s.procs[p]? = some x → x.start ≠ 0
  exposed : ∀ p, s.isExposed p = true → s.procs.isReaped p = false
  spawns : ∀ (n : ℕ) c root call, s.spawns[n]? = some (c, root, call) → s.SpawnSound root call
  /-- Every root was spawned by one call. -/
  roots : ∀ (m n : ℕ) c c' root call call', s.spawns[m]? = some (c, root, call) →
    s.spawns[n]? = some (c', root, call') → m = n
  /-- A slot is that of a root that was returned. -/
  slots : ∀ key slot, s.children.lookup key = some slot → ∃ (n : ℕ) (os : OsIdentity),
    s.spawns[n]? = some (slot.scope, slot.root, .registered os slot.pidfd) ∧ key = childKey os
  /-- A root that is not reaped has its slot. -/
  here : ∀ root pid t pidfd, s.Returned root ⟨pid, .startTime t⟩ pidfd →
    s.procs.isReaped root = true ∨ ∃ slot, s.children.lookup (pid, t) = some slot ∧ slot.root = root
  signals : ∀ (n : ℕ) root os call, s.signals[n]? = some (root, os, call) →
    (∃ pidfd, s.Returned root os pidfd) ∧ s.SignalSound n root os call
  kills : ∀ (n : ℕ) scope call, s.kills[n]? = some (scope, call) → s.KillSound n scope call
  events : ∀ e ∈ s.log, s.EventSound e

/-- A new backend has no roots. -/
theorem inv_new : Inv new where
  distinct := NumberTable.distinct_nil
  identified := NumberTable.identified_nil
  starts _ _ h := by simp [new] at h
  exposed _ h := by simp [isExposed, new] at h
  spawns _ _ _ _ h := by simp [new] at h
  roots _ _ _ _ _ _ _ h := by simp [new] at h
  slots _ _ h := by simp [new] at h
  here root pid t pidfd h := by
    obtain ⟨n, c, h⟩ := h
    simp [new] at h
  signals _ _ _ _ h := by simp [new] at h
  kills _ _ _ h := by simp [new] at h
  events _ h := by simp [new] at h

/-- When a root is exposed: it is set up, or somebody is about to kill its number. -/
theorem isExposed_iff : s.isExposed p = true ↔
    (∃ (n : ℕ) (c : ProcessScopeId) (call : RootSpawn), s.spawns[n]? = some (c, p, call) ∧
      call.isSetup = true) ∨
    (∃ (n : ℕ) (os : OsIdentity), s.signals[n]? = some (p, os, .killing)) ∨
    ∃ (n : ℕ) (scope : Option ProcessScopeId) (call : HardKill),
      s.kills[n]? = some (scope, call) ∧ call.aim = some p := by
  simp only [isExposed, Bool.or_eq_true, List.any_eq_true, Bool.and_eq_true, decide_eq_true_eq,
    Prod.exists, List.mem_iff_getElem?]
  constructor
  · rintro ((⟨c, root, call, ⟨n, hn⟩, rfl, hc⟩ | ⟨root, os, call, ⟨n, hn⟩, rfl, rfl⟩) |
      ⟨scope, call, ⟨n, hn⟩, hc⟩)
    · exact .inl ⟨n, c, call, hn, hc⟩
    · exact .inr (.inl ⟨n, os, hn⟩)
    · exact .inr (.inr ⟨n, scope, call, hn, hc⟩)
  · rintro (⟨n, c, call, hn, hc⟩ | ⟨n, os, hn⟩ | ⟨n, scope, call, hn, hc⟩)
    · exact .inl (.inl ⟨c, p, call, ⟨n, hn⟩, rfl, hc⟩)
    · exact .inl (.inr ⟨p, os, .killing, ⟨n, hn⟩, rfl, rfl⟩)
    · exact .inr ⟨scope, call, ⟨n, hn⟩, hc⟩

/-! ### Whose slot it is -/

/-- The process of a root that was returned. -/
theorem Inv.returned (hi : s.Inv) (h : s.Returned root os pidfd) :
    (∃ x, s.procs[root]? = some x ∧ os.Names x) ∧ ∀ p, pidfd = some p → p = root := by
  obtain ⟨n, c, hn⟩ := h
  exact hi.spawns n c root _ hn

/-- The key of a root whose start time was not read. -/
theorem Inv.eq_of_childKey_zero (hi : s.Inv) (h : s.Returned root os pidfd) (hk : key = childKey os)
    (hz : key.2 = 0) : os = ⟨key.1, .unavailable⟩ := by
  obtain ⟨⟨x, hx, hnames⟩, -⟩ := hi.returned h
  obtain ⟨pid, token⟩ := os
  subst hk
  cases token with
  | startTime t => exact absurd ((hnames.2 t rfl).symm.trans hz) (hi.starts root x hx)
  | unavailable => rfl

/-- **Two roots with one number and one start time are one.** -/
theorem Inv.root_unique {root' pid t : ℕ} (hi : s.Inv)
    (h : ∃ x, s.procs[root]? = some x ∧ OsIdentity.Names ⟨pid, .startTime t⟩ x)
    (h' : ∃ x, s.procs[root']? = some x ∧ OsIdentity.Names ⟨pid, .startTime t⟩ x) :
    root = root' := by
  obtain ⟨x, hx, hnames⟩ := h
  obtain ⟨y, hy, hnames'⟩ := h'
  exact hi.identified root root' x y hx hy (hnames.1.symm.trans hnames'.1)
    ((hnames.2 t rfl).symm.trans (hnames'.2 t rfl))

/-- A start time that was read is not zero. -/
theorem Inv.start_ne_zero {pid t : ℕ} (hi : s.Inv)
    (h : ∃ x, s.procs[root]? = some x ∧ OsIdentity.Names ⟨pid, .startTime t⟩ x) : t ≠ 0 := by
  obtain ⟨x, hx, hnames⟩ := h
  exact hnames.2 t rfl ▸ hi.starts root x hx

/-- A slot is that of a root that was returned. -/
theorem Inv.slot_returned (hi : s.Inv) (hk : s.children.lookup key = some slot) :
    ∃ os, s.Returned slot.root os slot.pidfd ∧ key = childKey os := by
  obtain ⟨n, os, hn, hkey⟩ := hi.slots key slot hk
  exact ⟨os, ⟨n, _, hn⟩, hkey⟩

/-- The slot at the key of a root whose start time was read is that of the root. -/
theorem Inv.slot_root {pid t : ℕ} (hi : s.Inv) (h : s.Returned root ⟨pid, .startTime t⟩ pidfd)
    (hk : s.children.lookup (pid, t) = some slot) :
    slot.root = root ∧ s.Returned root ⟨pid, .startTime t⟩ slot.pidfd := by
  obtain ⟨os', hret, hkey⟩ := hi.slot_returned hk
  obtain rfl := eq_of_childKey hkey (hi.start_ne_zero (hi.returned h).1)
  obtain rfl := hi.root_unique (hi.returned h).1 (hi.returned hret).1
  exact ⟨rfl, hret⟩

/-- **A number whose start time is the root's is the root's.** -/
theorem Inv.holder_of_start {pid t : ℕ} (hi : s.Inv)
    (h : s.Returned root ⟨pid, .startTime t⟩ pidfd) (hs : s.procs.startOf pid = some t) :
    s.procs.holder pid = some root ∧ s.procs.isReaped root = false := by
  obtain ⟨⟨x, hx, hpid, hstart⟩, -⟩ := hi.returned h
  obtain rfl := hstart t rfl
  obtain rfl : pid = x.number := hpid
  obtain ⟨hh, hl⟩ := hi.distinct.holder_of_startOf hi.identified hx hs
  exact ⟨hh, by simp [NumberTable.isReaped, hx, hl]⟩

/-- A root that is not reaped has its number. -/
theorem Inv.holder_of_live (hi : s.Inv) (h : s.Returned root os pidfd)
    (hr : s.procs.isReaped root = false) : s.procs.holder os.pid = some root := by
  obtain ⟨⟨x, hx, hpid, -⟩, -⟩ := hi.returned h
  rw [hpid]
  exact hi.distinct.holder_eq hx (NumberTable.life_of_isReaped hx hr)

/-- A root is reaped when something else is read for its number. -/
theorem Inv.reaped_of_start {pid t : ℕ} (hi : s.Inv)
    (h : s.Returned root ⟨pid, .startTime t⟩ pidfd) (hs : s.procs.startOf pid ≠ some t) :
    s.procs.isReaped root = true := by
  obtain ⟨⟨x, hx, hpid, hstart⟩, -⟩ := hi.returned h
  obtain rfl := hstart t rfl
  obtain rfl : pid = x.number := hpid
  rw [← Bool.not_eq_false]
  intro hr
  exact hs (hi.distinct.startOf_eq hx (NumberTable.life_of_isReaped hx hr))

/-! ### Later states -/

/-- Nothing is forgotten. -/
structure Extends (s s' : SignalState) : Prop where
  procs : NumberTable.Later s.procs s'.procs
  settled : ∀ (n : ℕ) c root call, s.spawns[n]? = some (c, root, call) → call.isSetup = false →
    s'.spawns[n]? = some (c, root, call)
  log : ∀ e ∈ s.log, e ∈ s'.log

/-- What a spawn has returned stays returned. -/
theorem Extends.returned (he : s.Extends s') (h : s.Returned root os pidfd) :
    s'.Returned root os pidfd := by
  obtain ⟨n, c, hn⟩ := h
  exact ⟨n, c, he.settled n c root _ hn rfl⟩

/-- A signal that was answered stays answered. -/
theorem Answered.mono (h : s.Answered caller root) (he : s.Extends s') :
    s'.Answered caller root :=
  h.imp (he.log _) (.imp he.procs.isReaped (he.log _))

/-- A hit that was right stays right. -/
theorem Right.mono (h : s.Right root p) (he : s.Extends s') : s'.Right root p := by
  refine h.imp_right ?_
  rintro ⟨pid, pidfd, pidfd', hr, hr'⟩
  exact ⟨pid, pidfd, pidfd', he.returned hr, he.returned hr'⟩

/-- A number that was signalled with reason was so ever after. -/
theorem Numeric.mono (h : s.Numeric caller root) (he : s.Extends s') : s'.Numeric caller root := by
  refine h.imp (fun ⟨os, hr⟩ => ⟨os, he.returned hr⟩) ?_
  rintro ⟨n, c, rfl, hn⟩
  exact ⟨n, c, rfl, he.settled n c root _ hn rfl⟩

/-- A sound event stays sound. -/
theorem EventSound.mono {e : SignalEvent} (h : s.EventSound e) (he : s.Extends s') :
    s'.EventSound e := by
  cases e with
  | hit caller root p => exact Right.mono h he
  | numeric caller root => exact Numeric.mono h he
  | unread caller root => trivial
  | refused caller root => trivial

/-- A slot that a kill has dealt with stays dealt with. -/
theorem Handled.mono (h : s.Handled n key slot) (he : s.Extends s') : s'.Handled n key slot :=
  h.imp (·.mono he) (.imp_left (he.log _))

/-- What a kill has gone through stays so, while the slots are the same. -/
theorem Swept.mono {todo : List ChildKey} (h : s.Swept n scope todo) (he : s.Extends s')
    (hc : s'.children = s.children) : s'.Swept n scope todo :=
  fun key slot hk hs => (h key slot (hc ▸ hk) hs).imp_right (·.mono he)

/-- What is known of a spawn stays known. -/
theorem SpawnSound.mono {call : RootSpawn} (h : s.SpawnSound root call)
    (hl : NumberTable.Later s.procs s'.procs) : s'.SpawnSound root call := by
  have hnames : ∀ {os : OsIdentity}, (∃ x, s.procs[root]? = some x ∧ os.Names x) →
      ∃ x, s'.procs[root]? = some x ∧ os.Names x := by
    rintro os ⟨x, hx, hn⟩
    obtain ⟨x', hx', hlater⟩ := hl root x hx
    exact ⟨x', hx', hn.later hlater⟩
  have hthere : (∃ x, s.procs[root]? = some x) → ∃ x, s'.procs[root]? = some x := by
    rintro ⟨x, hx⟩
    obtain ⟨x', hx', -⟩ := hl root x hx
    exact ⟨x', hx'⟩
  cases call with
  | forked => exact hthere h
  | identified os => exact hnames h
  | opened os pidfd => exact ⟨hnames h.1, h.2⟩
  | registered os pidfd => exact ⟨hnames h.1, h.2⟩
  | failed => exact hthere h

/-- What is known of a signal stays known. -/
theorem SignalSound.mono {call : RootSignal} (h : s.SignalSound n root os call)
    (he : s.Extends s') : s'.SignalSound n root os call := by
  cases call with
  | looking => trivial
  | locking => trivial
  | identifying => exact fun t ht => (h t ht).imp he.procs.isReaped he.returned
  | killing => exact ⟨h.1, he.returned h.2⟩
  | returned ok =>
      cases ok with
      | true => exact fun t ht => (h t ht).mono he
      | false => trivial

/-- What is known of a kill stays known while the lock and the slots are the same. -/
theorem KillSound.mono {call : HardKill} (h : s.KillSound n scope call) (he : s.Extends s')
    (hc : s'.children = s.children) (hl : s'.lock = s.lock) : s'.KillSound n scope call := by
  cases call with
  | sweeping todo => exact ⟨hl.trans h.1, h.2.mono he hc⟩
  | killing root key todo =>
      refine ⟨hl.trans h.1, h.2.1.mono he hc, h.2.2.1, ?_⟩
      rw [hc]
      exact h.2.2.2
  | returned => trivial

/-- **What keeps the invariant**: the parts of the state may each change. -/
theorem Inv.keep (hi : s.Inv) (he : s.Extends s') (hd : s'.procs.Distinct)
    (hid : s'.procs.Identified)
    (hst : ∀ (p : ℕ) (x : Numbered), s'.procs[p]? = some x → x.start ≠ 0)
    (hexp : ∀ p, s'.isExposed p = true → s'.procs.isReaped p = false)
    (hspawns : ∀ (n : ℕ) c root call, s'.spawns[n]? = some (c, root, call) →
      s.spawns[n]? = some (c, root, call) ∨ s'.SpawnSound root call)
    (hroots : ∀ (m n : ℕ) c c' root call call', s'.spawns[m]? = some (c, root, call) →
      s'.spawns[n]? = some (c', root, call') → m = n)
    (hslots : ∀ key slot, s'.children.lookup key = some slot → ∃ (n : ℕ) (os : OsIdentity),
      s'.spawns[n]? = some (slot.scope, slot.root, .registered os slot.pidfd) ∧ key = childKey os)
    (hhere : ∀ root pid t pidfd, s'.Returned root ⟨pid, .startTime t⟩ pidfd →
      s'.procs.isReaped root = true ∨
        ∃ slot, s'.children.lookup (pid, t) = some slot ∧ slot.root = root)
    (hsignals : ∀ (n : ℕ) root os call, s'.signals[n]? = some (root, os, call) →
      s.signals[n]? = some (root, os, call) ∨
        (∃ pidfd, s.Returned root os pidfd) ∧ s'.SignalSound n root os call)
    (hkills : ∀ (n : ℕ) scope call, s'.kills[n]? = some (scope, call) → s'.KillSound n scope call)
    (hevents : ∀ e ∈ s'.log, e ∈ s.log ∨ s'.EventSound e) : s'.Inv where
  distinct := hd
  identified := hid
  starts := hst
  exposed := hexp
  spawns n c root call h := (hspawns n c root call h).elim
    (fun h => (hi.spawns n c root call h).mono he.procs) id
  roots := hroots
  slots := hslots
  here := hhere
  signals n root os call h := by
    rcases hsignals n root os call h with h | ⟨⟨pidfd, hr⟩, h⟩
    · obtain ⟨⟨pidfd, hr⟩, h⟩ := hi.signals n root os call h
      exact ⟨⟨pidfd, he.returned hr⟩, h.mono he⟩
    · exact ⟨⟨pidfd, he.returned hr⟩, h⟩
  kills := hkills
  events e h := (hevents e h).elim (fun h => (hi.events e h).mono he) id

/-- Slots stay those of roots. -/
theorem Inv.slots_of_eq (hi : s.Inv) (he : s.Extends s') (hc : s'.children = s.children) :
    ∀ key slot, s'.children.lookup key = some slot → ∃ (n : ℕ) (os : OsIdentity),
      s'.spawns[n]? = some (slot.scope, slot.root, .registered os slot.pidfd) ∧
        key = childKey os := by
  intro key slot hk
  obtain ⟨n, os, hn, hkey⟩ := hi.slots key slot (hc ▸ hk)
  exact ⟨n, os, he.settled _ _ _ _ hn rfl, hkey⟩

/-- Roots keep their slots. -/
theorem Inv.here_of_eq (hi : s.Inv) (he : s.Extends s') (hc : s'.children = s.children)
    (hret : ∀ root os pidfd, s'.Returned root os pidfd → s.Returned root os pidfd) :
    ∀ root pid t pidfd, s'.Returned root ⟨pid, .startTime t⟩ pidfd →
      s'.procs.isReaped root = true ∨
        ∃ slot, s'.children.lookup (pid, t) = some slot ∧ slot.root = root := by
  intro root pid t pidfd hr
  rw [hc]
  exact (hi.here root pid t pidfd (hret _ _ _ hr)).imp_left he.procs.isReaped

/-! ### Processes -/

/-- A step of processes. -/
theorem Inv.setProcs {procs : NumberTable} (hi : s.Inv) (hd : procs.Distinct)
    (hid : procs.Identified) (hl : NumberTable.Later s.procs procs)
    (hst : ∀ (p : ℕ) (x : Numbered), procs[p]? = some x → x.start ≠ 0)
    (hexp : ∀ p, s.isExposed p = true → procs.isReaped p = s.procs.isReaped p) :
    Inv { s with procs } := by
  have he : s.Extends { s with procs } := ⟨hl, fun _ _ _ _ h _ => h, fun _ => id⟩
  exact hi.keep he hd hid hst (fun p hp => (hexp p hp).trans (hi.exposed p hp))
    (fun _ _ _ _ => .inl) hi.roots (hi.slots_of_eq he rfl) (hi.here_of_eq he rfl fun _ _ _ => id)
    (fun _ _ _ _ => .inl) (fun n scope call hn => (hi.kills n scope call hn).mono he rfl rfl)
    fun _ => .inl

/-- A new process has a start time, if it was given one. -/
theorem Inv.starts_create {procs : NumberTable} {number start : ℕ} (hi : s.Inv) (h0 : start ≠ 0)
    (hc : s.procs.create number start = some procs) :
    ∀ (p : ℕ) (x : Numbered), procs[p]? = some x → x.start ≠ 0 := by
  intro p x hp
  rcases NumberTable.getElem?_of_create hc hp with hp | ⟨-, rfl⟩
  · exact hi.starts p x hp
  · exact h0

/-- A new process with a number that is free, and fresh, keeps the invariant. -/
theorem Inv.create {procs : NumberTable} {number start : ℕ} (hi : s.Inv) (h0 : start ≠ 0)
    (hf : s.procs.isFresh number start = true) (hc : s.procs.create number start = some procs) :
    Inv { s with procs } :=
  hi.setProcs (hi.distinct.create hc) (hi.identified.create hf hc) (.create hc)
    (hi.starts_create h0 hc) fun _ _ => NumberTable.isReaped_create hc

/-- The end of a process keeps the invariant. -/
theorem Inv.finish (hi : s.Inv) (p : ℕ) : Inv { s with procs := s.procs.finish p } := by
  refine hi.setProcs hi.distinct.finish hi.identified.finish (.finish _ _) (fun q x hq => ?_)
    fun q _ => NumberTable.isReaped_finish _ _ _
  rw [NumberTable.finish, NumberTable.getElem?_modify] at hq
  obtain ⟨y, hy, rfl⟩ := Option.map_eq_some_iff.mp hq
  have := hi.starts q y hy
  split <;> exact this

/-- **A timely reap.** -/
theorem Inv.reap {procs : NumberTable} (hi : s.Inv) (ht : s.isExposed p = false)
    (hr : s.procs.reap p = some procs) : Inv { s with procs } := by
  refine hi.setProcs (hi.distinct.reap hr) (hi.identified.reap hr) (.reap hr) (fun q x hq => ?_)
    fun q hq => ?_
  · rw [NumberTable.reap_eq hr, NumberTable.getElem?_modify] at hq
    obtain ⟨y, hy, rfl⟩ := Option.map_eq_some_iff.mp hq
    have := hi.starts q y hy
    split <;> exact this
  · refine NumberTable.isReaped_reap hr ?_
    rintro rfl
    cases ht.symm.trans hq

/-! ### Spawns -/

/-- A spawn begins with a process of its own. -/
theorem Inv.spawn {procs : NumberTable} {number start : ℕ} (hi : s.Inv) (h0 : start ≠ 0)
    (hf : s.procs.isFresh number start = true) (hc : s.procs.create number start = some procs) :
    Inv { s with procs, spawns := s.spawns ++ [(c, s.procs.length, .forked)] } := by
  have hfork := NumberTable.getElem?_create_length hc
  have he : s.Extends { s with procs, spawns := s.spawns ++ [(c, s.procs.length, .forked)] } := by
    refine ⟨.create hc, fun n c' root call hn _ => ?_, fun _ => id⟩
    exact (List.getElem?_append_left (List.getElem?_eq_some_iff.mp hn).1).trans hn
  have hlt : ∀ {n : ℕ} {c' root call}, s.spawns[n]? = some (c', root, call) →
      root < s.procs.length := by
    intro n c' root call hn
    have h := hi.spawns n c' root call hn
    have : ∃ x, s.procs[root]? = some x := by
      cases call with
      | forked => exact h
      | identified os => exact h.imp fun _ => And.left
      | opened os pidfd => exact h.1.imp fun _ => And.left
      | registered os pidfd => exact h.1.imp fun _ => And.left
      | failed => exact h
    obtain ⟨x, hx⟩ := this
    exact (List.getElem?_eq_some_iff.mp hx).1
  refine hi.keep he (hi.distinct.create hc) (hi.identified.create hf hc) (hi.starts_create h0 hc)
    (fun p hp => ?_) (fun n c' root call hn => ?_)
    (fun m n c' c'' root call call' hm hn => ?_) (hi.slots_of_eq he rfl) (hi.here_of_eq he rfl ?_)
    (fun _ _ _ _ => .inl) (fun n scope call hn => (hi.kills n scope call hn).mono he rfl rfl)
    fun _ => .inl
  · have hold : s.isExposed p = true → procs.isReaped p = false := fun h =>
      (NumberTable.isReaped_create hc).trans (hi.exposed p h)
    rcases isExposed_iff.mp hp with ⟨n, c', call, hn, hs⟩ | h | h
    · rcases getElem?_of_append hn with hn | ⟨-, heq⟩
      · exact hold (isExposed_iff.mpr (.inl ⟨n, c', call, hn, hs⟩))
      · obtain ⟨-, rfl, -⟩ := heq
        simp [NumberTable.isReaped, hfork]
    · exact hold (isExposed_iff.mpr (.inr (.inl h)))
    · exact hold (isExposed_iff.mpr (.inr (.inr h)))
  · rcases getElem?_of_append hn with hn | ⟨-, heq⟩
    · exact .inl hn
    · obtain ⟨-, rfl, rfl⟩ := heq
      exact .inr ⟨_, hfork⟩
  · rcases getElem?_of_append hm with hm | ⟨rfl, heq⟩
    · rcases getElem?_of_append hn with hn | ⟨-, heq⟩
      · exact hi.roots m n c' c'' root call call' hm hn
      · obtain ⟨-, rfl, -⟩ := heq
        exact absurd (hlt hm) (Nat.lt_irrefl _)
    · obtain ⟨-, rfl, -⟩ := heq
      rcases getElem?_of_append hn with hn | ⟨rfl, -⟩
      · exact absurd (hlt hn) (Nat.lt_irrefl _)
      · rfl
  · rintro root os pidfd ⟨n, c', hn⟩
    rcases getElem?_of_append hn with hn | ⟨-, heq⟩
    · exact ⟨n, c', hn⟩
    · cases heq

/-- What has returned stays so when a call goes on that has not. -/
theorem settled_setSpawn {call call' call'' : RootSpawn} {m root' : ℕ} {c' : ProcessScopeId}
    (hn : s.spawns[n]? = some (c, root', call)) (hs : call.isSetup = true)
    (hm : s.spawns[m]? = some (c', root, call'')) (hs' : call''.isSetup = false) :
    (s.setSpawn n c root' call').spawns[m]? = some (c', root, call'') := by
  rw [SignalState.setSpawn, List.getElem?_set_ne, hm]
  rintro rfl
  obtain ⟨-, -, rfl⟩ := Prod.mk.inj (Option.some.inj (hn.symm.trans hm))
  cases hs.symm.trans hs'

/-- Nothing is exposed that was not when a call of `spawn` goes on. -/
theorem isExposed_of_setSpawn {call call' : RootSpawn}
    (hn : s.spawns[n]? = some (c, root, call)) (hs : call.isSetup = true)
    (h : (s.setSpawn n c root call').isExposed p = true) : s.isExposed p = true := by
  rcases isExposed_iff.mp h with ⟨m, c', call'', hm, hc⟩ | h | h
  · rcases getElem?_of_set hm with ⟨-, heq⟩ | ⟨-, hm⟩
    · obtain ⟨-, rfl, -⟩ := heq
      exact isExposed_iff.mpr (.inl ⟨n, c, call, hn, hs⟩)
    · exact isExposed_iff.mpr (.inl ⟨m, c', call'', hm, hc⟩)
  · exact isExposed_iff.mpr (.inr (.inl h))
  · exact isExposed_iff.mpr (.inr (.inr h))

/-- A call keeps its root. -/
theorem Inv.roots_setSpawn {call call' : RootSpawn} (hi : s.Inv)
    (hn : s.spawns[n]? = some (c, root, call)) :
    ∀ (l m : ℕ) c₁ c₂ r call₁ call₂, (s.setSpawn n c root call').spawns[l]? = some (c₁, r, call₁) →
      (s.setSpawn n c root call').spawns[m]? = some (c₂, r, call₂) → l = m := by
  have hback : ∀ {m : ℕ} {c' r call''}, (s.setSpawn n c root call').spawns[m]? =
      some (c', r, call'') → ∃ call₀, s.spawns[m]? = some (c', r, call₀) := by
    intro m c' r call'' hm
    rcases getElem?_of_set hm with ⟨rfl, heq⟩ | ⟨-, hm⟩
    · obtain ⟨rfl, rfl, -⟩ := heq
      exact ⟨call, hn⟩
    · exact ⟨call'', hm⟩
  intro l m c₁ c₂ r call₁ call₂ hl hm
  obtain ⟨call₀, hl⟩ := hback hl
  obtain ⟨call₀', hm⟩ := hback hm
  exact hi.roots l m c₁ c₂ r call₀ call₀' hl hm

/-- A step of a spawn before its root is registered. -/
theorem Inv.setSpawn {call call' : RootSpawn} (hi : s.Inv) (log : List SignalEvent)
    (hn : s.spawns[n]? = some (c, root, call)) (hs : call.isSetup = true)
    (hnew : ∀ os pidfd, call' ≠ .registered os pidfd) (hsound : s.SpawnSound root call')
    (hlog : ∀ e ∈ s.log, e ∈ log)
    (hevents : ∀ e ∈ log, e ∈ s.log ∨ EventSound ({ s with log }.setSpawn n c root call') e) :
    Inv ({ s with log }.setSpawn n c root call') := by
  have he : s.Extends ({ s with log }.setSpawn n c root call') :=
    ⟨.refl _, fun _ _ _ _ h => settled_setSpawn (s := s) hn hs h, hlog⟩
  refine hi.keep he hi.distinct hi.identified hi.starts
    (fun p hp => hi.exposed p (isExposed_of_setSpawn (s := s) hn hs hp))
    (fun m c' r call'' hm => ?_) (hi.roots_setSpawn hn) (hi.slots_of_eq he rfl)
    (hi.here_of_eq he rfl ?_) (fun _ _ _ _ => .inl)
    (fun m scope call hm => (hi.kills m scope call hm).mono he rfl rfl) hevents
  · rcases getElem?_of_set hm with ⟨-, heq⟩ | ⟨-, hm⟩
    · obtain ⟨-, rfl, rfl⟩ := heq
      exact .inr (hsound.mono (.refl _))
    · exact .inl hm
  · rintro r os pidfd ⟨m, c', hm⟩
    rcases getElem?_of_set hm with ⟨-, heq⟩ | ⟨-, hm⟩
    · obtain ⟨-, -, heq⟩ := heq
      exact absurd rfl (hnew _ _)
    · exact ⟨m, c', hm⟩

/-- Without the mutex no hard kill is under way. -/
theorem Inv.killSound_of_unlocked {call : HardKill} (hi : s.Inv) (hl : s.lock = none)
    (hn : s.kills[n]? = some (scope, call)) : s'.KillSound n scope call := by
  have h := hi.kills n scope call hn
  cases call with
  | sweeping todo => cases hl.symm.trans h.1
  | killing r key todo => cases hl.symm.trans h.1
  | returned => trivial

/-- **A root is registered.** -/
theorem Inv.register (hi : s.Inv) (hn : s.spawns[n]? = some (c, root, .opened os pidfd))
    (hl : s.lock = none) :
    Inv ({ s with children := s.children.insert (childKey os) ⟨c, root, pidfd⟩ }.setSpawn n c root
      (.registered os pidfd)) := by
  set t := { s with children := s.children.insert (childKey os) ⟨c, root, pidfd⟩ }.setSpawn n c root
    (.registered os pidfd) with ht
  have hsound := hi.spawns n c root _ hn
  have hret : t.spawns[n]? = some (c, root, .registered os pidfd) :=
    List.getElem?_set_self (List.getElem?_eq_some_iff.mp hn).1
  have hback : ∀ {r os' pidfd'}, t.Returned r os' pidfd' →
      (r = root ∧ os' = os ∧ pidfd' = pidfd) ∨ s.Returned r os' pidfd' := by
    rintro r os' pidfd' ⟨m, c', hm⟩
    rcases getElem?_of_set hm with ⟨-, heq⟩ | ⟨-, hm⟩
    · cases heq
      exact .inl ⟨rfl, rfl, rfl⟩
    · exact .inr ⟨m, c', hm⟩
  have he : s.Extends t :=
    ⟨.refl _, fun _ _ _ _ h => settled_setSpawn (s := s) hn rfl h, fun _ => id⟩
  refine hi.keep he hi.distinct hi.identified hi.starts
    (fun p hp => hi.exposed p (isExposed_of_setSpawn (s := s) hn rfl hp))
    (fun m c' r call' hm => ?_) (hi.roots_setSpawn hn) (fun key slot hk => ?_)
    (fun r pid time pidfd' hr => ?_) (fun _ _ _ _ => .inl)
    (fun m scope call hm => hi.killSound_of_unlocked hl hm) fun _ => .inl
  · rcases getElem?_of_set hm with ⟨-, heq⟩ | ⟨-, hm⟩
    · obtain ⟨-, rfl, rfl⟩ := heq
      exact .inr hsound
    · exact .inl hm
  · by_cases hkey : key = childKey os
    · subst hkey
      obtain rfl := Option.some.inj ((AList.lookup_insert _).symm.trans hk)
      exact ⟨n, os, hret, rfl⟩
    · obtain ⟨m, os', hm, hkey'⟩ := hi.slots key slot ((AList.lookup_insert_ne hkey).symm.trans hk)
      exact ⟨m, os', he.settled _ _ _ _ hm rfl, hkey'⟩
  · rcases hback hr with ⟨rfl, rfl, rfl⟩ | hold
    · exact .inr ⟨_, AList.lookup_insert _, rfl⟩
    · by_cases hkey : (pid, time) = childKey os
      · obtain rfl := eq_of_childKey hkey (hi.start_ne_zero (hi.returned hold).1)
        obtain rfl := hi.root_unique (hi.returned hold).1 hsound.1
        exact .inr ⟨_, AList.lookup_insert _, rfl⟩
      · refine (hi.here r pid time pidfd' hold).imp_right ?_
        rintro ⟨slot, hk, hroot⟩
        exact ⟨slot, (AList.lookup_insert_ne hkey).trans hk, hroot⟩

/-- **The slot of a root that was reaped is removed.** -/
theorem Inv.forget (hi : s.Inv) (hr : s.Returned root os pidfd)
    (hreaped : s.procs.isReaped root = true) (hl : s.lock = none) :
    Inv { s with children := s.children.erase (childKey os) } := by
  have he : s.Extends { s with children := s.children.erase (childKey os) } :=
    ⟨.refl _, fun _ _ _ _ h _ => h, fun _ => id⟩
  refine hi.keep he hi.distinct hi.identified hi.starts hi.exposed (fun _ _ _ _ => .inl) hi.roots
    (fun key slot hk => ?_) (fun r pid time pidfd' hr' => ?_) (fun _ _ _ _ => .inl)
    (fun m scope call hm => hi.killSound_of_unlocked hl hm) fun _ => .inl
  · by_cases hkey : key = childKey os
    · subst hkey
      cases (AList.lookup_erase _ _).symm.trans hk
    · exact hi.slots key slot ((AList.lookup_erase_ne hkey).symm.trans hk)
  · by_cases hkey : (pid, time) = childKey os
    · obtain rfl := eq_of_childKey hkey (hi.start_ne_zero (hi.returned hr').1)
      obtain rfl := hi.root_unique (hi.returned hr').1 (hi.returned hr).1
      exact .inl hreaped
    · refine (hi.here r pid time pidfd' hr').imp_right ?_
      rintro ⟨slot, hk, hroot⟩
      exact ⟨slot, (AList.lookup_erase_ne hkey).trans hk, hroot⟩

end SignalState

end Shepherd
