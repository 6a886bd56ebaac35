import Mathlib.Data.Finset.Card
import Shepherd.Backend.PinRuns

/-!
# Quarantined Scopes of the Unix Backend

A root whose OS wait failed may still run, or its number may be recycled, so its scope
admits no new process until the wait succeeds. The backend remembers this in the flag
`wait_failed` of the group of the scope, and `spawn` refuses a scope whose flag is set.

In process-group containment the flag is never lost: the group stays while a root of the
scope is unresolved, because `live` counts exactly these roots. In cgroup containment the
fallback of `spawn` after a failed join removes the group whatever roots it speaks for. A
failure that is published while the scope has no group, or just before a new group
replaces the old one, is forgotten. `flagKept` is the condition that no step does this;
`QuarantineInv` holds in all runs that meet it.
-/

open Std

namespace Shepherd

/-- A call that is about to spawn or store an anchor. -/
def SpawnCall.atAnchor : SpawnCall → Bool
  | .anchoring _ | .storing .. => true
  | _ => false

namespace UnixState

open Conc

variable {s s' : UnixState} {mode : Containment} {c d : ProcessScopeId} {n m root : ℕ}
  {e : GroupEvent}

/-- The last published wait result of a root of the scope is an error. -/
def FailingRoot (c : ProcessScopeId) (root : ℕ) : List GroupEvent → Prop
  | [] => False
  | e :: log => e = .waitFailed c root ∨ (e ≠ .exited c root ∧ FailingRoot c root log)

/-- Some root of the scope is failing. -/
def Failing (c : ProcessScopeId) (log : List GroupEvent) : Prop :=
  ∃ root, FailingRoot c root log

instance decidableFailingRoot (c : ProcessScopeId) (root : ℕ) :
    (log : List GroupEvent) → Decidable (FailingRoot c root log)
  | [] => inferInstanceAs (Decidable False)
  | e :: log =>
      have := decidableFailingRoot c root log
      inferInstanceAs (Decidable (e = .waitFailed c root ∨
        (e ≠ .exited c root ∧ FailingRoot c root log)))

/-- A root is spawned into a scope only while no root of it fails, and a call that returns a
root has spawned it; both until a cleanup of the scope begins. -/
def Quarantined (log : List GroupEvent) : GroupEvent → Prop
  | .forked _ c _ => .cleaning c ∉ log → ¬ Failing c log
  | .spawned n c root => .forked n c root ∈ log
  | _ => True

def LogQuarantined : List GroupEvent → Prop
  | [] => True
  | e :: log => Quarantined log e ∧ LogQuarantined log

/-- An event that is neither a wait result nor the start or the return of a root. -/
def Quiet : GroupEvent → Bool
  | .waitFailed .. | .exited .. | .forked .. | .spawned .. => false
  | _ => true

/-- The live roots that the group of a scope counts. -/
def liveOf (s : UnixState) (c : ProcessScopeId) : ℕ :=
  (s.groups[c]?).elim 0 ScopeGroup.live

/-- The roots of a scope, below a bound, whose exit was not published. -/
def unresolvedIn (children : ℕ → Option Root) (bound : ℕ) (c : ProcessScopeId) : Finset ℕ :=
  (Finset.range bound).filter fun root => children root = some ⟨c, false⟩

/-- The registered roots of a scope whose exit was not published. -/
def unresolved (s : UnixState) (c : ProcessScopeId) : Finset ℕ :=
  unresolvedIn s.children s.nextRoot c

/-- What a call that has spawned a root relies on. -/
structure RootSound (s : UnixState) (n : ℕ) (c : ProcessScopeId) (root : ℕ) : Prop where
  forked : .forked n c root ∈ s.log
  bounded : root < s.nextRoot
  unregistered : s.children root = none

/-- **The invariant**: the flag of a group is set while a root of its scope fails. -/
structure QuarantineInv (s : UnixState) (mode : Containment) : Prop where
  contained : s.mode = mode
  flagged : ∀ c, .cleaning c ∉ s.log → Failing c s.log →
    ∃ group, s.groups[c]? = some group ∧ group.waitFailed = true
  failing : ∀ c root, FailingRoot c root s.log → s.children root = some ⟨c, false⟩
  bounded : ∀ root r, s.children root = some r → root < s.nextRoot
  rootSound : ∀ n c root newGroup, s.spawns n = some (.registering c root newGroup) →
    s.RootSound n c root
  distinct : ∀ n n' c c' root newGroup newGroup',
    s.spawns n = some (.registering c root newGroup) →
    s.spawns n' = some (.registering c' root newGroup') → n = n'
  atAnchor : ∀ n call, s.spawns n = some call → call.atAnchor = true → s.mode = .processGroup
  counted : s.mode = .processGroup → ∀ c, .cleaning c ∉ s.log →
    s.liveOf c = (s.unresolved c).card
  cleaning : ∀ m call c, s.cleanups m = some call → call.scope? = some c → .cleaning c ∈ s.log
  lawful : LogQuarantined s.log

/-- A new backend has no roots. -/
theorem quarantineInv_new (mode : Containment) : (new mode).QuarantineInv mode where
  contained := rfl
  flagged _ _ := fun ⟨_, h⟩ => h.elim
  failing _ _ := False.elim
  bounded := nofun
  rootSound := nofun
  distinct := nofun
  atAnchor := nofun
  counted _ c _ := by simp [liveOf, unresolved, unresolvedIn, new]
  cleaning := nofun
  lawful := trivial

section Unresolved

variable {children : ℕ → Option Root} {bound : ℕ}

/-- The unresolved roots of a scope: those below the bound that are in it, and not resolved. -/
theorem mem_unresolvedIn :
    root ∈ unresolvedIn children bound c ↔ root < bound ∧ children root = some ⟨c, false⟩ := by
  rw [unresolvedIn, Finset.mem_filter, Finset.mem_range]

/-- Registering a root adds it to the unresolved ones of its scope. -/
theorem unresolvedIn_register (hb : root < bound) (hnone : children root = none)
    (d : ProcessScopeId) :
    (unresolvedIn (Function.update children root (some ⟨c, false⟩)) bound d).card =
      (unresolvedIn children bound d).card + if c = d then 1 else 0 := by
  have hnot : root ∉ unresolvedIn children bound d := by
    rw [mem_unresolvedIn, hnone]
    exact fun h => absurd h.2 nofun
  have hset : unresolvedIn (Function.update children root (some ⟨c, false⟩)) bound d =
      if c = d then insert root (unresolvedIn children bound d)
      else unresolvedIn children bound d := by
    ext r
    rw [mem_unresolvedIn]
    by_cases hr : r = root
    · subst hr
      by_cases hd : c = d
      · simp [hd, hb]
      · simp [hd, hnot]
    · rw [Function.update_of_ne hr, ← mem_unresolvedIn]
      split
      · simp [hr]
      · rfl
  rw [hset]
  split
  · exact Finset.card_insert_of_notMem hnot
  · rfl

/-- Resolving a root takes it from the unresolved ones of its scope. -/
theorem unresolvedIn_resolve (hb : root < bound) (hsome : children root = some ⟨c, false⟩)
    (d : ProcessScopeId) :
    (unresolvedIn (Function.update children root (some ⟨c, true⟩)) bound d).card =
      (unresolvedIn children bound d).card - if c = d then 1 else 0 := by
  have hset : unresolvedIn (Function.update children root (some ⟨c, true⟩)) bound d =
      if c = d then (unresolvedIn children bound d).erase root
      else unresolvedIn children bound d := by
    ext r
    rw [mem_unresolvedIn]
    by_cases hr : r = root
    · subst hr
      by_cases hd : c = d
      · simp [hd]
      · simp [hd, mem_unresolvedIn, hsome]
    · rw [Function.update_of_ne hr, ← mem_unresolvedIn]
      split
      · simp [hr]
      · rfl
  rw [hset]
  split
  · next hd => exact Finset.card_erase_of_mem (mem_unresolvedIn.mpr ⟨hb, hd ▸ hsome⟩)
  · rfl

end Unresolved

namespace QuarantineInv

/-! ### What leaves groups and roots alone -/

/-- A quiet event changes nothing. -/
theorem record (h : s.QuarantineInv mode) (e : GroupEvent) (he : Quiet e = true) :
    (s.record e).QuarantineInv mode := by
  have hback : ∀ {c root}, FailingRoot c root (e :: s.log) → FailingRoot c root s.log := by
    rintro c root (rfl | ⟨-, hf⟩)
    · exact absurd he (by simp [Quiet])
    · exact hf
  have hclean : ∀ {c}, .cleaning c ∉ e :: s.log → .cleaning c ∉ s.log :=
    fun hc hm => hc (List.mem_cons_of_mem e hm)
  refine { h with
    flagged := fun c hc ⟨root, hf⟩ => h.flagged c (hclean hc) ⟨root, hback hf⟩
    failing := fun c root hf => h.failing c root (hback hf)
    rootSound := fun n c root newGroup hn => ?_
    counted := fun hm c hc => h.counted hm c (hclean hc)
    cleaning := fun m call c hm hc => List.mem_cons_of_mem e (h.cleaning m call c hm hc)
    lawful := ⟨?_, h.lawful⟩ }
  · have hs := h.rootSound n c root newGroup hn
    exact ⟨List.mem_cons_of_mem e hs.forked, hs.bounded, hs.unregistered⟩
  · cases e with
    | forked => exact absurd he (by simp [Quiet])
    | spawned => exact absurd he (by simp [Quiet])
    | _ => trivial

/-- A call that has not spawned a root yet moves, or any call ends. -/
theorem toSpawn (h : s.QuarantineInv mode) {call : SpawnCall}
    (hreg : ∀ c root newGroup, call ≠ .registering c root newGroup)
    (hanchor : call.atAnchor = true → s.mode = .processGroup) :
    (s.toSpawn n call).QuarantineInv mode := by
  have hback : ∀ {n' c root newGroup},
      (s.toSpawn n call).spawns n' = some (.registering c root newGroup) →
      s.spawns n' = some (.registering c root newGroup) := by
    intro n' c root newGroup hn'
    by_cases he : n' = n
    · subst he
      rw [toSpawn_self] at hn'
      exact absurd (Option.some.inj hn') (hreg c root newGroup)
    · rw [toSpawn_of_ne he] at hn'
      exact hn'
  refine { h with
    rootSound := fun n' c root newGroup hn' =>
      { h.rootSound n' c root newGroup (hback hn') with }
    distinct := fun n₁ n₂ c₁ c₂ root g₁ g₂ h₁ h₂ =>
      h.distinct n₁ n₂ c₁ c₂ root g₁ g₂ (hback h₁) (hback h₂)
    atAnchor := fun n' call' hn' ha => ?_ }
  by_cases he : n' = n
  · subst he
    rw [toSpawn_self] at hn'
    obtain rfl := Option.some.inj hn'
    exact hanchor ha
  · rw [toSpawn_of_ne he] at hn'
    exact h.atAnchor n' call' hn' ha

/-- The end of a spawn changes no group. -/
theorem endSpawn (h : s.QuarantineInv mode) (n : ℕ) (c : ProcessScopeId) :
    (s.endSpawn n c).QuarantineInv mode := by
  have hmove : (s.toSpawn n .returned).QuarantineInv mode := h.toSpawn nofun nofun
  exact { hmove with
    rootSound := fun n' c root newGroup hn' =>
      { hmove.rootSound n' c root newGroup hn' with } }

/-- A refusal changes no group. -/
theorem refuse (h : s.QuarantineInv mode) (n : ℕ) (c : ProcessScopeId) :
    (s.refuse n c).QuarantineInv mode :=
  (h.endSpawn n c).record _ rfl

/-- Fields that the invariant does not read. -/
theorem frame (h : s.QuarantineInv mode) (hmode : s'.mode = s.mode) (hgroups : s'.groups = s.groups)
    (hchildren : s'.children = s.children) (hroot : s'.nextRoot = s.nextRoot)
    (hspawns : s'.spawns = s.spawns) (hcleanups : s'.cleanups = s.cleanups)
    (hlog : s'.log = s.log) : s'.QuarantineInv mode where
  contained := hmode.trans h.contained
  flagged := by rw [hgroups, hlog]; exact h.flagged
  failing := by rw [hchildren, hlog]; exact h.failing
  bounded := by rw [hchildren, hroot]; exact h.bounded
  rootSound n c root newGroup hn := by
    rw [hspawns] at hn
    have hs := h.rootSound n c root newGroup hn
    exact ⟨hlog ▸ hs.forked, hroot ▸ hs.bounded, hchildren ▸ hs.unregistered⟩
  distinct := by rw [hspawns]; exact h.distinct
  atAnchor := by rw [hspawns, hmode]; exact h.atAnchor
  counted hm c hc := by
    rw [hlog] at hc
    rw [hmode] at hm
    simp only [liveOf, unresolved, hgroups, hchildren, hroot]
    exact h.counted hm c hc
  cleaning := by rw [hcleanups, hlog]; exact h.cleaning
  lawful := by rw [hlog]; exact h.lawful

/-- A kill of a group closes its scope when `SIGKILL` was sent. -/
theorem killGroup (h : s.QuarantineInv mode) (c : ProcessScopeId) (group : ScopeGroup)
    (signal : NixSignal) (answer : KillAnswer) :
    (s.killGroup c group signal answer).1.QuarantineInv mode := by
  have hsignal := h.record (.signalled c group.pgid (s.pins c group.pgid)) rfl
  rw [UnixState.killGroup]
  split
  · exact hsignal
  · split
    · exact (hsignal.record (.killed c) rfl).frame rfl rfl rfl rfl rfl rfl rfl
    · exact hsignal

/-- A signal to the group of a scope, if there is one. -/
theorem signalGroup (h : s.QuarantineInv mode) (c : ProcessScopeId) (signal : NixSignal)
    (answer : KillAnswer) : (s.signalGroup c signal answer).1.QuarantineInv mode := by
  rw [UnixState.signalGroup]
  split
  · exact h
  · next group _ =>
      split
      · split
        · exact h
        · exact h.killGroup c group signal answer
      · split
        · exact h
        · split
          · exact h
          · exact h.killGroup c group signal answer

/-- A signal to a scope, if it is known and the signal has a number. -/
theorem signalScope (h : s.QuarantineInv mode) (c : ProcessScopeId) (signal : Signal)
    (known : Bool) (answer : KillAnswer) :
    (s.signalScope c signal known answer).1.QuarantineInv mode := by
  rw [UnixState.signalScope]
  split
  · exact h
  · split
    · exact h
    · next number _ => exact h.signalGroup c number answer

/-- A hard kill of a scope. -/
theorem hardKillScope (h : s.QuarantineInv mode) (c : ProcessScopeId) (answer : KillAnswer) :
    (s.hardKillScope c answer).QuarantineInv mode := by
  rw [UnixState.hardKillScope]
  split
  · exact h
  · exact h.signalGroup c .SIGKILL answer

/-- A hard kill of all scopes; by induction on the groups. -/
theorem hardKillAll (h : s.QuarantineInv mode) (answers : List (ProcessScopeId × KillAnswer)) :
    (s.hardKillAll answers).QuarantineInv mode := by
  rw [UnixState.hardKillAll]
  split
  · exact h
  · clear * - h
    induction answers generalizing s with
    | nil => exact h
    | cons a answers ih => exact ih (h.signalGroup a.1 .SIGKILL a.2)

/-- The worker of an anchor that is dropped changes no group. -/
theorem dropWorker (h : s.QuarantineInv mode) (child : ℕ) (a : AnchorChild) :
    (s.dropWorker child a).QuarantineInv mode := by
  have hkilled := (h.record (.signalled a.scope a.pgid (s.pins a.scope a.pgid)) rfl).record
    (.killed a.scope) rfl
  rw [UnixState.dropWorker]
  split
  · split
    · exact hkilled.frame rfl rfl rfl rfl rfl rfl rfl
    · exact hkilled.frame rfl rfl rfl rfl rfl rfl rfl
  · exact hkilled.frame rfl rfl rfl rfl rfl rfl rfl

/-! ### Groups -/

/-- The entry of a scope changes, and speaks for the same roots. -/
theorem setGroups (h : s.QuarantineInv mode) {groups : ExtTreeMap ProcessScopeId ScopeGroup}
    (hne : ∀ d : ProcessScopeId, d ≠ c → groups[d]? = s.groups[d]?)
    (hflag : .cleaning c ∉ s.log → Failing c s.log →
      ∃ group : ScopeGroup, groups[c]? = some group ∧ group.waitFailed = true)
    (hlive : s.mode = .processGroup → .cleaning c ∉ s.log →
      (groups[c]?).elim 0 ScopeGroup.live = s.liveOf c) :
    ({ s with groups := groups } : UnixState).QuarantineInv mode := by
  refine { h with
    flagged := fun d hd hf => ?_
    rootSound := fun n d root newGroup hn => { h.rootSound n d root newGroup hn with }
    counted := fun hm d hd => ?_ }
  · by_cases hdc : d = c
    · subst hdc
      exact hflag hd hf
    · rw [hne d hdc]
      exact h.flagged d hd hf
  · have hcount := h.counted hm d hd
    by_cases hdc : d = c
    · subst hdc
      exact (hlive hm hd).trans hcount
    · rw [liveOf, hne d hdc]
      exact hcount

/-- The group of a scope without failing roots is given up. -/
theorem eraseGroup (h : s.QuarantineInv mode) (hflag : .cleaning c ∉ s.log → ¬ Failing c s.log)
    (hlive : s.mode = .processGroup → .cleaning c ∉ s.log → s.liveOf c = 0) :
    ({ s with groups := s.groups.erase c } : UnixState).QuarantineInv mode := by
  refine h.setGroups (c := c) (fun d hd => ?_) (fun hc hf => absurd hf (hflag hc)) fun hm hc => ?_
  · exact (getElem?_erase ..).trans (if_neg (Ne.symm hd))
  · rw [hlive hm hc, getElem?_erase, if_pos rfl]
    rfl

/-- A group is stored that keeps the flag and the count. -/
theorem insertGroup (h : s.QuarantineInv mode) {group : ScopeGroup}
    (hflag : .cleaning c ∉ s.log → Failing c s.log → group.waitFailed = true)
    (hlive : s.mode = .processGroup → .cleaning c ∉ s.log → group.live = s.liveOf c) :
    ({ s with groups := s.groups.insert c group } : UnixState).QuarantineInv mode := by
  refine h.setGroups (c := c) (fun d hd => ?_) (fun hc hf => ?_) fun hm hc => ?_
  · exact (getElem?_insert ..).trans (if_neg (Ne.symm hd))
  · exact ⟨group, (getElem?_insert ..).trans (if_pos rfl), hflag hc hf⟩
  · rw [getElem?_insert, if_pos rfl]
    exact hlive hm hc

/-- A scope whose flag is not set has no failing root. -/
theorem not_failing (h : s.QuarantineInv mode)
    (hflag : ¬ (s.groups[c]?).any ScopeGroup.waitFailed = true) (hc : .cleaning c ∉ s.log) :
    ¬ Failing c s.log := by
  intro hf
  obtain ⟨group, hg, hw⟩ := h.flagged c hc hf
  rw [hg] at hflag
  exact hflag hw

/-- In process-group containment a scope with unresolved roots has live roots. -/
theorem live_pos (h : s.QuarantineInv mode) (hm : s.mode = .processGroup) (hc : .cleaning c ∉ s.log)
    (hr : s.children root = some ⟨c, false⟩) : 0 < s.liveOf c := by
  rw [h.counted hm c hc]
  exact Finset.card_pos.mpr ⟨root, mem_unresolvedIn.mpr ⟨h.bounded root _ hr, hr⟩⟩

/-! ### Roots -/

/-- A root is spawned into a scope without failing roots. -/
theorem fork (h : s.QuarantineInv mode) (hf : .cleaning c ∉ s.log → ¬ Failing c s.log)
    (newGroup : Bool) : (s.fork n c newGroup).QuarantineInv mode := by
  have hback : ∀ {d root}, FailingRoot d root (.forked n c s.nextRoot :: s.log) →
      FailingRoot d root s.log := by
    rintro d root (he | ⟨-, hf⟩)
    · exact absurd he (by simp)
    · exact hf
  have hclean : ∀ {d}, .cleaning d ∉ .forked n c s.nextRoot :: s.log → .cleaning d ∉ s.log :=
    fun hd hm => hd (List.mem_cons_of_mem _ hm)
  have hunborn : s.children s.nextRoot = none := by
    by_contra hne
    obtain ⟨r, hr⟩ := Option.ne_none_iff_exists'.mp hne
    exact absurd (h.bounded _ r hr) (Nat.lt_irrefl _)
  have hcases : ∀ {n' d root newGroup'},
      (s.fork n c newGroup).spawns n' = some (.registering d root newGroup') →
      (n' = n ∧ d = c ∧ root = s.nextRoot) ∨
        (n' ≠ n ∧ s.spawns n' = some (.registering d root newGroup')) := by
    intro n' d root newGroup' hn'
    by_cases he : n' = n
    · subst he
      have hself := (toSpawn_self _ n' (.registering c s.nextRoot newGroup)).symm.trans hn'
      obtain ⟨rfl, rfl, -⟩ := SpawnCall.registering.inj (Option.some.inj hself)
      exact .inl ⟨rfl, rfl, rfl⟩
    · exact .inr ⟨he, (toSpawn_of_ne he ..).symm.trans hn'⟩
  refine { h with
    flagged := fun d hd ⟨root, hr⟩ => h.flagged d (hclean hd) ⟨root, hback hr⟩
    failing := fun d root hr => h.failing d root (hback hr)
    bounded := fun root r hr => Nat.lt_succ_of_lt (h.bounded root r hr)
    rootSound := fun n' d root newGroup' hn' => ?_
    distinct := fun n₁ n₂ c₁ c₂ root g₁ g₂ h₁ h₂ => ?_
    atAnchor := fun n' call hn' ha => ?_
    counted := fun hm d hd => ?_
    cleaning := fun m call d hm hd => List.mem_cons_of_mem _ (h.cleaning m call d hm hd)
    lawful := ⟨hf, h.lawful⟩ }
  · rcases hcases hn' with ⟨rfl, rfl, rfl⟩ | ⟨-, hn'⟩
    · exact ⟨List.mem_cons_self .., Nat.lt_succ_self _, hunborn⟩
    · have hs := h.rootSound n' d root newGroup' hn'
      exact ⟨List.mem_cons_of_mem _ hs.forked, Nat.lt_succ_of_lt hs.bounded, hs.unregistered⟩
  · rcases hcases h₁ with ⟨rfl, -, rfl⟩ | ⟨-, h₁'⟩
    · rcases hcases h₂ with ⟨rfl, -, -⟩ | ⟨-, h₂'⟩
      · rfl
      · exact absurd (h.rootSound _ _ _ _ h₂').bounded (Nat.lt_irrefl _)
    · rcases hcases h₂ with ⟨rfl, -, rfl⟩ | ⟨-, h₂'⟩
      · exact absurd (h.rootSound _ _ _ _ h₁').bounded (Nat.lt_irrefl _)
      · exact h.distinct n₁ n₂ c₁ c₂ root g₁ g₂ h₁' h₂'
  · by_cases he : n' = n
    · subst he
      obtain rfl := Option.some.inj ((toSpawn_self ..).symm.trans hn')
      exact absurd ha (by simp [SpawnCall.atAnchor])
    · exact h.atAnchor n' call ((toSpawn_of_ne he ..).symm.trans hn') ha
  · have hcount := h.counted hm d (hclean hd)
    have hsame : (s.fork n c newGroup).unresolved d = s.unresolved d := by
      change unresolvedIn s.children (s.nextRoot + 1) d = unresolvedIn s.children s.nextRoot d
      rw [unresolvedIn, Finset.range_add_one, Finset.filter_insert, hunborn, if_neg nofun]
      rfl
    rw [hsame]
    exact hcount

/-- A call registers its root, in the group of its scope or in a new one, and returns. Until then
nobody but the call knows the root. -/
theorem register (h : s.QuarantineInv mode) {newGroup : Bool} {group : ScopeGroup}
    (hcall : s.spawns n = some (.registering c root newGroup))
    (hflag : .cleaning c ∉ s.log → Failing c s.log → group.waitFailed = true)
    (hlive : s.mode = .processGroup → .cleaning c ∉ s.log → group.live = s.liveOf c + 1) :
    (((({ s with
      children := Function.update s.children root (some ⟨c, false⟩)
      groups := s.groups.insert c group } : UnixState).record (.registered c root)).endSpawn n
        c).record (.spawned n c root)).QuarantineInv mode := by
  obtain ⟨hforked, hbound, hnone⟩ := h.rootSound n c root newGroup hcall
  have hback : ∀ {d root'},
      FailingRoot d root' (.spawned n c root :: .registered c root :: s.log) →
      FailingRoot d root' s.log := by
    rintro d root' (he | ⟨-, he | ⟨-, hf⟩⟩)
    · exact absurd he (by simp)
    · exact absurd he (by simp)
    · exact hf
  have hclean : ∀ {d}, .cleaning d ∉ .spawned n c root :: .registered c root :: s.log →
      .cleaning d ∉ s.log :=
    fun hd hm => hd (List.mem_cons_of_mem _ (List.mem_cons_of_mem _ hm))
  have hother : ∀ {n' d root' newGroup'}, Function.update s.spawns n (some .returned) n' =
      some (.registering d root' newGroup') →
      s.spawns n' = some (.registering d root' newGroup') ∧ root' ≠ root := by
    intro n' d root' newGroup' hn'
    by_cases he : n' = n
    · subst he
      rw [Function.update_self] at hn'
      exact absurd (Option.some.inj hn') nofun
    · rw [Function.update_of_ne he] at hn'
      refine ⟨hn', ?_⟩
      rintro rfl
      exact he (h.distinct n' n d c root' newGroup' newGroup hn' hcall)
  have hkeep : ∀ {root'}, root' ≠ root →
      Function.update s.children root (some ⟨c, false⟩) root' = s.children root' :=
    fun hne => Function.update_of_ne hne ..
  refine ⟨h.contained, fun d hd ⟨root', hf⟩ => ?_, fun d root' hf => ?_, fun root' r hr => ?_,
    fun n' d root' newGroup' hn' => ?_, fun n₁ n₂ c₁ c₂ root' g₁ g₂ h₁ h₂ => ?_,
    fun n' call hn' ha => ?_, fun hm d hd => ?_, fun m call d hm hd => ?_, ?_⟩
  · have hfail : Failing d s.log := ⟨root', hback hf⟩
    by_cases hdc : c = d
    · subst hdc
      exact ⟨group, (getElem?_insert ..).trans (if_pos rfl), hflag (hclean hd) hfail⟩
    · obtain ⟨group', hg, hw⟩ := h.flagged d (hclean hd) hfail
      exact ⟨group', (getElem?_insert ..).trans ((if_neg hdc).trans hg), hw⟩
  · have hr := h.failing d root' (hback hf)
    have hne : root' ≠ root := by
      rintro rfl
      exact absurd (hnone.symm.trans hr) nofun
    exact (hkeep hne).trans hr
  · by_cases hne : root' = root
    · exact hne ▸ hbound
    · exact h.bounded root' r ((hkeep hne).symm.trans hr)
  · obtain ⟨hn', hne⟩ := hother hn'
    have hs := h.rootSound n' d root' newGroup' hn'
    exact ⟨List.mem_cons_of_mem _ (List.mem_cons_of_mem _ hs.forked), hs.bounded,
      (hkeep hne).trans hs.unregistered⟩
  · exact h.distinct n₁ n₂ c₁ c₂ root' g₁ g₂ (hother h₁).1 (hother h₂).1
  · by_cases he : n' = n
    · subst he
      obtain rfl := Option.some.inj ((Function.update_self n' _ s.spawns).symm.trans hn')
      exact absurd ha (by simp [SpawnCall.atAnchor])
    · exact h.atAnchor n' call ((Function.update_of_ne he ..).symm.trans hn') ha
  · refine Eq.trans ?_ (unresolvedIn_register hbound hnone d).symm
    change _ = (s.unresolved d).card + _
    rw [← h.counted hm d (hclean hd)]
    by_cases hdc : c = d
    · subst hdc
      rw [if_pos rfl, ← hlive hm (hclean hd)]
      exact congrArg (Option.elim · 0 ScopeGroup.live)
        ((getElem?_insert s.groups c c group).trans (if_pos rfl))
    · rw [if_neg hdc]
      exact congrArg (Option.elim · 0 ScopeGroup.live)
        ((getElem?_insert s.groups c d group).trans (if_neg hdc))
  · exact List.mem_cons_of_mem _ (List.mem_cons_of_mem _ (h.cleaning m call d hm hd))
  · exact ⟨List.mem_cons_of_mem _ hforked, trivial, h.lawful⟩

/-- The wait for a root fails, and the flag of its scope is set. -/
theorem recordFailed (h : s.QuarantineInv mode) (hr : s.children root = some ⟨c, false⟩)
    (hflag : .cleaning c ∉ s.log → ∃ group, s.groups[c]? = some group ∧ group.waitFailed = true) :
    (s.record (.waitFailed c root)).QuarantineInv mode := by
  have hback : ∀ {d root'}, FailingRoot d root' (.waitFailed c root :: s.log) →
      (d = c ∧ root' = root) ∨ FailingRoot d root' s.log := by
    rintro d root' (he | ⟨-, hf⟩)
    · obtain ⟨rfl, rfl⟩ := GroupEvent.waitFailed.inj he
      exact .inl ⟨rfl, rfl⟩
    · exact .inr hf
  have hclean : ∀ {d}, .cleaning d ∉ .waitFailed c root :: s.log → .cleaning d ∉ s.log :=
    fun hd hm => hd (List.mem_cons_of_mem _ hm)
  refine { h with
    flagged := fun d hd ⟨root', hf⟩ => ?_
    failing := fun d root' hf => ?_
    rootSound := fun n d root' newGroup hn => ?_
    counted := fun hm d hd => h.counted hm d (hclean hd)
    cleaning := fun m call d hm hd => List.mem_cons_of_mem _ (h.cleaning m call d hm hd)
    lawful := ⟨trivial, h.lawful⟩ }
  · rcases hback hf with ⟨rfl, -⟩ | hf
    · exact hflag (hclean hd)
    · exact h.flagged d (hclean hd) ⟨root', hf⟩
  · rcases hback hf with ⟨rfl, rfl⟩ | hf
    · exact hr
    · exact h.failing d root' hf
  · have hs := h.rootSound n d root' newGroup hn
    exact ⟨List.mem_cons_of_mem _ hs.forked, hs.bounded, hs.unregistered⟩

/-- The exit of a root is published. -/
theorem resolve (h : s.QuarantineInv mode) (hr : s.children root = some ⟨c, false⟩)
    {groups : ExtTreeMap ProcessScopeId ScopeGroup}
    (hne : ∀ d : ProcessScopeId, d ≠ c → groups[d]? = s.groups[d]?)
    (hflag : ∀ group, s.groups[c]? = some group →
      ∃ group' : ScopeGroup, groups[c]? = some group' ∧ group'.waitFailed = group.waitFailed)
    (hlive : (groups[c]?).elim 0 ScopeGroup.live = s.liveOf c - 1) :
    (({ s with
      groups := groups
      children := Function.update s.children root (some ⟨c, true⟩) } : UnixState).record
        (.exited c root)).QuarantineInv mode := by
  have hback : ∀ {d root'}, FailingRoot d root' (.exited c root :: s.log) →
      FailingRoot d root' s.log ∧ root' ≠ root := by
    rintro d root' (he | ⟨hx, hf⟩)
    · exact absurd he (by simp)
    · refine ⟨hf, ?_⟩
      rintro rfl
      obtain rfl := (Root.mk.inj (Option.some.inj ((h.failing d root' hf).symm.trans hr))).1
      exact hx rfl
  have hclean : ∀ {d}, .cleaning d ∉ .exited c root :: s.log → .cleaning d ∉ s.log :=
    fun hd hm => hd (List.mem_cons_of_mem _ hm)
  have hkeep : ∀ {root'}, root' ≠ root →
      Function.update s.children root (some ⟨c, true⟩) root' = s.children root' :=
    fun hne => Function.update_of_ne hne ..
  refine { h with
    flagged := fun d hd ⟨root', hf⟩ => ?_
    failing := fun d root' hf => (hkeep (hback hf).2).trans (h.failing d root' (hback hf).1)
    bounded := fun root' r hr' => ?_
    rootSound := fun n d root' newGroup hn => ?_
    counted := fun hm d hd => ?_
    cleaning := fun m call d hm hd => List.mem_cons_of_mem _ (h.cleaning m call d hm hd)
    lawful := ⟨trivial, h.lawful⟩ }
  · obtain ⟨group, hg, hw⟩ := h.flagged d (hclean hd) ⟨root', (hback hf).1⟩
    by_cases hdc : d = c
    · subst hdc
      obtain ⟨group', hg', hw'⟩ := hflag group hg
      exact ⟨group', hg', hw'.trans hw⟩
    · exact ⟨group, (hne d hdc).trans hg, hw⟩
  · by_cases he : root' = root
    · exact he ▸ h.bounded root _ hr
    · exact h.bounded root' r ((hkeep he).symm.trans hr')
  · have hs := h.rootSound n d root' newGroup hn
    have he : root' ≠ root := by
      rintro rfl
      exact absurd (hs.unregistered.symm.trans hr) nofun
    exact ⟨List.mem_cons_of_mem _ hs.forked, hs.bounded, (hkeep he).trans hs.unregistered⟩
  · refine Eq.trans ?_ (unresolvedIn_resolve (h.bounded root _ hr) hr d).symm
    change _ = (s.unresolved d).card - _
    rw [← h.counted hm d (hclean hd)]
    by_cases hdc : c = d
    · subst hdc
      rw [if_pos rfl]
      exact hlive
    · rw [if_neg hdc]
      exact congrArg (Option.elim · 0 ScopeGroup.live) (hne d (Ne.symm hdc))

/-! ### Steps -/

/-- `publish_wait_result`; a failure finds the group of its scope. -/
theorem publishWaitResult (h : s.QuarantineInv mode) {r : Root} {ok : Bool}
    (hr : s.children root = some r) (hx : ¬ r.exited = true)
    (hkept : ok = false → .cleaning r.scope ∉ s.log → (s.groups[r.scope]?).isSome = true) :
    (s.publishWaitResult root r ok).QuarantineInv mode := by
  obtain ⟨c, exited⟩ := r
  obtain rfl := Bool.eq_false_iff.mpr hx
  rw [UnixState.publishWaitResult]
  cases ok with
  | true =>
      cases hg : s.groups[c]? with
      | none =>
          refine h.resolve hr (fun _ _ => rfl) (fun group hg' => ?_) ?_
          · cases hg.symm.trans hg'
          · rw [liveOf, hg]
            rfl
      | some group =>
          refine h.resolve hr (fun d hd => ?_) (fun group' hg' => ?_) ?_
          · exact (getElem?_insert ..).trans (if_neg (Ne.symm hd))
          · obtain rfl := Option.some.inj (hg.symm.trans hg')
            exact ⟨_, (getElem?_insert ..).trans (if_pos rfl), rfl⟩
          · rw [getElem?_insert, if_pos rfl, liveOf, hg]
            rfl
  | false =>
      have hsame : Function.update s.children root (some ⟨c, false⟩) = s.children := by
        rw [← hr, Function.update_eq_self]
      cases hg : s.groups[c]? with
      | none =>
          simp only [hsame]
          refine h.recordFailed hr fun hc => ?_
          have hsome := hkept rfl hc
          rw [hg] at hsome
          exact absurd hsome (by decide)
      | some group =>
          simp only [hsame]
          have hset : ({ s with
              groups := s.groups.insert c { group with waitFailed := true } } :
                UnixState).QuarantineInv mode :=
            h.insertGroup (fun _ _ => rfl) (fun _ _ => by rw [liveOf, hg]; rfl)
          exact hset.recordFailed hr fun _ => ⟨_, (getElem?_insert ..).trans (if_pos rfl), rfl⟩

/-- An anchor that exited is given up only with a group that has no live root. -/
theorem ensureAnchor (h : s.QuarantineInv mode) {os : SpawnAnswer}
    (hs : s.ensureAnchor n c os = some s') : s'.QuarantineInv mode := by
  have hrefuse := h.refuse n c
  rw [UnixState.ensureAnchor] at hs
  split at hs
  · obtain rfl := Option.some.inj hs
    split
    · exact h.toSpawn (by rintro _ _ _ ⟨⟩) (by rintro ⟨⟩)
    · exact hrefuse
  · next hmode =>
      have hpg : s.mode = .processGroup := by
        cases hm : s.mode with
        | cgroupV2 => exact absurd hm hmode
        | processGroup => rfl
      split at hs
      · obtain rfl := Option.some.inj hs
        exact h.toSpawn (by rintro _ _ _ ⟨⟩) fun _ => hpg
      · split at hs
        · obtain rfl := Option.some.inj hs
          exact hrefuse
        · split at hs
          · obtain rfl := Option.some.inj hs
            exact h.toSpawn (by rintro _ _ _ ⟨⟩) (by rintro ⟨⟩)
          · obtain rfl := Option.some.inj hs
            exact hrefuse
          · split at hs
            · cases hs
            · next group hg =>
                split at hs
                · obtain rfl := Option.some.inj hs
                  exact hrefuse
                · next hempty =>
                    obtain rfl := Option.some.inj hs
                    have hlive : s.liveOf c = 0 := by
                      rw [liveOf, hg]
                      by_contra hne
                      exact hempty (by simpa using .inl hne)
                    have herase := h.eraseGroup (c := c)
                      (fun hc hf => absurd hlive
                        (Nat.ne_of_gt (h.live_pos hpg hc (h.failing c _ hf.choose_spec))))
                      (fun _ _ => hlive)
                    have hanchors : ({ s with
                        anchors := s.anchors.erase c
                        groups := s.groups.erase c } : UnixState).QuarantineInv mode :=
                      herase.frame rfl rfl rfl rfl rfl rfl rfl
                    exact hanchors.toSpawn (by rintro _ _ _ ⟨⟩) fun _ => hpg

/-- A new anchor opens a group without roots. -/
theorem spawnAnchor (h : s.QuarantineInv mode) (hcall : s.spawns n = some (.anchoring c))
    {os : SpawnAnswer} (hs : s.spawnAnchor n c os = some s') : s'.QuarantineInv mode := by
  rw [UnixState.spawnAnchor] at hs
  split at hs
  · obtain rfl := Option.some.inj hs
    exact h.refuse n c
  · rw [Option.ite_none_right_eq_some] at hs
    obtain rfl := Option.some.inj hs.2
    have hmove : (s.toSpawn n (.storing c s.nextAnchor)).QuarantineInv mode :=
      h.toSpawn (by rintro _ _ _ ⟨⟩) fun _ => h.atAnchor n _ hcall rfl
    exact hmove.frame rfl rfl rfl rfl rfl rfl rfl

/-- A new anchor is stored where there was no group. -/
theorem storeAnchor (h : s.QuarantineInv mode) (hinv : s.mode = .processGroup → s.Inv)
    {child : ℕ} (hcall : s.spawns n = some (.storing c child))
    (hs : s.storeAnchor n c child = some s') : s'.QuarantineInv mode := by
  have hi := hinv (h.atAnchor n _ hcall rfl)
  obtain ⟨-, -, hnone, -⟩ := hi.spawnSound n _ hcall
  have hgroup : s.groups[c]? = none := by
    have hpair := hi.paired c
    rw [hnone] at hpair
    exact Option.not_isSome_iff_eq_none.mp (by rw [hpair]; decide)
  obtain ⟨a, -, rfl⟩ := Option.map_eq_some_iff.mp hs
  have hset : ({ s with
      groups := s.groups.insert c ⟨a.pgid, 0, false⟩ } : UnixState).QuarantineInv mode := by
    refine h.insertGroup (fun hc hf => ?_) fun _ _ => ?_
    · obtain ⟨group, hg, -⟩ := h.flagged c hc hf
      exact absurd (hgroup.symm.trans hg) nofun
    · rw [liveOf, hgroup]
      rfl
  have hmove : (({ s with groups := s.groups.insert c ⟨a.pgid, 0, false⟩ } :
      UnixState).toSpawn n (.joining c)).QuarantineInv mode := hset.toSpawn nofun nofun
  exact hmove.frame rfl rfl rfl rfl rfl rfl rfl

/-- The critical section of `spawn`: it goes on only in a scope whose flag is not set. -/
theorem spawnRoot (h : s.QuarantineInv mode) (hinv : s.mode = .processGroup → s.Inv)
    (hcall : s.spawns n = some (.joining c)) (os : SpawnAnswer) :
    (s.spawnRoot n c os).QuarantineInv mode := by
  rw [UnixState.spawnRoot]
  split
  · exact h.refuse n c
  · next hflag =>
      have hfail := h.not_failing hflag
      split
      · exact h.toSpawn (by rintro _ _ _ ⟨⟩) (by rintro ⟨⟩)
      · split
        · split
          · exact h.fork hfail true
          · exact h.refuse n c
        · next pgid _ =>
            have hjoin := h.record (.joined c pgid (s.pins c pgid)) rfl
            have hfail' : .cleaning c ∉ .joined c pgid (s.pins c pgid) :: s.log →
                ¬ Failing c (.joined c pgid (s.pins c pgid) :: s.log) := by
              rintro hc ⟨root, he | ⟨-, hf⟩⟩
              · exact absurd he (by simp)
              · exact hfail (fun hm => hc (List.mem_cons_of_mem _ hm)) ⟨root, hf⟩
            dsimp only
            split
            · exact hjoin.fork hfail' false
            · split
              · exact hjoin.refuse n c
              · next hno =>
                  have herase := hjoin.eraseGroup hfail' fun hm _ => by
                    have hsome := ((hinv hm).spawnSound n _ hcall).2.2
                    exact absurd ((ExtTreeMap.contains_eq_isSome_getElem? ..).trans hsome) hno
                  split
                  · exact herase.fork hfail' true
                  · exact herase.refuse n c

/-- `register_child`; a new group does not replace one whose flag is set. -/
theorem registerChild (h : s.QuarantineInv mode) (hinv : s.mode = .processGroup → s.Inv)
    {newGroup : Bool} (hcall : s.spawns n = some (.registering c root newGroup))
    (os : SpawnAnswer)
    (hkept : newGroup = true → .cleaning c ∉ s.log → ¬ Failing c s.log) :
    (s.registerChild n c root newGroup os).QuarantineInv mode := by
  have hold : s.mode = .processGroup →
      (∃ group, s.groups[c]? = some group) ∧ newGroup = false := by
    intro hm
    obtain ⟨-, -, hsome, hnew, -⟩ := (hinv hm).spawnSound n _ hcall
    exact ⟨Option.isSome_iff_exists.mp (((hinv hm).paired c).trans hsome), hnew⟩
  have hnone : s.groups[c]? = none → .cleaning c ∉ s.log → ¬ Failing c s.log := by
    intro hg hc hf
    obtain ⟨group, hg', -⟩ := h.flagged c hc hf
    cases hg.symm.trans hg'
  cases newGroup with
  | true =>
      simp only [UnixState.registerChild]
      split
      · exact h.refuse n c
      · exact h.register hcall (fun hc hf => absurd hf (hkept rfl hc))
          fun hm => (by cases (hold hm).2)
  | false =>
      cases hg : s.groups[c]? with
      | none =>
          simp only [UnixState.registerChild, hg]
          split
          · exact h.refuse n c
          · refine h.register hcall (fun hc hf => absurd hf (hnone hg hc)) fun hm => ?_
            obtain ⟨group, hg'⟩ := (hold hm).1
            cases hg.symm.trans hg'
      | some group =>
          simp only [UnixState.registerChild, hg]
          split
          · exact h.refuse n c
          · refine h.register hcall (fun hc hf => ?_) fun _ _ => ?_
            · obtain ⟨group', hg', hw⟩ := h.flagged c hc hf
              obtain rfl := Option.some.inj (hg.symm.trans hg')
              exact hw
            · rw [liveOf, hg]
              rfl

/-- The steps of a cleanup call; the scope is being cleaned up, so nothing is asked of it. -/
theorem toCleanup (h : s.QuarantineInv mode) {call : CleanupCall}
    (hscope : ∀ c, call.scope? = some c → .cleaning c ∈ s.log) :
    (s.toCleanup m call).QuarantineInv mode := by
  refine { h with
    rootSound := fun n c root newGroup hn => { h.rootSound n c root newGroup hn with }
    cleaning := fun m' call' c hm' hc => ?_ }
  by_cases he : m' = m
  · subst he
    rw [toCleanup_self] at hm'
    obtain rfl := Option.some.inj hm'
    exact hscope c hc
  · rw [toCleanup_of_ne he] at hm'
    exact h.cleaning m' call' c hm' hc

/-- The end of a cleanup changes no group. -/
theorem endCleanup (h : s.QuarantineInv mode) (m : ℕ) (c : ProcessScopeId) :
    (s.endCleanup m c).QuarantineInv mode := by
  have hmove : (s.toCleanup m .returned).QuarantineInv mode :=
    h.toCleanup fun c hc => absurd hc nofun
  exact hmove.frame rfl rfl rfl rfl rfl rfl rfl

/-- A step of a cleanup keeps the invariant: a group leaves the map when none of its roots is
unresolved. -/
theorem cleanup (h : s.QuarantineInv mode) {call : CleanupCall}
    (hcall : s.cleanups m = some call) {os : CleanupAnswer}
    (hs : s.cleanup m os call = some s') : s'.QuarantineInv mode := by
  have hclean := h.cleaning m call
  cases call with
  | killing c =>
      have hsignal := h.signalScope c .kill true os.kill
      have hkept : (s.signalScope c .kill true os.kill).1.cleanups m = some (.killing c) := by
        rw [signalScope_cleanups]
        exact hcall
      rw [UnixState.cleanup] at hs
      generalize s.signalScope c .kill true os.kill = signalled at hs hsignal hkept
      obtain rfl := Option.some.inj hs
      split
      · refine hsignal.toCleanup fun d hd => hsignal.cleaning m _ d hkept hd
      · exact hsignal.endCleanup m c
  | observing c =>
      obtain rfl := Option.some.inj hs
      refine h.toCleanup fun d hd => hclean d hcall ?_
      split at hd
      · exact hd
      · exact hd
  | waiting c child =>
      rw [UnixState.cleanup] at hs
      split at hs
      · obtain rfl := Option.some.inj hs
        exact h.toCleanup fun d hd => hclean d hcall hd
      · obtain rfl := Option.some.inj hs
        exact h.endCleanup m c
      · rw [Option.ite_none_right_eq_some] at hs
        obtain rfl := Option.some.inj hs.2
        exact h.endCleanup m c
  | removing c =>
      obtain rfl := Option.some.inj hs
      have hbegun := hclean c hcall rfl
      have herase := h.eraseGroup (fun hc => absurd hbegun hc) fun _ hc => absurd hbegun hc
      have hanchors : ({ s with
          anchors := s.anchors.erase c
          groups := s.groups.erase c } : UnixState).QuarantineInv mode :=
        herase.frame rfl rfl rfl rfl rfl rfl rfl
      exact (hanchors.record _ rfl).endCleanup m c
  | returned => exact absurd hs (by simp [UnixState.cleanup])

end QuarantineInv

/-! ### Runs -/

/-- A step that does not lose a wait failure. In cgroup containment, until a cleanup of the
scope begins: a failure is published only while the scope has a group, and `register_child`
does not put a new group in the place of one whose `wait_failed` is set. -/
def flagKept (s : UnixState) : Action → Bool
  | .publish root false =>
      match s.children root with
      | some r =>
          s.mode == .processGroup || s.log.contains (.cleaning r.scope) ||
            s.groups.contains r.scope
      | none => true
  | .spawn n _ =>
      match s.spawns n with
      | some (.registering c _ true) =>
          s.mode == .processGroup || s.log.contains (.cleaning c) ||
            !(s.groups[c]?).any ScopeGroup.waitFailed
      | _ => true
  | _ => true

namespace QuarantineInv

/-- The steps of a spawn call. In process-group containment a root joins the group of its anchor. -/
theorem spawn (h : s.QuarantineInv mode) (hinv : s.mode = .processGroup → s.Inv)
    {call : SpawnCall} (hcall : s.spawns n = some call) {os : SpawnAnswer}
    (hkept : s.flagKept (.spawn n os) = true) (hs : s.spawn n os call = some s') :
    s'.QuarantineInv mode := by
  cases call with
  | locking c =>
      rw [UnixState.spawn] at hs
      split at hs
      · cases hs
      · obtain rfl := Option.some.inj hs
        have hmove : (s.toSpawn n (.ensuring c)).QuarantineInv mode :=
          h.toSpawn (by rintro _ _ _ ⟨⟩) (by rintro ⟨⟩)
        exact hmove.frame rfl rfl rfl rfl rfl rfl rfl
  | ensuring c => exact h.ensureAnchor hs
  | anchoring c => exact h.spawnAnchor hcall hs
  | storing c child => exact h.storeAnchor hinv hcall hs
  | joining c =>
      obtain rfl := Option.some.inj hs
      exact h.spawnRoot hinv hcall os
  | registering c root newGroup =>
      obtain rfl := Option.some.inj hs
      refine h.registerChild hinv hcall os fun hnew hc => ?_
      subst hnew
      simp only [flagKept, hcall, Bool.or_eq_true, beq_iff_eq, List.contains_eq_mem,
        decide_eq_true_eq] at hkept
      rcases hkept with (hm | hm) | hflag
      · cases ((hinv hm).spawnSound n _ hcall).2.2.2.1
      · exact absurd hm hc
      · exact h.not_failing (by simpa using hflag) hc
  | returned => exact absurd hs (by simp [UnixState.spawn])

/-- The waiter of a root publishes its result. The group of the scope counts the root until then, so
it is there. -/
theorem publish (h : s.QuarantineInv mode) {ok : Bool}
    (hkept : s.flagKept (.publish root ok) = true)
    (hs : s.step (.publish root ok) = some s') : s'.QuarantineInv mode := by
  rw [UnixState.step] at hs
  split at hs
  · next r hr =>
      rw [Option.ite_none_left_eq_some] at hs
      obtain ⟨hx, hs⟩ := hs
      obtain rfl := Option.some.inj hs
      refine h.publishWaitResult hr hx fun hok hc => ?_
      subst hok
      simp only [flagKept, hr, Bool.or_eq_true, beq_iff_eq, List.contains_eq_mem,
        decide_eq_true_eq] at hkept
      rcases hkept with (hm | hm) | hgroup
      · have hroot : s.children root = some ⟨r.scope, false⟩ := by
          rw [hr, ← Bool.eq_false_iff.mpr hx]
        have hlive := h.live_pos hm hc hroot
        rw [liveOf] at hlive
        cases hg : s.groups[r.scope]? with
        | none =>
            rw [hg] at hlive
            exact absurd hlive (Nat.lt_irrefl 0)
        | some group => rfl
      · exact absurd hm hc
      · rw [← ExtTreeMap.contains_eq_isSome_getElem?]
        exact hgroup
  · cases hs

/-- Every step that keeps the flags keeps the invariant. -/
theorem step (h : s.QuarantineInv mode) (hinv : s.mode = .processGroup → s.Inv) {a : Action}
    (hkept : s.flagKept a = true) (hs : s.step a = some s') : s'.QuarantineInv mode := by
  cases a with
  | startSpawn n c =>
      rw [UnixState.step, Option.ite_none_right_eq_some] at hs
      obtain rfl := Option.some.inj hs.2
      have hmove : (s.toSpawn n (.locking c)).QuarantineInv mode :=
        h.toSpawn (by rintro _ _ _ ⟨⟩) (by rintro ⟨⟩)
      exact hmove.frame rfl rfl rfl rfl rfl rfl rfl
  | spawn n os =>
      obtain ⟨call, hcall, hs⟩ := Option.bind_eq_some_iff.mp hs
      exact h.spawn hinv hcall hkept hs
  | dropSpawn n =>
      rw [UnixState.step] at hs
      split at hs
      · obtain rfl := Option.some.inj hs
        have hmove : (s.toSpawn n .returned).QuarantineInv mode :=
          h.toSpawn (by rintro _ _ _ ⟨⟩) (by rintro ⟨⟩)
        exact hmove.frame rfl rfl rfl rfl rfl rfl rfl
      · cases hs
  | poll child result =>
      rw [UnixState.step] at hs
      split at hs
      · rw [Option.ite_none_right_eq_some] at hs
        obtain rfl := Option.some.inj hs.2
        exact h.frame rfl rfl rfl rfl rfl rfl rfl
      · cases hs
  | dropWorker child =>
      rw [UnixState.step] at hs
      split at hs
      · next a _ =>
          rw [Option.ite_none_right_eq_some] at hs
          obtain rfl := Option.some.inj hs.2
          exact h.dropWorker child a
      · cases hs
  | reapOrphan child =>
      rw [UnixState.step] at hs
      split at hs
      · rw [Option.ite_none_left_eq_some] at hs
        obtain rfl := Option.some.inj hs.2
        exact h.frame rfl rfl rfl rfl rfl rfl rfl
      · cases hs
  | publish root ok => exact h.publish hkept hs
  | signal c signal known answer =>
      obtain rfl := Option.some.inj hs
      exact h.signalScope c signal known answer
  | hardKillScope c answer =>
      obtain rfl := Option.some.inj hs
      exact h.hardKillScope c answer
  | hardKillAll answers =>
      rw [UnixState.step, Option.ite_none_right_eq_some] at hs
      obtain rfl := Option.some.inj hs.2
      exact h.hardKillAll answers
  | startCleanup m c =>
      rw [UnixState.step, Option.ite_none_right_eq_some] at hs
      obtain rfl := Option.some.inj hs.2
      have hbegun := h.record (.cleaning c) rfl
      have hmove : ((s.record (.cleaning c)).toCleanup m (.killing c)).QuarantineInv mode := by
        refine hbegun.toCleanup fun d hd => ?_
        obtain rfl := Option.some.inj hd
        exact List.mem_cons_self ..
      exact hmove.frame rfl rfl rfl rfl rfl rfl rfl
  | cleanup m os =>
      obtain ⟨call, hcall, hs⟩ := Option.bind_eq_some_iff.mp hs
      exact h.cleanup hcall hs
  | dropCleanup m =>
      rw [UnixState.step] at hs
      split at hs
      · next c _ _ =>
          obtain rfl := Option.some.inj hs
          exact h.endCleanup m c
      · cases hs

end QuarantineInv

/-- **The invariant of the quarantine holds in every run that keeps the flag.** -/
theorem quarantineInv_of_reaches
    (h : ReachesUnder step (fun s a => s.flagKept a = true) (new mode) s) :
    s.QuarantineInv mode := by
  have hboth : s.QuarantineInv mode ∧ (mode = .processGroup → s.Inv) := by
    refine h.invariant (I := fun s => s.QuarantineInv mode ∧ (mode = .processGroup → s.Inv))
      ⟨quarantineInv_new mode, ?_⟩ fun s a s' hi hkept hs => ⟨?_, fun hm => (hi.2 hm).step hs⟩
    · rintro rfl
      exact inv_new
    · exact hi.1.step (fun hm => hi.2 (hi.1.contained.symm.trans hm)) hkept hs
  exact hboth.1

/-- An event of a quarantined log, and what was before it. -/
theorem LogQuarantined.split {newer older : List GroupEvent} {e : GroupEvent}
    (h : LogQuarantined (newer ++ e :: older)) : Quarantined older e ∧ LogQuarantined older := by
  induction newer with
  | nil => exact h
  | cons e' newer ih => exact ih h.2

/-- **Failing scopes are quarantined**, until a cleanup of them begins: no root was spawned
into a scope while one of its roots failed, a call that returned a root has spawned it
while none did, and a call that would spawn one now is refused. -/
structure ScopesQuarantined (s : UnixState) : Prop where
  forked : ∀ newer n c root older, s.log = newer ++ .forked n c root :: older →
    .cleaning c ∉ older → ¬ Failing c older
  spawned : ∀ newer n c root older, s.log = newer ++ .spawned n c root :: older →
    .cleaning c ∉ older →
    ∃ mid past, older = mid ++ .forked n c root :: past ∧ ¬ Failing c past
  refused : ∀ n c os, s.spawns n = some (.joining c) → .cleaning c ∉ s.log →
    Failing c s.log → s.step (.spawn n os) = some (s.refuse n c)

/-- The invariant says what is quarantined, scope by scope. -/
theorem QuarantineInv.scopesQuarantined (h : s.QuarantineInv mode) : s.ScopesQuarantined where
  forked newer n c root older hlog hc := by
    have hlawful := h.lawful
    rw [hlog] at hlawful
    exact hlawful.split.1 hc
  spawned newer n c root older hlog hc := by
    have hlawful := h.lawful
    rw [hlog] at hlawful
    obtain ⟨hforked, hpast⟩ := hlawful.split
    obtain ⟨mid, past, rfl⟩ := List.append_of_mem hforked
    exact ⟨mid, past, rfl, hpast.split.1 fun hm => hc (by simp [hm])⟩
  refused n c os hcall hc hf := by
    obtain ⟨group, hg, hw⟩ := h.flagged c hc hf
    rw [UnixState.step, hcall, Option.bind_some, UnixState.spawn, UnixState.spawnRoot, hg]
    exact congrArg some (if_pos hw)

/-- In process-group containment no step loses a wait failure. -/
theorem reachesUnder_of_processGroup (h : Reaches step (new .processGroup) s) :
    ReachesUnder step (fun s a => s.flagKept a = true) (new .processGroup) s := by
  induction h with
  | initial => exact .initial
  | @step t t' a ht _ hs ih =>
      have hm := (inv_of_reaches ht).mode
      refine ih.step a ?_ hs
      rw [flagKept.eq_def, hm]
      repeat' split
      all_goals rfl

/-- In every run that loses no wait failure, failing scopes are quarantined. In process-group
containment this is every run. -/
theorem failing_scopes_are_quarantined (s : UnixState) :
    (∀ mode, ReachesUnder step (fun s a => s.flagKept a = true) (new mode) s →
      s.ScopesQuarantined) ∧
    (Reaches step (new .processGroup) s → s.ScopesQuarantined) :=
  ⟨fun _ h => (quarantineInv_of_reaches h).scopesQuarantined,
    fun h => (quarantineInv_of_reaches (reachesUnder_of_processGroup h)).scopesQuarantined⟩

/-- A root runs in a cgroup; the spawn of a program that does not exist gives up the group of
the scope; the wait for the root fails; and another root is spawned. -/
def forgottenFailure : List Action :=
  let os : SpawnAnswer := ⟨true, true, none, true, true, 7, true⟩
  let missing : SpawnAnswer := ⟨true, true, none, false, false, 8, true⟩
  [.startSpawn 0 1, .spawn 0 os, .spawn 0 os, .spawn 0 os, .spawn 0 os,
    .startSpawn 1 1, .spawn 1 os, .spawn 1 os, .spawn 1 missing,
    .publish 0 false,
    .startSpawn 2 1, .spawn 2 os, .spawn 2 os, .spawn 2 os]

/-- In cgroup containment a failing scope admits another process. -/
theorem failing_scope_admits_process :
    ¬ ∀ mode s, Reaches step (new mode) s → s.ScopesQuarantined := by
  intro h
  obtain ⟨s, hs, hp⟩ := Reaches.exists_of_follow step (new .cgroupV2) forgottenFailure
    (fun s => s.log.head? == some (.forked 2 1 1) && decide (FailingRoot 1 0 s.log.tail) &&
      !s.log.tail.contains (.cleaning 1))
    (by decide +kernel)
  simp only [Bool.and_eq_true, beq_iff_eq, decide_eq_true_eq, Bool.not_eq_true',
    List.contains_eq_mem, decide_eq_false_iff_not] at hp
  obtain ⟨⟨hhead, hfail⟩, hclean⟩ := hp
  exact (h .cgroupV2 s hs).forked [] 2 1 1 s.log.tail (List.eq_cons_of_mem_head? hhead) hclean
    ⟨0, hfail⟩

/-- The wait for a root in a cgroup fails while the group of the scope is there, and the next
spawn is refused. -/
theorem failing_scope_refuses_process :
    ∃ s : UnixState, s.mode = .cgroupV2 ∧ FailingRoot 1 0 s.log ∧
      s.step (.spawn 1 ⟨true, true, none, true, true, 7, true⟩) = some (s.refuse 1 1) := by
  obtain ⟨s, hs, hp⟩ := ReachesUnder.exists_of_follow step flagKept (new .cgroupV2)
    (let os : SpawnAnswer := ⟨true, true, none, true, true, 7, true⟩
    [.startSpawn 0 1, .spawn 0 os, .spawn 0 os, .spawn 0 os, .spawn 0 os, .publish 0 false,
      .startSpawn 1 1, .spawn 1 os, .spawn 1 os])
    (fun s => s.spawns 1 == some (.joining 1) && decide (FailingRoot 1 0 s.log) &&
      !s.log.contains (.cleaning 1))
    (by decide +kernel)
  simp only [Bool.and_eq_true, beq_iff_eq, decide_eq_true_eq, Bool.not_eq_true',
    List.contains_eq_mem, decide_eq_false_iff_not] at hp
  obtain ⟨⟨hcall, hfail⟩, hclean⟩ := hp
  exact ⟨s, (quarantineInv_of_reaches hs).contained, hfail,
    ((failing_scopes_are_quarantined s).1 .cgroupV2 hs).refused 1 1 _ hcall hclean ⟨0, hfail⟩⟩

end UnixState

end Shepherd
