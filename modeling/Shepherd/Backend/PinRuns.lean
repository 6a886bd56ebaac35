import Mathlib.Data.List.Basic
import Shepherd.Backend.Pins

/-!
# Runs of the Unix Backend

The steps of the spawn and cleanup calls keep the invariant of process-group containment,
so it holds in every reachable state: group numbers are used only while they are pinned,
and no root is spawned into a killed scope.
-/

open Std

namespace Shepherd.UnixState

open Conc

variable {s s' : UnixState} {scope c : ProcessScopeId} {n m child : ℕ}

/-! ### The calls under way -/

/-- The calls under way on a scope stay there when one of them, or one elsewhere, ends. -/
theorem mem_update_erase {calls : ProcessScopeId → List ℕ} {n' : ℕ} (hne : n' ≠ n)
    (hm : n' ∈ calls scope) :
    n' ∈ Function.update calls c ((calls c).erase n) scope := by
  by_cases hd : scope = c
  · subst hd
    rw [Function.update_self]
    exact (List.mem_erase_of_ne hne).mpr hm
  · rw [Function.update_of_ne hd]
    exact hm

/-- A scope without calls has none when one of another is over. -/
theorem update_erase_nil {calls : ProcessScopeId → List ℕ} (h : calls scope = []) :
    Function.update calls c ((calls c).erase n) scope = [] := by
  by_cases hd : scope = c
  · subst hd
    rw [Function.update_self, h]
    rfl
  · rw [Function.update_of_ne hd]
    exact h

/-- They also stay when one more begins. -/
theorem mem_update_cons {calls : ProcessScopeId → List ℕ} {n' : ℕ} (hm : n' ∈ calls scope) :
    n' ∈ Function.update calls c (n :: calls c) scope := by
  by_cases hd : scope = c
  · subst hd
    rw [Function.update_self]
    exact List.mem_cons_of_mem n hm
  · rw [Function.update_of_ne hd]
    exact hm

/-- A call that begins is among those of its scope. -/
theorem mem_update_cons_self {calls : ProcessScopeId → List ℕ} :
    n ∈ Function.update calls c (n :: calls c) c := by
  rw [Function.update_self]
  exact List.mem_cons_self ..

/-- Calls of one kind begin on a scope only while there are none of the other. -/
theorem exclusive_cons {calls others : ProcessScopeId → List ℕ} (hc : others c = [])
    (h : calls scope = [] ∨ others scope = []) :
    Function.update calls c (n :: calls c) scope = [] ∨ others scope = [] := by
  by_cases hd : scope = c
  · exact .inr (hd ▸ hc)
  · rw [Function.update_of_ne hd]
    exact h

/-! ### The spawn calls -/

/-- A spawn that goes on is where it goes. -/
theorem toSpawn_self (s : UnixState) (n : ℕ) (call : SpawnCall) :
    (s.toSpawn n call).spawns n = some call :=
  Function.update_self ..

/-- The other spawns stay where they are. -/
theorem toSpawn_of_ne {n' : ℕ} (h : n' ≠ n) (s : UnixState) (call : SpawnCall) :
    (s.toSpawn n call).spawns n' = s.spawns n' :=
  Function.update_of_ne h ..

/-- A call that is not about to store an anchor moves. -/
theorem Inv.toSpawn (h : s.Inv) {call : SpawnCall}
    (hn : ∀ c child, s.spawns n ≠ some (.storing c child)) (hsound : s.SpawnSound n call) :
    (s.toSpawn n call).Inv := by
  have hkeep : ∀ {n' c child}, s.spawns n' = some (.storing c child) →
      (s.toSpawn n call).spawns n' = some (.storing c child) := by
    intro n' c child hs
    have hne : n' ≠ n := by
      rintro rfl
      exact hn c child hs
    exact (toSpawn_of_ne hne ..).trans hs
  refine { h with
    spawnSound := fun n' call' hn' => ?_
    owned := fun child a ha harmed => ?_
    condemned := fun c hc => ?_ }
  · by_cases he : n' = n
    · subst he
      rw [toSpawn_self] at hn'
      obtain rfl := Option.some.inj hn'
      exact hsound
    · rw [toSpawn_of_ne he] at hn'
      exact h.spawnSound n' call' hn'
  · exact (h.owned child a ha harmed).imp_right fun ⟨n', hs⟩ => ⟨n', hkeep hs⟩
  · exact (h.condemned c hc).imp_right fun ⟨n', child, e, hs, he⟩ => ⟨n', child, e, hkeep hs, he⟩

/-- A call that holds the lock of its scope ends. -/
theorem Inv.endSpawn (h : s.Inv) {call : SpawnCall} (hcall : s.spawns n = some call)
    (hheld : call.held = some c) (hn : ∀ c child, call ≠ .storing c child) :
    (s.endSpawn n c).Inv := by
  have hlock := ((h.spawnSound n call hcall).held hheld).1
  have hmove : (s.toSpawn n .returned).Inv :=
    h.toSpawn (fun c child hs => hn c child (Option.some.inj (hcall.symm.trans hs))) trivial
  have hmem : ∀ {d n'}, n' ≠ n → n' ∈ s.spawning d → n' ∈ (s.endSpawn n c).spawning d :=
    fun hne hm => mem_update_erase hne hm
  have hlocks : ∀ {d n'}, n' ≠ n → s.locks d = some n' → (s.endSpawn n c).locks d = some n' := by
    intro d n' hne hl
    have hd : d ≠ c := by
      rintro rfl
      exact hne (Option.some.inj (hl.symm.trans hlock))
    exact (Function.update_of_ne hd ..).trans hl
  refine { hmove with
    spawnSound := fun n' call' hn' => ?_
    exclusive := fun d => ?_ }
  · by_cases he : n' = n
    · subst he
      obtain rfl := Option.some.inj ((toSpawn_self s n' .returned).symm.trans hn')
      trivial
    · have hold := h.spawnSound n' call' ((toSpawn_of_ne he s .returned).symm.trans hn')
      cases call' with
      | locking d => exact hmem he hold
      | ensuring d => exact ⟨hmem he hold.1, hlocks he hold.2⟩
      | anchoring d => exact ⟨hmem he hold.1, hlocks he hold.2.1, hold.2.2⟩
      | storing d child => exact ⟨hmem he hold.1, hlocks he hold.2.1, hold.2.2⟩
      | joining d => exact ⟨hmem he hold.1, hlocks he hold.2.1, hold.2.2⟩
      | registering d root newGroup => exact ⟨hmem he hold.1, hlocks he hold.2.1, hold.2.2⟩
      | returned => trivial
  · exact (h.exclusive d).imp_left update_erase_nil

/-- A spawn that is refused leaves the counts of its scope. -/
theorem Inv.refuse (h : s.Inv) {call : SpawnCall} (hcall : s.spawns n = some call)
    (hheld : call.held = some c) (hn : ∀ c child, call ≠ .storing c child) :
    (s.refuse n c).Inv :=
  (h.endSpawn hcall hheld hn).record _ trivial nofun

/-- Nobody but the holder of the lock of a scope is about to store an anchor for it. -/
theorem Inv.condemned_anchor (h : s.Inv) {call : SpawnCall} (hcall : s.spawns n = some call)
    (hheld : call.held = some c) (hn : ∀ c child, call ≠ .storing c child)
    (hc : s.Condemned c) : ∃ anchor, s.anchors[c]? = some anchor ∧
      (anchor.killIssued = true ∨ ∃ e, s.exitOf anchor.child = some (.error e)) := by
  rcases hc with hc | ⟨n', child, e, hn', -⟩
  · exact hc
  · obtain rfl := h.holder_unique hcall hn' hheld rfl
    exact absurd (Option.some.inj (hcall.symm.trans hn')) (hn c child)

/-- While a call holds the lock of a scope whose anchor is not marked and was not
interrupted, nobody has killed the scope. -/
theorem Inv.not_killed (h : s.Inv) {call : SpawnCall} {anchor : Anchor}
    (hcall : s.spawns n = some call) (hheld : call.held = some c)
    (hn : ∀ c child, call ≠ .storing c child) (ha : s.anchors[c]? = some anchor)
    (hmarked : ¬ anchor.killIssued = true)
    (hexit : ∀ e, s.exitOf anchor.child ≠ some (.error e)) : ¬ Killed c s.log := by
  intro hk
  obtain ⟨anchor', ha', hm⟩ := h.condemned_anchor hcall hheld hn (h.condemned c hk)
  obtain rfl := Option.some.inj (ha.symm.trans ha')
  rcases hm with hm | ⟨e, hm⟩
  · exact hmarked hm
  · exact hexit e hm

/-- The group of a scope that was not killed is given up with its anchor, whose worker is
done. -/
theorem Inv.eraseScope (h : s.Inv)
    (hexit : ∀ anchor, s.anchors[c]? = some anchor → (s.exitOf anchor.child).isSome = true)
    (hspawn : ∀ n call, s.spawns n = some call → call.held = some c → call = .ensuring c)
    (hkilled : ¬ Killed c s.log) :
    ({ s with anchors := s.anchors.erase c, groups := s.groups.erase c } : UnixState).Inv := by
  have hback : ∀ {d : ProcessScopeId} {anchor}, (s.anchors.erase c)[d]? = some anchor →
      s.anchors[d]? = some anchor := by
    intro d anchor ha
    rw [getElem?_erase] at ha
    split at ha
    · exact absurd ha (by simp)
    · exact ha
  have hforth : ∀ {d : ProcessScopeId}, c ≠ d → (s.anchors.erase c)[d]? = s.anchors[d]? :=
    fun hd => (getElem?_erase ..).trans (if_neg hd)
  refine { h with
    paired := fun d => ?_
    led := fun d anchor group ha hg => ?_
    spawnSound := fun n call hn => ?_
    cleanupSound := fun m call hm => ?_
    owned := fun child a ha harmed => ?_
    condemned := fun d hd => ?_ }
  · have hd := h.paired d
    simp only [getElem?_erase]
    split
    · rfl
    · exact hd
  · rw [getElem?_erase] at hg
    split at hg
    · exact absurd hg (by simp)
    · exact h.led d anchor group (hback ha) hg
  · have hold := h.spawnSound n call hn
    have hne : ∀ {d}, call.held = some d → call ≠ .ensuring d → c ≠ d := by
      rintro d hd he rfl
      exact he (hspawn n call hn hd)
    cases call with
    | locking d => exact hold
    | ensuring d => exact hold
    | anchoring d => exact ⟨hold.1, hold.2.1, (hforth (hne rfl nofun)).trans hold.2.2⟩
    | storing d child =>
        exact ⟨hold.1, hold.2.1, (hforth (hne rfl nofun)).trans hold.2.2.1, hold.2.2.2⟩
    | joining d =>
        exact ⟨hold.1, hold.2.1, (congrArg _ (hforth (hne rfl nofun))).trans hold.2.2⟩
    | registering d root newGroup =>
        exact ⟨hold.1, hold.2.1, (congrArg _ (hforth (hne rfl nofun))).trans hold.2.2.1,
          hold.2.2.2⟩
    | returned => trivial
  · have hold := h.cleanupSound m call hm
    cases call with
    | killing d => exact hold
    | observing d => exact hold
    | waiting d child => exact ⟨hold.1, fun anchor ha => hold.2 anchor (hback ha)⟩
    | removing d => exact ⟨hold.1, fun anchor ha => hold.2 anchor (hback ha)⟩
    | returned => trivial
  · rcases h.owned child a ha harmed with ⟨anchor, hanchor, hchild⟩ | hn
    · refine .inl ⟨anchor, (hforth ?_).trans hanchor, hchild⟩
      rintro rfl
      have hsome := hexit anchor hanchor
      have hchildren : s.anchorChildren child = some a := ha
      rw [hchild, exitOf_eq hchildren, (h.childSound child a ha).exit_none harmed] at hsome
      exact absurd hsome (by decide)
    · exact .inr hn
  · have hne : c ≠ d := by
      rintro rfl
      exact hkilled hd
    rcases h.condemned d hd with ⟨anchor, ha, hm⟩ | hn
    · exact .inl ⟨anchor, (hforth hne).trans ha, hm⟩
    · exact .inr hn

/-- **The first look at an anchor keeps the invariant**: one that has exited on its own is replaced,
but a killed group is refused. -/
theorem Inv.ensureAnchor (h : s.Inv) (hcall : s.spawns n = some (.ensuring c))
    {os : SpawnAnswer} (hs : s.ensureAnchor n c os = some s') : s'.Inv := by
  have hsound := h.spawnSound n _ hcall
  have hstore : ∀ d child, s.spawns n ≠ some (.storing d child) := by
    intro d child hd
    exact absurd (hcall.symm.trans hd) (by simp)
  have hrefuse : (s.refuse n c).Inv := h.refuse hcall rfl nofun
  rw [UnixState.ensureAnchor, if_neg (by rw [h.mode]; decide)] at hs
  cases ha : s.anchors[c]? with
  | none =>
      rw [ha] at hs
      obtain rfl := Option.some.inj hs
      exact h.toSpawn hstore ⟨hsound.1, hsound.2, ha⟩
  | some anchor =>
      simp only [ha] at hs
      split at hs
      · obtain rfl := Option.some.inj hs
        exact hrefuse
      · next hmarked =>
          cases he : s.exitOf anchor.child with
          | none =>
              rw [he] at hs
              obtain rfl := Option.some.inj hs
              exact h.toSpawn hstore ⟨hsound.1, hsound.2, by rw [ha]; rfl⟩
          | some r =>
              cases r with
              | error e =>
                  rw [he] at hs
                  obtain rfl := Option.some.inj hs
                  exact hrefuse
              | ok u =>
                  simp only [he] at hs
                  split at hs
                  · exact absurd hs (by simp)
                  · split at hs
                    · obtain rfl := Option.some.inj hs
                      exact hrefuse
                    · obtain rfl := Option.some.inj hs
                      have hkilled : ¬ Killed c s.log :=
                        h.not_killed hcall rfl nofun ha hmarked (by simp [he])
                      have herase := h.eraseScope (c := c)
                        (fun anchor' ha' => by
                          obtain rfl := Option.some.inj (ha.symm.trans ha')
                          rw [he]
                          rfl)
                        (fun n' call hn' hheld => by
                          obtain rfl := h.holder_unique hcall hn' rfl hheld
                          exact (Option.some.inj (hcall.symm.trans hn')).symm)
                        hkilled
                      exact herase.toSpawn hstore
                        ⟨hsound.1, hsound.2, (getElem?_erase ..).trans (if_pos rfl)⟩

/-- The state with a new anchor child. -/
def withAnchorChild (s : UnixState) (c : ProcessScopeId) (pid : ℕ) : UnixState :=
  { s with
    anchorChildren := Function.update s.anchorChildren s.nextAnchor
      (some ⟨c, pid, none, true, false⟩)
    nextAnchor := s.nextAnchor + 1 }

/-- What is known about a child stays so when another is spawned. -/
theorem Inv.withAnchorChild_keep (h : s.Inv) {a : AnchorChild}
    (ha : s.anchorChildren child = some a) (c : ProcessScopeId) (pid : ℕ) :
    (s.withAnchorChild c pid).anchorChildren child = some a := by
  have hne : child ≠ s.nextAnchor := Nat.ne_of_lt (h.bounded child a ha)
  exact (Function.update_of_ne hne ..).trans ha

/-- An anchor's child is the new one, or it was there. -/
theorem withAnchorChild_cases {a : AnchorChild} {pid : ℕ}
    (ha : (s.withAnchorChild c pid).anchorChildren child = some a) :
    (child = s.nextAnchor ∧ a = ⟨c, pid, none, true, false⟩) ∨
      s.anchorChildren child = some a := by
  by_cases he : child = s.nextAnchor
  · subst he
    have hself : (s.withAnchorChild c pid).anchorChildren s.nextAnchor =
        some ⟨c, pid, none, true, false⟩ := Function.update_self ..
    exact .inl ⟨rfl, (Option.some.inj (hself.symm.trans ha)).symm⟩
  · exact .inr ((Function.update_of_ne he ..).symm.trans ha)

/-- A new anchor's child changes no exit. -/
theorem Inv.withAnchorChild_exit (h : s.Inv) {r : Except String Unit}
    (he : s.exitOf child = some r) (c : ProcessScopeId) (pid : ℕ) :
    (s.withAnchorChild c pid).exitOf child = some r := by
  obtain ⟨a, ha, hr⟩ := Option.bind_eq_some_iff.mp he
  rw [exitOf_eq (h.withAnchorChild_keep ha c pid)]
  exact hr

/-- A new anchor child, and the call that is about to store it. -/
theorem Inv.storing (h : s.Inv) (hcall : s.spawns n = some (.anchoring c)) (pid : ℕ) :
    ((s.withAnchorChild c pid).toSpawn n (.storing c s.nextAnchor)).Inv := by
  have hsound := h.spawnSound n _ hcall
  have hkeep : ∀ {n' d child'}, s.spawns n' = some (.storing d child') →
      ((s.withAnchorChild c pid).toSpawn n (.storing c s.nextAnchor)).spawns n' =
        some (.storing d child') := by
    intro n' d child' hs
    have hne : n' ≠ n := by
      rintro rfl
      exact absurd (hcall.symm.trans hs) (by simp)
    exact (toSpawn_of_ne hne ..).trans hs
  refine { h with
    bounded := fun child a ha => ?_
    childSound := fun child a ha => ?_
    led := fun d anchor group ha hg => ?_
    spawnSound := fun n' call hn' => ?_
    cleanupSound := fun m call hm => ?_
    owned := fun child a ha harmed => ?_
    condemned := fun d hd => ?_ }
  · rcases withAnchorChild_cases ha with ⟨rfl, -⟩ | ha
    · exact Nat.lt_succ_self _
    · exact Nat.lt_succ_of_lt (h.bounded child a ha)
  · rcases withAnchorChild_cases ha with ⟨-, rfl⟩ | ha
    · exact ⟨rfl, fun _ => rfl⟩
    · exact h.childSound child a ha
  · obtain ⟨a, hchild, hr⟩ := h.led d anchor group ha hg
    exact ⟨a, h.withAnchorChild_keep hchild c pid, hr⟩
  · by_cases he : n' = n
    · subst he
      obtain rfl := Option.some.inj ((toSpawn_self ..).symm.trans hn')
      exact ⟨hsound.1, hsound.2.1, hsound.2.2, _, Function.update_self .., rfl⟩
    · have hold := h.spawnSound n' call ((toSpawn_of_ne he ..).symm.trans hn')
      cases call with
      | storing d child =>
          obtain ⟨h₁, h₂, h₃, a, ha, hscope⟩ := hold
          exact ⟨h₁, h₂, h₃, a, h.withAnchorChild_keep ha c pid, hscope⟩
      | locking d => exact hold
      | ensuring d => exact hold
      | anchoring d => exact hold
      | joining d => exact hold
      | registering d root newGroup => exact hold
      | returned => trivial
  · have hold := h.cleanupSound m call hm
    cases call with
    | removing d =>
        refine ⟨hold.1, fun anchor ha => ?_⟩
        obtain ⟨r, hr⟩ := Option.isSome_iff_exists.mp (hold.2 anchor ha)
        exact Option.isSome_iff_exists.mpr ⟨r, h.withAnchorChild_exit hr c pid⟩
    | killing d => exact hold
    | observing d => exact hold
    | waiting d child => exact hold
    | returned => trivial
  · rcases withAnchorChild_cases ha with ⟨rfl, rfl⟩ | ha
    · exact .inr ⟨n, toSpawn_self ..⟩
    · exact (h.owned child a ha harmed).imp_right fun ⟨n', hs⟩ => ⟨n', hkeep hs⟩
  · rcases h.condemned d hd with ⟨anchor, ha, hm⟩ | ⟨n', child, e, hs, he⟩
    · exact .inl ⟨anchor, ha, hm.imp_right fun ⟨e, he⟩ => ⟨e, h.withAnchorChild_exit he c pid⟩⟩
    · exact .inr ⟨n', child, e, hkeep hs, h.withAnchorChild_exit he c pid⟩

/-- **A new anchor keeps the invariant**: it is pinned by its own child, which nobody has reaped. -/
theorem Inv.spawnAnchor (h : s.Inv) (hcall : s.spawns n = some (.anchoring c))
    {os : SpawnAnswer} (hs : s.spawnAnchor n c os = some s') : s'.Inv := by
  rw [UnixState.spawnAnchor] at hs
  split at hs
  · obtain rfl := Option.some.inj hs
    exact h.refuse hcall rfl nofun
  · next pid _ =>
      rw [Option.ite_none_right_eq_some] at hs
      obtain rfl := Option.some.inj hs.2
      exact h.storing hcall pid

/-- The call that holds the lock of a scope keeps cleanups of the scope out. -/
theorem Inv.not_cleaning (h : s.Inv) {call : SpawnCall} {cleanup : CleanupCall}
    (hcall : s.spawns n = some call) (hheld : call.held = some c)
    (hm : s.cleanups m = some cleanup) : cleanup.scope? ≠ some c := by
  intro hscope
  have hspawning := ((h.spawnSound n call hcall).held hheld).2
  have hcleaning : m ∈ s.cleaning c := by
    have hsound := h.cleanupSound m cleanup hm
    cases cleanup with
    | killing d => obtain rfl := Option.some.inj hscope; exact hsound
    | observing d => obtain rfl := Option.some.inj hscope; exact hsound
    | waiting d child => obtain rfl := Option.some.inj hscope; exact hsound.1
    | removing d => obtain rfl := Option.some.inj hscope; exact hsound.1
    | returned => exact absurd hscope (by simp [CleanupCall.scope?])
  rcases h.exclusive c with he | he
  · rw [he] at hspawning
    exact absurd hspawning (by simp)
  · rw [he] at hcleaning
    exact absurd hcleaning (by simp)

/-- A new anchor is stored with its group. -/
theorem Inv.storeAnchor (h : s.Inv) (hcall : s.spawns n = some (.storing c child))
    (hs : s.storeAnchor n c child = some s') : s'.Inv := by
  obtain ⟨hmem, hlock, hnone, a, ha, rfl⟩ := h.spawnSound n _ hcall
  rw [UnixState.storeAnchor, ha, Option.map_some] at hs
  obtain rfl := Option.some.inj hs
  have hanchors : ∀ d : ProcessScopeId, (s.anchors.insert a.scope ⟨child, false⟩)[d]? =
      if a.scope = d then some ⟨child, false⟩ else s.anchors[d]? := fun d => getElem?_insert ..
  have hforth : ∀ {d : ProcessScopeId} {anchor}, s.anchors[d]? = some anchor →
      (s.anchors.insert a.scope ⟨child, false⟩)[d]? = some anchor := by
    intro d anchor hd
    rw [hanchors, if_neg]
    · exact hd
    · rintro rfl
      exact absurd (hnone.symm.trans hd) (by simp)
  have hother : ∀ {n' call}, n' ≠ n → s.spawns n' = some call → ∀ {d}, call.held = some d →
      a.scope ≠ d := by
    rintro n' call hne hn' d hheld rfl
    exact hne (h.holder_unique hn' hcall hheld rfl)
  refine { h with
    paired := fun d => ?_
    led := fun d anchor group hanchor hg => ?_
    spawnSound := fun n' call hn' => ?_
    cleanupSound := fun m cleanup hm => ?_
    owned := fun child' a' ha' harmed => ?_
    condemned := fun d hd => ?_ }
  · have hd := h.paired d
    simp only [UnixState.toSpawn, getElem?_insert]
    split
    · rfl
    · exact hd
  · simp only [UnixState.toSpawn, getElem?_insert] at hanchor hg
    split at hanchor
    · next hd =>
        subst hd
        rw [if_pos rfl] at hg
        obtain rfl := Option.some.inj hanchor
        obtain rfl := Option.some.inj hg
        exact ⟨a, ha, rfl, rfl⟩
    · next hd =>
        rw [if_neg hd] at hg
        exact h.led d anchor group hanchor hg
  · by_cases he : n' = n
    · subst he
      obtain rfl := Option.some.inj ((toSpawn_self ..).symm.trans hn')
      exact ⟨hmem, hlock, by rw [UnixState.toSpawn, hanchors, if_pos rfl]; rfl⟩
    · have hn := (toSpawn_of_ne he ..).symm.trans hn'
      have hold := h.spawnSound n' call hn
      have hsame : ∀ {d : ProcessScopeId}, call.held = some d →
          (s.anchors.insert a.scope ⟨child, false⟩)[d]? = s.anchors[d]? :=
        fun hheld => (hanchors _).trans (if_neg (hother he hn hheld))
      cases call with
      | locking d => exact hold
      | ensuring d => exact hold
      | anchoring d => exact ⟨hold.1, hold.2.1, (hsame rfl).trans hold.2.2⟩
      | storing d child' => exact ⟨hold.1, hold.2.1, (hsame rfl).trans hold.2.2.1, hold.2.2.2⟩
      | joining d => exact ⟨hold.1, hold.2.1, (congrArg _ (hsame rfl)).trans hold.2.2⟩
      | registering d root newGroup =>
          exact ⟨hold.1, hold.2.1, (congrArg _ (hsame rfl)).trans hold.2.2.1, hold.2.2.2⟩
      | returned => trivial
  · have hold := h.cleanupSound m cleanup hm
    have hne := h.not_cleaning hcall rfl hm
    have hsame : ∀ {d : ProcessScopeId}, cleanup.scope? = some d →
        (s.anchors.insert a.scope ⟨child, false⟩)[d]? = s.anchors[d]? := by
      intro d hd
      refine (hanchors _).trans (if_neg ?_)
      rintro rfl
      exact hne hd
    cases cleanup with
    | killing d => exact hold
    | observing d => exact hold
    | waiting d child' =>
        exact ⟨hold.1, fun anchor hanchor => hold.2 anchor ((hsame rfl).symm.trans hanchor)⟩
    | removing d =>
        exact ⟨hold.1, fun anchor hanchor => hold.2 anchor ((hsame rfl).symm.trans hanchor)⟩
    | returned => trivial
  · rcases h.owned child' a' ha' harmed with ⟨anchor, hanchor, hchild⟩ | ⟨n', hn'⟩
    · exact .inl ⟨anchor, hforth hanchor, hchild⟩
    · by_cases he : n' = n
      · subst he
        obtain ⟨hscope, rfl⟩ := SpawnCall.storing.inj (Option.some.inj (hcall.symm.trans hn'))
        exact .inl ⟨⟨child, false⟩, (hanchors _).trans (if_pos hscope), rfl⟩
      · exact .inr ⟨n', (toSpawn_of_ne he ..).trans hn'⟩
  · rcases h.condemned d hd with ⟨anchor, hanchor, hm⟩ | ⟨n', child', e, hn', he⟩
    · exact .inl ⟨anchor, hforth hanchor, hm⟩
    · by_cases hne : n' = n
      · subst hne
        obtain ⟨rfl, rfl⟩ := SpawnCall.storing.inj (Option.some.inj (hcall.symm.trans hn'))
        exact .inl ⟨⟨child, false⟩, (hanchors _).trans (if_pos rfl), .inr ⟨e, he⟩⟩
      · exact .inr ⟨n', child', e, (toSpawn_of_ne hne ..).trans hn', he⟩

/-- A root is spawned into the group of a scope that nobody killed. -/
theorem Inv.fork (h : s.Inv) (hcall : s.spawns n = some (.joining c))
    (hkilled : ¬ Killed c s.log) : (s.fork n c false).Inv := by
  obtain ⟨hmem, hlock, hsome⟩ := h.spawnSound n _ hcall
  have hroot : ({ s with nextRoot := s.nextRoot + 1 } : UnixState).Inv :=
    h.later { Later.refl s with } h.childSound h.condemned h.lawful
  have hforked := hroot.record (.forked n c s.nextRoot) hkilled nofun
  exact hforked.toSpawn (fun d child hd => absurd (hcall.symm.trans hd) (by simp))
    ⟨hmem, hlock, hsome, rfl, List.mem_cons_self ..⟩

/-- The critical section of `spawn`. -/
theorem Inv.spawnRoot (h : s.Inv) (hcall : s.spawns n = some (.joining c)) (os : SpawnAnswer) :
    (s.spawnRoot n c os).Inv := by
  obtain ⟨hmem, hlock, hsome⟩ := h.spawnSound n _ hcall
  have hrefuse : (s.refuse n c).Inv := h.refuse hcall rfl nofun
  obtain ⟨anchor, ha⟩ := Option.isSome_iff_exists.mp hsome
  obtain ⟨group, hg⟩ := Option.isSome_iff_exists.mp ((h.paired c).trans hsome)
  have hcontains : s.anchors.contains c = true := by
    rw [ExtTreeMap.contains_eq_isSome_getElem?, hsome]
  have hexisting : s.existing c = some group.pgid := by
    rw [UnixState.existing, hg, Option.bind_some, hcontains, Bool.or_true, if_pos rfl]
  rw [UnixState.spawnRoot]
  split
  · exact hrefuse
  · split
    · exact h.toSpawn (fun d child hd => absurd (hcall.symm.trans hd) (by simp)) ⟨hmem, hlock⟩
    · next hgone =>
        rw [UnixState.anchorGone, ha, Bool.or_eq_true, not_or] at hgone
        have hnone := Option.not_isSome_iff_eq_none.mp hgone.2
        have hjoin := h.record (.joined c group.pgid (s.pins c group.pgid))
          (h.pins_group ha hg hnone) nofun
        have hkilled := h.not_killed hcall rfl nofun ha hgone.1 (by simp [hnone])
        rw [hexisting]
        dsimp only
        split
        · refine hjoin.fork hcall ?_
          rintro (he | ⟨-, hk⟩)
          · exact absurd he (by simp)
          · exact hkilled hk
        · split
          · exact hjoin.refuse hcall rfl nofun
          · next hno => exact absurd hcontains hno

/-- `register_child`, and the return of the call. -/
theorem Inv.registerChild (h : s.Inv) {root : ℕ} {newGroup : Bool}
    (hcall : s.spawns n = some (.registering c root newGroup)) (os : SpawnAnswer) :
    (s.registerChild n c root newGroup os).Inv := by
  obtain ⟨-, -, hsome, rfl, hforked⟩ := h.spawnSound n _ hcall
  obtain ⟨group, hg⟩ := Option.isSome_iff_exists.mp ((h.paired c).trans hsome)
  simp only [UnixState.registerChild, hg]
  split
  · exact h.refuse hcall rfl nofun
  · have hp : ({ group with live := group.live + 1 } : ScopeGroup).pgid = group.pgid := rfl
    have hset := h.setGroup hg hp (Function.update s.children root (some ⟨c, false⟩))
    have hend := (hset.record (.registered c root) trivial nofun).endSpawn hcall rfl nofun
    exact hend.record _ (List.mem_cons_of_mem _ hforked) nofun

/-- The steps of a spawn call. -/
theorem Inv.spawn (h : s.Inv) {call : SpawnCall} (hcall : s.spawns n = some call)
    {os : SpawnAnswer} (hs : s.spawn n os call = some s') : s'.Inv := by
  cases call with
  | locking c =>
      rw [UnixState.spawn] at hs
      split at hs
      · exact absurd hs (by simp)
      · next hfree =>
          obtain rfl := Option.some.inj hs
          have hlocks : ∀ {d n'}, s.locks d = some n' →
              Function.update s.locks c (some n) d = some n' := by
            intro d n' hl
            have hd : d ≠ c := by
              rintro rfl
              exact absurd (hfree.symm.trans hl) (by simp)
            exact (Function.update_of_ne hd ..).trans hl
          have hlocked : ({ s with locks := Function.update s.locks c (some n) } :
              UnixState).Inv := by
            refine { h with spawnSound := fun n' call' hn' => ?_ }
            have hold := h.spawnSound n' call' hn'
            cases call' with
            | locking d => exact hold
            | ensuring d => exact ⟨hold.1, hlocks hold.2⟩
            | anchoring d => exact ⟨hold.1, hlocks hold.2.1, hold.2.2⟩
            | storing d child => exact ⟨hold.1, hlocks hold.2.1, hold.2.2⟩
            | joining d => exact ⟨hold.1, hlocks hold.2.1, hold.2.2⟩
            | registering d root newGroup => exact ⟨hold.1, hlocks hold.2.1, hold.2.2⟩
            | returned => trivial
          exact hlocked.toSpawn (fun d child hd => absurd (hcall.symm.trans hd) (by simp))
            ⟨h.spawnSound n _ hcall, Function.update_self ..⟩
  | ensuring c => exact h.ensureAnchor hcall hs
  | anchoring c => exact h.spawnAnchor hcall hs
  | storing c child => exact h.storeAnchor hcall hs
  | joining c =>
      obtain rfl := Option.some.inj hs
      exact h.spawnRoot hcall os
  | registering c root newGroup =>
      obtain rfl := Option.some.inj hs
      exact h.registerChild hcall os
  | returned => exact absurd hs (by simp [UnixState.spawn])

/-- A spawn begins in a scope that no cleanup works on. -/
theorem Inv.startSpawn (h : s.Inv) (hn : s.spawns n = none) (hc : s.cleaning c = []) :
    (({ s with
      spawning := Function.update s.spawning c (n :: s.spawning c) } : UnixState).toSpawn n
        (.locking c)).Inv := by
  have hbegun : ({ s with
      spawning := Function.update s.spawning c (n :: s.spawning c) } : UnixState).Inv := by
    refine { h with
      spawnSound := fun n' call' hn' => ?_
      exclusive := fun d => exclusive_cons hc (h.exclusive d) }
    have hold := h.spawnSound n' call' hn'
    cases call' with
    | locking d => exact mem_update_cons hold
    | ensuring d => exact ⟨mem_update_cons hold.1, hold.2⟩
    | anchoring d => exact ⟨mem_update_cons hold.1, hold.2⟩
    | storing d child => exact ⟨mem_update_cons hold.1, hold.2⟩
    | joining d => exact ⟨mem_update_cons hold.1, hold.2⟩
    | registering d root newGroup => exact ⟨mem_update_cons hold.1, hold.2⟩
    | returned => trivial
  exact hbegun.toSpawn (fun d child hd => absurd (hn.symm.trans hd) (by simp))
    mem_update_cons_self

/-- A call that is still waiting for the lock is dropped. -/
theorem Inv.dropSpawn (h : s.Inv) (hcall : s.spawns n = some (.locking c)) :
    (({ s with
      spawning := Function.update s.spawning c ((s.spawning c).erase n) } : UnixState).toSpawn n
        .returned).Inv := by
  have hmove : (s.toSpawn n .returned).Inv :=
    h.toSpawn (fun d child hd => absurd (hcall.symm.trans hd) (by simp)) trivial
  refine { hmove with
    spawnSound := fun n' call' hn' => ?_
    exclusive := fun d => (h.exclusive d).imp_left update_erase_nil }
  by_cases he : n' = n
  · subst he
    obtain rfl := Option.some.inj ((toSpawn_self s n' .returned).symm.trans hn')
    trivial
  · have hold := h.spawnSound n' call' ((toSpawn_of_ne he s .returned).symm.trans hn')
    cases call' with
    | locking d => exact mem_update_erase he hold
    | ensuring d => exact ⟨mem_update_erase he hold.1, hold.2⟩
    | anchoring d => exact ⟨mem_update_erase he hold.1, hold.2⟩
    | storing d child => exact ⟨mem_update_erase he hold.1, hold.2⟩
    | joining d => exact ⟨mem_update_erase he hold.1, hold.2⟩
    | registering d root newGroup => exact ⟨mem_update_erase he hold.1, hold.2⟩
    | returned => trivial

/-! ### The cleanup calls -/

/-- A cleanup that goes on is where it goes. -/
theorem toCleanup_self (s : UnixState) (m : ℕ) (call : CleanupCall) :
    (s.toCleanup m call).cleanups m = some call :=
  Function.update_self ..

/-- The other cleanups stay where they are. -/
theorem toCleanup_of_ne {m' : ℕ} (h : m' ≠ m) (s : UnixState) (call : CleanupCall) :
    (s.toCleanup m call).cleanups m' = s.cleanups m' :=
  Function.update_of_ne h ..

/-- A cleanup call moves. -/
theorem Inv.toCleanup (h : s.Inv) {call : CleanupCall} (hsound : s.CleanupSound m call) :
    (s.toCleanup m call).Inv := by
  refine { h with cleanupSound := fun m' call' hm' => ?_ }
  by_cases he : m' = m
  · subst he
    rw [toCleanup_self] at hm'
    obtain rfl := Option.some.inj hm'
    exact hsound
  · rw [toCleanup_of_ne he] at hm'
    exact h.cleanupSound m' call' hm'

/-- A cleanup call ends. -/
theorem Inv.endCleanup (h : s.Inv) (m : ℕ) (c : ProcessScopeId) : (s.endCleanup m c).Inv := by
  refine { h with
    cleanupSound := fun m' call' hm' => ?_
    exclusive := fun d => (h.exclusive d).imp_right update_erase_nil }
  by_cases he : m' = m
  · subst he
    obtain rfl := Option.some.inj ((toCleanup_self s m' .returned).symm.trans hm')
    trivial
  · have hold := h.cleanupSound m' call' ((toCleanup_of_ne he s .returned).symm.trans hm')
    cases call' with
    | killing d => exact mem_update_erase he hold
    | observing d => exact mem_update_erase he hold
    | waiting d child => exact ⟨mem_update_erase he hold.1, hold.2⟩
    | removing d => exact ⟨mem_update_erase he hold.1, hold.2⟩
    | returned => trivial

/-- A cleanup begins in a scope that no spawn works on. -/
theorem Inv.startCleanup (h : s.Inv) (hc : s.spawning c = []) :
    ((({ s with
      cleaning := Function.update s.cleaning c (m :: s.cleaning c) } : UnixState).toCleanup m
        (.killing c)).record (.cleaning c)).Inv := by
  have hbegun : ({ s with
      cleaning := Function.update s.cleaning c (m :: s.cleaning c) } : UnixState).Inv := by
    refine { h with
      cleanupSound := fun m' call' hm' => ?_
      exclusive := fun d => (exclusive_cons hc (h.exclusive d).symm).symm }
    have hold := h.cleanupSound m' call' hm'
    cases call' with
    | killing d => exact mem_update_cons hold
    | observing d => exact mem_update_cons hold
    | waiting d child => exact ⟨mem_update_cons hold.1, hold.2⟩
    | removing d => exact ⟨mem_update_cons hold.1, hold.2⟩
    | returned => trivial
  have hmem : ({ s with
      cleaning := Function.update s.cleaning c (m :: s.cleaning c) } : UnixState).CleanupSound m
        (.killing c) := mem_update_cons_self
  exact (hbegun.toCleanup hmem).record _ trivial nofun

/-- A signal is no business of the cleanup calls. -/
theorem signalScope_cleanups (s : UnixState) (c : ProcessScopeId) (signal : Signal) (known : Bool)
    (answer : KillAnswer) : (s.signalScope c signal known answer).1.cleanups = s.cleanups := by
  have hkill : ∀ group number, (s.killGroup c group number answer).1.cleanups = s.cleanups := by
    intro group number
    rw [UnixState.killGroup]
    repeat' split
    all_goals rfl
  have hgroup : ∀ number, (s.signalGroup c number answer).1.cleanups = s.cleanups := by
    intro number
    rw [UnixState.signalGroup]
    repeat' split
    all_goals first | rfl | exact hkill _ _
  rw [UnixState.signalScope]
  split
  · rfl
  · split
    · rfl
    · exact hgroup _

/-- The entries of a scope are removed once its anchor was reaped. -/
theorem Inv.cleaned (h : s.Inv) (hcall : s.cleanups m = some (.removing c)) :
    (({ s with anchors := s.anchors.erase c, groups := s.groups.erase c } : UnixState).record
      (.cleaned c)).Inv := by
  have hrecord := h.record (.cleaned c) trivial nofun
  refine hrecord.eraseScope (h.cleanupSound m _ hcall).2 (fun n call hn hheld => ?_) ?_
  · exact absurd rfl (h.not_cleaning hn hheld hcall)
  · rintro (he | ⟨he, -⟩)
    · exact absurd he (by simp)
    · exact he rfl

/-- The steps of a cleanup call. -/
theorem Inv.cleanup (h : s.Inv) {call : CleanupCall} (hcall : s.cleanups m = some call)
    {os : CleanupAnswer} (hs : s.cleanup m os call = some s') : s'.Inv := by
  have hsound := h.cleanupSound m call hcall
  cases call with
  | killing c =>
      have hsignal := h.signalScope c .kill true os.kill
      have hkept : (s.signalScope c .kill true os.kill).1.cleanups m = some (.killing c) := by
        rw [signalScope_cleanups]
        exact hcall
      rw [UnixState.cleanup] at hs
      generalize s.signalScope c .kill true os.kill = signalled at hs hsignal hkept
      obtain rfl := Option.some.inj hs
      split
      · have hkilling := hsignal.cleanupSound m _ hkept
        exact hsignal.toCleanup hkilling
      · exact hsignal.endCleanup m c
  | observing c =>
      obtain rfl := Option.some.inj hs
      refine h.toCleanup ?_
      split
      · next anchor ha =>
          refine ⟨hsound, fun anchor' ha' => ?_⟩
          obtain rfl := Option.some.inj (ha.symm.trans ha')
          rfl
      · next ha => exact ⟨hsound, fun anchor ha' => absurd (ha.symm.trans ha') (by simp)⟩
  | waiting c child =>
      rw [UnixState.cleanup] at hs
      split at hs
      · next hexit =>
          obtain rfl := Option.some.inj hs
          refine h.toCleanup ⟨hsound.1, fun anchor ha => ?_⟩
          rw [hsound.2 anchor ha, hexit]
          rfl
      · obtain rfl := Option.some.inj hs
        exact h.endCleanup m c
      · rw [Option.ite_none_right_eq_some] at hs
        obtain rfl := Option.some.inj hs.2
        exact h.endCleanup m c
  | removing c =>
      obtain rfl := Option.some.inj hs
      exact (h.cleaned hcall).endCleanup m c
  | returned => exact absurd hs (by simp [UnixState.cleanup])

/-! ### Runs -/

/-- Every step keeps the invariant. -/
theorem Inv.step (h : s.Inv) {a : Action} (hs : s.step a = some s') : s'.Inv := by
  cases a with
  | startSpawn n c =>
      rw [UnixState.step, Option.ite_none_right_eq_some, Bool.and_eq_true] at hs
      obtain ⟨⟨hn, hc⟩, hs⟩ := hs
      obtain rfl := Option.some.inj hs
      exact h.startSpawn (Option.isNone_iff_eq_none.mp hn) (List.isEmpty_iff.mp hc)
  | spawn n os =>
      obtain ⟨call, hcall, hs⟩ := Option.bind_eq_some_iff.mp hs
      exact h.spawn hcall hs
  | dropSpawn n =>
      rw [UnixState.step] at hs
      split at hs
      · next c hcall =>
          obtain rfl := Option.some.inj hs
          exact h.dropSpawn hcall
      · exact absurd hs (by simp)
  | poll child result =>
      rw [UnixState.step] at hs
      split at hs
      · next a ha =>
          rw [Option.ite_none_right_eq_some] at hs
          obtain rfl := Option.some.inj hs.2
          exact h.pollExit ha hs.1 result
      · exact absurd hs (by simp)
  | dropWorker child =>
      rw [UnixState.step] at hs
      split at hs
      · next a ha =>
          rw [Option.ite_none_right_eq_some] at hs
          obtain rfl := Option.some.inj hs.2
          exact h.dropWorker ha hs.1
      · exact absurd hs (by simp)
  | reapOrphan child =>
      rw [UnixState.step] at hs
      split at hs
      · next a ha =>
          rw [Option.ite_none_left_eq_some] at hs
          obtain rfl := Option.some.inj hs.2
          exact h.reapOrphan ha hs.1
      · exact absurd hs (by simp)
  | publish root ok =>
      rw [UnixState.step] at hs
      split at hs
      · next r _ =>
          rw [Option.ite_none_left_eq_some] at hs
          obtain rfl := Option.some.inj hs.2
          exact h.publishWaitResult root r ok
      · exact absurd hs (by simp)
  | signal c signal known answer =>
      obtain rfl := Option.some.inj hs
      exact h.signalScope c signal known answer
  | hardKillScope c answer =>
      obtain rfl := Option.some.inj hs
      exact h.hardKillScope c answer
  | hardKillAll answers =>
      rw [UnixState.step, Option.ite_none_right_eq_some] at hs
      obtain rfl := Option.some.inj hs.2
      exact h.hardKillAll answers
  | startCleanup m c =>
      rw [UnixState.step, Option.ite_none_right_eq_some, Bool.and_eq_true] at hs
      obtain ⟨⟨-, hc⟩, hs⟩ := hs
      obtain rfl := Option.some.inj hs
      exact h.startCleanup (List.isEmpty_iff.mp hc)
  | cleanup m os =>
      obtain ⟨call, hcall, hs⟩ := Option.bind_eq_some_iff.mp hs
      exact h.cleanup hcall hs
  | dropCleanup m =>
      rw [UnixState.step] at hs
      split at hs
      · next c _ _ =>
          obtain rfl := Option.some.inj hs
          exact h.endCleanup m c
      · exact absurd hs (by simp)

/-- **The invariant of the groups holds in every run.** -/
theorem inv_of_reaches (h : Reaches step (new .processGroup) s) : s.Inv :=
  h.invariant inv_new fun _ _ _ hi hs => hi.step hs

/-- What a lawful history says of each of its events. -/
theorem LogLawful.split {newer older : List GroupEvent} {e : GroupEvent}
    (h : LogLawful (newer ++ e :: older)) : EventLawful older e ∧ LogLawful older := by
  induction newer with
  | nil => exact h
  | cons e' newer ih => exact ih h.2

/-- **Group numbers are pinned.** Whatever spawns, signals, cleanups, kills and anchor
workers do: a number that is signalled or joined is that of an unreaped anchor child of the
scope, and no root is spawned into a scope after `SIGKILL` was issued to its group, until a
cleanup removed the anchor. A call that returns a root later has spawned it before. -/
theorem group_numbers_are_pinned {newer older : List GroupEvent} {e : GroupEvent}
    (h : Reaches step (new .processGroup) s) (hlog : s.log = newer ++ e :: older) :
    (∀ c pgid pinned, e = .signalled c pgid pinned ∨ e = .joined c pgid pinned →
      pinned = true) ∧
    (∀ n c root, e = .forked n c root → ¬ Killed c older) ∧
    ∀ n c root, e = .spawned n c root →
      ∃ mid past, older = mid ++ .forked n c root :: past ∧ ¬ Killed c past := by
  have hlawful := (inv_of_reaches h).lawful
  rw [hlog] at hlawful
  obtain ⟨he, hpast⟩ := hlawful.split
  refine ⟨?_, ?_, ?_⟩
  · rintro c pgid pinned (rfl | rfl)
    · exact he
    · exact he
  · rintro n c root rfl
    exact he
  · rintro n c root rfl
    obtain ⟨mid, past, rfl⟩ := List.append_of_mem he
    exact ⟨mid, past, rfl, hpast.split.1⟩

/-- A spawn call forks its root, the group is killed, and the call returns. -/
def killedInFlight : List Action :=
  let os : SpawnAnswer := ⟨true, true, some 7, true, true, 8, true⟩
  [.startSpawn 0 1, .spawn 0 os, .spawn 0 os, .spawn 0 os, .spawn 0 os, .spawn 0 os,
    .hardKillScope 1 .delivered, .spawn 0 os]

/-- A spawn call that had spawned its root returns it after the group was killed. -/
theorem spawn_returns_after_kill :
    ¬ ∀ s, Reaches step (new .processGroup) s → ∀ newer n c root older,
      s.log = newer ++ .spawned n c root :: older → ¬ Killed c older := by
  intro h
  obtain ⟨s, hs, hp⟩ := Reaches.exists_of_follow step (new .processGroup) killedInFlight
    (fun s => s.log.head? == some (.spawned 0 1 0) && decide (Killed 1 s.log.tail))
    (by decide +kernel)
  rw [Bool.and_eq_true, beq_iff_eq, decide_eq_true_eq] at hp
  exact h s hs [] 0 1 0 s.log.tail (List.eq_cons_of_mem_head? hp.1) hp.2

/-- It had joined its group and spawned its root before. -/
theorem root_returned_after_kill_was_spawned_before :
    ∃ older mid past, Killed 1 older ∧ older = mid ++ .forked 0 1 0 :: past ∧
      ¬ Killed 1 past := by
  obtain ⟨s, hs, hp⟩ := Reaches.exists_of_follow step (new .processGroup) killedInFlight
    (fun s => s.log.head? == some (.spawned 0 1 0) && decide (Killed 1 s.log.tail))
    (by decide +kernel)
  rw [Bool.and_eq_true, beq_iff_eq, decide_eq_true_eq] at hp
  have hlog : s.log = [] ++ .spawned 0 1 0 :: s.log.tail := List.eq_cons_of_mem_head? hp.1
  obtain ⟨mid, past, hpast⟩ := (group_numbers_are_pinned hs hlog).2.2 0 1 0 rfl
  exact ⟨_, mid, past, hp.2, hpast⟩

end Shepherd.UnixState
