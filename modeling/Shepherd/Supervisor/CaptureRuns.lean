import Shepherd.Supervisor.Captures
import Shepherd.Supervisor.Evidence
import Shepherd.Supervisor.Plain

/-!
# Runs with Captures

Every run keeps a log of its captures (`CaptureRun`). A task keeps one capture at most, that of
the process it has attached, and a monitor retains one only after a verified exit was recorded
(`captureWatch`). With that, every step keeps the stores as the log has them, and the retention
of unclaimed captures is what it says (`unclaimed_captures_are_retained`).
-/

open Std

namespace Shepherd

open Conc

variable {t : Tid} {s s' : Inner} {c : ProcessScopeId} {p : ProcessId} {h h' : History}
  {x : List CaptureEvent}

/-! ### The log of a run -/

/-- What an operation does to captures. -/
def captured (t : Tid) (o : Op) (a : Answer) (s : Inner) : List CaptureEvent :=
  match o with
  | .keepOutput pid admission =>
      match admission, a with
      | true, _ => [.transferred pid]
      | false, .output (some output) => [.kept pid output]
      | false, _ => [.uncaptured pid]
  | .retainCompletedOutput pid => s.retentions pid
  | .recordRecovered c pid raw =>
      match (s.storeRecovered t c pid (recoveredExit pid raw)).1 with
      | .ok _ => s.retentions pid
      | .error _ => []
  | .takeOutput pid =>
      match s.outputs[pid]? with
      | some output => [.claimed pid output]
      | none => []
  | .orObserve _ o =>
      match a with
      | .raced => []
      | a => captured t o a s
  | .orElapsed o =>
      match a with
      | .timedOut => []
      | a => captured t o a s
  | _ => []

/-- A run with the log of its captures. -/
abbrev CaptureRun (cfg : Config Res Ret Inner) (g : CaptureLog) : Prop :=
  supervisor.Recorded (fun t o a s g => (captured t o a s).map (Prod.mk t) ++ g) Inner.new [] cfg g

/-- The entries of one task. -/
def ownLog (g : CaptureLog) (t : Tid) : List CaptureEvent :=
  g.filterMap fun x => if x.1 = t then some x.2 else none

/-! ### The watch of a task -/

/-- The operation neither keeps nor retains a capture for its task. -/
def Op.captureFree : Op → Bool
  | .keepOutput _ _ | .retainCompletedOutput _ => false
  | .orObserve _ o | .orElapsed o => o.captureFree
  | _ => true

/-- A plain operation touches no capture. -/
theorem captureFree_of_plain {o : Op} (ho : o.plain = true) : o.captureFree = true := by
  induction o with
  | orObserve f o ih => exact ih ho
  | orElapsed o ih => exact ih ho
  | _ => first | rfl | cases ho

/-- The task has settled no spawn yet. -/
def Unsettled (x : List CaptureEvent) : Prop :=
  ∀ ev ∈ x, ev.settles = none

/-- A capture is settled once, by the task that attached its process, and retained after a
verified exit. -/
inductive MayCapture (t : Tid) (x : List CaptureEvent) (s : Inner) : Op → Prop
  | free {o : Op} : o.captureFree = true → MayCapture t x s o
  | keep {p : ProcessId} {admission : Bool} {c : ProcessScopeId} {os : OsIdentity} :
      Unsettled x → (t, .attached c p os) ∈ s.history → MayCapture t x s (.keepOutput p admission)
  | retain {p : ProcessId} : HasEvidence s.history p →
      MayCapture t x s (.retainCompletedOutput p)

/-- A task remembers what it does to captures. -/
def captureWatch (t : Tid) : Watch Op Answer Inner (List CaptureEvent) where
  update o a s x := captured t o a s ++ x
  holds o x s := MayCapture t x s o

/-- A capture that is returned was claimed. -/
def ReturnsClaimed (v : Ret) (x : List CaptureEvent) : Prop :=
  ∀ p out, v = .tookOutput p (some out) → .claimed p out ∈ x

/-- The retention behind an exit is no settlement. -/
theorem unsettled_retentions (s : Inner) (p : ProcessId) : Unsettled (s.retentions p) := by
  intro ev hev
  rw [Inner.retentions] at hev
  split at hev
  · simp only [completion, List.mem_append, List.mem_map, List.mem_singleton] at hev
    rcases hev with ⟨q, -, rfl⟩ | rfl <;> rfl
  · cases hev

/-- Only a spawn settles a capture. -/
theorem unsettled_captured {o : Op} (ho : o.captureFree = true) (t : Tid) (a : Answer)
    (s : Inner) : Unsettled (captured t o a s) := by
  induction o with
  | orObserve f o ih =>
      simp only [captured]
      split
      · exact nofun
      · exact ih ho
  | orElapsed o ih =>
      simp only [captured]
      split
      · exact nofun
      · exact ih ho
  | recordRecovered c p raw =>
      simp only [captured]
      split
      · exact unsettled_retentions s p
      · exact nofun
  | takeOutput p =>
      simp only [captured]
      split
      · intro ev hev
        obtain rfl := List.mem_singleton.mp hev
        rfl
      · exact nofun
  | keepOutput p admission => cases ho
  | retainCompletedOutput p => cases ho
  | _ => exact nofun

/-- Two logs without a settlement, one after the other. -/
theorem Unsettled.append {y : List CaptureEvent} (hx : Unsettled x) (hy : Unsettled y) :
    Unsettled (x ++ y) := by
  intro ev hev
  rcases List.mem_append.mp hev with hev | hev
  · exact hx ev hev
  · exact hy ev hev

/-! ### Programs -/

section Programs

variable {α β : Type}

/-- The program keeps to the watch of captures, until it is over. -/
abbrev KeepsCaptures (t : Tid) (p : Code α) (x : List CaptureEvent) (s : Inner) : Prop :=
  protocol.tracked (captureWatch t) t p (fun _ _ _ => True) x s

/-- A program without an operation on captures keeps its watch. -/
theorem keepsCaptures_all {p : Code α} (hp : p.All (fun o => o.captureFree = true) fun _ => True)
    (x : List CaptureEvent) (s : Inner) : KeepsCaptures t p x s :=
  Protocol.tracked_mono (fun _ _ _ _ => trivial)
    (Protocol.tracked_of_all (F := fun _ _ => True) hp (fun _ _ _ _ _ => trivial)
      (fun _ _ _ _ _ _ _ _ _ => trivial) (fun _ _ _ ho _ => .free ho) trivial)

/-- A plain program keeps its watch. -/
theorem keepsCaptures_plain {p : Code α} (hp : Plain p) (x : List CaptureEvent) (s : Inner) :
    KeepsCaptures t p x s :=
  keepsCaptures_all (hp.mono (fun _ => captureFree_of_plain) fun _ hv => hv) x s

/-- While its task has settled nothing, a plain operation changes nothing about that. -/
theorem admits_unsettled (t : Tid) : Admits (captureWatch t) Unsettled where
  holds _ ho _ := .free (captureFree_of_plain ho)
  update a s ho hx := (unsettled_captured (captureFree_of_plain ho) t a s).append hx

/-- The watch of captures admits whatever happens beside its task. -/
theorem admits_captures (t : Tid) : Admits (captureWatch t) fun _ => True where
  holds _ ho _ := .free (captureFree_of_plain ho)
  update _ _ _ _ := trivial

/-- **A spawn keeps the capture** of the process it has attached. -/
theorem keepsCaptures_superviseSpawned {os : OsIdentity} {events : List DomainEvent}
    {admission : Bool} (hx : Unsettled x) (ha : (t, .attached c p os) ∈ s.history) :
    KeepsCaptures t (superviseSpawned c p os events admission) x s := by
  have hrest : Plain (do
      act (.startMonitor c p os)
      if ← startSampler then
        dispatch events
        return .ok p
      else return .error (.os "spawn worker failed") : Code (Except SpawnError ProcessId)) := by
    refine Plain.step rfl fun _ => Plain.bind Plain.startSampler fun r => ?_
    split
    · exact Plain.bind (Plain.dispatch events) fun _ => trivial
    · trivial
  refine Protocol.tracked_op fun s₁ hr₁ _ => ⟨.free rfl, fun a r s₂ he₁ _ => ?_⟩
  refine Protocol.tracked_op fun s₃ hr₃ _ => ⟨.free rfl, fun a r s₄ he₃ _ => ?_⟩
  refine Protocol.tracked_op fun s₅ hr₅ _ => ⟨?_, fun a r s₆ _ _ =>
    keepsCaptures_plain hrest _ s₆⟩
  have hsuf : s.history <:+ s₅.history := (Since.suffix hr₁).trans ((exec_suffix he₁).trans
    ((Since.suffix hr₃).trans ((exec_suffix he₃).trans (Since.suffix hr₅))))
  exact .keep hx (hsuf.mem ha)

/-- A spawn keeps its watch: it keeps the capture of the process it attached, and no other. -/
theorem keepsCaptures_spawnOwned {spec : ProcessSpec} {admission : Bool} (hx : Unsettled x) :
    KeepsCaptures t (spawnOwned c spec admission) x s := by
  refine tracked_spawnOwned (admits_unsettled t) (admits_captures t) (fun _ _ => trivial)
    (fun a _ _ hy he => ?_) hx
  refine keepsCaptures_superviseSpawned ((unsettled_captured rfl t a _).append hy) ?_
  rw [attached_of_attach he]
  exact List.mem_cons_self

/-- A wait that returned `Ok` is recorded as evidence. -/
theorem evidence_of_recordMonitored {raw : RawExit} {events : List DomainEvent}
    (he : s.recordMonitored t c p (some raw) = (some events, s')) :
    HasEvidence s'.history p := by
  rw [Inner.recordMonitored] at he
  split at he
  · cases he
  · split at he
    · cases he
    · next process _ =>
        obtain ⟨-, rfl⟩ := Prod.mk.inj he
        refine ⟨c, monitoredExit process p (some raw), ?_, .inl ⟨t, List.mem_cons_self⟩⟩
        simp only [ProcessExit.Verified, monitoredExit]
        repeat' split
        all_goals first | rfl | contradiction

/-- **A monitor retains the capture** after it has recorded a verified exit. -/
theorem keepsCaptures_monitor {os : OsIdentity} : KeepsCaptures t (monitor c p os) x s := by
  refine Protocol.tracked_op fun s₁ _ _ => ⟨.free rfl, fun a r s₂ _ _ => ?_⟩
  refine Protocol.tracked_op fun s₃ _ _ => ⟨.free rfl, fun a result s₄ _ _ => ?_⟩
  refine Protocol.tracked_op fun s₅ _ _ => ⟨.free rfl, fun a r s₆ he _ => ?_⟩
  cases r with
  | none => trivial
  | some events =>
      have hrest : (do dispatch events; act (.removeSpawnTime p) : Code Unit).All
          (fun o => o.captureFree = true) fun _ => True :=
        all_bind ((Plain.dispatch events).mono (fun _ => captureFree_of_plain) fun _ hv => hv)
          fun _ => all_step (f := Prog.pure) rfl fun _ => trivial
      refine Protocol.tracked_op fun s₇ hr₇ _ => ⟨.free rfl, fun a r s₈ he₇ _ => ?_⟩
      cases result with
      | none => exact keepsCaptures_all hrest _ s₈
      | some raw =>
          have hev : HasEvidence s₆.history p := evidence_of_recordMonitored (Option.some.inj he)
          refine Protocol.tracked_op fun s₉ hr₉ _ => ⟨.retain ?_, fun a r s₁₀ _ _ =>
            keepsCaptures_all hrest _ s₁₀⟩
          exact hev.mono ((Since.suffix hr₇).trans ((exec_suffix he₇).trans (Since.suffix hr₉)))

end Programs

/-! ### Tasks -/

/-- The role neither spawns nor monitors. -/
def Role.captureless : Role → Bool
  | .call (.spawn _ _ _) | .monitor _ _ _ => false
  | _ => true

/-- A role without captures performs no operation on them. -/
theorem captureFree_of_performs {role : Role} {o : Op} (hrole : role.captureless = true)
    (ho : role.performs o) : o.captureFree = true := by
  rcases ho with ho | ho
  · exact captureFree_of_plain ho
  · split at ho
    · cases hrole
    · exact ho ▸ rfl
    · exact ho ▸ rfl
    · cases hrole
    · exact ho.elim

/-- **Every role keeps to the watch of captures.** -/
theorem keepsCaptures_role (role : Role) : KeepsCaptures t role.task.prog [] s := by
  have hfree : role.captureless = true → KeepsCaptures t role.task.prog [] s := fun hrole =>
    keepsCaptures_all ((all_role role).mono (fun _ => captureFree_of_performs hrole)
      fun _ _ => trivial) [] s
  cases role with
  | call call =>
      cases call with
      | spawn c spec admission =>
          exact Protocol.tracked_bind (Protocol.tracked_mono (fun _ _ _ _ => trivial)
            (keepsCaptures_spawnOwned nofun))
      | _ => exact hfree rfl
  | monitor c p os =>
      exact Protocol.tracked_bind (Protocol.tracked_mono (fun _ _ _ _ => trivial)
        keepsCaptures_monitor)
  | _ => exact hfree rfl

/-- A role returns a capture that it has claimed. -/
theorem returnsClaimed_role (role : Role) :
    protocol.tracked (captureWatch t) t role.task.prog (fun v x _ => ReturnsClaimed v x) [] s := by
  by_cases hrole : ∃ p, role = .call (.takeOutput p)
  · obtain ⟨p, rfl⟩ := hrole
    refine Protocol.tracked_op fun s₁ _ _ => ⟨.free rfl, fun a r s₂ he _ => ?_⟩
    obtain ⟨rfl, -⟩ := Prod.mk.inj (Option.some.inj he)
    intro q out heq
    obtain ⟨rfl, hout⟩ := Ret.tookOutput.inj heq
    have hout : s₁.outputs[p]? = some out := hout
    simp [captureWatch, captured, hout]
  · refine Protocol.tracked_mono ?_ (Protocol.tracked_returns (all_role role)
      (keepsCaptures_role role))
    rintro v x s' ⟨hv, -⟩ p out rfl
    exact absurd ⟨p, hv⟩ hrole

/-- A task keeps to the watch of captures, and so does what runs when it is dropped. -/
abbrev CapturesWell (t : Tid) (task : Task Res Ret) (x : List CaptureEvent) (s : Inner) : Prop :=
  protocol.TracksTask captureWatch (fun _ _ _ _ => True) (fun _ v x _ => ReturnsClaimed v x)
    t task x s

/-- Every role keeps its watch. -/
theorem capturesWell_role (role : Role) : CapturesWell t role.task [] s := by
  refine ⟨role_op role, Protocol.tracked_holds ?_ (fun o y s₁ ho => ⟨ho, ?_⟩)
    (returnsClaimed_role role)⟩
  · rfl
  cases hu : role.task.unwind with
  | none => trivial
  | some q =>
      obtain ⟨hop, hq⟩ := all_unwind hu
      have hkeeps : protocol.tracked (captureWatch t) t q
          (fun v _ _ => (v = .done ∨ v = .workerFailed) ∧ True) y s₁ :=
        Protocol.tracked_returns hq
          (keepsCaptures_plain (hq.mono (fun _ ho => ho) fun _ _ => trivial) y s₁)
      refine fun _ => ⟨hop, Protocol.tracked_mono ?_ (Protocol.tracked_holds ?_
        (fun o y s₂ ho => ⟨ho, trivial⟩) hkeeps)⟩
      · rintro v x s₂ ⟨hv, -⟩ p out rfl
        rcases hv with hv | hv <;> cases hv
      · rfl

/-- The whole supervisor keeps to the watch of captures. -/
theorem tracks_captures :
    Protocol.Tracks protocol captureWatch (fun _ _ _ _ => True)
      (fun _ v x _ => ReturnsClaimed v x) (fun _ _ _ => True) [] where
  enter call s hi :=
    ⟨guar_enter s hi, .call call, rfl, fun ev hm => Nat.lt_irrefl _ (hi.tasks.below hm), trivial⟩
  ready := by
    rintro t task s ⟨role, rfl, -⟩
    exact capturesWell_role role
  rely _ _ _ _ _ _ := trivial
  absent _ _ := trivial
  finish _ _ _ _ _ := trivial

/-! ### Steps -/

/-- The operations that change the captures or their slots. -/
def Op.captures : Op → Bool
  | .keepOutput _ _ | .retainCompletedOutput _ | .takeOutput _ | .recordRecovered _ _ _ => true
  | .orObserve _ o | .orElapsed o => o.captures
  | _ => false

/-- The captures and their slots are as before. -/
def Inner.SameCaptures (s s' : Inner) : Prop :=
  s'.outputs = s.outputs ∧ s'.completed = s.completed

section Steps

variable {o : Op} {a : Answer} {r : Res o} {g : CaptureLog}

/-- **Every other operation leaves the captures alone.** -/
theorem exec_sameCaptures (ho : o.captures = false) (he : exec t o a s = some (r, s')) :
    s.SameCaptures s' := by
  induction o generalizing a s s' with
  | orObserve f o ih =>
      obtain ⟨_, -, rfl⟩ | ⟨_, -, hrs⟩ := exec_orObserve he
      · exact ⟨rfl, rfl⟩
      · exact ih ho hrs
  | orElapsed o ih =>
      obtain ⟨-, rfl⟩ | ⟨_, -, hrs⟩ := exec_orElapsed he
      · exact ⟨rfl, rfl⟩
      · exact ih ho hrs
  | _ =>
      simp only [exec] at he
      repeat' split at he
      all_goals first
        | (cases ho; done)
        | (cases he; done)
        | exact of_some (P := s.SameCaptures) he ⟨rfl, rfl⟩
        | exact of_map (P := s.SameCaptures) he fun _ => ⟨rfl, rfl⟩
        | (refine of_some (P := s.SameCaptures) he ?_
           simp only [Inner.createScope, Inner.attach, Inner.recordMonitored, Inner.signalExit,
             Inner.notify, Inner.prune, Inner.beginTermination, Inner.registerWait, Inner.drain,
             Inner.publish, Inner.storeSample]
           repeat' split
           all_goals exact ⟨rfl, rfl⟩)
        | (refine of_map (P := s.SameCaptures) he fun _ => ?_
           rw [Inner.settleFor]
           split
           all_goals exact ⟨rfl, rfl⟩)

/-- An operation that does not touch captures logs nothing of them. -/
theorem captured_of_captures (ho : o.captures = false) (t : Tid) (a : Answer) (s : Inner) :
    captured t o a s = [] := by
  induction o with
  | orObserve f o ih =>
      simp only [captured]
      split
      · rfl
      · exact ih ho
  | orElapsed o ih =>
      simp only [captured]
      split
      · rfl
      · exact ih ho
  | _ => first | rfl | cases ho

/-- The completion of a process with evidence. -/
theorem Captures.retainCompletedOutput
    (h : Captures (HasEvidence h') s.outputs s.completed g) (hev : HasEvidence h' p) (t : Tid) :
    Captures (HasEvidence h') (s.retainCompletedOutput p).outputs
      (s.retainCompletedOutput p).completed ((s.retentions p).map (Prod.mk t) ++ g) := by
  rw [Inner.retainCompletedOutput, Inner.retentions]
  split
  · next hc =>
      obtain ⟨ho, hn⟩ := Bool.and_eq_true_iff.mp hc
      exact h.retain hev ho (by simpa using hn) t
  · exact h

/-- A recovered exit is verified. -/
theorem verified_of_storeRecovered {e e' : ProcessExit} {events : List DomainEvent}
    (hv : e.Verified) (hs : (s.storeRecovered t c p e).1 = .ok (e', events)) : e'.Verified := by
  rw [Inner.storeRecovered] at hs
  split at hs
  · obtain ⟨rfl, -⟩ := Prod.mk.inj (Except.ok.inj hs)
    exact hv
  · split at hs
    · next previous hp =>
        obtain ⟨rfl, -⟩ := Prod.mk.inj (Except.ok.inj hs)
        exact (Option.filter_eq_some_iff.mp hp).2
    · split at hs
      · split at hs
        · cases hs
        · obtain ⟨rfl, -⟩ := Prod.mk.inj (Except.ok.inj hs)
          exact hv
      · obtain ⟨rfl, -⟩ := Prod.mk.inj (Except.ok.inj hs)
        exact hv

/-- The exit that a retry stores leaves the captures alone. -/
theorem storeRecovered_sameCaptures (s : Inner) (t : Tid) (c : ProcessScopeId) (p : ProcessId)
    (e : ProcessExit) : s.SameCaptures (s.storeRecovered t c p e).2 := by
  obtain ⟨_, _, _, heq⟩ := s.storeRecovered_frame t c p e
  rw [heq]
  exact ⟨rfl, rfl⟩

/-- Where the captures are the same, the same is retained. -/
theorem Inner.SameCaptures.retentions (h : s.SameCaptures s') (p : ProcessId) :
    s'.retentions p = s.retentions p := by
  rw [Inner.retentions, Inner.retentions, h.1, h.2]

/-- The completion of a recovered process, whose exit is verified and so has evidence. -/
theorem Captures.recordRecovered {raw : RawExit}
    (h : Captures (HasEvidence s.history) s.outputs s.completed g)
    (hi' : Inv (s.recordRecovered t c p raw).2) :
    Captures (HasEvidence (s.recordRecovered t c p raw).2.history)
      (s.recordRecovered t c p raw).2.outputs (s.recordRecovered t c p raw).2.completed
      ((captured t (.recordRecovered c p raw) .go s).map (Prod.mk t) ++ g) := by
  have hsame := storeRecovered_sameCaptures s t c p (recoveredExit p raw)
  have hsuf : s.history <:+ (s.recordRecovered t c p raw).2.history :=
    exec_suffix (o := .recordRecovered c p raw) (a := .go) rfl
  have h' := h.mono fun q hq => hq.mono hsuf
  rw [captured]
  revert hi' h'
  rw [Inner.recordRecovered]
  cases hst : (s.storeRecovered t c p (recoveredExit p raw)).1 with
  | error e =>
      intro _ h'
      dsimp only at h' ⊢
      rw [hsame.1, hsame.2]
      exact h'
  | ok res =>
      obtain ⟨e, events⟩ := res
      intro hi' h'
      dsimp only at hi' h' ⊢
      have hv := verified_of_storeRecovered (Inv.recoveredExit_verified p raw) hst
      set s₁ := (s.storeRecovered t c p (recoveredExit p raw)).2.retainCompletedOutput p with hs₁
      have hj : Justified t (.exitSignalled p e) s₁.history := hi'.lawful.1
      have hev : HasEvidence (s₁.signalExit t p e).history p :=
        (hj.2.1.mp hv).mono (List.suffix_cons (t, Event.exitSignalled p e) s₁.history)
      rw [← hsame.1, ← hsame.2] at h'
      rw [← hsame.retentions]
      exact h'.retainCompletedOutput hev t

/-- A claim. -/
theorem Captures.takeOutput (h : Captures (HasEvidence h') s.outputs s.completed g) (t : Tid) :
    Captures (HasEvidence h') (s.takeOutput p).2.outputs (s.takeOutput p).2.completed
      ((captured t (.takeOutput p) .go s).map (Prod.mk t) ++ g) := by
  rw [captured]
  cases ho : s.outputs[p]? with
  | some out => exact h.take ho t
  | none => exact h.miss ho

/-- A settled spawn. -/
theorem Captures.keepOutput {admission : Bool} {output : Option ProcessOutput}
    (h : Captures (HasEvidence h') s.outputs s.completed g) (hn : p ∉ settledLog g) (t : Tid) :
    Captures (HasEvidence h') (s.keepOutput p output admission).outputs
      (s.keepOutput p output admission).completed
      ((captured t (.keepOutput p admission) (.output output) s).map (Prod.mk t) ++ g) := by
  cases admission with
  | true => exact h.pass (.inl rfl) hn t
  | false =>
      cases output with
      | some out => exact h.keep hn t out
      | none => exact h.pass (.inr rfl) hn t

/-- **An operation keeps the captures as the log has them**, if its task may perform it and a
capture that it settles is new. -/
theorem exec_captures (hi' : Inv s') (hmay : MayCapture t x s o)
    (hnew : ∀ p admission, o = .keepOutput p admission → p ∉ settledLog g)
    (h : Captures (HasEvidence s.history) s.outputs s.completed g)
    (he : exec t o a s = some (r, s')) :
    Captures (HasEvidence s'.history) s'.outputs s'.completed
      ((captured t o a s).map (Prod.mk t) ++ g) := by
  induction o generalizing a s s' with
  | orObserve f o ih =>
      have h' := h.mono fun q hq => hq.mono (exec_suffix he)
      cases hmay with
      | free ho =>
      simp only [exec] at he
      split at he
      · obtain ⟨e, -, heq⟩ := Option.map_eq_some_iff.mp he
        obtain ⟨-, rfl⟩ := Prod.mk.inj heq
        exact h'
      · next hne =>
          obtain ⟨rs, hrs, heq⟩ := Option.map_eq_some_iff.mp he
          obtain ⟨rfl, rfl⟩ := Prod.mk.inj heq
          have hcap : captured t (.orObserve f o) a s = captured t o a s := by
            rw [captured]
            intro ha
            exact hne ha
          rw [hcap]
          refine ih hi' (.free ho) (fun p admission heq => ?_) h hrs
          subst heq
          cases ho
  | orElapsed o ih =>
      have h' := h.mono fun q hq => hq.mono (exec_suffix he)
      cases hmay with
      | free ho =>
      simp only [exec] at he
      split at he
      · obtain ⟨-, rfl⟩ := Prod.mk.inj (Option.some.inj he)
        exact h'
      · next hne =>
          obtain ⟨rs, hrs, heq⟩ := Option.map_eq_some_iff.mp he
          obtain ⟨rfl, rfl⟩ := Prod.mk.inj heq
          have hcap : captured t (.orElapsed o) a s = captured t o a s := by
            rw [captured]
            intro ha
            exact hne ha
          rw [hcap]
          refine ih hi' (.free ho) (fun p admission heq => ?_) h hrs
          subst heq
          cases ho
  | keepOutput p admission =>
      have h' := h.mono fun q hq => hq.mono (exec_suffix he)
      simp only [exec] at he
      split at he
      · obtain ⟨-, rfl⟩ := Prod.mk.inj (Option.some.inj he)
        exact h'.keepOutput (hnew p admission rfl) t
      · cases he
  | retainCompletedOutput p =>
      have h' := h.mono fun q hq => hq.mono (exec_suffix he)
      obtain ⟨-, rfl⟩ := Prod.mk.inj (Option.some.inj he)
      cases hmay with
      | free ho => cases ho
      | retain hev =>
          exact h'.retainCompletedOutput (hev.mono (exec_suffix he)) t
  | takeOutput p =>
      have h' := h.mono fun q hq => hq.mono (exec_suffix he)
      obtain ⟨-, rfl⟩ := Prod.mk.inj (Option.some.inj he)
      exact h'.takeOutput t
  | recordRecovered c p raw =>
      obtain rfl : (s.recordRecovered t c p raw).2 = s' := congrArg Prod.snd (Option.some.inj he)
      exact h.recordRecovered hi'
  | _ =>
      have h' := h.mono fun q hq => hq.mono (exec_suffix he)
      obtain ⟨hout, hcomp⟩ := exec_sameCaptures rfl he
      rw [captured_of_captures rfl, hout, hcomp]
      exact h'

end Steps

/-! ### Runs -/

variable {cfg : Config Res Ret Inner} {g : CaptureLog}

/-- The own events of two logs, one after the other. -/
theorem ownLog_append (l g : CaptureLog) (t : Tid) : ownLog (l ++ g) t = ownLog l t ++ ownLog g t :=
  List.filterMap_append

/-- The events of one task are own events of that task alone. -/
theorem ownLog_map (l : List CaptureEvent) (t t' : Tid) :
    ownLog (l.map (Prod.mk t)) t' = if t = t' then l else [] := by
  rw [ownLog, List.filterMap_map]
  by_cases ht : t = t'
  · simp [ht]
  · simp [ht]

/-- An own event is one of the log, by its task. -/
theorem mem_ownLog {ev : CaptureEvent} : ev ∈ ownLog g t ↔ (t, ev) ∈ g := by
  simp only [ownLog, List.mem_filterMap, Prod.exists]
  constructor
  · rintro ⟨t', ev', hm, heq⟩
    split at heq
    · next ht =>
        obtain rfl := Option.some.inj heq
        obtain rfl : t' = t := ht
        exact hm
    · cases heq
  · exact fun hm => ⟨t, ev, hm, if_pos rfl⟩

/-- Every task remembers its part of the log. -/
theorem recorded_ownLog (h : CaptureRun cfg g) :
    supervisor.Recorded (Protocol.ownMemory captureWatch) Inner.new (fun _ => []) cfg
      (ownLog g) := by
  refine Machine.Recorded.map (f := ownLog) (fun t o a s g => ?_) h
  funext t'
  rw [ownLog_append, ownLog_map, Protocol.ownMemory, Function.update_apply]
  by_cases ht : t' = t
  · subst ht
    rw [if_pos rfl, if_pos rfl]
    rfl
  · rw [if_neg ht, if_neg (Ne.symm ht)]
    rfl

/-- **Every task of a run keeps to the watch of captures**, with its own part of the log. -/
theorem allTracked_captures (h : CaptureRun cfg g) :
    protocol.AllTracked captureWatch (fun _ _ _ _ => True) (fun _ v x _ => ReturnsClaimed v x)
      (fun _ _ _ => True) [] cfg (ownLog g) :=
  .of_recorded tracks_captures (fun _ => good_of_reachable) (recorded_ownLog h)

/-- What a task may do to captures, where it is. -/
theorem mayCapture (h : CaptureRun cfg g) {o : Op} {k : Res o → Code Ret}
    {u : Option (Code Ret)} (htask : cfg.tasks t = some ⟨.op o k, u⟩) :
    MayCapture t (ownLog g t) cfg.shared o :=
  ((allTracked_captures h).holds (good_of_reachable h.reachable) htask).1

/-- The log after a step. -/
theorem remember_captured {a : Answer} {o : Op}
    {k : Res o → Code Ret} {u : Option (Code Ret)}
    (htask : cfg.tasks t = some ⟨.op o k, u⟩) :
    cfg.remember (fun t o a s g => (captured t o a s).map (Prod.mk t) ++ g)
      (.run t a : Label Answer Call) g = (captured t o a cfg.shared).map (Prod.mk t) ++ g := by
  simp only [Config.remember, htask]

/-- An operation settles the capture of a process that its task has attached. -/
theorem attached_of_captured {o : Op} {a : Answer} {ev : CaptureEvent}
    (hmay : MayCapture t x s o) (hev : ev ∈ captured t o a s) (hp : ev.settles = some p) :
    ∃ c os, (t, .attached c p os) ∈ s.history := by
  cases hmay with
  | free ho =>
      rw [unsettled_captured ho t a s ev hev] at hp
      cases hp
  | retain _ =>
      rw [unsettled_retentions s _ ev hev] at hp
      cases hp
  | @keep q admission c os _ ha =>
      have hq : ev.settles = some q := by
        simp only [captured] at hev
        split at hev
        all_goals
          obtain rfl := List.mem_singleton.mp hev
          rfl
      obtain rfl := Option.some.inj (hq.symm.trans hp)
      exact ⟨c, os, ha⟩

/-- A capture is settled by the task that attached its process. -/
theorem attached_of_settled (h : CaptureRun cfg g) {ev : CaptureEvent} (hm : (t, ev) ∈ g)
    (hp : ev.settles = some p) : ∃ c os, (t, .attached c p os) ∈ cfg.shared.history := by
  induction h with
  | initial => cases hm
  | @step cfg cfg' g l h hs ih =>
      have hold : (t, ev) ∈ g → ∃ c os, (t, .attached c p os) ∈ cfg'.shared.history := fun hm => by
        obtain ⟨c, os, ha⟩ := ih hm
        exact ⟨c, os, (step_suffix hs).mem ha⟩
      cases l with
      | run t' a =>
          cases supervisor.step_shared hs with
          | run htask _ _ =>
              rw [remember_captured htask] at hm
              rcases List.mem_append.mp hm with hm | hm
              · obtain ⟨ev', hev, heq⟩ := List.mem_map.mp hm
                obtain ⟨rfl, rfl⟩ := Prod.mk.inj heq
                obtain ⟨c, os, ha⟩ := attached_of_captured (mayCapture h htask) hev hp
                exact ⟨c, os, (step_suffix hs).mem ha⟩
              · exact hold hm
      | drop t' => exact hold hm
      | start call => exact hold hm

/-- **The stores are as the log has them**, in every run. -/
theorem captures_of_run (h : CaptureRun cfg g) :
    Captures (HasEvidence cfg.shared.history) cfg.shared.outputs cfg.shared.completed g := by
  induction h with
  | initial => exact .empty _
  | @step cfg cfg' g l h hs ih =>
      have hgood := good_of_reachable h.reachable
      cases supervisor.step_shared hs with
      | @run t a o k u r s' htask hexec hsh =>
          have hmay := mayCapture h htask
          have hnew : ∀ p admission, o = .keepOutput p admission → p ∉ settledLog g := by
            rintro p admission rfl hp
            cases hmay with
            | free ho => cases ho
            | keep hun ha =>
                obtain ⟨⟨t', ev⟩, hm, hev⟩ := List.mem_filterMap.mp hp
                obtain ⟨c', os', ha'⟩ := attached_of_settled h hm hev
                obtain rfl := hgood.1.lawful.attacher_unique ha ha'
                rw [hun ev (mem_ownLog.mpr hm)] at hev
                cases hev
          have hc := exec_captures (Protocol.Good.exec hgood htask hexec) hmay hnew ih hexec
          rw [remember_captured htask]
          rcases hsh with ⟨_, _, -, hsh, -⟩ | ⟨v, -, hsh, -⟩
          · rw [hsh]
            exact hc
          · rw [hsh]
            exact hc.mono fun p hp => hp.mono (List.suffix_cons _ _)
      | drop _ _ hsh =>
          rw [hsh]
          exact ih
      | start hsh =>
          rw [hsh]
          exact ih

/-- A call that returned a capture has claimed it. -/
theorem claimed_of_returned {out : ProcessOutput} (h : CaptureRun cfg g)
    (hret : (t, .returned (.tookOutput p (some out))) ∈ cfg.shared.history) :
    (t, .claimed p out) ∈ g := by
  induction h with
  | initial => cases hret
  | @step cfg cfg' g l h hs ih =>
      cases supervisor.step_shared hs with
      | @run t' a o k u res s' htask hexec hsh =>
          have hnew : (t, .returned (.tookOutput p (some out))) ∈ s'.history →
              (t, .claimed p out) ∈ g := fun hm => by
            obtain ⟨-, evs, hh, hem⟩ := exec_ext hexec
            rw [hh] at hm
            refine ih ((List.mem_append.mp hm).resolve_left fun hm => ?_)
            obtain ⟨ev, hev, heq⟩ := List.mem_map.mp hm
            obtain ⟨-, rfl⟩ := Prod.mk.inj heq
            exact not_emits_returned o _ (hem _ hev)
          rw [remember_captured htask]
          rcases hsh with ⟨_, _, -, hsh, -⟩ | ⟨v, hpure, hsh, -⟩
          · exact List.mem_append_right _ (hnew (hsh ▸ hret))
          · have hclaim := (allTracked_captures h).returns (good_of_reachable h.reachable) htask
              hexec hpure
            rw [hsh] at hret
            rcases List.mem_cons.mp hret with heq | hret
            · obtain ⟨rfl, hev⟩ := Prod.mk.inj heq
              have hm := hclaim p out (Event.returned.inj hev).symm
              rcases List.mem_append.mp hm with hm | hm
              · exact List.mem_append_left _ (List.mem_map_of_mem hm)
              · exact List.mem_append_right _ (mem_ownLog.mp hm)
            · exact List.mem_append_right _ (hnew hret)
      | drop _ _ hsh =>
          rw [hsh] at hret
          exact ih hret
      | start hsh =>
          rw [hsh] at hret
          exact ih hret

/-! ### Unclaimed captures -/

/-- Two entries that settle the same process are the same entry. -/
theorem settles_unique {g : CaptureLog} (h : (settledLog g).Nodup) {x y : Tid × CaptureEvent}
    (hx : x ∈ g) (hy : y ∈ g) (hxp : x.2.settles = some p) (hyp : y.2.settles = some p) :
    x = y := by
  induction g with
  | nil => cases hx
  | cons z g ih =>
      have hhead : ∀ {w}, w ∈ g → w.2.settles = some p → z.2.settles ≠ some p := by
        intro w hw hwp hz
        rw [settledLog, List.filterMap_cons, hz] at h
        exact (List.nodup_cons.mp h).1 (List.mem_filterMap.mpr ⟨w, hw, hwp⟩)
      have htail : (settledLog g).Nodup :=
        h.sublist ((List.sublist_cons_self z g).filterMap _)
      rcases List.mem_cons.mp hx with heq | hx'
      · rcases List.mem_cons.mp hy with heq' | hy'
        · exact heq.trans heq'.symm
        · exact absurd (heq ▸ hxp) (hhead hy' hyp)
      · rcases List.mem_cons.mp hy with heq' | hy'
        · exact absurd (heq' ▸ hyp) (hhead hx' hxp)
        · exact ih htail hx' hy'

/-- The slots are for kept captures that nobody has claimed. -/
theorem Captures.not_completed {evidence : ProcessId → Prop}
    {outputs : ExtTreeMap ProcessId ProcessOutput} {completed : List ProcessId}
    (h : Captures evidence outputs completed g)
    (hp : (t, .transferred p) ∈ g ∨ (t, .uncaptured p) ∈ g ∨ ∃ out, (t, .claimed p out) ∈ g) :
    p ∉ completed := by
  intro hc
  have ho := h.slot p hc
  rw [← ExtTreeMap.isSome_getElem?_eq_contains] at ho
  obtain ⟨out, ho⟩ := Option.isSome_iff_exists.mp ho
  obtain ⟨⟨t', hkept⟩, hclaim, -⟩ := h.kept ho
  rcases hp with hm | hm | ⟨out', hm⟩
  · cases settles_unique h.settled hkept hm rfl rfl
  · cases settles_unique h.settled hkept hm rfl rfl
  · exact hclaim (mem_claimLog.mpr ⟨t, out', hm⟩)

/-- The log has at most one claim of a process. -/
theorem claim_unique {g : CaptureLog} (h : (claimLog g).Nodup) {t' : Tid} {out out' : ProcessOutput}
    (hx : (t, .claimed p out) ∈ g) (hy : (t', .claimed p out') ∈ g) : t = t' ∧ out = out' := by
  induction g with
  | nil => cases hx
  | cons z g ih =>
      have htail : (claimLog g).Nodup :=
        h.sublist ((List.sublist_cons_self z g).filterMap _)
      have hhead : ∀ {t₁ out₁ t₂ out₂}, (t₁, .claimed p out₁) = z → (t₂, .claimed p out₂) ∉ g := by
        rintro t₁ out₁ t₂ out₂ rfl hm
        exact (List.nodup_cons.mp h).1 (mem_claimLog.mpr ⟨t₂, out₂, hm⟩)
      rcases List.mem_cons.mp hx with hx | hx
      · rcases List.mem_cons.mp hy with hy | hy
        · obtain ⟨rfl, heq⟩ := Prod.mk.inj (hx.trans hy.symm)
          exact ⟨rfl, (CaptureEvent.claimed.inj heq).2⟩
        · exact absurd hy (hhead hx)
      · rcases List.mem_cons.mp hy with hy | hy
        · exact absurd hx (hhead hy)
        · exact ih htail hx hy

/-- **Unclaimed captures are retained**: the slots are distinct, bounded and all for captures
that are there. A capture is returned once at most; it is lost unclaimed only after a verified
exit, for as many others that were retained after it and are unclaimed themselves. What has no
capture to claim occupies no slot. -/
theorem unclaimed_captures_are_retained (h : CaptureRun cfg g) :
    (cfg.shared.completed.Nodup ∧ cfg.shared.completed.length ≤ OUTPUT_HISTORY_BOUND ∧
      ∀ p ∈ cfg.shared.completed, cfg.shared.outputs.contains p = true) ∧
    (∀ t p out, (t, .kept p out) ∈ g → cfg.shared.outputs[p]? = some out ∨
      (∃ t', (t', .claimed p out) ∈ g) ∨
      (p ∈ evictionLog g ∧ HasEvidence cfg.shared.history p)) ∧
    ((claimLog g).Nodup ∧ ∀ t p out,
      (t, .returned (.tookOutput p (some out))) ∈ cfg.shared.history →
        (t, .claimed p out) ∈ g ∧ ∀ t' out',
          (t', .returned (.tookOutput p (some out'))) ∈ cfg.shared.history → t = t' ∧ out = out') ∧
    (∀ newer t p older, g = newer ++ (t, .evicted p) :: older → Overflow p older) ∧
    (∀ p ∈ retentionLog g, HasEvidence cfg.shared.history p) ∧
    (∀ t p, (t, .transferred p) ∈ g ∨ (t, .uncaptured p) ∈ g ∨
      (∃ out, (t, .claimed p out) ∈ g) → p ∉ cfg.shared.completed) := by
  have hc := captures_of_run h
  refine ⟨⟨hc.queued.nodup, hc.queued.length_le, hc.slot⟩, fun t p out hk => ?_,
    ⟨hc.claims, fun t p out hret => ⟨claimed_of_returned h hret, fun t' out' hret' => ?_⟩⟩,
    hc.eviction, fun p hp => (hc.retention hp).1, fun t p hp => hc.not_completed hp⟩
  · exact (hc.stays hk).imp_right (.imp_right fun he =>
      ⟨he, (hc.retention (hc.retained_of_evicted he)).1⟩)
  · exact claim_unique hc.claims (claimed_of_returned h hret) (claimed_of_returned h hret')

/-- A process is spawned with a capture and exits; the capture takes a slot. -/
def captureAndExit : List (Label Answer Call) :=
  [.start (.createScope false)] ++ steps 0 1 ++
  [.start (.spawn 1 (.new []) false)] ++ steps 1 6 ++
  [.run 1 (.spawned (.ok ⟨100, .unavailable⟩))] ++ steps 1 2 ++
  [.run 1 (.instant 0)] ++ steps 1 1 ++ [.run 1 (.output (some 7))] ++ steps 1 7 ++
  steps 2 1 ++ [.run 2 (.waited (some ⟨some 0, none, false⟩))] ++ steps 2 3

set_option maxRecDepth 10000 in
/-- The schedule in which a captured process exits: the capture is kept, and then retained. -/
theorem captureAndExit_retains :
    (supervisor.record (fun t o a s g => (captured t o a s).map (Prod.mk t) ++ g)
      (Machine.initial Inner.new, []) captureAndExit).any (fun cg =>
        cg.1.shared.completed = [1] ∧ cg.2 = [(2, .retained 1), (1, .kept 1 7)]) = true := by
  decide +kernel

/-- The capture that was retained is there, and unclaimed. -/
theorem retained_capture_is_unclaimed : ∃ cfg, CaptureRun cfg [(2, .retained 1), (1, .kept 1 7)] ∧
    cfg.shared.completed = [1] ∧ cfg.shared.outputs.contains 1 = true := by
  obtain ⟨cg, hf, hP⟩ := (Option.any_eq_true _ _).mp captureAndExit_retains
  obtain ⟨hc, hg⟩ := of_decide_eq_true hP
  have h : CaptureRun cg.1 cg.2 := Machine.Recorded.record .initial hf
  exact ⟨cg.1, hg ▸ h, hc,
    (unclaimed_captures_are_retained h).1.2.2 1 (hc ▸ List.mem_singleton.mpr rfl)⟩

end Shepherd
