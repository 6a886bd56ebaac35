import Shepherd.Supervisor.System

/-!
# The History of OS Pids

`OsPidHistory` keeps the OS pids of the last attached processes, so that a lookup finds the OS
pid of a process that was already reaped and pruned. A pid that is remembered again keeps its
place in the queue; only a pid that is absent from the history is queued, and it may evict the
oldest one.

The calls of `remember` are a list, newest first. `insertions` are the calls that found their
pid absent. The queue is the window of the insertions (`after_order`), so the history is exact
(`os_pid_history_is_exact`): it knows the pids of the newest insertions, each with the OS pid
of its last call. The supervisor changes its history by calls only (`exec_osPids`), so in every
run it has the history of the calls that were made (`osPids_of_reachable`).
-/

open Std

namespace Shepherd

open Conc

namespace OsPidHistory

/-- The OS pid that is remembered for a process. -/
def get (h : OsPidHistory) (pid : ProcessId) : Option ℕ :=
  h.byPid[pid]?

/-- The history after calls of `remember`, newest first. -/
def after : List (ProcessId × ℕ) → OsPidHistory
  | [] => .empty
  | (pid, osPid) :: calls => (after calls).remember pid osPid

/-- The pids that were inserted after an absence, newest first. -/
def insertions : List (ProcessId × ℕ) → List ProcessId
  | [] => []
  | (pid, _) :: calls =>
      if (after calls).get pid = none then pid :: insertions calls else insertions calls

variable {h : OsPidHistory} {pid q : ProcessId} {osPid v : ℕ} {calls : List (ProcessId × ℕ)}

/-! ### A call -/

/-- A pid is in the map exactly if the map has an OS pid for it. -/
theorem contains_iff_get : h.byPid.contains pid = true ↔ h.get pid ≠ none := by
  rw [get, ExtTreeMap.contains_eq_isSome_getElem?, Option.isSome_iff_ne_none]

/-- A pid that is known gets a new OS pid. -/
theorem remember_of_known (hk : h.get pid ≠ none) :
    h.remember pid osPid = ⟨h.byPid.insert pid osPid, h.order⟩ := by
  rw [remember, if_pos (contains_iff_get.mpr hk)]

/-- A pid that is absent is queued. -/
theorem remember_of_absent (hk : h.get pid = none) :
    h.remember pid osPid =
      ⟨eraseAll (h.byPid.insert pid osPid) (retain OS_PID_HISTORY_BOUND h.order pid).2,
        (retain OS_PID_HISTORY_BOUND h.order pid).1⟩ := by
  rw [remember, if_neg fun hc => contains_iff_get.mp hc hk]

/-- What the map has after an insertion. -/
theorem getElem?_insert_pid (m : ExtTreeMap ProcessId ℕ) :
    (m.insert pid osPid)[q]? = if pid = q then some osPid else m[q]? := by
  rw [ExtTreeMap.getElem?_insert]
  simp only [Std.compare_eq_iff_eq]

/-- The newest call for a pid is the one that counts. -/
theorem lookup_cons_pid :
    ((pid, osPid) :: calls).lookup q = if pid = q then some osPid else calls.lookup q := by
  by_cases hq : pid = q
  · subst hq
    rw [if_pos rfl, List.lookup_cons_self]
  · rw [if_neg hq, List.lookup_cons, beq_false_of_ne (Ne.symm hq)]

/-! ### Runs of calls -/

/-- The history agrees with its calls: the map has the OS pid of the last call for the pids in
the queue, and nothing else. -/
structure Agrees (calls : List (ProcessId × ℕ)) (h : OsPidHistory) : Prop where
  nodup : h.order.Nodup
  order : h.order = window OS_PID_HISTORY_BOUND (insertions calls)
  found : ∀ pid, h.get pid = if pid ∈ h.order then calls.lookup pid else none
  called : ∀ pid ∈ h.order, calls.lookup pid ≠ none

/-- **Every call keeps the agreement.** A pid that is absent enters the queue, and the map loses
what leaves the queue; of one that is known only the OS pid changes. -/
theorem Agrees.remember (ha : Agrees calls (after calls)) (pid : ProcessId) (osPid : ℕ) :
    Agrees ((pid, osPid) :: calls) (after ((pid, osPid) :: calls)) := by
  have hcalled : ∀ q, calls.lookup q ≠ none → ((pid, osPid) :: calls).lookup q ≠ none := by
    intro q hq
    rw [lookup_cons_pid]
    split
    · exact Option.some_ne_none _
    · exact hq
  by_cases hk : (after calls).get pid = none
  · have hnew : pid ∉ (after calls).order := by
      intro hm
      rw [ha.found, if_pos hm] at hk
      exact ha.called pid hm hk
    have hnodup : ((after calls).order ++ [pid]).Nodup := by
      rw [← List.concat_eq_append]
      exact ha.nodup.concat hnew
    have hins : insertions ((pid, osPid) :: calls) = pid :: insertions calls := if_pos hk
    rw [after, remember_of_absent hk]
    refine ⟨?_, ?_, fun q => ?_, fun q hq => ?_⟩
    · rw [retain_eq]
      exact hnodup.sublist (List.drop_sublist _ _)
    · rw [hins, ha.order]
      exact window_retain _ _ _
    · have hmem : q ∈ (retain OS_PID_HISTORY_BOUND (after calls).order pid).1 ↔
          (q ∈ (after calls).order ∨ q = pid) ∧
            q ∉ (retain OS_PID_HISTORY_BOUND (after calls).order pid).2 := mem_retain hnodup
      rw [get, getElem?_eraseAll, getElem?_insert_pid, lookup_cons_pid]
      by_cases hev : q ∈ (retain OS_PID_HISTORY_BOUND (after calls).order pid).2
      · rw [if_pos hev, if_neg fun hm => (hmem.mp hm).2 hev]
      · rw [if_neg hev]
        by_cases hq : pid = q
        · subst hq
          rw [if_pos rfl, if_pos rfl, if_pos (hmem.mpr ⟨.inr rfl, hev⟩)]
        · have hold : q ∈ (retain OS_PID_HISTORY_BOUND (after calls).order pid).1 ↔
              q ∈ (after calls).order := by
            rw [hmem, and_iff_left hev, or_iff_left (Ne.symm hq)]
          rw [if_neg hq, if_neg hq]
          simp only [hold]
          exact ha.found q
    · rcases (mem_retain hnodup).mp hq with ⟨hm | rfl, -⟩
      · exact hcalled q (ha.called q hm)
      · rw [lookup_cons_pid, if_pos rfl]
        exact Option.some_ne_none _
  · have hins : insertions ((pid, osPid) :: calls) = insertions calls := if_neg hk
    rw [after, remember_of_known hk]
    refine ⟨ha.nodup, ?_, fun q => ?_, fun q hq => hcalled q (ha.called q hq)⟩
    · rw [hins]
      exact ha.order
    · have hm : pid ∈ (after calls).order := by
        rw [ha.found] at hk
        exact (ite_ne_right_iff.mp hk).1
      rw [get, getElem?_insert_pid, lookup_cons_pid]
      by_cases hq : pid = q
      · subst hq
        rw [if_pos rfl, if_pos rfl, if_pos hm]
      · rw [if_neg hq, if_neg hq]
        exact ha.found q

/-- **After any calls, the history agrees with them**; by induction on the calls. -/
theorem agrees_after (calls : List (ProcessId × ℕ)) : Agrees calls (after calls) := by
  induction calls with
  | nil =>
      refine ⟨List.nodup_nil, ?_, fun _ => rfl, fun _ hm => absurd hm List.not_mem_nil⟩
      rw [insertions, window, List.take_nil]
      rfl
  | cons call calls ih => exact ih.remember call.1 call.2

/-! ### The exact history -/

/-- A pid is known while it is among the newest insertions. -/
theorem get_eq_none_iff :
    (after calls).get pid = none ↔ pid ∉ (insertions calls).take OS_PID_HISTORY_BOUND := by
  have ha := agrees_after calls
  rw [ha.found, ← mem_window, ← ha.order]
  constructor
  · intro hn hm
    rw [if_pos hm] at hn
    exact ha.called pid hm hn
  · exact fun hm => if_neg hm

/-- **The insertions by themselves**: a call inserts its pid unless it is among the newest
insertions. -/
theorem insertions_cons : insertions ((pid, osPid) :: calls) =
    if pid ∈ (insertions calls).take OS_PID_HISTORY_BOUND then insertions calls
    else pid :: insertions calls := by
  rw [insertions, ← ite_not]
  simp only [get_eq_none_iff, not_not]

/-- **What a call evicts** is the oldest of the newest insertions, and only a pid that was absent
evicts. -/
theorem evicted_of_remember (hq : (after calls).get q ≠ none)
    (hq' : (after ((pid, osPid) :: calls)).get q = none) :
    (after calls).get pid = none ∧
      (insertions ((pid, osPid) :: calls))[OS_PID_HISTORY_BOUND]? = some q := by
  by_cases hk : (after calls).get pid = none
  · have hins : insertions ((pid, osPid) :: calls) = pid :: insertions calls := if_pos hk
    refine ⟨hk, ?_⟩
    rw [after, remember_of_absent hk, get, getElem?_eraseAll, getElem?_insert_pid,
      (agrees_after calls).order, evicted_window] at hq'
    rw [hins]
    split at hq'
    · next hev => exact Option.mem_toList.mp hev
    · split at hq'
      · cases hq'
      · exact absurd hq' hq
  · rw [after, remember_of_known hk, get, getElem?_insert_pid] at hq'
    split at hq'
    · cases hq'
    · exact absurd hq' hq

/-- **The history of OS pids is exact.** It holds the pids of the newest 256 insertions, once
each and in their order, each with the OS pid of its last call; and an eviction removes the oldest
of them. -/
theorem os_pid_history_is_exact (calls : List (ProcessId × ℕ)) :
    (∀ pid, (after calls).byPid.contains pid = true ↔ pid ∈ (after calls).order) ∧
    (after calls).order.Nodup ∧ (after calls).order.length ≤ 256 ∧
    (after calls).order = ((insertions calls).take 256).reverse ∧
    (∀ pid v, (after calls).get pid = some v ↔
      pid ∈ (insertions calls).take 256 ∧ calls.lookup pid = some v) ∧
    ∀ pid v q, (after calls).get q ≠ none → (after ((pid, v) :: calls)).get q = none →
      (after calls).get pid = none ∧ (insertions ((pid, v) :: calls))[256]? = some q := by
  have hbound : OS_PID_HISTORY_BOUND = 256 := by rw [OS_PID_HISTORY_BOUND]
  have ha := agrees_after calls
  rw [← hbound]
  refine ⟨fun pid => ?_, ha.nodup, ?_, ha.order, fun pid v => ?_,
    fun pid v q => evicted_of_remember⟩
  · rw [contains_iff_get, Ne, get_eq_none_iff, not_not, ha.order, mem_window]
  · rw [ha.order]
    exact length_window_le _ _
  · rw [ha.found, ← mem_window, ← ha.order, Option.ite_none_right_eq_some]

end OsPidHistory

/-! ### The history of the supervisor -/

variable {t : Tid} {s s' : Inner}

/-- A retry remembers no OS pid: it attaches no process. -/
theorem Inner.osPids_recordRecovered (t : Tid) (c : ProcessScopeId) (p : ProcessId)
    (raw : RawExit) : (s.recordRecovered t c p raw).2.osPids = s.osPids := by
  obtain ⟨_, _, _, _, _, _, heq⟩ := s.recordRecovered_frame t c p raw
  rw [heq]

/-- **The supervisor remembers OS pids** by calls of its history. -/
theorem exec_osPids {o : Op} {a : Answer} {r : Res o} (he : exec t o a s = some (r, s')) :
    s'.osPids = s.osPids ∨ ∃ pid osPid, s'.osPids = s.osPids.remember pid osPid := by
  induction o generalizing a s s' with
  | orObserve f o ih =>
      obtain ⟨_, -, rfl⟩ | ⟨_, -, hrs⟩ := exec_orObserve he
      · exact .inl rfl
      · exact ih hrs
  | orElapsed o ih =>
      obtain ⟨-, rfl⟩ | ⟨_, -, hrs⟩ := exec_orElapsed he
      · exact .inl rfl
      · exact ih hrs
  | rememberOsPid pid os =>
      obtain ⟨-, rfl⟩ := Prod.mk.inj (Option.some.inj he)
      exact .inr ⟨pid, os.pid, rfl⟩
  | recordRecovered c p raw =>
      exact .inl (of_some (P := fun s' => s'.osPids = s.osPids) he
        (Inner.osPids_recordRecovered t c p raw))
  | _ =>
      refine .inl ?_
      simp only [exec] at he
      repeat' split at he
      all_goals first
        | (cases he; done)
        | exact of_some (P := fun s' => s'.osPids = s.osPids) he rfl
        | exact of_map (P := fun s' => s'.osPids = s.osPids) he fun _ => rfl
        | (refine of_some (P := fun s' => s'.osPids = s.osPids) he ?_
           simp only [Inner.createScope, Inner.attach, Inner.keepOutput, Inner.recordMonitored,
             Inner.retainCompletedOutput, Inner.signalExit, Inner.notify, Inner.prune,
             Inner.beginTermination, Inner.registerWait, Inner.drain, Inner.publish,
             Inner.storeSample]
           repeat' split
           all_goals rfl)
        | (refine of_map (P := fun s' => s'.osPids = s.osPids) he fun _ => ?_
           rw [Inner.settleFor]
           split
           all_goals rfl)

/-- **In every run of the supervisor** its history is that of the calls that were made. -/
theorem osPids_of_reachable {cfg : Config Res Ret Inner} (hr : Reachable cfg) :
    ∃ calls, cfg.shared.osPids = OsPidHistory.after calls := by
  induction hr with
  | initial => exact ⟨[], rfl⟩
  | @step cfg cfg' l _ _ hs ih =>
      obtain ⟨calls, hcalls⟩ := ih
      cases supervisor.step_shared hs with
      | @run _ _ _ _ _ _ s' _ hexec hsh =>
          have hshared : cfg'.shared.osPids = s'.osPids := by
            rcases hsh with ⟨_, _, -, hsh, -⟩ | ⟨_, -, hsh, -⟩
            · rw [hsh]
            · rw [hsh]
              rfl
          rw [hshared]
          rcases exec_osPids hexec with heq | ⟨pid, osPid, heq⟩
          · exact ⟨calls, heq.trans hcalls⟩
          · refine ⟨(pid, osPid) :: calls, ?_⟩
            rw [heq, hcalls, OsPidHistory.after]
      | drop _ _ hsh => exact ⟨calls, by rw [hsh, hcalls]⟩
      | start hsh => exact ⟨calls, by rw [hsh, ← hcalls]; rfl⟩

end Shepherd
