import Mathlib.Data.List.Infix
import Rustper.Coalescing

/-!
A sink that writes one group at a time. Its groups are tried in the order of their
dispatch, each only after the one before it has been written, and the first group that
fails for good is the last one tried.
-/
namespace Rustper.Sink

open TransitionSystem

variable {runtime : Runtime} {s s' : State}

namespace State

/-- The groups that were written, in the order of their success. -/
def writtenGroups (s : State) : List (List SinkEnvelope) :=
  s.succeeded.filterMap (fun k => s.dispatched[k]?)

/-- The groups with a call that was not to be repeated, as often as they have one. -/
def concludedGroups (settings : DeliverySettings) (s : State) : List ℕ :=
  s.groupsWith (fun a => !a.retried settings)

/-- A call failed, or panicked, that was not to be repeated. -/
def gaveUp (settings : DeliverySettings) (s : State) : Prop :=
  ∃ a ∈ s.attempts, a.succeeded = false ∧ a.retried settings = false

/-- `run` is still in its loop over groups. -/
def looping (s : State) : Bool := !s.phase.isDraining && !s.returned

end State

/-- How far the groups are written, by the one write there may be. -/
def Standing (s : State) : Prop :=
  match s.writes with
  | [] => s.looping = true → s.succeeded.length = s.dispatched.length
  | [w] => w.id + 1 = s.dispatched.length ∧
    match w.stage with
    | .done (.ok _) => s.succeeded.length = s.dispatched.length
    | .done (.error _) => True
    | _ => s.succeeded.length = w.id
  | _ => False

structure InTurn (s : State) : Prop where
  written : s.succeeded = List.range s.succeeded.length
  standing : Standing s
  calls : (s.calls.map Call.write).Pairwise (· ≤ ·)
  handed : ∀ c ∈ s.calls, s.dispatched[c.write]?.map batches = some c.batches

theorem start_inTurn (now : ℕ) : InTurn (State.start now) where
  written := rfl
  standing _ := rfl
  calls := List.Pairwise.nil
  handed := by simp [State.start]

/-- With one write at a time the write a step is about is the only one. -/
theorem InTurn.only {k : ℕ} {w : Write} (h : InTurn s) (hk : s.writes[k]? = some w) :
    s.writes = [w] ∧ k = 0 := by
  have hstanding := h.standing
  unfold Standing at hstanding
  split at hstanding
  · rename_i hnil
    rw [hnil] at hk
    contradiction
  · rename_i v hone
    rw [hone] at hk ⊢
    cases k with
    | zero => exact ⟨by rw [Option.some.inj hk], rfl⟩
    | succ k => contradiction
  · contradiction

theorem InTurn.standing_of {w : Write} (h : InTurn s) (hone : s.writes = [w]) :
    w.id + 1 = s.dispatched.length ∧
      match w.stage with
      | .done (.ok _) => s.succeeded.length = s.dispatched.length
      | .done (.error _) => True
      | _ => s.succeeded.length = w.id := by
  have hstanding := h.standing
  unfold Standing at hstanding
  rw [hone] at hstanding
  exact hstanding

theorem InTurn.live_id {w : Write} (h : InTurn s) (hone : s.writes = [w])
    (hlive : w.live = true) : s.succeeded.length = w.id := by
  obtain ⟨-, hstage⟩ := h.standing_of hone
  obtain ⟨id, envelopes, stage⟩ := w
  cases stage with
  | done result => contradiction
  | _ => exact hstage

/-- The step leaves the tasks, their groups and their calls alone. -/
structure SameWrites (s s' : State) : Prop where
  writes : s'.writes = s.writes
  dispatched : s'.dispatched = s.dispatched
  calls : s'.calls = s.calls
  attempts : s'.attempts = s.attempts

theorem InTurn.same (h : InTurn s) (hsame : SameWrites s s')
    (hloops : s'.looping = true → s.looping = true) : InTurn s' := by
  have hsucceeded : s'.succeeded = s.succeeded := by
    rw [State.succeeded, State.groupsWith, hsame.attempts, State.succeeded, State.groupsWith]
  refine ⟨?_, ?_, ?_, ?_⟩
  · rw [hsucceeded]
    exact h.written
  · have hstanding := h.standing
    unfold Standing at hstanding ⊢
    rw [hsame.writes, hsame.dispatched, hsucceeded]
    split
    · rename_i hnil
      rw [hnil] at hstanding
      exact fun hlooping => hstanding (hloops hlooping)
    · rename_i w hone
      rw [hone] at hstanding
      exact hstanding
    · rename_i hnil hmany
      split at hstanding
      · exact absurd ‹_› hnil
      · exact hmany _ ‹_›
      · exact hstanding
  · rw [hsame.calls]
    exact h.calls
  · rw [hsame.calls, hsame.dispatched]
    exact h.handed

theorem SameWrites.coalesce (h : SameWrites s s') {batching : BatchSettings}
    {envelopes : List SinkEnvelope} {eventCount byteCount : ℕ} :
    SameWrites s (s'.coalesce batching envelopes eventCount byteCount) := by
  unfold State.coalesce
  split
  · exact ⟨h.writes, h.dispatched, h.calls, h.attempts⟩
  · exact ⟨h.writes, h.dispatched, h.calls, h.attempts⟩

theorem propagate_sameWrites (s : State) (result : Except WriteError Unit) :
    SameWrites s (propagate s result) := by
  unfold propagate
  split
  · exact ⟨rfl, rfl, rfl, rfl⟩
  · exact ⟨rfl, rfl, rfl, rfl⟩
  · exact ⟨rfl, rfl, rfl, rfl⟩
  · exact ⟨rfl, rfl, rfl, rfl⟩

/-- A failure that was joined ends the loop over groups. -/
theorem propagate_looping (s : State) {result : Except WriteError Unit}
    (h : (propagate s result).looping = true) : s.looping = true ∧ result = .ok () := by
  unfold propagate at h
  split at h
  · contradiction
  · rename_i hphase
    rw [State.looping, hphase] at h
    contradiction
  · exact ⟨h, rfl⟩
  · contradiction

/-- A step of the loops of `run` other than the dispatch of a group and the reaping of
a write. -/
theorem loop_inTurn {a : Action} (h : InTurn s) (hs : step runtime s a = some s')
    (hloop : a = .shutdown ∨ a = .recv ∨ a = .inputEnd ∨ a = .linger ∨ a = .finishDrain) :
    InTurn s' := by
  have hframe : SameWrites s s' ∧ (s'.looping = true → s.looping = true) := by
    rcases hloop with rfl | rfl | rfl | rfl | rfl
    · simp only [step, shutdown] at hs
      split at hs
      · cases hs
        exact ⟨⟨rfl, rfl, rfl, rfl⟩, fun hfalse => by contradiction⟩
      · contradiction
    · simp only [step, recv] at hs
      split at hs
      · rename_i hphase hqueue
        cases hs
        refine ⟨?_, fun _ => by rw [State.looping, State.returned, hphase]; rfl⟩
        apply SameWrites.coalesce
        exact ⟨rfl, rfl, rfl, rfl⟩
      · rename_i hphase hqueue
        cases hs
        refine ⟨?_, fun _ => by rw [State.looping, State.returned, hphase]; rfl⟩
        apply SameWrites.coalesce
        exact ⟨rfl, rfl, rfl, rfl⟩
      · contradiction
    · simp only [step, inputEnd, Option.ite_none_right_eq_some] at hs
      obtain ⟨-, hs⟩ := hs
      split at hs
      · cases hs
        exact ⟨⟨rfl, rfl, rfl, rfl⟩, fun hfalse => by contradiction⟩
      · rename_i hphase
        cases hs
        exact ⟨⟨rfl, rfl, rfl, rfl⟩,
          fun _ => by rw [State.looping, State.returned, hphase]; rfl⟩
      · contradiction
    · simp only [step, linger] at hs
      split at hs
      · rename_i hphase
        simp only [Option.ite_none_right_eq_some, Option.some.injEq] at hs
        obtain ⟨-, rfl⟩ := hs
        exact ⟨⟨rfl, rfl, rfl, rfl⟩,
          fun _ => by rw [State.looping, State.returned, hphase]; rfl⟩
      · contradiction
    · simp only [step, finishDrain] at hs
      split at hs
      · simp only [Option.ite_none_right_eq_some, Option.some.injEq] at hs
        obtain ⟨-, rfl⟩ := hs
        exact ⟨⟨rfl, rfl, rfl, rfl⟩, fun hfalse => by contradiction⟩
      · contradiction
  exact h.same hframe.1 hframe.2

/-- A write that succeeded may be reaped without a trace; the failure of one ends the
loop over groups. -/
theorem reap_inTurn {k : ℕ} (h : InTurn s) (hs : reap runtime s k = some s') : InTurn s' := by
  unfold reap at hs
  split at hs
  · rename_i id envelopes result hk
    simp only [Option.ite_none_right_eq_some, Option.some.injEq] at hs
    obtain ⟨-, rfl⟩ := hs
    obtain ⟨hone, rfl⟩ := h.only hk
    have hstage := (h.standing_of hone).2
    have hsame := propagate_sameWrites { s with writes := s.writes.eraseIdx 0 } result
    have hsucceeded : (propagate { s with writes := s.writes.eraseIdx 0 } result).succeeded =
        s.succeeded := by
      rw [State.succeeded, State.groupsWith, hsame.attempts]
      rfl
    refine ⟨?_, ?_, ?_, ?_⟩
    · rw [hsucceeded]
      exact h.written
    · unfold Standing
      rw [hsame.writes, hsame.dispatched, hsucceeded, hone]
      intro hlooping
      obtain ⟨-, rfl⟩ := propagate_looping _ hlooping
      exact hstage
    · rw [hsame.calls]
      exact h.calls
    · rw [hsame.calls, hsame.dispatched]
      exact h.handed
  · contradiction

theorem dispatch_inTurn (hone : runtime.settings.maxConcurrentWrites = 1) (h : InTurn s)
    (hs : dispatch runtime s = some s') : InTurn s' := by
  unfold dispatch at hs
  split at hs
  · rename_i envelopes hphase
    simp only [Option.ite_none_right_eq_some, Option.some.injEq] at hs
    obtain ⟨hroom, rfl⟩ := hs
    have hempty : s.writes = [] := List.length_eq_zero_iff.mp (by omega)
    have hlength : s.succeeded.length = s.dispatched.length := by
      have hstanding := h.standing
      unfold Standing at hstanding
      rw [hempty] at hstanding
      exact hstanding (by rw [State.looping, State.returned, hphase]; rfl)
    refine ⟨h.written, ?_, h.calls, ?_⟩
    · unfold Standing
      dsimp only
      rw [hempty]
      exact ⟨by simp, hlength⟩
    · intro c hc
      have hgroup := h.handed c hc
      obtain ⟨g, hg, -⟩ := Option.map_eq_some_iff.mp hgroup
      have hlt := (List.getElem?_eq_some_iff.mp hg).1
      dsimp only
      rw [List.getElem?_append_left hlt]
      exact hgroup
  · contradiction

/-- The write makes a call: every group before its own is written. -/
theorem call_inTurn {k number backoff : ℕ} {w : Write} (h : InTurn s)
    (hfates : Fates runtime s) (hk : s.writes[k]? = some w) (hlive : w.live = true) :
    InTurn (call s k w number backoff) := by
  obtain ⟨hone, rfl⟩ := h.only hk
  obtain ⟨hlast, -⟩ := h.standing_of hone
  have hid := h.live_id hone hlive
  have hgroup : s.dispatched[w.id]? = some w.envelopes :=
    hfates.groups w (List.mem_of_getElem? hk)
  refine ⟨h.written, ?_, ?_, ?_⟩
  · unfold Standing call
    dsimp only
    rw [hone]
    exact ⟨hlast, hid⟩
  · unfold call
    rw [List.map_append, List.pairwise_append]
    refine ⟨h.calls, List.pairwise_singleton _ _, ?_⟩
    intro j hj i hi
    obtain ⟨c, hc, rfl⟩ := List.mem_map.mp hj
    rw [List.mem_singleton.mp hi]
    obtain ⟨g, hg, -⟩ := Option.map_eq_some_iff.mp (h.handed c hc)
    have hlt := (List.getElem?_eq_some_iff.mp hg).1
    show c.write ≤ w.id
    omega
  · intro c hc
    rcases List.mem_append.mp hc with hc | hc
    · exact h.handed c hc
    · rw [List.mem_singleton.mp hc]
      show s.dispatched[w.id]?.map batches = some (batches w.envelopes)
      rw [hgroup]
      rfl

/-- A call is over: its group is written next, or not at all. -/
theorem attempt_inTurn {w : Write} {a : Attempt} (stage : WriteStage) (h : InTurn s)
    (hone : s.writes = [w]) (hlive : w.live = true) (hown : a.write = w.id)
    (hwrites : s'.writes = [{ w with stage := stage }])
    (hdispatched : s'.dispatched = s.dispatched) (hcalls : s'.calls = s.calls)
    (hattempts : s'.attempts = s.attempts ++ [a])
    (hstage : (a.succeeded = true ∧ stage = .done (.ok ())) ∨
      (a.succeeded = false ∧ stage ≠ .done (.ok ()))) : InTurn s' := by
  obtain ⟨hlast, -⟩ := h.standing_of hone
  have hid := h.live_id hone hlive
  have hsucceeded : s'.succeeded = s.succeeded ++ if a.succeeded = true then [a.write] else [] :=
    groupsWith_append hattempts
  refine ⟨?_, ?_, ?_, ?_⟩
  · rcases hstage with ⟨hok, -⟩ | ⟨hok, -⟩
    · rw [hsucceeded, if_pos hok, List.length_append, List.length_singleton, List.range_succ,
        hown, ← hid, ← h.written]
    · rw [hsucceeded, hok]
      simpa using h.written
  · unfold Standing
    rw [hwrites, hdispatched]
    refine ⟨hlast, ?_⟩
    rcases hstage with ⟨hok, rfl⟩ | ⟨hok, hstage⟩
    · rw [hsucceeded, if_pos hok, List.length_append, List.length_singleton, hid]
      exact hlast
    · have hlength : s'.succeeded.length = w.id := by
        rw [hsucceeded, hok]
        simpa using hid
      dsimp only
      split
      · exact absurd rfl hstage
      · trivial
      · exact hlength
  · rw [hcalls]
    exact h.calls
  · rw [hcalls, hdispatched]
    exact h.handed

theorem attempted_inTurn {k : ℕ} {result : Except String WriteOutcome} (h : InTurn s)
    (hs : attempted runtime s k result = some s') : InTurn s' := by
  unfold attempted at hs
  split at hs
  · rename_i id envelopes attempt backoff hk
    obtain ⟨honly, rfl⟩ := h.only hk
    cases result with
    | ok outcome =>
      cases hs
      refine attempt_inTurn (.done (.ok ())) h honly rfl rfl ?_ rfl rfl rfl
        (Or.inl ⟨rfl, rfl⟩)
      simp [finish, State.settle, State.record, honly]
    | error e =>
      dsimp only at hs
      split at hs
      · cases hs
        refine attempt_inTurn (.sleeping attempt backoff (s.now + backoff)) h honly rfl rfl ?_
          rfl rfl rfl (Or.inr ⟨rfl, by simp⟩)
        simp [honly]
      · cases hs
        refine attempt_inTurn (.done (.error (.write e))) h honly rfl rfl ?_ rfl rfl rfl
          (Or.inr ⟨rfl, by simp⟩)
        simp [finish, State.settle, State.record, honly]
  · contradiction

theorem panicked_inTurn {k : ℕ} (h : InTurn s) (hs : panicked s k = some s') : InTurn s' := by
  unfold panicked at hs
  split at hs
  · rename_i hk
    obtain ⟨honly, rfl⟩ := h.only hk
    cases hs
    refine attempt_inTurn (.done (.error .panicked)) h honly rfl rfl ?_ rfl rfl rfl
      (Or.inr ⟨rfl, by simp⟩)
    simp [finish, State.settle, State.record, honly]
  · contradiction

/-- The write is dropped after `run` has returned, so no group waits for it. -/
theorem dropWrite_inTurn {k : ℕ} (h : InTurn s) (hs : dropWrite s k = some s') : InTurn s' := by
  unfold dropWrite at hs
  split at hs
  · rename_i w hrun hk
    obtain ⟨honly, rfl⟩ := h.only hk
    simp only [Option.ite_none_right_eq_some, Option.some.injEq] at hs
    obtain ⟨-, rfl⟩ := hs
    refine ⟨h.written, ?_, h.calls, h.handed⟩
    unfold Standing State.settle
    dsimp only
    rw [honly]
    intro hlooping
    have hreturned : (!s.phase.isDraining && !s.returned) = true := hlooping
    rw [hrun, Bool.not_true, Bool.and_false] at hreturned
    contradiction
  · contradiction

theorem step_inTurn {a : Action} (hone : runtime.settings.maxConcurrentWrites = 1)
    (hfates : Fates runtime s) (h : InTurn s) (hs : step runtime s a = some s') :
    InTurn s' := by
  cases a with
  | elapse duration =>
    cases hs
    exact h.same ⟨rfl, rfl, rfl, rfl⟩ (fun hloops => hloops)
  | arrive e =>
    simp only [step, arrive, Option.ite_none_right_eq_some, Option.some.injEq] at hs
    obtain ⟨-, rfl⟩ := hs
    exact h.same ⟨rfl, rfl, rfl, rfl⟩ (fun hloops => hloops)
  | closeInput =>
    cases hs
    exact h.same ⟨rfl, rfl, rfl, rfl⟩ (fun hloops => hloops)
  | shutdown => exact loop_inTurn h hs (by simp)
  | recv => exact loop_inTurn h hs (by simp)
  | inputEnd => exact loop_inTurn h hs (by simp)
  | linger => exact loop_inTurn h hs (by simp)
  | finishDrain => exact loop_inTurn h hs (by simp)
  | reap k => exact reap_inTurn h hs
  | dispatch => exact dispatch_inTurn hone h hs
  | begin k =>
    simp only [step, begin] at hs
    split at hs
    · rename_i hk
      cases hs
      exact call_inTurn h hfates hk rfl
    · contradiction
  | attempted k result => exact attempted_inTurn h hs
  | panicked k => exact panicked_inTurn h hs
  | wake k =>
    simp only [step, wake] at hs
    split at hs
    · rename_i hk
      simp only [Option.ite_none_right_eq_some, Option.some.injEq] at hs
      obtain ⟨-, rfl⟩ := hs
      exact call_inTurn h hfates hk rfl
    · contradiction
  | dropOrphan =>
    simp only [step, dropOrphan] at hs
    split at hs
    · cases hs
      exact h.same ⟨rfl, rfl, rfl, rfl⟩ (fun hloops => hloops)
    · contradiction
  | dropQueued =>
    simp only [step, dropQueued] at hs
    split at hs
    · cases hs
      exact h.same ⟨rfl, rfl, rfl, rfl⟩ (fun hloops => hloops)
    · contradiction
  | dropWrite k => exact dropWrite_inTurn h hs

/-- A write makes one call that ends it. -/
theorem Move.concluded_nodup {a : Action} (hmove : Move runtime s a s') (hfates : Fates runtime s)
    (h : (s.concludedGroups runtime.settings).Nodup) :
    (s'.concludedGroups runtime.settings).Nodup := by
  cases hmove with
  | shuffle _ _ hsame =>
    rw [State.concludedGroups, State.groupsWith, hsame.attempts]
    exact h
  | exit k _ w hsame =>
    rw [State.concludedGroups, State.groupsWith, hsame.attempts]
    exact h
  | retry _ pre post w attempt backoff e hwrites hstage hretry =>
    have hretried : Attempt.retried runtime.settings ⟨w.id, attempt, .error (.write e)⟩ = true := by
      simp [Attempt.retried, Attempt.failed, hretry]
    rw [State.concludedGroups, groupsWith_append rfl, hretried, Bool.not_true,
      if_neg Bool.false_ne_true, List.append_nil]
    exact h
  | finish k _ pre post w attempt backoff result ending hk hwrites hstage =>
    have hpending := hfates.pending w.id
      (hfates.mem_liveIds hwrites (Write.live_of_writing hstage))
    have hnot : w.id ∉ s.concludedGroups runtime.settings :=
      hpending.not_mem fun a ha => by rw [ha]; rfl
    rw [State.concludedGroups, groupsWith_append rfl]
    split
    · refine List.nodup_append.mpr ⟨h, List.nodup_singleton _, ?_⟩
      intro j hj i hi heq
      have hid : i = w.id := List.mem_singleton.mp hi
      rw [heq, hid] at hj
      exact hnot hj
    · rw [List.append_nil]
      exact h
  | _ => exact h

/-- What the runs of a sink that writes one group at a time keep. -/
structure OneAtATime (runtime : Runtime) (s : State) : Prop where
  inv : Inv runtime s
  inTurn : InTurn s
  concluded : (s.concludedGroups runtime.settings).Nodup

theorem OneAtATime.step {a : Action} (hone : runtime.settings.maxConcurrentWrites = 1)
    (h : OneAtATime runtime s) (hs : step runtime s a = some s') : OneAtATime runtime s' where
  inv := step_inv h.inv hs
  inTurn := step_inTurn hone h.inv.fates h.inTurn hs
  concluded := (step_move h.inv.ledger.orphans h.inv.fates.stages hs).concluded_nodup
    h.inv.fates h.concluded

theorem reachable_oneAtATime {now : ℕ} (hone : runtime.settings.maxConcurrentWrites = 1)
    (h : (system runtime now).Reachable s) : OneAtATime runtime s := by
  have hstart : OneAtATime runtime (State.start now) :=
    ⟨start_inv runtime now, start_inTurn now, List.nodup_nil⟩
  apply System.Reachable.invariant hstart _ h
  intro t a t' ht hs
  exact ht.step hone hs

/-- The calls a step makes: at most one, of a write that is running. -/
theorem step_calls {a : Action} (h : Inv runtime s) (hs : step runtime s a = some s') :
    ∃ new, s'.calls = s.calls ++ new ∧
      ∀ c ∈ new, ∃ w ∈ s.writes, w.live = true ∧ c.write = w.id := by
  have hmove := step_move h.ledger.orphans h.fates.stages hs
  have hnone : s'.calls = s.calls → ∃ new, s'.calls = s.calls ++ new ∧
      ∀ c ∈ new, ∃ w ∈ s.writes, w.live = true ∧ c.write = w.id := by
    intro hcalls
    exact ⟨[], by rw [hcalls, List.append_nil], fun c hc => by contradiction⟩
  cases hmove with
  | shuffle _ _ hsame => exact hnone hsame.calls
  | exit k _ w hsame => exact hnone hsame.calls
  | call _ pre post w number backoff hwrites hlive =>
    refine ⟨_, rfl, ?_⟩
    intro c hc
    rw [List.mem_singleton.mp hc]
    exact ⟨w, by simp [hwrites], hlive, rfl⟩
  | _ => exact hnone rfl

/-- While a write runs every group before its own is written. -/
theorem InTurn.earlier_written {w : Write} (h : InTurn s) (hw : w ∈ s.writes)
    (hlive : w.live = true) {k : ℕ} (hk : k < w.id) : k ∈ s.succeeded := by
  obtain ⟨i, hi⟩ := List.mem_iff_getElem?.mp hw
  rw [h.written, h.live_id (h.only hi).1 hlive]
  exact List.mem_range.mpr hk

/-- No write is running once a group has failed for good: that group is the last one. -/
theorem OneAtATime.live_eq_nil (h : OneAtATime runtime s)
    (hgaveUp : s.gaveUp runtime.settings) : s.live = [] := by
  obtain ⟨a, ha, hfailed, hlast⟩ := hgaveUp
  have hover : ¬ Pending runtime s a.write := by
    intro hpending
    have hretried := hpending.attempts a (List.mem_filter.mpr ⟨ha, decide_eq_true rfl⟩)
    rw [hlast] at hretried
    contradiction
  have hnot : a.write ∉ s.succeeded := by
    intro hmem
    obtain ⟨b, hb, hwrite⟩ := List.mem_map.mp hmem
    obtain ⟨hb, hok⟩ := List.mem_filter.mp hb
    have hretried : b.retried runtime.settings = false := by
      cases hcase : b.retried runtime.settings with
      | false => rfl
      | true =>
        rw [(Attempt.retried_excludes hcase).1] at hok
        contradiction
    have heq : b = a := List.inj_on_of_nodup_map h.concluded
      (List.mem_filter.mpr ⟨hb, by rw [hretried]; rfl⟩)
      (List.mem_filter.mpr ⟨ha, by rw [hlast]; rfl⟩) hwrite
    rw [heq, hfailed] at hok
    contradiction
  by_contra hlive
  obtain ⟨w, hw⟩ := List.exists_mem_of_ne_nil _ hlive
  have hrunning : w.live = true := (List.mem_filter.mp hw).2
  have hwrite : w ∈ s.writes := List.mem_of_mem_filter hw
  obtain ⟨i, hi⟩ := List.mem_iff_getElem?.mp hwrite
  obtain ⟨hdispatched, -⟩ := h.inTurn.standing_of (h.inTurn.only hi).1
  have hne : a.write ≠ w.id := fun heq =>
    hover (heq ▸ h.inv.fates.pending w.id (List.mem_map_of_mem hw))
  have hlt : a.write < s.dispatched.length := by
    by_contra hle
    exact hover (h.inv.fates.unknown a.write (by omega))
  exact hnot (h.inTurn.earlier_written hwrite hrunning (by omega))

/-- Nothing is written any more, whatever comes. -/
theorem OneAtATime.run_calls {now : ℕ} (hone : runtime.settings.maxConcurrentWrites = 1)
    (h : OneAtATime runtime s) (hgaveUp : s.gaveUp runtime.settings) {actions : List Action}
    (hrun : (system runtime now).run s actions = some s') : s'.calls = s.calls := by
  induction actions generalizing s with
  | nil => rw [Option.some.inj hrun]
  | cons a rest ih =>
    obtain ⟨t, hs, hrest⟩ := Option.bind_eq_some_iff.mp hrun
    obtain ⟨new, hcalls, hnew⟩ := step_calls h.inv hs
    obtain ⟨attempts, hattempts⟩ := (step_extends h.inv hs).attempts
    obtain ⟨b, hb, hfailed⟩ := hgaveUp
    have hstill : t.gaveUp runtime.settings :=
      ⟨b, by rw [hattempts]; exact List.mem_append_left _ hb, hfailed⟩
    have hnone : new = [] := by
      rw [List.eq_nil_iff_forall_not_mem]
      intro c hc
      obtain ⟨w, hw, hlive, -⟩ := hnew c hc
      have hmem : w ∈ s.live := List.mem_filter.mpr ⟨hw, hlive⟩
      rw [h.live_eq_nil ⟨b, hb, hfailed⟩] at hmem
      contradiction
    rw [ih (h.step hone hs) hstill hrest, hcalls, hnone, List.append_nil]

/-- The written groups are the first ones dispatched. -/
theorem InTurn.writtenGroups (h : InTurn s) (hfates : Fates runtime s) :
    s.writtenGroups <+: s.dispatched := by
  have hle : s.succeeded.length ≤ s.dispatched.length := by
    by_contra hlt
    have hmem : s.dispatched.length ∈ s.succeeded := by
      rw [h.written]
      exact List.mem_range.mpr (by omega)
    exact Nat.lt_irrefl _ (hfates.succeeded_lt hmem)
  have htake : ∀ n ≤ s.dispatched.length,
      (List.range n).filterMap (fun k => s.dispatched[k]?) = s.dispatched.take n := by
    intro n hn
    induction n with
    | zero => rfl
    | succ n ih =>
      rw [List.range_succ, List.filterMap_append, ih (by omega), List.take_add_one]
      simp [List.getElem?_eq_getElem (show n < s.dispatched.length by omega)]
  rw [State.writtenGroups, h.written, htake _ hle]
  exact List.take_prefix _ _

/-- At every moment of every run there are at most as many write tasks as the settings
allow. Where that is one, the calls follow the order of the channel, each is made with
every group before its own already written, and the written groups are the first ones
received; after a call that fails and is not to be repeated no call is ever made. -/
theorem writes_sequential {now : ℕ} (h : (system runtime now).Reachable s) :
    s.writes.length ≤ runtime.settings.maxConcurrentWrites ∧
      (runtime.settings.maxConcurrentWrites = 1 →
        (s.calls.map Call.write).Pairwise (· ≤ ·) ∧
        (∀ c ∈ s.calls, s.dispatched[c.write]?.map batches = some c.batches) ∧
        s.dispatched.flatten <+: s.received ∧
        (∀ a s', step runtime s a = some s' → ∃ new, s'.calls = s.calls ++ new ∧
          ∀ c ∈ new, ∀ k < c.write, k ∈ s.succeeded) ∧
        s.writtenGroups <+: s.dispatched ∧ s.writtenGroups.flatten <+: s.received ∧
        (s.gaveUp runtime.settings → ∀ actions s',
          (system runtime now).run s actions = some s' → s'.calls = s.calls)) := by
  refine ⟨reachable_writes_le h, fun hone => ?_⟩
  have hturn := reachable_oneAtATime hone h
  obtain ⟨group, hholds, -⟩ := (reachable_coalesced h).tallied.holds
  have hreceived : s.dispatched.flatten <+: s.received :=
    hholds.received ▸ List.prefix_append _ _
  have hwritten := hturn.inTurn.writtenGroups hturn.inv.fates
  refine ⟨hturn.inTurn.calls, hturn.inTurn.handed, hreceived, ?_, hwritten, ?_, ?_⟩
  · intro a s' hs
    obtain ⟨new, hcalls, hnew⟩ := step_calls hturn.inv hs
    refine ⟨new, hcalls, ?_⟩
    intro c hc k hk
    obtain ⟨w, hw, hlive, hid⟩ := hnew c hc
    exact hturn.inTurn.earlier_written hw hlive (hid ▸ hk)
  · exact (List.IsPrefix.flatten hwritten).trans hreceived
  · intro hgaveUp actions s' hrun
    exact hturn.run_calls hone hgaveUp hrun

/-- The second of three groups fails for good, and the third one is never tried. -/
theorem writes_sequential_oneOfThree : ∃ s : State,
    s.writes.length ≤ 1 ∧ s.calls.map Call.write = [0, 0, 1, 1] ∧
      s.writtenGroups = [[envelope 0]] ∧ s.writtenGroups.flatten <+: s.received ∧
      ∀ actions s', (system sequential 0).run s actions = some s' → s'.calls = s.calls := by
  have hrun : ((system sequential 0).run (State.start 0) oneOfThree).map
      (fun s => (s.calls.map Call.write, s.writtenGroups,
        s.attempts.any (fun a => !a.succeeded && !a.retried sequential.settings))) =
          some ([0, 0, 1, 1], [[envelope 0]], true) := by decide
  obtain ⟨s, hs, hview⟩ := Option.map_eq_some_iff.mp hrun
  simp only [Prod.mk.injEq, List.any_eq_true, Bool.and_eq_true, Bool.not_eq_true'] at hview
  obtain ⟨hcalls, hgroups, hgaveUp⟩ := hview
  have hreach : (system sequential 0).Reachable s :=
    System.Reachable.run System.ReachableBy.start hs
  obtain ⟨hle, hsequential⟩ := writes_sequential hreach
  obtain ⟨-, -, -, -, -, hprefix, hstops⟩ := hsequential rfl
  exact ⟨s, hle, hcalls, hgroups, hprefix, hstops hgaveUp⟩

end Rustper.Sink
