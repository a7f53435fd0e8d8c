import Rustper.SinkHistory

/-!
The order in which a sink writes. Its groups are cut from the channel in order, and with
one write at a time and no failure each group is handed to `write_batches` once, before
the next one is.
-/
namespace Rustper.Sink

open TransitionSystem

variable {runtime : Runtime} {s s' : State} {a : Action}

/-- What has arrived is what was dispatched, the group being built and the channel. -/
structure InOrder (s : State) : Prop where
  running : s.returned = false →
    s.arrived = s.dispatched.flatten ++ (s.phase.group ++ s.queue)
  dispatched : s.dispatched.flatten <+: s.arrived

theorem start_inOrder (now : ℕ) : InOrder (State.start now) where
  running _ := rfl
  dispatched := List.prefix_refl _

theorem InOrder.running_or {lost : List ℕ} (h : InOrder s) (hsame : Shuffle lost s s') :
    InOrder s' := by
  refine ⟨?_, ?_⟩
  · intro hrun
    have hold : s.returned = false := by
      by_contra hnot
      have hreturned := hsame.stays (by simpa using hnot)
      rw [hrun] at hreturned
      contradiction
    rw [hsame.arrived, hsame.dispatched, hsame.inOrder hrun]
    exact h.running hold
  · rw [hsame.arrived, hsame.dispatched]
    exact h.dispatched

theorem Move.inOrder (hmove : Move runtime s a s') (h : InOrder s) : InOrder s' := by
  cases hmove with
  | shuffle _ _ hsame => exact h.running_or hsame
  | exit k _ w hsame => exact h.running_or hsame
  | arrive e hrun =>
    refine ⟨fun _ => ?_, h.dispatched.trans (List.prefix_append _ _)⟩
    dsimp only
    rw [h.running hrun]
    simp
  | dispatch envelopes hphase =>
    have hrun : s.returned = false := by
      rw [State.returned, hphase]
      rfl
    have hsplit : s.arrived = (s.dispatched ++ [envelopes]).flatten ++ s.queue := by
      rw [h.running hrun, hphase]
      simp [Phase.group]
    exact ⟨fun _ => hsplit, hsplit ▸ List.prefix_append _ _⟩
  | call _ pre post w number backoff hwrites hlive hnumber =>
    exact ⟨h.running, h.dispatched⟩
  | retry _ pre post w attempt backoff e hwrites hstage hretry =>
    exact ⟨h.running, h.dispatched⟩
  | finish k _ pre post w attempt backoff result ending hk hwrites hstage hlast hok =>
    exact ⟨h.running, h.dispatched⟩
  | dropRest _ e queue orphans hrun hrest =>
    refine ⟨fun hnot => ?_, h.dispatched⟩
    have hreturned : s.returned = false := hnot
    rw [hrun] at hreturned
    contradiction
  | dropWrite _ pre post w hrun hwrites hlive => exact ⟨h.running, h.dispatched⟩

theorem reachable_inOrder {now : ℕ} (h : (system runtime now).Reachable s) : InOrder s := by
  have hboth : Inv runtime s ∧ InOrder s := by
    have hstart : Inv runtime (State.start now) ∧ InOrder (State.start now) :=
      ⟨start_inv runtime now, start_inOrder now⟩
    apply System.Reachable.invariant hstart _ h
    intro t a t' hi hs
    have hmove := step_move hi.1.ledger.orphans hi.1.fates.stages hs
    exact ⟨step_inv hi.1 hs, hmove.inOrder hi.2⟩
  exact hboth.2

/-- There are never more write tasks than the settings allow. -/
theorem Move.writes_le (hmove : Move runtime s a s')
    (h : s.writes.length ≤ runtime.settings.maxConcurrentWrites) :
    s'.writes.length ≤ runtime.settings.maxConcurrentWrites := by
  cases hmove with
  | shuffle _ _ hsame => exact hsame.writes.length_le.trans h
  | exit k _ w hsame => exact hsame.writes.length_le.trans h
  | dispatch envelopes hphase hroom =>
    rw [List.length_append, List.length_singleton]
    omega
  | call _ pre post w number backoff hwrites => simpa [hwrites] using h
  | retry _ pre post w attempt backoff e hwrites => simpa [hwrites] using h
  | finish k _ pre post w attempt backoff result ending hk hwrites =>
    simpa [hwrites, State.settle, State.record] using h
  | dropWrite _ pre post w hrun hwrites hlive =>
    rw [hwrites, List.length_append, List.length_cons] at h
    simp only [State.settle, List.length_append]
    omega
  | _ => exact h

theorem reachable_writes_le {now : ℕ} (h : (system runtime now).Reachable s) :
    s.writes.length ≤ runtime.settings.maxConcurrentWrites := by
  have hboth : Inv runtime s ∧ s.writes.length ≤ runtime.settings.maxConcurrentWrites := by
    have hstart : Inv runtime (State.start now) ∧
        (State.start now).writes.length ≤ runtime.settings.maxConcurrentWrites :=
      ⟨start_inv runtime now, Nat.zero_le _⟩
    apply System.Reachable.invariant hstart _ h
    intro t a t' hi hs
    have hmove := step_move hi.1.ledger.orphans hi.1.fates.stages hs
    exact ⟨step_inv hi.1 hs, hmove.writes_le hi.2⟩
  exact hboth.2

/-- One write at a time and none has failed: only the last group can have a write, and
every group before the one whose write is yet to begin was handed over once, in order. -/
structure InSequence (s : State) : Prop where
  calls : s.calls.map Call.batches <+: s.dispatched.map batches
  started : s.returned = false → (∀ w ∈ s.writes, w.stage ≠ .spawned) →
    s.calls.length = s.dispatched.length
  spawned : ∀ w ∈ s.writes, w.stage = .spawned → w.id = s.calls.length
  awake : ∀ w ∈ s.writes, ∀ attempt backoff wakeAt, w.stage ≠ .sleeping attempt backoff wakeAt
  last : ∀ w ∈ s.writes, w.id + 1 = s.dispatched.length

theorem start_inSequence (now : ℕ) : InSequence (State.start now) where
  calls := List.prefix_refl _
  started _ _ := rfl
  spawned := by simp [State.start]
  awake := by simp [State.start]
  last := by simp [State.start]

/-- Writes that are still to begin are running. -/
theorem Shuffle.inSequence {lost : List ℕ} (hsame : Shuffle lost s s') (h : InSequence s) :
    InSequence s' := by
  refine ⟨?_, ?_, ?_, ?_, ?_⟩
  · rw [hsame.calls, hsame.dispatched]
    exact h.calls
  · intro hrun hnone
    rw [hsame.calls, hsame.dispatched]
    refine h.started ?_ ?_
    · by_contra hnot
      have hreturned := hsame.stays (by simpa using hnot)
      rw [hrun] at hreturned
      contradiction
    · intro w hw hstage
      have hlive : w ∈ s'.live := by
        rw [hsame.live]
        exact List.mem_filter.mpr ⟨hw, by rw [Write.live, hstage]⟩
      exact hnone w (List.mem_of_mem_filter hlive) hstage
  · rw [hsame.calls]
    exact fun w hw => h.spawned w (hsame.writes.subset hw)
  · exact fun w hw => h.awake w (hsame.writes.subset hw)
  · rw [hsame.dispatched]
    exact fun w hw => h.last w (hsame.writes.subset hw)

/-- A group is dispatched once the writes of all groups before it have begun. -/
theorem InSequence.dispatch (h : InSequence s) (hrun : s.returned = false)
    (hempty : s.writes = []) (envelopes : List SinkEnvelope) (metrics : SinkMetrics) :
    InSequence { s with
      phase := .accepting
      writes := s.writes ++ [⟨s.dispatched.length, envelopes, .spawned⟩]
      metrics := metrics
      dispatched := s.dispatched ++ [envelopes] } := by
  have hcalls := h.started hrun (by simp [hempty])
  have hnew : ∀ w ∈ s.writes ++ [(⟨s.dispatched.length, envelopes, .spawned⟩ : Write)],
      w = ⟨s.dispatched.length, envelopes, .spawned⟩ := by
    intro w hw
    rw [hempty, List.nil_append] at hw
    exact List.mem_singleton.mp hw
  refine ⟨?_, ?_, ?_, ?_, ?_⟩
  · dsimp only
    rw [List.map_append]
    exact h.calls.trans (List.prefix_append _ _)
  · exact fun _ hnone => absurd rfl (hnone _ (List.mem_append_right _ List.mem_cons_self))
  · intro w hw _
    rw [hnew w hw]
    exact hcalls.symm
  · intro w hw
    rw [hnew w hw]
    simp
  · intro w hw
    rw [hnew w hw]
    simp

/-- The only write hands over the group after those handed over before. -/
theorem InSequence.call {w : Write} (h : InSequence s) (hfates : Fates runtime s)
    (hwrites : s.writes = [w]) (hstage : w.stage = .spawned) (number backoff : ℕ) :
    InSequence { s with
      writes := [{ w with stage := .writing number backoff }]
      calls := s.calls ++ [⟨w.id, number, batches w.envelopes⟩] } := by
  have hw : w ∈ s.writes := by simp [hwrites]
  have hid := h.spawned w hw hstage
  have hlast := h.last w hw
  have hgroup : s.dispatched[s.calls.length]? = some w.envelopes := hid ▸ hfates.groups w hw
  refine ⟨?_, ?_, ?_, ?_, ?_⟩
  · have htake := List.prefix_iff_eq_take.mp h.calls
    have hnextcall : (s.dispatched.map batches).take (s.calls.length + 1) =
        s.calls.map Call.batches ++ [batches w.envelopes] := by
      rw [List.take_add_one, List.getElem?_map, hgroup]
      rw [List.length_map] at htake
      rw [← htake]
      rfl
    dsimp only
    rw [List.map_append, List.map_singleton, ← hnextcall]
    exact List.take_prefix _ _
  · intro _ _
    simp only [List.length_append, List.length_singleton]
    omega
  · simp
  · simp
  · simpa using hlast

theorem Move.inSequence (hmove : Move runtime s a s') (hfates : Fates runtime s)
    (hone : runtime.settings.maxConcurrentWrites = 1)
    (hle : s.writes.length ≤ runtime.settings.maxConcurrentWrites)
    (hok : ∀ a ∈ s'.attempts, a.succeeded = true) (h : InSequence s) : InSequence s' := by
  -- With one write at a time the write a step is about is the only one.
  have honly : ∀ {pre post : List Write} {w : Write}, s.writes = pre ++ w :: post →
      pre = [] ∧ post = [] := by
    intro pre post w hwrites
    rw [hwrites, List.length_append, List.length_cons, hone] at hle
    exact ⟨List.length_eq_zero_iff.mp (by omega), List.length_eq_zero_iff.mp (by omega)⟩
  cases hmove with
  | shuffle _ _ hsame => exact hsame.inSequence h
  | exit k _ w hsame => exact hsame.inSequence h
  | arrive e hrun => exact ⟨h.calls, h.started, h.spawned, h.awake, h.last⟩
  | dispatch envelopes hphase hroom =>
    have hrun : s.returned = false := by
      rw [State.returned, hphase]
      rfl
    exact h.dispatch hrun (List.length_eq_zero_iff.mp (by omega)) envelopes _
  | call _ pre post w number backoff hwrites hlive hnumber hnext =>
    obtain ⟨rfl, rfl⟩ := honly hwrites
    have hstage : w.stage = .spawned := by
      rcases hnext with ⟨hstage, -⟩ | ⟨attempt, pause, wakeAt, hsleeping, -⟩
      · exact hstage
      · exact absurd hsleeping (h.awake w (by simp [hwrites]) attempt pause wakeAt)
    exact h.call hfates hwrites hstage number backoff
  | retry _ pre post w attempt backoff e hwrites hstage hretry =>
    have hfailed := hok ⟨w.id, attempt, .error (.write e)⟩ (by simp [State.record])
    contradiction
  | finish k _ pre post w attempt backoff result ending hk hwrites hstage hlast hresult =>
    have hw : w ∈ s.writes := List.mem_of_getElem? hk
    have hlastw := h.last w hw
    obtain ⟨rfl, rfl⟩ := honly hwrites
    refine ⟨h.calls, ?_, ?_, ?_, ?_⟩
    · intro hrun _
      refine h.started hrun ?_
      simp [hwrites, hstage]
    · simp [State.settle, State.record]
    · simp [State.settle, State.record]
    · simpa [State.settle, State.record] using hlastw
  | dropRest _ e queue orphans hrun hrest =>
    exact ⟨h.calls, h.started, h.spawned, h.awake, h.last⟩
  | dropWrite _ pre post w hrun hwrites hlive =>
    have hsub : ∀ v ∈ pre ++ post, v ∈ s.writes := by
      rw [hwrites]
      exact ((List.sublist_cons_self w post).append_left pre).subset
    refine ⟨h.calls, ?_, fun v hv => h.spawned v (hsub v hv), fun v hv => h.awake v (hsub v hv),
      fun v hv => h.last v (hsub v hv)⟩
    intro hnot
    have hreturned : s.returned = false := hnot
    rw [hrun] at hreturned
    contradiction

theorem reachable_inSequence {now : ℕ} (h : (system runtime now).Reachable s)
    (hone : runtime.settings.maxConcurrentWrites = 1)
    (hok : ∀ a ∈ s.attempts, a.succeeded = true) : InSequence s := by
  have hall : Inv runtime s ∧ s.writes.length ≤ runtime.settings.maxConcurrentWrites ∧
      ((∀ a ∈ s.attempts, a.succeeded = true) → InSequence s) := by
    have hstart : Inv runtime (State.start now) ∧
        (State.start now).writes.length ≤ runtime.settings.maxConcurrentWrites ∧
        ((∀ a ∈ (State.start now).attempts, a.succeeded = true) →
          InSequence (State.start now)) :=
      ⟨start_inv runtime now, Nat.zero_le _, fun _ => start_inSequence now⟩
    apply System.Reachable.invariant hstart _ h
    rintro t a t' ⟨hi, hle, hsequence⟩ hs
    have hmove := step_move hi.ledger.orphans hi.fates.stages hs
    refine ⟨step_inv hi hs, hmove.writes_le hle, fun hok' => ?_⟩
    refine hmove.inSequence hi.fates hone hle hok' (hsequence fun a ha => hok' a ?_)
    obtain ⟨new, hnew⟩ := hmove.extends.attempts
    rw [hnew]
    exact List.mem_append_left _ ha
  exact hall.2.2 hok

/-- With one write at a time and no failed attempt, the batches passed to successive
calls are the first ones that arrived. -/
theorem calls_arrived {now : ℕ} (h : (system runtime now).Reachable s)
    (hone : runtime.settings.maxConcurrentWrites = 1)
    (hok : ∀ a ∈ s.attempts, a.succeeded = true) :
    s.calls.flatMap Call.batches <+: batches s.arrived := by
  obtain ⟨rest, hrest⟩ := (reachable_inSequence h hone hok).calls
  have hflatten : s.calls.flatMap Call.batches <+: batches s.dispatched.flatten := by
    refine ⟨rest.flatten, ?_⟩
    rw [List.flatMap_def, ← List.flatten_append, hrest, batches, List.map_flatten]
    rfl
  exact hflatten.trans ((reachable_inOrder h).dispatched.map SinkEnvelope.batch)

end Rustper.Sink
