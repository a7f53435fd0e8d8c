import Rustper.KafkaSink
import Rustper.Library.Slots

/-!
A Kafka write completes exactly when every accepted record has been reported on and
every other record has been given up, and its result says which of the two it was.
-/
namespace Rustper.Kafka

open TransitionSystem MachineInt Countdown
open Sink (WriteOutcome)

variable {sink : KafkaSink} {batches : List EventBatch} {s s' : State}

theorem events_length (batches : List EventBatch) :
    (events batches).length = totalEvents batches := by
  rw [events, List.length_flatMap, totalEvents]
  rfl

/-- The write has left its loop and has settled the records it gave up. -/
def Phase.isOver : Phase → Bool
  | .awaiting => true
  | .returned _ => true
  | _ => false

namespace State

/-- The tracker seen as a countdown latch. -/
def latch (s : State) : Latch := ⟨s.tracker.remaining, s.tracker.notify, s.notifications⟩

/-- Units taken off the counter: settled reports and records given up. -/
def released (s : State) (total : ℕ) : ℕ :=
  s.reports.count .settled + if s.phase.isOver = true then total - s.enqueued else 0

@[simp] theorem count_phase (s : State) (n : ℕ) : (s.count n).phase = s.phase := by
  unfold count
  dsimp only
  split <;> rfl

@[simp] theorem count_enqueued (s : State) (n : ℕ) : (s.count n).enqueued = s.enqueued := by
  unfold count
  dsimp only
  split <;> rfl

@[simp] theorem count_enqueueError (s : State) (n : ℕ) :
    (s.count n).enqueueError = s.enqueueError := by
  unfold count
  dsimp only
  split <;> rfl

@[simp] theorem count_reports (s : State) (n : ℕ) : (s.count n).reports = s.reports := by
  unfold count
  dsimp only
  split <;> rfl

@[simp] theorem count_results (s : State) (n : ℕ) : (s.count n).results = s.results := by
  unfold count
  dsimp only
  split <;> rfl

@[simp] theorem count_accepted (s : State) (n : ℕ) : (s.count n).accepted = s.accepted := by
  unfold count
  dsimp only
  split <;> rfl

@[simp] theorem count_error (s : State) (n : ℕ) :
    (s.count n).tracker.error = s.tracker.error ∧
      (s.count n).tracker.failed = s.tracker.failed := by
  unfold count
  dsimp only
  split <;> exact ⟨rfl, rfl⟩

theorem count_remaining (s : State) (n : ℕ) :
    (s.count n).tracker.remaining = wrappingSub s.tracker.remaining n := by
  unfold count
  dsimp only
  split <;> rfl

/-- Taking units off the counter releases the latch, as long as there are enough. -/
theorem count_latch {s : State} {n : ℕ} (h : n ≤ s.tracker.remaining) :
    (s.count n).latch = s.latch.release n := by
  unfold count Latch.release latch
  simp only [wrappingSub_of_le h]
  split <;> rfl

end State

/-- The error kept by the tracker is the first one among the results. -/
structure Noted (tracker : BatchTracker) (results : List (Option KafkaError)) : Prop where
  error : tracker.error = results.findSome? id
  failed : tracker.failed = tracker.error.isSome

def PhaseOk (batches : List EventBatch) (s : State) : Prop :=
  match s.phase with
  | .enqueuing => s.enqueueError = none ∧ s.enqueued < totalEvents batches
  | .sleeping _ => s.enqueueError = none ∧ s.enqueued < totalEvents batches
  | .abandoning => s.enqueueError ≠ none ∧ s.enqueued < totalEvents batches
  | .awaiting => s.enqueued ≤ totalEvents batches ∧
      (s.enqueueError = none ↔ s.enqueued = totalEvents batches)
  | .returned result => s.enqueued ≤ totalEvents batches ∧
      (s.enqueueError = none ↔ s.enqueued = totalEvents batches) ∧
      s.tracker.remaining = 0 ∧ result = outcome batches s

structure Inv (sink : KafkaSink) (batches : List EventBatch) (s : State) : Prop where
  accepted : s.accepted = ((events batches).take s.enqueued).map (toRecord sink)
  reports : s.reports.length = s.enqueued
  results : s.results.length + s.reports.count .outstanding = s.enqueued
  latch : s.latch.Tracks (totalEvents batches) (s.released (totalEvents batches))
  noted : Noted s.tracker s.results
  phase : PhaseOk batches s

theorem start_inv (sink : KafkaSink) (now : ℕ) (h : 0 < totalEvents batches) :
    Inv sink batches (State.start sink batches now) where
  accepted := rfl
  reports := rfl
  results := rfl
  latch := by
    have hreleased : (State.start sink batches now).released (totalEvents batches) = 0 := by
      simp [State.released, State.start, Nat.ne_of_gt h, Phase.isOver]
    rw [hreleased]
    exact Latch.tracks_new h
  noted := ⟨rfl, rfl⟩
  phase := by
    simp [PhaseOk, State.start, Nat.ne_of_gt h, h]

theorem Noted.note {tracker : BatchTracker} {results : List (Option KafkaError)}
    (h : Noted tracker results) (result : Option KafkaError) :
    Noted (tracker.note result) (results ++ [result]) := by
  obtain ⟨herror, hfailed⟩ := h
  have happend : (results ++ [result]).findSome? id = tracker.error.or result := by
    rw [List.findSome?_append, ← herror]
    cases result <;> rfl
  cases result with
  | none =>
    refine ⟨?_, hfailed⟩
    rw [happend, Option.or_none]
    rfl
  | some e =>
    cases hold : tracker.error with
    | none =>
      have hnot : tracker.failed = false := by rw [hfailed, hold]; rfl
      refine ⟨?_, ?_⟩
      · rw [happend, hold]
        simp [BatchTracker.note, hnot]
      · simp [BatchTracker.note, hnot]
    | some first =>
      have hyes : tracker.failed = true := by rw [hfailed, hold]; rfl
      refine ⟨?_, ?_⟩
      · rw [happend, hold]
        simp [BatchTracker.note, hyes, hold]
      · simp [BatchTracker.note, hyes, hold]

/-- Before the write has left its loop only reports take units off. -/
theorem Inv.released_of_enqueuing (h : Inv sink batches s) (hphase : s.phase.isOver = false) :
    s.released (totalEvents batches) = s.reports.count .settled ∧
      s.reports.count .settled ≤ s.enqueued := by
  have hle : s.reports.count .settled ≤ s.reports.length := List.count_le_length
  refine ⟨?_, h.reports ▸ hle⟩
  simp [State.released, hphase]

/-- A step inside the loop that sends nothing. -/
theorem Inv.move (h : Inv sink batches s) {phase : Phase} {enqueueError : Option WriteError}
    (hbefore : s.phase.isOver = false) (hafter : phase.isOver = false)
    (hphase : PhaseOk batches { s with enqueueError := enqueueError, phase := phase }) :
    Inv sink batches { s with enqueueError := enqueueError, phase := phase } := by
  have hlatch := h.latch
  rw [(h.released_of_enqueuing hbefore).1] at hlatch
  have hnew : State.released { s with enqueueError := enqueueError, phase := phase }
      (totalEvents batches) = s.reports.count .settled := by
    simp [State.released, hafter]
  exact ⟨h.accepted, h.reports, h.results, hnew ▸ hlatch, h.noted, hphase⟩

/-- The producer accepts the next event. -/
theorem accept_inv {event : Event} (h : Inv sink batches s) (hphase : s.phase = .enqueuing)
    (hevent : (events batches)[s.enqueued]? = some event) :
    Inv sink batches { s with
      enqueued := s.enqueued + 1
      phase := if s.enqueued + 1 = (events batches).length then .awaiting else .enqueuing
      accepted := s.accepted ++ [toRecord sink event]
      reports := s.reports ++ [.outstanding] } := by
  have hok := h.phase
  rw [PhaseOk, hphase] at hok
  obtain ⟨hnone, hlt⟩ := hok
  have hlatch := h.latch
  rw [(h.released_of_enqueuing (by rw [hphase]; rfl)).1] at hlatch
  have hresults := h.results
  have hreports := h.reports
  rw [events_length]
  refine ⟨?_, ?_, ?_, (?_ : s.latch.Tracks _ _), h.noted, ?_⟩
  · dsimp only
    rw [List.take_add_one, hevent, List.map_append, h.accepted]
    rfl
  · simp [hreports]
  · simp only [List.count_append, List.count_singleton_self]
    omega
  · by_cases hlast : s.enqueued + 1 = totalEvents batches
    · simpa [State.released, hlast, Phase.isOver] using hlatch
    · simpa [State.released, hlast, Phase.isOver] using hlatch
  · by_cases hlast : s.enqueued + 1 = totalEvents batches
    · simp [PhaseOk, hlast, hnone]
    · simp only [PhaseOk, hlast, if_false]
      exact ⟨hnone, by omega⟩

theorem send_inv {result : Except KafkaError Unit} (h : Inv sink batches s)
    (hs : send sink batches s result = some s') : Inv sink batches s' := by
  unfold send at hs
  split at hs
  · rename_i event hphase hevent
    have hok := h.phase
    rw [PhaseOk, hphase] at hok
    have hbefore : s.phase.isOver = false := by rw [hphase]; rfl
    split at hs
    · cases hs
      exact accept_inv h hphase hevent
    · split at hs
      · cases hs
        exact h.move hbefore rfl ⟨by simp, hok.2⟩
      · cases hs
        exact h.move hbefore rfl hok
    · cases hs
      exact h.move hbefore rfl ⟨by simp, hok.2⟩
  · contradiction

theorem wake_inv (h : Inv sink batches s) (hs : wake s = some s') : Inv sink batches s' := by
  unfold wake at hs
  split at hs
  · rename_i wakeAt hphase
    simp only [Option.ite_none_right_eq_some, Option.some.injEq] at hs
    obtain ⟨-, rfl⟩ := hs
    have hok := h.phase
    rw [PhaseOk, hphase] at hok
    exact h.move (by rw [hphase]; rfl) rfl hok
  · contradiction

theorem abandon_inv (h : Inv sink batches s) (hs : abandon batches s = some s') :
    Inv sink batches s' := by
  unfold abandon at hs
  split at hs
  · rename_i hphase
    have hok := h.phase
    rw [PhaseOk, hphase] at hok
    obtain ⟨hsome, hlt⟩ := hok
    have hne : totalEvents batches - s.enqueued ≠ 0 := by omega
    simp only [hne, if_false, Option.some.injEq] at hs
    subst hs
    obtain ⟨hreleased, hle⟩ := h.released_of_enqueuing (by rw [hphase]; rfl)
    have hlatch := h.latch
    rw [hreleased] at hlatch
    have hsum : s.tracker.remaining + s.reports.count .settled = totalEvents batches := hlatch.sum
    have htracks : (s.latch.release (totalEvents batches - s.enqueued)).Tracks (totalEvents batches)
        (s.reports.count .settled + (totalEvents batches - s.enqueued)) :=
      hlatch.release (by omega) (by omega)
    rw [← State.count_latch (by omega)] at htracks
    refine ⟨?_, ?_, ?_, ?_, ?_, ?_⟩
    · simpa using h.accepted
    · simpa using h.reports
    · simpa using h.results
    · have hnew : State.released
          { s.count (totalEvents batches - s.enqueued) with phase := .awaiting }
            (totalEvents batches) =
          s.reports.count .settled + (totalEvents batches - s.enqueued) := by
        simp [State.released, Phase.isOver]
      rw [hnew]
      exact htracks
    · exact ⟨by simpa using h.noted.error, by simpa using h.noted.failed⟩
    · simp only [PhaseOk, State.count_enqueued, State.count_enqueueError]
      exact ⟨hlt.le, fun hnone => absurd hnone hsome, fun heq => by omega⟩
  · contradiction

theorem count_set {k : ℕ} {old : Report} (new : Report) (hk : s.reports[k]? = some old)
    (x : Report) :
    (s.reports.set k new).count x + (if old = x then 1 else 0) =
      s.reports.count x + if new = x then 1 else 0 := by
  obtain ⟨pre, post, hreports, hset, -⟩ := Slots.exists_split hk
  rw [hset, hreports]
  simp only [List.count_append, List.count_cons, beq_iff_eq]
  omega

theorem PhaseOk.enqueued_le (h : PhaseOk batches s) : s.enqueued ≤ totalEvents batches := by
  unfold PhaseOk at h
  split at h
  · exact h.2.le
  · exact h.2.le
  · exact h.2.le
  · exact h.1
  · exact h.1

/-- Nothing is left on the counter only when every report is settled. -/
theorem Inv.settled_of_zero (h : Inv sink batches s) (hzero : s.tracker.remaining = 0) :
    ∀ x ∈ s.reports, x = .settled := by
  have hsum : s.tracker.remaining + s.released (totalEvents batches) = totalEvents batches :=
    h.latch.sum
  have hle := h.phase.enqueued_le
  have hcount : s.reports.count .settled = s.reports.length := by
    have hlen : s.reports.count .settled ≤ s.reports.length := List.count_le_length
    have hreports := h.reports
    cases hover : s.phase.isOver with
    | false =>
      have hok := h.phase
      have hreleased := (h.released_of_enqueuing hover).1
      unfold PhaseOk at hok
      unfold Phase.isOver at hover
      split at hok <;> simp_all <;> omega
    | true =>
      simp only [State.released, hover, if_true] at hsum
      omega
  intro x hx
  exact (List.count_eq_length.mp hcount x hx).symm

theorem Inv.not_returned (h : Inv sink batches s) {k : ℕ} {x : Report}
    (hk : s.reports[k]? = some x) (hx : x ≠ .settled) :
    ∀ result, s.phase ≠ .returned result := by
  intro result hphase
  have hok := h.phase
  rw [PhaseOk, hphase] at hok
  exact hx (h.settled_of_zero hok.2.2.1 x (List.mem_of_getElem? hk))

/-- The phase asks nothing of the tracker before the write returns. -/
theorem PhaseOk.same (h : PhaseOk batches s) (hnot : ∀ result, s.phase ≠ .returned result)
    (hphase : s'.phase = s.phase) (henqueued : s'.enqueued = s.enqueued)
    (herror : s'.enqueueError = s.enqueueError) : PhaseOk batches s' := by
  unfold PhaseOk at h ⊢
  rw [hphase, henqueued, herror]
  split at h
  · exact h
  · exact h
  · exact h
  · exact h
  · rename_i result hreturned
    exact absurd hreturned (hnot result)

/-- A report that is noted changes nothing but the tracker's error. -/
theorem report_inv {k : ℕ} {result : Option KafkaError} (h : Inv sink batches s)
    (hs : report s k result = some s') : Inv sink batches s' := by
  unfold report at hs
  split at hs
  · rename_i hk
    cases hs
    have houtstanding := count_set .noted hk .outstanding
    have hsettled := count_set .noted hk .settled
    have hresults := h.results
    have hnote : (s.tracker.note result).remaining = s.tracker.remaining ∧
        (s.tracker.note result).notify = s.tracker.notify := by
      unfold BatchTracker.note
      split
      · split <;> exact ⟨rfl, rfl⟩
      · exact ⟨rfl, rfl⟩
    refine ⟨h.accepted, ?_, ?_, ?_, h.noted.note result, ?_⟩
    · rw [List.length_set]
      exact h.reports
    · simp at houtstanding
      simp only [List.length_append, List.length_singleton]
      omega
    · have hlatch := h.latch
      simp at hsettled
      simp only [State.latch, State.released, hnote, hsettled]
      exact hlatch
    · exact h.phase.same (h.not_returned hk (by simp)) rfl rfl rfl
  · contradiction

theorem settle_inv {k : ℕ} (h : Inv sink batches s) (hs : settle s k = some s') :
    Inv sink batches s' := by
  unfold settle at hs
  split at hs
  · rename_i hk
    cases hs
    have houtstanding := count_set .settled hk .outstanding
    have hsettled := count_set .settled hk .settled
    simp at houtstanding hsettled
    have hlatch := h.latch
    have hsum : s.tracker.remaining + s.released (totalEvents batches) = totalEvents batches :=
      hlatch.sum
    have hpos : s.released (totalEvents batches) + 1 ≤ totalEvents batches := by
      by_contra hle
      have hzero : s.tracker.remaining = 0 := by omega
      have hmem := h.settled_of_zero hzero _ (List.mem_of_getElem? hk)
      contradiction
    have htracks := hlatch.release Nat.one_pos hpos
    have hcount : (State.count { s with reports := s.reports.set k .settled } 1).latch =
        s.latch.release 1 := State.count_latch (by simp only; omega)
    refine ⟨by simpa using h.accepted, ?_, ?_, ?_, ?_, ?_⟩
    · simpa using h.reports
    · simpa [houtstanding] using h.results
    · have hnew : (State.count { s with reports := s.reports.set k .settled } 1).released
          (totalEvents batches) = s.released (totalEvents batches) + 1 := by
        simp only [State.released, State.count_reports, State.count_phase, State.count_enqueued,
          hsettled]
        omega
      rw [hcount, hnew]
      exact htracks
    · exact ⟨by simpa using h.noted.error, by simpa using h.noted.failed⟩
    · refine h.phase.same (h.not_returned hk (by simp)) ?_ ?_ ?_ <;> simp
  · contradiction

theorem done_inv (h : Inv sink batches s) (hs : done batches s = some s') :
    Inv sink batches s' := by
  simp only [done, Option.ite_none_right_eq_some, Option.some.injEq] at hs
  obtain ⟨⟨hphase, hfired⟩, rfl⟩ := hs
  have hok := h.phase
  rw [PhaseOk, hphase] at hok
  have hzero : s.tracker.remaining = 0 := by
    have hle : s.notifications ≤ 1 := h.latch.fired_le_one
    have hiff : s.notifications = 1 ↔ s.tracker.remaining = 0 := h.latch.fired_iff
    omega
  refine ⟨h.accepted, h.reports, h.results, (?_ : s.latch.Tracks _ _), h.noted,
    hok.1, hok.2, hzero, rfl⟩
  have hlatch := h.latch
  simpa [State.released, hphase, Phase.isOver] using hlatch

/-- The channel of the tracker is never closed without a value. -/
theorem Inv.doneClosed_none (h : Inv sink batches s) : doneClosed s = none := by
  unfold doneClosed
  rw [if_neg]
  rintro ⟨-, hfired, hnotify⟩
  have harmed : s.tracker.notify = true ↔ s.released (totalEvents batches) < totalEvents batches :=
    h.latch.armed
  have hsum : s.tracker.remaining + s.released (totalEvents batches) = totalEvents batches :=
    h.latch.sum
  have hiff : s.notifications = 1 ↔ s.tracker.remaining = 0 := h.latch.fired_iff
  rw [hnotify] at harmed
  have hnot : ¬ s.released (totalEvents batches) < totalEvents batches := by
    intro hlt
    exact Bool.false_ne_true (harmed.mpr hlt)
  omega

theorem step_inv {a : Action} (h : Inv sink batches s) (hs : step sink batches s a = some s') :
    Inv sink batches s' := by
  cases a with
  | elapse duration =>
    cases hs
    refine ⟨h.accepted, h.reports, h.results, h.latch, h.noted, ?_⟩
    exact h.phase
  | send result => exact send_inv h hs
  | wake => exact wake_inv h hs
  | abandon => exact abandon_inv h hs
  | report k result => exact report_inv h hs
  | settle k => exact settle_inv h hs
  | done => exact done_inv h hs
  | doneClosed =>
    have hnone : step sink batches s .doneClosed = none := h.doneClosed_none
    rw [hnone] at hs
    contradiction

theorem reachable_inv {now : ℕ} (hpos : 0 < totalEvents batches)
    (h : (system sink batches now).Reachable s) : Inv sink batches s := by
  apply System.Reachable.invariant (start_inv sink now hpos) _ h
  intro t a t' hi hs
  exact step_inv hi hs

/-- No step takes off the counter more than it holds. -/
theorem Inv.remaining_le {a : Action} (h : Inv sink batches s)
    (hs : step sink batches s a = some s') : s'.tracker.remaining ≤ s.tracker.remaining := by
  have hsum : s.tracker.remaining + s.released (totalEvents batches) = totalEvents batches :=
    h.latch.sum
  cases a with
  | settle k =>
    simp only [step, settle] at hs
    split at hs
    · rename_i hk
      cases hs
      have hpos : s.tracker.remaining ≠ 0 := by
        intro hzero
        have hmem := h.settled_of_zero hzero _ (List.mem_of_getElem? hk)
        contradiction
      rw [State.count_remaining, wrappingSub_of_le (by simp only; omega)]
      exact Nat.sub_le _ _
    · contradiction
  | abandon =>
    simp only [step, abandon] at hs
    split at hs
    · rename_i hphase
      cases hs
      obtain ⟨hreleased, hle⟩ := h.released_of_enqueuing (by rw [hphase]; rfl)
      dsimp only
      split
      · exact le_refl _
      · rw [State.count_remaining, wrappingSub_of_le (by omega)]
        exact Nat.sub_le _ _
    · contradiction
  | report k result =>
    simp only [step, report] at hs
    split at hs
    · cases hs
      unfold BatchTracker.note
      dsimp only
      split
      · split <;> exact le_refl _
      · exact le_refl _
    · contradiction
  | send result =>
    simp only [step, send] at hs
    split at hs
    · split at hs
      · cases hs; exact le_refl _
      · split at hs <;> (cases hs; exact le_refl _)
      · cases hs; exact le_refl _
    · contradiction
  | elapse duration =>
    cases hs
    exact le_refl _
  | wake =>
    simp only [step, wake] at hs
    split at hs
    · simp only [Option.ite_none_right_eq_some, Option.some.injEq] at hs
      obtain ⟨-, rfl⟩ := hs
      exact le_refl _
    · contradiction
  | done =>
    simp only [step, done, Option.ite_none_right_eq_some, Option.some.injEq] at hs
    obtain ⟨-, rfl⟩ := hs
    exact le_refl _
  | doneClosed =>
    simp only [step, doneClosed, Option.ite_none_right_eq_some, Option.some.injEq] at hs
    obtain ⟨-, rfl⟩ := hs
    exact le_refl _

/-- A write without events returns at once, and only time passes after that. -/
theorem reachable_empty {now : ℕ} (hzero : totalEvents batches = 0)
    (h : (system sink batches now).Reachable s) :
    ∃ t : ℕ, s = { State.start sink batches now with now := t } := by
  have hstart : ∃ t : ℕ, State.start sink batches now =
      { State.start sink batches now with now := t } := ⟨now, rfl⟩
  apply System.Reachable.invariant hstart _ h
  rintro s a s' ⟨t, rfl⟩ hs
  cases a with
  | elapse duration =>
    cases hs
    exact ⟨t + duration, rfl⟩
  | _ =>
    simp [system, step, send, wake, abandon, report, settle, done, doneClosed, State.start,
      hzero] at hs

/-- A write that waits with every report settled has been notified. -/
theorem Inv.done_enabled (h : Inv sink batches s) (hphase : s.phase = .awaiting)
    (hall : ∀ x ∈ s.reports, x = .settled) : ∃ s', step sink batches s .done = some s' := by
  have hok := h.phase
  rw [PhaseOk, hphase] at hok
  have hcount : s.reports.count .settled = s.reports.length :=
    List.count_eq_length.mpr (fun x hx => (hall x hx).symm)
  have hsum : s.tracker.remaining + s.released (totalEvents batches) = totalEvents batches :=
    h.latch.sum
  have hreleased : s.released (totalEvents batches) = totalEvents batches := by
    have hreports := h.reports
    simp only [State.released, hphase, Phase.isOver, if_true, hcount]
    omega
  have hfired : s.notifications = 1 := h.latch.fired_iff.mpr (by simp only [State.latch]; omega)
  exact ⟨_, if_pos ⟨hphase, by omega⟩⟩

/-- What a write that has returned says about its records. -/
theorem Inv.returned (h : Inv sink batches s) {result : Except WriteError WriteOutcome}
    (hphase : s.phase = .returned result) :
    (result = .ok ⟨totalEvents batches, 0⟩ ↔
      s.enqueued = totalEvents batches ∧ ∀ r ∈ s.results, r = none) ∧
    (∀ e, s.enqueueError = some e → result = .error e) ∧
    (s.enqueueError = none → ∀ e, s.results.findSome? id = some e →
      result = .error (.delivery e)) := by
  have hok := h.phase
  rw [PhaseOk, hphase] at hok
  obtain ⟨-, hnone, -, rfl⟩ := hok
  have herror : s.tracker.error = s.results.findSome? id := h.noted.error
  refine ⟨?_, ?_, ?_⟩
  · rw [← hnone]
    have hclean : s.tracker.error = none ↔ ∀ r ∈ s.results, r = none := by
      rw [herror, List.findSome?_eq_none_iff]
      rfl
    rw [← hclean]
    unfold outcome
    cases s.enqueueError with
    | some e => simp
    | none => cases s.tracker.error <;> simp
  · intro e he
    rw [outcome, he]
  · intro hno e he
    rw [outcome, hno, herror, he]

/-- Completion of a Kafka write, for any interleaving of its enqueue loop with the
delivery callbacks. The producer has accepted a prefix of the events, in order, and
every accepted record has one report. No step takes more off the counter than it holds,
and the write is notified once, when nothing is left on it; it is never left waiting
with every report settled. It returns only after that, with `Ok` and the number of
events exactly when all were accepted and delivered, and otherwise with the enqueue
error if there is one and the first delivery error if there is none. -/
theorem write_completes {now : ℕ} (h : (system sink batches now).Reachable s) :
    s.accepted = ((events batches).take s.enqueued).map (toRecord sink) ∧
    s.reports.length = s.accepted.length ∧
    (∀ a s', step sink batches s a = some s' →
      s'.tracker.remaining ≤ s.tracker.remaining) ∧
    s.notifications ≤ 1 ∧
    (0 < totalEvents batches → (s.notifications = 1 ↔ s.tracker.remaining = 0)) ∧
    (s.phase = .awaiting → (∀ x ∈ s.reports, x = .settled) →
      ∃ s', step sink batches s .done = some s') ∧
    ∀ result, s.phase = .returned result →
      s.tracker.remaining = 0 ∧ (∀ x ∈ s.reports, x = .settled) ∧
      (result = .ok ⟨totalEvents batches, 0⟩ ↔
        s.enqueued = totalEvents batches ∧ ∀ r ∈ s.results, r = none) ∧
      (s.enqueueError = none ↔ s.enqueued = totalEvents batches) ∧
      (∀ e, s.enqueueError = some e → result = .error e) ∧
      (s.enqueueError = none → ∀ e, s.results.findSome? id = some e →
        result = .error (.delivery e)) := by
  by_cases hzero : totalEvents batches = 0
  · obtain ⟨t, rfl⟩ := reachable_empty hzero h
    have hphase : State.phase { State.start sink batches now with now := t } =
        .returned (.ok ⟨0, 0⟩) := if_pos hzero
    refine ⟨rfl, rfl, ?_, Nat.zero_le _, fun hpos => by omega, ?_, ?_⟩
    · intro a s' hs
      obtain ⟨t', rfl⟩ := reachable_empty hzero (h.next hs)
      exact le_refl _
    · intro hwait
      rw [hphase] at hwait
      contradiction
    · intro result hresult
      rw [hphase] at hresult
      cases hresult
      simp [State.start, BatchTracker.new, hzero]
  · have hinv := reachable_inv (Nat.pos_of_ne_zero hzero) h
    have hlength : s.reports.length = s.accepted.length := by
      have hle : s.enqueued ≤ (events batches).length := by
        rw [events_length]
        exact hinv.phase.enqueued_le
      rw [hinv.accepted, hinv.reports, List.length_map, List.length_take_of_le hle]
    refine ⟨hinv.accepted, hlength, fun a s' hs => hinv.remaining_le hs,
      hinv.latch.fired_le_one, fun _ => hinv.latch.fired_iff, hinv.done_enabled, ?_⟩
    intro result hphase
    have hok := hinv.phase
    rw [PhaseOk, hphase] at hok
    obtain ⟨hresult, herror, hdelivery⟩ := hinv.returned hphase
    exact ⟨hok.2.2.1, hinv.settled_of_zero hok.2.2.1, hresult, hok.2.1, herror, hdelivery⟩

def pairBatch : EventBatch :=
  EventBatch.new [⟨some [1], [120], none, ⟨"in", "input", 0, 7⟩⟩,
    ⟨none, [121], some 5, ⟨"in", "input", 0, 8⟩⟩]

/-- The first record is reported on while the queue is full; the second times out and
its callback is the first to end. -/
def secondTimesOut : List Action :=
  [.send (.ok ()), .report 0 none, .send (.error (.messageProduction .queueFull)), .elapse 2,
    .wake, .send (.ok ()), .report 1 (some (.messageProduction .messageTimedOut)), .settle 1,
    .settle 0, .done]

theorem write_completes_secondTimesOut : ∃ s : State,
    s.phase = .returned (.error (.delivery (.messageProduction .messageTimedOut))) ∧
    s.accepted = ((events [pairBatch]).take 2).map (toRecord ⟨"output", 30⟩) ∧
    s.tracker.remaining = 0 := by
  have hrun : ((system ⟨"output", 30⟩ [pairBatch] 0).run (State.start ⟨"output", 30⟩ [pairBatch] 0)
      secondTimesOut).map (fun s => (s.phase, s.enqueued)) =
        some (.returned (.error (.delivery (.messageProduction .messageTimedOut))), 2) := by
    decide
  obtain ⟨s, hs, hview⟩ := Option.map_eq_some_iff.mp hrun
  obtain ⟨hphase, henqueued⟩ := Prod.mk.inj hview
  have hreach : (system ⟨"output", 30⟩ [pairBatch] 0).Reachable s :=
    System.Reachable.run System.ReachableBy.start hs
  obtain ⟨haccepted, -, -, -, -, -, hreturned⟩ := write_completes hreach
  rw [henqueued] at haccepted
  exact ⟨s, hphase, haccepted, (hreturned _ hphase).1⟩

end Rustper.Kafka
