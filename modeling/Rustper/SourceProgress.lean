import Rustper.Library.Potential
import Rustper.SourceBudget
import Rustper.UncommittedWindow

/-!
Progress of the source loop. A batch being assembled has to be dispatched and a batch in
flight to be joined; `batchCost` is what a dispatched batch has to go through elsewhere.
A loop that has nothing assembled and nothing in flight has committed all it received.
-/
namespace Rustper.Source

open TransitionSystem MachineInt

variable {source : KafkaSource} {s s' : State}

/-- Steps left to the batch that is being assembled, if there is one. -/
def pendingWork (batchCost : ℕ) (pending : List Event) : ℕ :=
  if pending = [] then 0 else batchCost + 2

def State.remaining (batchCost : ℕ) (s : State) : ℕ :=
  pendingWork batchCost s.pending + s.inFlight.length + if s.outcome = none then 1 else 0

/-- Receiving a record is no work of the loop; it brings work with it. -/
def work : Action → ℕ
  | .elapse _ | .recv _ => 0
  | _ => 1

def pay (batchCost : ℕ) : Action → ℕ
  | .recv _ => batchCost + 2
  | _ => 0

theorem pendingWork_le (batchCost : ℕ) (pending : List Event) :
    pendingWork batchCost pending ≤ batchCost + 2 := by
  unfold pendingWork
  split
  · exact Nat.zero_le _
  · exact Nat.le_refl _

variable (source) in
/-- A dispatch hands the batch over, or ends the loop. -/
theorem dispatch_remaining (batchCost : ℕ) (hnone : s.outcome = none) (hpending : s.pending ≠ []) :
    (dispatch source s).remaining batchCost +
      batchCost * ((dispatch source s).dispatched.length - s.dispatched.length) + 1 ≤
        s.remaining batchCost := by
  unfold dispatch
  split
  · simp [State.remaining, hnone]
  · simp only [State.remaining, pendingWork, hpending, hnone, if_false, if_true,
      List.length_append, List.length_singleton, Nat.add_sub_cancel_left, mul_one]
    omega

theorem join_remaining {batchCost k : ℕ} {result : TaskResult} {commit : BatchCompletion → Bool}
    (hnone : s.outcome = none) (hs : join s k result commit = some s') :
    s'.remaining batchCost + batchCost * (s'.dispatched.length - s.dispatched.length) + 1 ≤
      s.remaining batchCost := by
  unfold join at hs
  cases hfind : s.inFlight.find? (fun t => t.sequence = k) with
  | none => simp [hfind] at hs
  | some task =>
    have hmem : task ∈ s.inFlight := List.mem_of_find?_eq_some hfind
    have hkey : task.sequence = k := by simpa using List.find?_some hfind
    have hless : (s.inFlight.filter (fun t => t.sequence ≠ k)).length < s.inFlight.length := by
      refine List.length_filter_lt_length_iff_exists.mpr ⟨task, hmem, ?_⟩
      simp [hkey]
    simp only [hfind] at hs
    cases result with
    | panicked | error e =>
      cases hs
      simp only [State.remaining, hnone, if_true, reduceCtorEq, if_false, Nat.sub_self, mul_zero]
      omega
    | ok =>
      cases hs
      obtain ⟨hinFlight, -, hpending, hdispatched⟩ := complete_fields s
        (s.inFlight.filter (fun t => t.sequence ≠ k)) task commit
      simp only [State.remaining, hinFlight, hpending, hdispatched, hnone, if_true, Nat.sub_self,
        mul_zero]
      split <;> omega

/-- What a step leaves to do: a batch that it dispatches goes on elsewhere. -/
theorem step_remaining (batchCost : ℕ) {a : Action} (hs : step source s a = some s') :
    s'.remaining batchCost + batchCost * (s'.dispatched.length - s.dispatched.length) + work a ≤
      s.remaining batchCost + pay batchCost a := by
  simp only [step, Option.ite_none_right_eq_some] at hs
  obtain ⟨hnone, hs⟩ := hs
  cases a with
  | elapse duration =>
    cases hs
    simp [State.remaining, work, pay]
  | shutdown =>
    cases hs
    simp [State.remaining, hnone, work, pay]
  | join k result commit => exact join_remaining hnone hs
  | lingerElapsed =>
    simp only [lingerElapsed, Option.ite_none_right_eq_some, Option.some.injEq] at hs
    obtain ⟨⟨hpending, -, -⟩, rfl⟩ := hs
    exact dispatch_remaining source batchCost hnone hpending
  | recv message =>
    simp only [recv, Option.ite_none_right_eq_some, Option.some.injEq] at hs
    obtain ⟨-, rfl⟩ := hs
    have hpushed : (push source s message).remaining batchCost ≤
        s.remaining batchCost + (batchCost + 2) := by
      have hle := pendingWork_le batchCost (push source s message).pending
      simp only [State.remaining, push, hnone, if_true] at hle ⊢
      omega
    split
    · have hdispatch := dispatch_remaining source batchCost (s := push source s message) hnone
        (by simp [push])
      have hsame : (push source s message).dispatched = s.dispatched := rfl
      rw [hsame] at hdispatch
      simp only [work, pay]
      omega
    · simp only [push, work, pay, Nat.sub_self, mul_zero, Nat.add_zero] at hpushed ⊢
      exact hpushed
  | recvFailed =>
    simp only [recvFailed, Option.ite_none_right_eq_some, Option.some.injEq] at hs
    obtain ⟨-, rfl⟩ := hs
    simp [State.remaining, hnone, work, pay]

/-- The byte counter never claims more than what is in flight, saturated or not. -/
theorem step_bytes_le {a : Action} (h : Inv source s) (hs : step source s a = some s')
    (hbytes : s.inFlightBytes ≤ inFlightSum s) (hnone' : s'.outcome = none) :
    s'.inFlightBytes ≤ inFlightSum s' := by
  have hdispatch : ∀ {t : State}, t.inFlightBytes ≤ inFlightSum t →
      (dispatch source t).inFlightBytes ≤ inFlightSum (dispatch source t) := by
    intro t ht
    unfold dispatch
    split
    · exact ht
    · simp only [inFlightSum, saturatingAdd, List.map_append, List.map_singleton, List.sum_append,
        List.sum_singleton] at ht ⊢
      omega
  simp only [step, Option.ite_none_right_eq_some] at hs
  obtain ⟨hnone, hs⟩ := hs
  cases a with
  | elapse duration =>
    cases hs
    exact hbytes
  | shutdown =>
    cases hs
    contradiction
  | join k result commit =>
    simp only [join] at hs
    cases hfind : s.inFlight.find? (fun t => t.sequence = k) with
    | none => simp [hfind] at hs
    | some task =>
      simp only [hfind] at hs
      cases result with
      | panicked | error e =>
        cases hs
        contradiction
      | ok =>
        cases hs
        obtain ⟨hmem, rfl, -⟩ := find_sequence (h.running hnone).inFlight_nodup hfind
        have hperm := Slots.perm_cons_filter Task.sequence (h.running hnone).inFlight_nodup hmem
        have hsum := (hperm.map Task.bytes).sum_eq
        obtain ⟨hinFlight, hcounter, -, -⟩ := complete_fields s
          (s.inFlight.filter (fun t => t.sequence ≠ task.sequence)) task commit
        rw [List.map_cons, List.sum_cons] at hsum
        unfold inFlightSum at hbytes
        rw [inFlightSum, hinFlight, hcounter]
        omega
  | lingerElapsed =>
    simp only [lingerElapsed, Option.ite_none_right_eq_some, Option.some.injEq] at hs
    obtain ⟨-, rfl⟩ := hs
    exact hdispatch hbytes
  | recv message =>
    simp only [recv, Option.ite_none_right_eq_some, Option.some.injEq] at hs
    obtain ⟨-, rfl⟩ := hs
    have hpush : (push source s message).inFlightBytes ≤
        inFlightSum (push source s message) := hbytes
    split
    · exact hdispatch hpush
    · exact hpush
  | recvFailed =>
    simp only [recvFailed, Option.ite_none_right_eq_some, Option.some.injEq] at hs
    obtain ⟨-, rfl⟩ := hs
    contradiction

theorem outcome_of_step {a : Action} (hs : step source s a = some s') : s.outcome = none := by
  simp only [step, Option.ite_none_right_eq_some] at hs
  exact hs.1

theorem dispatch_outcome (source : KafkaSource) (hnone : s.outcome = none) :
    (dispatch source s).outcome ≠ some (.ok ()) := by
  unfold dispatch
  split <;> simp [hnone]

/-- The loop only ends well where it is told to. -/
theorem shutdown_of_ok {a : Action} (hs : step source s a = some s')
    (hok : s'.outcome = some (.ok ())) : a = .shutdown := by
  have hnone := outcome_of_step hs
  simp only [step, if_pos hnone] at hs
  cases a with
  | shutdown => rfl
  | elapse duration =>
    cases hs
    rw [show s.outcome = some (.ok ()) from hok] at hnone
    contradiction
  | join k result commit =>
    simp only [join] at hs
    split at hs
    · contradiction
    · cases result with
      | panicked | error e =>
        cases hs
        simp at hok
      | ok =>
        cases hs
        simp only [complete] at hok
        split at hok <;> simp [hnone] at hok
  | lingerElapsed =>
    simp only [lingerElapsed, Option.ite_none_right_eq_some, Option.some.injEq] at hs
    obtain ⟨-, rfl⟩ := hs
    exact absurd hok (dispatch_outcome source hnone)
  | recv message =>
    simp only [recv, Option.ite_none_right_eq_some, Option.some.injEq] at hs
    obtain ⟨-, rfl⟩ := hs
    split at hok
    · exact absurd hok (dispatch_outcome source (s := push source s message) hnone)
    · simp [push, hnone] at hok
  | recvFailed =>
    simp only [recvFailed, Option.ite_none_right_eq_some, Option.some.injEq] at hs
    obtain ⟨-, rfl⟩ := hs
    simp at hok

/-- An idle loop has room for a batch. -/
theorem admitsBatch_of_idle {config : KafkaSourceConfig}
    (hbatches : 0 < config.maxInFlightBatches) (hmax : 0 < config.maxInFlightBytes)
    (hbytes : s.inFlightBytes ≤ inFlightSum s) (hnil : s.inFlight = []) :
    admitsBatch config s = true := by
  rw [admitsBatch_iff, hnil]
  simp only [inFlightSum, hnil, List.map_nil, List.sum_nil] at hbytes
  refine ⟨hbatches, by omega⟩

/-- Nothing assembled, nothing in flight and every dispatched batch committed. -/
structure Caught (source : KafkaSource) (s : State) : Prop where
  pending : s.pending = []
  inFlight : s.inFlight = []
  completed : s.cursor.completed.keys = ∅
  committed : s.cursor.committed.map BatchCompletion.sequence = List.range s.dispatched.length
  received : receiptEvents source s.received = s.dispatched.flatMap (fun d => d.batch.events)

theorem Inv.caught (h : Inv source s) (hnone : s.outcome = none) (hpending : s.pending = [])
    (hinFlight : s.inFlight = []) : Caught source s := by
  have hrunning := h.running hnone
  have hempty := hrunning.keys_eq_empty hinFlight
  have hnext := hrunning.uncommitted_eq
  have hcard : s.cursor.completed.keys.card = 0 := by rw [hempty]; rfl
  rw [uncommitted, hinFlight, hcard, List.length_nil, h.sequence_eq] at hnext
  refine ⟨hpending, hinFlight, hempty, ?_, ?_⟩
  · rw [hrunning.exact.inOrder, ← hnext]
    rfl
  · have hassembling : receiptEvents source s.assembling = [] := h.pending_eq ▸ hpending
    rw [h.received_eq, receiptEvents, List.map_append, List.map_flatMap]
    refine (congrArg _ hassembling).trans ((List.append_nil _).trans ?_)
    refine List.flatMap_congr fun d hd => ?_
    exact (h.dispatches d hd).events.symm

end Rustper.Source
