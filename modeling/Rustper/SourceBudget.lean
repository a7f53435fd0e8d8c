import Rustper.SourceConservation

/-!
The byte counter of the source loop and the two budgets. The counter is exact as long as
the sizes of the batches in flight add up to a `usize`; a batch is only assembled while
both budgets admit another one.
-/
namespace Rustper.Source

open TransitionSystem MachineInt

variable {source : KafkaSource}

/-- The sizes of the batches whose fan-out has not been joined, added up. -/
def inFlightSum (s : State) : ℕ := (s.inFlight.map Task.bytes).sum

/-- After the step the sum of the sizes in flight is representable. -/
def Representable (source : KafkaSource) (s : State) (a : Action) : Prop :=
  ∀ s' ∈ step source s a, inFlightSum s' ≤ usizeMax

instance (source : KafkaSource) (s : State) (a : Action) :
    Decidable (Representable source s a) :=
  inferInstanceAs (Decidable (∀ s' ∈ step source s a, inFlightSum s' ≤ usizeMax))

/-- The size of the batch dispatched last. -/
def lastBytes (s : State) : ℕ := s.dispatched.getLast?.elim 0 (fun d => d.batch.bytes)

structure Budget (source : KafkaSource) (s : State) : Prop where
  exact : s.inFlightBytes = inFlightSum s
  batches : s.inFlight.length ≤ source.config.maxInFlightBatches
  admitted : s.pending ≠ [] → admitsBatch source.config s = true
  bytes : s.inFlightBytes < source.config.maxInFlightBytes + lastBytes s

/-- The budget is kept by the loop, not by the state that `run` leaves behind. -/
def Budgeted (source : KafkaSource) (s : State) : Prop :=
  Inv source s ∧ (s.outcome = none → Budget source s)

theorem start_budget (now : ℕ) (hbytes : 0 < source.config.maxInFlightBytes) :
    Budget source (State.start now) where
  exact := rfl
  batches := Nat.zero_le _
  admitted h := absurd rfl h
  bytes := Nat.lt_of_lt_of_le hbytes (Nat.le_add_right _ _)

theorem admitsBatch_iff {config : KafkaSourceConfig} {s : State} :
    admitsBatch config s = true ↔ s.inFlight.length < config.maxInFlightBatches ∧
      s.inFlightBytes < config.maxInFlightBytes := by
  simp only [admitsBatch, Bool.and_eq_true, decide_eq_true_eq]

/-- Admission leaves room for one batch more, and the sum stays exact if it fits. -/
theorem dispatch_budget {s : State} (h : Budget source s)
    (hadmits : admitsBatch source.config s = true)
    (hfits : inFlightSum (dispatch source s) ≤ usizeMax)
    (hnone : (dispatch source s).outcome = none) : Budget source (dispatch source s) := by
  obtain ⟨hbatches, hbytes⟩ := admitsBatch_iff.mp hadmits
  unfold dispatch at hfits hnone ⊢
  cases hoffsets : offsetsFor source.client s.pending with
  | error e =>
    rw [hoffsets] at hnone
    contradiction
  | ok offsets =>
    simp only [hoffsets] at hfits
    have hsum : (s.inFlight.map Task.bytes ++ [(EventBatch.new s.pending).bytes]).sum =
        inFlightSum s + (EventBatch.new s.pending).bytes := by
      simp [inFlightSum]
    have hadd : saturatingAdd s.inFlightBytes (EventBatch.new s.pending).bytes =
        inFlightSum s + (EventBatch.new s.pending).bytes := by
      rw [saturatingAdd, h.exact]
      simp only [inFlightSum, List.map_append, List.map_cons, List.map_nil] at hfits hsum ⊢
      omega
    refine ⟨?_, ?_, fun hne => absurd rfl hne, ?_⟩
    · simp only [hadd, inFlightSum, List.map_append, List.map_cons, List.map_nil, hsum]
    · rw [List.length_append, List.length_singleton]
      exact hbatches
    · have hexact := h.exact
      simp only [hadd, lastBytes, List.getLast?_concat, Option.elim_some]
      omega

theorem push_budget {s : State} (h : Budget source s) (message : Record)
    (hadmits : admitsBatch source.config s = true) : Budget source (push source s message) where
  exact := h.exact
  batches := h.batches
  admitted _ := hadmits
  bytes := h.bytes

theorem complete_fields (s : State) (inFlight : List Task) (task : Task)
    (commit : BatchCompletion → Bool) :
    (complete s inFlight task commit).inFlight = inFlight ∧
    (complete s inFlight task commit).inFlightBytes = s.inFlightBytes - task.bytes ∧
    (complete s inFlight task commit).pending = s.pending ∧
    (complete s inFlight task commit).dispatched = s.dispatched := by
  unfold complete
  dsimp only
  split <;> exact ⟨rfl, rfl, rfl, rfl⟩

/-- A joined task gives back what it took, and the loop admits at least as much as before. -/
theorem complete_budget {s : State} {k : ℕ} {task : Task} (hinv : Inv source s)
    (hnone : s.outcome = none) (h : Budget source s)
    (hfind : s.inFlight.find? (fun t => t.sequence = k) = some task)
    (commit : BatchCompletion → Bool) :
    Budget source (complete s (s.inFlight.filter (fun t => t.sequence ≠ k)) task commit) := by
  obtain ⟨hmem, hk, -⟩ := find_sequence (hinv.running hnone).inFlight_nodup hfind
  subst hk
  have hperm := Slots.perm_cons_filter Task.sequence (hinv.running hnone).inFlight_nodup hmem
  have hsum := (hperm.map Task.bytes).sum_eq
  have hlen := hperm.length_eq
  rw [List.map_cons, List.sum_cons] at hsum
  rw [List.length_cons] at hlen
  have hexact := h.exact
  have hbatches := h.batches
  have hbytes := h.bytes
  unfold inFlightSum at hexact
  obtain ⟨hinFlight, hcounter, hpending, hdispatched⟩ := complete_fields s
    (s.inFlight.filter (fun t => t.sequence ≠ task.sequence)) task commit
  refine ⟨?_, ?_, ?_, ?_⟩
  · rw [hcounter, inFlightSum, hinFlight]
    omega
  · rw [hinFlight]
    omega
  · intro hne
    have hadmits := admitsBatch_iff.mp (h.admitted (hpending ▸ hne))
    rw [admitsBatch_iff, hinFlight, hcounter]
    omega
  · rw [hcounter, lastBytes, hdispatched]
    exact Nat.lt_of_le_of_lt (Nat.sub_le _ _) h.bytes

theorem join_budget {s s' : State} {k : ℕ} {result : TaskResult}
    {commit : BatchCompletion → Bool} (hinv : Inv source s) (hnone : s.outcome = none)
    (h : Budget source s) (hs : join s k result commit = some s') (hnone' : s'.outcome = none) :
    Budget source s' := by
  unfold join at hs
  cases hfind : s.inFlight.find? (fun t => t.sequence = k) with
  | none => simp [hfind] at hs
  | some task =>
    simp only [hfind] at hs
    cases result with
    | ok =>
      cases hs
      exact complete_budget hinv hnone h hfind commit
    | error e =>
      cases hs
      contradiction
    | panicked =>
      cases hs
      contradiction

theorem step_budget {s s' : State} {action : Action} (h : Budgeted source s)
    (hfits : Representable source s action) (hs : step source s action = some s') :
    Budgeted source s' := by
  refine ⟨step_inv h.1 hs, ?_⟩
  have hsum := hfits s' hs
  simp only [step, Option.ite_none_right_eq_some] at hs
  obtain ⟨hnone, hs⟩ := hs
  have hbudget := h.2 hnone
  intro hnone'
  cases action with
  | elapse duration =>
    cases hs
    exact ⟨hbudget.exact, hbudget.batches, hbudget.admitted, hbudget.bytes⟩
  | shutdown =>
    cases hs
    contradiction
  | join k result commit => exact join_budget h.1 hnone hbudget hs hnone'
  | lingerElapsed =>
    simp only [lingerElapsed, Option.ite_none_right_eq_some, Option.some.injEq] at hs
    obtain ⟨⟨-, hadmits, -⟩, rfl⟩ := hs
    exact dispatch_budget hbudget hadmits hsum hnone'
  | recv message =>
    simp only [recv, Option.ite_none_right_eq_some, Option.some.injEq] at hs
    obtain ⟨⟨hadmits, -⟩, rfl⟩ := hs
    have hpush := push_budget hbudget message hadmits
    by_cases hfull : source.config.batchSize ≤ (push source s message).pending.length
    · rw [if_pos hfull] at hsum hnone' ⊢
      exact dispatch_budget hpush hadmits hsum hnone'
    · rw [if_neg hfull]
      exact hpush
  | recvFailed =>
    simp only [recvFailed, Option.ite_none_right_eq_some, Option.some.injEq] at hs
    obtain ⟨-, rfl⟩ := hs
    contradiction

theorem reachable_budget {now : ℕ} {s : State} (hbytes : 0 < source.config.maxInFlightBytes)
    (h : (system source now).ReachableBy (Representable source) s) (hrun : s.outcome = none) :
    Budget source s := by
  have hboth : Budgeted source s := by
    refine System.ReachableBy.invariant ?_ ?_ h
    · exact ⟨start_inv source now, fun _ => start_budget now hbytes⟩
    · intro t a t' ht hfits hs
      exact step_budget ht hfits hs
  exact hboth.2 hrun

/-- While `run` has not returned, and as long as the sizes in flight add up to a `usize`:
the counter is their sum; no more tasks than allowed are in flight; a started batch is
admitted, so it is dispatched when its timer fires; and the bytes in flight, also together
with those being assembled, exceed the budget by one source batch at most, which is the one
dispatched last or the one being assembled. -/
theorem inFlight_budget {now : ℕ} {s : State} (hbytes : 0 < source.config.maxInFlightBytes)
    (h : (system source now).ReachableBy (Representable source) s) (hrun : s.outcome = none) :
    s.inFlightBytes = (s.inFlight.map (fun t => t.batch.bytes)).sum ∧
    s.inFlight.length ≤ source.config.maxInFlightBatches ∧
    (s.pending ≠ [] → admitsBatch source.config s = true ∧
      (s.deadline ≤ s.now → (step source s .lingerElapsed).isSome = true)) ∧
    s.inFlightBytes < source.config.maxInFlightBytes + lastBytes s ∧
    ∃ batch : EventBatch,
      (batch = EventBatch.new s.pending ∨
        s.dispatched.getLast?.map Dispatch.batch = some batch) ∧
      batch.len ≤ source.config.batchSize ∧
      s.inFlightBytes + (EventBatch.new s.pending).bytes ≤
        source.config.maxInFlightBytes + batch.bytes := by
  have hinv := reachable_inv h.reachable
  have hbudget := reachable_budget hbytes h hrun
  refine ⟨?_, hbudget.batches, fun hne => ⟨hbudget.admitted hne, fun hdue => ?_⟩,
    hbudget.bytes, ?_⟩
  · rw [hbudget.exact, inFlightSum]
    congr 1
    apply List.map_congr_left
    intro t ht
    obtain ⟨⟨d, hd, -, -, hbytes⟩, hbatch⟩ := hinv.tasks t ht
    rw [show s.dispatched[t.sequence]? = some d from hd] at hbatch
    rw [show t.bytes = d.batch.bytes from hbytes, Option.some.inj hbatch]
  · rw [step, if_pos hrun]
    show (lingerElapsed source s).isSome = true
    rw [lingerElapsed, if_pos ⟨hne, hbudget.admitted hne, hdue⟩]
    rfl
  · by_cases hne : s.pending = []
    · have hzero : (EventBatch.new s.pending).bytes = 0 := by rw [hne]; rfl
      have hlt := hbudget.bytes
      unfold lastBytes at hlt
      cases hlast : s.dispatched.getLast? with
      | none =>
        rw [hlast, Option.elim_none] at hlt
        exact ⟨EventBatch.new s.pending, Or.inl rfl, (hinv.running hrun).pending_le, by omega⟩
      | some d =>
        rw [hlast, Option.elim_some] at hlt
        have hok := hinv.dispatches d (List.mem_of_getLast? hlast)
        refine ⟨d.batch, Or.inr rfl, ?_, by omega⟩
        rw [EventBatch.len, hok.events, receiptEvents, List.length_map]
        exact hok.length_le
    · have hlt := (admitsBatch_iff.mp (hbudget.admitted hne)).2
      exact ⟨EventBatch.new s.pending, Or.inl rfl, (hinv.running hrun).pending_le, by omega⟩

/-- One batch in flight and another one being assembled. -/
theorem inFlight_budget_assembling : ∃ s : State, s.pending.length = 1 ∧
    s.inFlightBytes = (s.inFlight.map (fun t => t.batch.bytes)).sum ∧
    admitsBatch pairSource.config s = true := by
  have hrun : ((system pairSource 0).runBy (Representable pairSource) (State.start 0)
      [.recv (message 7), .recv (message 8), .recv (message 9)]).map
        (fun s => (s.pending.length, s.outcome)) = some (1, none) := by decide
  obtain ⟨s, hs, hview⟩ := Option.map_eq_some_iff.mp hrun
  obtain ⟨hpending, hnone⟩ := Prod.mk.inj hview
  have hreach := System.ReachableBy.runBy System.ReachableBy.start hs
  obtain ⟨hexact, -, hadmitted, -⟩ := inFlight_budget (by decide) hreach hnone
  refine ⟨s, hpending, hexact, (hadmitted ?_).1⟩
  intro hnil
  rw [hnil] at hpending
  contradiction

end Rustper.Source
