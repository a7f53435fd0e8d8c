import Rustper.OffsetMap
import Rustper.SourceBudget
import Rustper.SourceHistory

/-!
The window of the source loop bounds the tasks in flight. The batches that wait in the
reorder buffer are not in it: they all stand behind the oldest uncommitted batch, which
is still in flight, and as long as it stays there any number of them may gather.
-/
namespace Rustper.Source

open TransitionSystem MachineInt

variable {source : KafkaSource} {s s' : State}

/-- The batches dispatched but not committed: in flight, or waiting in the map. -/
def uncommitted (s : State) : ℕ := s.inFlight.length + s.cursor.completed.keys.card

theorem dispatch_inFlight_le (source : KafkaSource) (s : State) :
    (dispatch source s).inFlight.length ≤ s.inFlight.length + 1 := by
  unfold dispatch
  cases offsetsFor source.client s.pending with
  | error e => exact Nat.le_succ _
  | ok offsets => simp

/-- A join removes one task, whatever its result. -/
theorem join_inFlight {k : ℕ} {result : TaskResult} {commit : BatchCompletion → Bool}
    (hs : join s k result commit = some s') :
    s'.inFlight = s.inFlight.filter (fun t => t.sequence ≠ k) ∧
      ∃ task ∈ s.inFlight, task.sequence = k := by
  unfold join at hs
  cases hfind : s.inFlight.find? (fun t => t.sequence = k) with
  | none => simp [hfind] at hs
  | some task =>
    have hmem : ∃ task ∈ s.inFlight, task.sequence = k :=
      ⟨task, List.mem_of_find?_eq_some hfind, by simpa using List.find?_some hfind⟩
    simp only [hfind] at hs
    cases result with
    | ok =>
      cases hs
      exact ⟨(complete_fields s _ task commit).1, hmem⟩
    | error e =>
      cases hs
      exact ⟨rfl, hmem⟩
    | panicked =>
      cases hs
      exact ⟨rfl, hmem⟩

/-- Only an admitted batch is dispatched, and it is one. -/
theorem step_inFlight_le {action : Action} (hs : step source s action = some s')
    (h : s.inFlight.length ≤ source.config.maxInFlightBatches) :
    s'.inFlight.length ≤ source.config.maxInFlightBatches := by
  simp only [step, Option.ite_none_right_eq_some] at hs
  obtain ⟨-, hs⟩ := hs
  cases action with
  | elapse duration =>
    cases hs
    exact h
  | shutdown =>
    cases hs
    exact h
  | join k result commit =>
    rw [(join_inFlight hs).1]
    exact (List.length_filter_le _ _).trans h
  | lingerElapsed =>
    simp only [lingerElapsed, Option.ite_none_right_eq_some, Option.some.injEq] at hs
    obtain ⟨⟨-, hadmits, -⟩, rfl⟩ := hs
    exact (dispatch_inFlight_le source s).trans (admitsBatch_iff.mp hadmits).1
  | recv message =>
    simp only [recv, Option.ite_none_right_eq_some, Option.some.injEq] at hs
    obtain ⟨⟨hadmits, -⟩, rfl⟩ := hs
    split
    · exact (dispatch_inFlight_le source _).trans (admitsBatch_iff.mp hadmits).1
    · exact h
  | recvFailed =>
    simp only [recvFailed, Option.ite_none_right_eq_some, Option.some.injEq] at hs
    obtain ⟨-, rfl⟩ := hs
    exact h

theorem reachable_inFlight_le {now : ℕ} (h : (system source now).Reachable s) :
    s.inFlight.length ≤ source.config.maxInFlightBatches := by
  apply System.Reachable.invariant (P := fun s => s.inFlight.length ≤ _) (Nat.zero_le _) _ h
  intro t a t' hi hs
  exact step_inFlight_le hs hi

theorem Running.uncommitted_eq (h : Running source s) :
    s.cursor.nextSequence + uncommitted s = s.sequence := by
  have hcard := congrArg Multiset.card h.sequences_eq
  simp only [Multiset.card_add, Multiset.card_range, Multiset.coe_card, List.length_map,
    Finset.card_val] at hcard
  unfold uncommitted
  omega

/-- The uncommitted sequences are those from the cursor on. -/
theorem Running.mem_uncommitted (h : Running source s) (k : ℕ) :
    (s.cursor.nextSequence ≤ k ∧ k < s.sequence) ↔
      k ∈ s.cursor.completed ∨ k ∈ s.inFlight.map Task.sequence := by
  have hsplit := h.sequences_eq
  have hnodup : (Multiset.range s.cursor.nextSequence + (s.cursor.completed.keys.val +
      (s.inFlight.map Task.sequence : Multiset ℕ))).Nodup := by
    rw [← add_assoc, hsplit]
    exact Multiset.nodup_range _
  have hdisjoint : k ∈ Multiset.range s.cursor.nextSequence → _ :=
    Multiset.disjoint_left.mp (Multiset.nodup_add.mp hnodup).2.2
  have hmem : k ∈ Multiset.range s.cursor.nextSequence + (s.cursor.completed.keys.val +
      (s.inFlight.map Task.sequence : Multiset ℕ)) ↔ k ∈ Multiset.range s.sequence := by
    rw [← add_assoc, hsplit]
  rw [← Finmap.mem_keys, ← Finset.mem_val, ← Multiset.mem_coe, ← Multiset.mem_add]
  rw [Multiset.mem_add, Multiset.mem_range, Multiset.mem_range] at hmem
  constructor
  · rintro ⟨hle, hlt⟩
    rcases hmem.mpr hlt with hcommitted | hopen
    · omega
    · exact hopen
  · intro hopen
    refine ⟨?_, hmem.mp (Or.inr hopen)⟩
    by_contra hlt
    exact hdisjoint (Multiset.mem_range.mpr (by omega)) hopen

/-- A waiting batch stands behind the one at the cursor, which is in flight. -/
theorem Running.head_inFlight (h : Running source s) {k : ℕ} (hk : k ∈ s.cursor.completed) :
    s.cursor.nextSequence < k ∧ s.cursor.nextSequence ∈ s.inFlight.map Task.sequence := by
  have hlt := ((h.exact.mem_completed k).mp hk).2
  have hopen := (h.mem_uncommitted k).mpr (Or.inl hk)
  refine ⟨hlt, ?_⟩
  rcases (h.mem_uncommitted s.cursor.nextSequence).mp ⟨Nat.le_refl _, by omega⟩ with hmem | hmem
  · have := ((h.exact.mem_completed _).mp hmem).2
    omega
  · exact hmem

/-- With nothing in flight nothing waits. -/
theorem Running.keys_eq_empty (h : Running source s) (hnil : s.inFlight = []) :
    s.cursor.completed.keys = ∅ := by
  apply Finset.eq_empty_of_forall_notMem
  intro k hk
  have hhead := (h.head_inFlight (Finmap.mem_keys.mp hk)).2
  rw [hnil] at hhead
  contradiction

/-- The only task in flight leaves nothing behind it when it is joined. -/
theorem join_inFlight_nil {k : ℕ} {result : TaskResult} {commit : BatchCompletion → Bool}
    (hone : s.inFlight.length ≤ 1) (hs : join s k result commit = some s') :
    s'.inFlight = [] := by
  obtain ⟨hfilter, task, hmem, hk⟩ := join_inFlight hs
  rw [hfilter, List.filter_eq_nil_iff]
  intro t ht
  have heq : t = task := by
    obtain ⟨only, honly⟩ := List.length_eq_one_iff.mp
      (Nat.le_antisymm hone (List.length_pos_of_mem ht))
    rw [honly, List.mem_singleton] at hmem ht
    rw [hmem, ht]
  simp [heq, hk]

/-- Only a join touches the reorder buffer. -/
theorem step_keys_eq_empty {action : Action} (hinv : Inv source s)
    (hone : s.inFlight.length ≤ 1) (h : s.cursor.completed.keys = ∅)
    (hs : step source s action = some s') (hnone' : s'.outcome = none) :
    s'.cursor.completed.keys = ∅ := by
  obtain ⟨-, -, ⟨hcursor, -⟩ | ⟨k, commit, -, rfl, -⟩⟩ := step_history hinv hs
  · rw [hcursor]
    exact h
  · have hrunning := (step_inv hinv hs).running hnone'
    simp only [step, Option.ite_none_right_eq_some] at hs
    exact hrunning.keys_eq_empty (join_inFlight_nil hone hs.2)

theorem step_running {action : Action} (hs : step source s action = some s') :
    s.outcome = none := by
  simp only [step, Option.ite_none_right_eq_some] at hs
  exact hs.1

/-- With a window of one batch the reorder buffer stays empty. -/
theorem reachable_keys_eq_empty {now : ℕ} (hone : source.config.maxInFlightBatches ≤ 1)
    (h : (system source now).Reachable s) (hrun : s.outcome = none) :
    s.cursor.completed.keys = ∅ := by
  unfold System.Reachable at h
  induction h with
  | start => exact Finmap.keys_empty
  | step hreach _ hs ih =>
    exact step_keys_eq_empty (reachable_inv hreach)
      ((reachable_inFlight_le hreach).trans hone) (ih (step_running hs)) hs hrun

/-- A record of the smallest size, one event of `structSize` bytes. -/
def tombstone : Record := ⟨"input", 0, 0, none, none, none⟩

theorem offsetsFor_tombstone (source : KafkaSource) :
    ∃ offsets, offsetsFor source.client [toEvent source.id tombstone] = .ok offsets := by
  refine ⟨_, Resumable.offsetsFor_ok ?_⟩
  intro event hevent
  rw [List.mem_singleton.mp hevent, toEvent_offset]
  decide

/-- The run goes on with one batch of the smallest size more in flight. -/
structure Dispatched (s s' : State) : Prop where
  outcome : s'.outcome = none
  pending : s'.pending = []
  inFlight : ∃ t : Task, s'.inFlight = s.inFlight ++ [t] ∧ t.sequence = s.sequence ∧
    t.bytes = Event.structSize
  bytes : s'.inFlightBytes = saturatingAdd s.inFlightBytes Event.structSize
  sequence : s'.sequence = s.sequence + 1

/-- `t` is `s` with the record pushed and perhaps some time gone. -/
theorem dispatch_tombstone {t : State} (hnone : t.outcome = none)
    (hpending : t.pending = [toEvent source.id tombstone]) (hinFlight : t.inFlight = s.inFlight)
    (hbytes : t.inFlightBytes = s.inFlightBytes) (hsequence : t.sequence = s.sequence) :
    Dispatched s (dispatch source t) := by
  obtain ⟨offsets, hoffsets⟩ := offsetsFor_tombstone source
  unfold dispatch
  rw [hpending, hoffsets]
  refine ⟨hnone, rfl, ?_, ?_, ?_⟩
  · exact ⟨_, by rw [← hinFlight], hsequence, rfl⟩
  · rw [← hbytes]
    rfl
  · rw [← hsequence]

theorem push_tombstone (hpending : s.pending = []) :
    (push source s tombstone).pending = [toEvent source.id tombstone] := by
  rw [push, hpending]
  rfl

theorem step_recv_tombstone (hsize : 0 < source.config.batchSize) (hnone : s.outcome = none)
    (hpending : s.pending = []) (hadmits : admitsBatch source.config s = true) :
    step source s (.recv tombstone) = some (if source.config.batchSize ≤ 1 then
      dispatch source (push source s tombstone) else push source s tombstone) := by
  rw [step, if_pos hnone]
  show recv source s tombstone = _
  rw [recv, if_pos ⟨hadmits, by rw [hpending]; exact hsize⟩]
  dsimp only
  rw [push_tombstone hpending, List.length_singleton]

/-- The clock may pass the deadline of a batch while it is admitted. -/
theorem reachable_lingered {now : ℕ} (h : (system source now).Reachable s)
    (hnone : s.outcome = none) (hne : s.pending ≠ [])
    (hadmits : admitsBatch source.config s = true) :
    (system source now).Reachable (dispatch source { s with now := s.now + s.deadline }) := by
  have helapse : (system source now).step s (.elapse s.deadline) =
      some { s with now := s.now + s.deadline } := if_pos hnone
  have hlinger : (system source now).step { s with now := s.now + s.deadline } .lingerElapsed =
      some (dispatch source { s with now := s.now + s.deadline }) :=
    (if_pos hnone).trans (if_pos ⟨hne, hadmits, Nat.le_add_left _ _⟩)
  exact (h.next helapse).next hlinger

/-- One record makes a batch: it is full, or its linger elapses. -/
theorem exists_dispatched {now : ℕ} (hsize : 0 < source.config.batchSize)
    (h : (system source now).Reachable s) (hnone : s.outcome = none) (hpending : s.pending = [])
    (hadmits : admitsBatch source.config s = true) :
    ∃ s', (system source now).Reachable s' ∧ Dispatched s s' := by
  have hrecv : (system source now).step s (.recv tombstone) = _ :=
    step_recv_tombstone hsize hnone hpending hadmits
  have hpushed : (push source s tombstone).pending = _ := push_tombstone hpending
  have hreach := h.next hrecv
  by_cases hfull : source.config.batchSize ≤ 1
  · rw [if_pos hfull] at hreach
    exact ⟨_, hreach, dispatch_tombstone hnone hpushed rfl rfl rfl⟩
  · rw [if_neg hfull] at hreach
    have hne : (push source s tombstone).pending ≠ [] := by
      rw [hpushed]
      exact List.cons_ne_nil _ _
    exact ⟨_, reachable_lingered hreach hnone hne hadmits,
      dispatch_tombstone hnone hpushed rfl rfl rfl⟩

theorem complete_sequence (s : State) (inFlight : List Task) (task : Task)
    (commit : BatchCompletion → Bool) :
    (complete s inFlight task commit).sequence = s.sequence := by
  unfold complete
  dsimp only
  split <;> rfl

/-- The run goes on after a success whose commits are all accepted. -/
theorem complete_running (h : Running source s) (hnone : s.outcome = none) {task : Task}
    (htask : task ∈ s.inFlight) (inFlight : List Task) :
    (complete s inFlight task (fun _ => true)).outcome = none := by
  have hdrained := commitContiguous_spec (fun _ => true) h.exact (h.completion_new htask)
  unfold complete
  generalize commitContiguous _ s.cursor task.completion = r at hdrained ⊢
  cases hdrained with
  | ok released hcommitted haccepted hexact => exact hnone
  | error released hcommitted haccepted hstopped =>
    obtain ⟨x, -, -, hfail⟩ := hstopped.failed
    contradiction

/-- The run goes on with a task joined. -/
structure Joined (s : State) (task : Task) (s' : State) : Prop where
  outcome : s'.outcome = none
  pending : s'.pending = s.pending
  inFlight : s'.inFlight = s.inFlight.filter (fun t => t.sequence ≠ task.sequence)
  bytes : s'.inFlightBytes = s.inFlightBytes - task.bytes
  sequence : s'.sequence = s.sequence

theorem exists_joined {now : ℕ} (h : (system source now).Reachable s) (hnone : s.outcome = none)
    {task : Task} (htask : task ∈ s.inFlight) :
    ∃ s', (system source now).Reachable s' ∧ Joined s task s' := by
  have hrunning := (reachable_inv h).running hnone
  have hfind : s.inFlight.find? (fun t => t.sequence = task.sequence) = some task := by
    have hsome : (s.inFlight.find? (fun t => t.sequence = task.sequence)).isSome = true :=
      List.find?_isSome.mpr ⟨task, htask, decide_eq_true rfl⟩
    obtain ⟨t, ht⟩ := Option.isSome_iff_exists.mp hsome
    obtain ⟨hmem, heq, -⟩ := find_sequence hrunning.inFlight_nodup ht
    rw [ht, List.inj_on_of_nodup_map hrunning.inFlight_nodup hmem htask heq]
  have hjoin : join s task.sequence .ok (fun _ => true) =
      some (complete s (s.inFlight.filter (fun t => t.sequence ≠ task.sequence)) task
        (fun _ => true)) := by
    rw [join, hfind]
  have hstep : (system source now).step s (.join task.sequence .ok (fun _ => true)) = _ :=
    (if_pos hnone).trans hjoin
  obtain ⟨hinFlight, hbytes, hpending, -⟩ := complete_fields s
    (s.inFlight.filter (fun t => t.sequence ≠ task.sequence)) task (fun _ => true)
  exact ⟨_, h.next hstep, complete_running hrunning hnone htask _, hpending, hinFlight, hbytes,
    complete_sequence _ _ _ _⟩

/-- The first batch is in flight, and `n` later ones have been acknowledged. -/
structure Stalled (n : ℕ) (s : State) : Prop where
  outcome : s.outcome = none
  pending : s.pending = []
  inFlight : ∃ head : Task, s.inFlight = [head] ∧ head.sequence = 0
  bytes : s.inFlightBytes = Event.structSize
  sequence : s.sequence = n + 1

theorem exists_stalled_zero (now : ℕ) (hsize : 0 < source.config.batchSize)
    (hbatches : 0 < source.config.maxInFlightBatches)
    (hbytes : 0 < source.config.maxInFlightBytes) :
    ∃ s, (system source now).Reachable s ∧ Stalled 0 s := by
  obtain ⟨s, hreach, hs⟩ := exists_dispatched hsize
    (System.ReachableBy.start : (system source now).Reachable (State.start now)) rfl rfl
    (admitsBatch_iff.mpr ⟨hbatches, hbytes⟩)
  obtain ⟨t, ht, hseq, -⟩ := hs.inFlight
  exact ⟨s, hreach, hs.outcome, hs.pending, ⟨t, ht, hseq⟩, hs.bytes, hs.sequence⟩

/-- While the head stays, a window of two admits one batch more, which is acknowledged. -/
theorem Stalled.exists_succ {now n : ℕ} (hsize : 0 < source.config.batchSize)
    (hbatches : 2 ≤ source.config.maxInFlightBatches)
    (hbytes : Event.structSize < source.config.maxInFlightBytes)
    (hreach : (system source now).Reachable s) (h : Stalled n s) :
    ∃ s', (system source now).Reachable s' ∧ Stalled (n + 1) s' := by
  obtain ⟨head, hhead, hzero⟩ := h.inFlight
  have hadmits : admitsBatch source.config s = true := by
    rw [admitsBatch_iff, hhead, h.bytes]
    exact ⟨hbatches, hbytes⟩
  obtain ⟨mid, hmid, hdispatched⟩ :=
    exists_dispatched hsize hreach h.outcome h.pending hadmits
  obtain ⟨t, ht, hseq, htbytes⟩ := hdispatched.inFlight
  have hmem : t ∈ mid.inFlight := by simp [ht]
  obtain ⟨s', hs', hjoined⟩ := exists_joined hmid hdispatched.outcome hmem
  have hne : head.sequence ≠ t.sequence := by
    rw [hzero, hseq, h.sequence]
    omega
  have hfilter : s'.inFlight = [head] := by
    rw [hjoined.inFlight, ht, hhead]
    simp [hne]
  refine ⟨s', hs', hjoined.outcome, hjoined.pending.trans hdispatched.pending,
    ⟨head, hfilter, hzero⟩, ?_, ?_⟩
  · rw [hjoined.bytes, htbytes, hdispatched.bytes, h.bytes]
    rfl
  · rw [hjoined.sequence, hdispatched.sequence, h.sequence]

theorem exists_stalled (now : ℕ) (hsize : 0 < source.config.batchSize)
    (hbatches : 2 ≤ source.config.maxInFlightBatches)
    (hbytes : Event.structSize < source.config.maxInFlightBytes) (n : ℕ) :
    ∃ s, (system source now).Reachable s ∧ Stalled n s := by
  induction n with
  | zero => exact exists_stalled_zero now hsize (by omega) (by omega)
  | succ n ih =>
    obtain ⟨s, hreach, hs⟩ := ih
    exact hs.exists_succ hsize hbatches hbytes hreach

/-- Behind a stalled head the reorder buffer holds every batch acknowledged since. -/
theorem Stalled.waiting {n : ℕ} (hrunning : Running source s) (h : Stalled n s) :
    s.cursor.completed.keys.card = n := by
  obtain ⟨head, hhead, hzero⟩ := h.inFlight
  have hcount := hrunning.uncommitted_eq
  have hnext := ((hrunning.mem_uncommitted 0).mpr (Or.inr (by simp [hhead, hzero]))).1
  rw [uncommitted, hhead, h.sequence, List.length_singleton] at hcount
  omega

/-- A window of two or more batches does not bound the reorder buffer: any number of
batches may be acknowledged while the first one stays in flight. -/
theorem waiting_unbounded (now : ℕ) (hsize : 0 < source.config.batchSize)
    (hbatches : 2 ≤ source.config.maxInFlightBatches)
    (hbytes : Event.structSize < source.config.maxInFlightBytes) (n : ℕ) :
    ∃ s, (system source now).Reachable s ∧ s.outcome = none ∧
      s.cursor.completed.keys.card = n ∧ uncommitted s = n + 1 := by
  obtain ⟨s, hreach, hs⟩ := exists_stalled now hsize hbatches hbytes n
  have hwaiting := hs.waiting ((reachable_inv hreach).running hs.outcome)
  obtain ⟨head, hhead, -⟩ := hs.inFlight
  refine ⟨s, hreach, hs.outcome, hwaiting, ?_⟩
  rw [uncommitted, hwaiting, hhead, List.length_singleton, Nat.add_comm]

/-- In every state of a run no more batches are in flight than the window allows. Until
`run` returns, the sequences dispatched and not committed are those in flight and those
waiting in the map; a batch only waits while an older one, the next to be committed, is in
flight; and with a window of one batch the window bounds the uncommitted ones as well. -/
theorem inFlight_window {now : ℕ} (h : (system source now).Reachable s) :
    s.inFlight.length ≤ source.config.maxInFlightBatches ∧
    (s.outcome = none →
      uncommitted s = s.sequence - s.cursor.nextSequence ∧
      (∀ k, (s.cursor.nextSequence ≤ k ∧ k < s.sequence) ↔
        k ∈ s.cursor.completed ∨ k ∈ s.inFlight.map Task.sequence) ∧
      (∀ k ∈ s.cursor.completed, s.cursor.nextSequence < k ∧
        s.cursor.nextSequence ∈ s.inFlight.map Task.sequence) ∧
      (source.config.maxInFlightBatches ≤ 1 →
        uncommitted s ≤ source.config.maxInFlightBatches)) := by
  have hwindow := reachable_inFlight_le h
  refine ⟨hwindow, fun hrun => ?_⟩
  have hrunning := (reachable_inv h).running hrun
  refine ⟨?_, hrunning.mem_uncommitted, fun k => hrunning.head_inFlight, fun hone => ?_⟩
  · have := hrunning.uncommitted_eq
    omega
  · rw [uncommitted, reachable_keys_eq_empty hone h hrun]
    exact hwindow

/-- Two messages make a batch of `pairSource`. -/
def fullBatch : List Action := [.recv (message 7), .recv (message 8)]

/-- The first batch stays in flight while the next three are acknowledged. -/
def stalledRun : List Action :=
  fullBatch ++ fullBatch ++ [.join 1 .ok (fun _ => true)] ++
    fullBatch ++ [.join 2 .ok (fun _ => true)] ++
    fullBatch ++ [.join 3 .ok (fun _ => true)]

theorem inFlight_window_stalled : ∃ s : State,
    s.cursor.completed.keys.card = 3 ∧ s.inFlight.length ≤ 2 ∧
      ∀ k ∈ s.cursor.completed, 0 < k := by
  have hrun : ((system pairSource 0).run (State.start 0) stalledRun).map
      (fun s => (s.outcome, s.cursor.completed.keys.card)) = some (none, 3) := by decide
  obtain ⟨s, hs, hview⟩ := Option.map_eq_some_iff.mp hrun
  obtain ⟨houtcome, hcard⟩ := Prod.mk.inj hview
  obtain ⟨hwindow, hrest⟩ := inFlight_window (System.Reachable.run System.ReachableBy.start hs)
  obtain ⟨-, -, hbehind, -⟩ := hrest houtcome
  exact ⟨s, hcard, hwindow, fun k hk => Nat.lt_of_le_of_lt (Nat.zero_le _) (hbehind k hk).1⟩

/-- The window of `pairSource` is two, but three batches wait and a fourth is in flight. -/
theorem stalledRun_exceeds : ∃ s : State, (system pairSource 0).Reachable s ∧
    s.outcome = none ∧ pairSource.config.maxInFlightBatches < s.cursor.completed.keys.card ∧
      pairSource.config.maxInFlightBatches < uncommitted s := by
  have hrun : ((system pairSource 0).run (State.start 0) stalledRun).map
      (fun s => (s.outcome, s.cursor.completed.keys.card, uncommitted s)) =
        some (none, 3, 4) := by decide
  obtain ⟨s, hs, hview⟩ := Option.map_eq_some_iff.mp hrun
  obtain ⟨houtcome, hcard⟩ := Prod.mk.inj hview
  obtain ⟨hcard, huncommitted⟩ := Prod.mk.inj hcard
  refine ⟨s, System.Reachable.run System.ReachableBy.start hs, houtcome, ?_, ?_⟩
  · rw [hcard]
    decide
  · rw [huncommitted]
    decide

end Rustper.Source
