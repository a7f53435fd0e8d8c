import Rustper.ContiguousCommit
import Rustper.Source

/-!
The invariant of the source loop. `Inv` holds in every state of `run`, also after it
has returned; `Running` is the part about sequences and the reorder buffer, which an
error leaves halfway. Each arm of the loop has its own lemma.
-/
namespace Rustper.Source

open TransitionSystem MachineInt

variable {source : KafkaSource} {commit : BatchCompletion → Bool}

def receiptEvents (source : KafkaSource) (receipts : List Receipt) : List Event :=
  receipts.map (fun r => toEvent source.id r.record)

/-- A dispatched batch is not empty, is not too long, and if it is short then the
linger of its first receipt has elapsed. -/
structure DispatchOk (source : KafkaSource) (d : Dispatch) : Prop where
  events : d.batch.events = receiptEvents source d.receipts
  nonempty : d.receipts ≠ []
  length_le : d.receipts.length ≤ source.config.batchSize
  lingered : d.receipts.length < source.config.batchSize →
    ∀ r rest, d.receipts = r :: rest → r.time + source.config.batchLingerMs ≤ d.time

/-- The values a task carries are those of the batch dispatched under its sequence. -/
def Carries (source : KafkaSource) (s : State) (c : BatchCompletion) : Prop :=
  ∃ d, s.dispatched[c.sequence]? = some d ∧
    offsetsFor source.client d.batch.events = .ok c.offsets ∧
    c.events = d.batch.len ∧ c.bytes = d.batch.bytes

structure Running (source : KafkaSource) (s : State) : Prop where
  pending_le : s.pending.length ≤ source.config.batchSize
  exact : Exact s.joined s.cursor
  sequences : (s.joined.map BatchCompletion.sequence ++ s.inFlight.map Task.sequence).Perm
    (List.range s.sequence)
  joined : ∀ c ∈ s.joined, Carries source s c

structure Inv (source : KafkaSource) (s : State) : Prop where
  received_eq : s.received = s.dispatched.flatMap Dispatch.receipts ++ s.assembling
  pending_eq : s.pending = receiptEvents source s.assembling
  timer : ∀ r rest, s.assembling = r :: rest →
    s.deadline = r.time + source.config.batchLingerMs
  dispatches : ∀ d ∈ s.dispatched, DispatchOk source d
  sequence_eq : s.sequence = s.dispatched.length
  tasks : ∀ t ∈ s.inFlight, Carries source s t.completion ∧
    (s.dispatched[t.sequence]?).map Dispatch.batch = some t.batch
  running : s.outcome = none → Running source s

theorem start_inv (source : KafkaSource) (now : ℕ) : Inv source (State.start now) where
  received_eq := rfl
  pending_eq := rfl
  timer := by simp [State.start]
  dispatches := by simp [State.start]
  sequence_eq := rfl
  tasks := by simp [State.start]
  running _ :=
    { pending_le := Nat.zero_le _
      exact := start_exact
      sequences := by simp [State.start]
      joined := by simp [State.start] }

theorem Carries.append {s : State} {c : BatchCompletion} (h : Carries source s c)
    {s' : State} {d : Dispatch} (hs : s'.dispatched = s.dispatched ++ [d]) :
    Carries source s' c := by
  obtain ⟨d', hd, hrest⟩ := h
  refine ⟨d', ?_, hrest⟩
  rw [hs, List.getElem?_append_left (List.getElem?_eq_some_iff.mp hd).1, hd]

/-- Setting the outcome ends the run and changes nothing else. -/
theorem Inv.stop {s : State} (h : Inv source s) (outcome : Except SourceError Unit) :
    Inv source { s with outcome := some outcome } where
  received_eq := h.received_eq
  pending_eq := h.pending_eq
  timer := h.timer
  dispatches := h.dispatches
  sequence_eq := h.sequence_eq
  tasks := h.tasks
  running hnone := by contradiction

/-- What `dispatch!` needs: something to dispatch, and a full batch or an elapsed timer. -/
theorem dispatch_inv {s : State} (h : Inv source s) (hnone : s.outcome = none)
    (hnonempty : s.pending ≠ [])
    (hdue : s.pending.length < source.config.batchSize → s.deadline ≤ s.now) :
    Inv source (dispatch source s) := by
  have hrun := h.running hnone
  unfold dispatch
  cases hoffsets : offsetsFor source.client s.pending with
  | error e => exact h.stop (.error e)
  | ok offsets =>
    have hlength : s.assembling.length = s.pending.length := by
      rw [h.pending_eq, receiptEvents, List.length_map]
    have hassembling : s.assembling ≠ [] := by
      intro hnil
      exact hnonempty (by rw [h.pending_eq, hnil]; rfl)
    have hnew : DispatchOk source ⟨EventBatch.new s.pending, s.assembling, s.now⟩ :=
      { events := h.pending_eq
        nonempty := hassembling
        length_le := by rw [hlength]; exact hrun.pending_le
        lingered := by
          intro hshort r rest hr
          rw [← h.timer r rest hr]
          exact hdue (by rw [← hlength]; exact hshort) }
    have hgrow : ∀ {c : BatchCompletion}, Carries source s c → ∀ s' : State,
        s'.dispatched = s.dispatched ++ [⟨EventBatch.new s.pending, s.assembling, s.now⟩] →
        Carries source s' c := fun hc s' hs' => hc.append hs'
    refine ⟨?_, rfl, ?_, ?_, ?_, ?_, fun _ => ⟨Nat.zero_le _, hrun.exact, ?_, ?_⟩⟩
    · simp [h.received_eq]
    · simp
    · intro d hd
      rcases List.mem_append.mp hd with hd | hd
      · exact h.dispatches d hd
      · rw [List.mem_singleton.mp hd]
        exact hnew
    · simp [h.sequence_eq]
    · intro t ht
      rcases List.mem_append.mp ht with ht | ht
      · obtain ⟨hc, hbatch⟩ := h.tasks t ht
        refine ⟨hgrow hc _ rfl, ?_⟩
        obtain ⟨d, hd, hdb⟩ := Option.map_eq_some_iff.mp hbatch
        dsimp only
        rw [List.getElem?_append_left (List.getElem?_eq_some_iff.mp hd).1, hbatch]
      · rw [List.mem_singleton.mp ht]
        refine ⟨⟨⟨EventBatch.new s.pending, s.assembling, s.now⟩, ?_, hoffsets, rfl, rfl⟩, ?_⟩
        · simp [Task.completion, h.sequence_eq]
        · simp [h.sequence_eq]
    · simp only [List.map_append, List.map_cons, List.map_nil, ← List.append_assoc]
      rw [List.range_succ]
      exact hrun.sequences.append_right _
    · intro c hc
      exact hgrow (hrun.joined c hc) _ rfl

theorem push_inv {s : State} (h : Inv source s) (message : Record)
    (hlt : s.pending.length < source.config.batchSize) :
    Inv source (push source s message) := by
  have hempty : s.pending = [] ↔ s.assembling = [] := by
    rw [h.pending_eq, receiptEvents, List.map_eq_nil_iff]
  refine ⟨?_, ?_, ?_, h.dispatches, h.sequence_eq, h.tasks, ?_⟩
  · simp [push, h.received_eq]
  · simp [push, h.pending_eq, receiptEvents]
  · intro r rest hr
    dsimp only [push] at hr ⊢
    cases hassembling : s.assembling with
    | nil =>
      rw [hassembling, List.nil_append, List.cons.injEq] at hr
      rw [if_pos (hempty.mpr hassembling), ← hr.1]
    | cons r' rest' =>
      rw [hassembling, List.cons_append, List.cons.injEq] at hr
      have hne : s.pending ≠ [] := by simp [hempty, hassembling]
      rw [if_neg hne, ← hr.1]
      exact h.timer r' rest' hassembling
  · intro hnone
    have hrun := h.running hnone
    refine ⟨?_, hrun.exact, hrun.sequences, hrun.joined⟩
    simp only [push, List.length_append, List.length_cons, List.length_nil]
    omega

theorem recv_inv {s s' : State} {message : Record} (h : Inv source s) (hnone : s.outcome = none)
    (hs : recv source s message = some s') : Inv source s' := by
  simp only [recv, Option.ite_none_right_eq_some, Option.some.injEq] at hs
  obtain ⟨⟨-, hlt⟩, rfl⟩ := hs
  have hpush := push_inv h message hlt
  split
  · rename_i hfull
    apply dispatch_inv hpush hnone
    · simp [push]
    · intro hshort
      omega
  · exact hpush

theorem lingerElapsed_inv {s s' : State} (h : Inv source s) (hnone : s.outcome = none)
    (hs : lingerElapsed source s = some s') : Inv source s' := by
  simp only [lingerElapsed, Option.ite_none_right_eq_some, Option.some.injEq] at hs
  obtain ⟨⟨hnonempty, -, hdue⟩, rfl⟩ := hs
  exact dispatch_inv h hnone hnonempty (fun _ => hdue)

/-- A task that is taken out of the set leaves the other sequences in place. -/
theorem find_sequence {s : State} {k : ℕ} {task : Task}
    (hnodup : (s.inFlight.map Task.sequence).Nodup)
    (hfind : s.inFlight.find? (fun t => t.sequence = k) = some task) :
    task ∈ s.inFlight ∧ task.sequence = k ∧
      (s.inFlight.map Task.sequence).Perm
        (k :: (s.inFlight.filter (fun t => t.sequence ≠ k)).map Task.sequence) := by
  have hmem := List.mem_of_find?_eq_some hfind
  have hk : task.sequence = k := by simpa using List.find?_some hfind
  refine ⟨hmem, hk, ?_⟩
  have hfilter : (s.inFlight.filter (fun t => t.sequence ≠ k)).map Task.sequence =
      (s.inFlight.map Task.sequence).erase k := by
    rw [hnodup.erase_eq_filter, List.filter_map]
    congr 1
    apply List.filter_congr
    intro t _
    by_cases ht : t.sequence = k <;> simp [ht]
  rw [hfilter]
  exact List.perm_cons_erase (List.mem_map.mpr ⟨task, hmem, hk⟩)

/-- The tasks still in the set keep the values they carry. -/
theorem tasks_filter {s : State} (h : Inv source s) (p : Task → Bool) :
    ∀ t ∈ s.inFlight.filter p, Carries source s t.completion ∧
      (s.dispatched[t.sequence]?).map Dispatch.batch = some t.batch :=
  fun t ht => h.tasks t (List.mem_of_mem_filter ht)

/-- A task that fails ends the run. -/
theorem Inv.fail {s : State} (h : Inv source s) (p : Task → Bool) (e : SourceError) :
    Inv source { s with inFlight := s.inFlight.filter p, outcome := some (.error e) } where
  received_eq := h.received_eq
  pending_eq := h.pending_eq
  timer := h.timer
  dispatches := h.dispatches
  sequence_eq := h.sequence_eq
  tasks := tasks_filter h p
  running hnone := by contradiction

/-- A joined completion has not been fed to the reorder buffer before. -/
theorem Running.completion_new {s : State} (h : Running source s) {task : Task}
    (htask : task ∈ s.inFlight) :
    task.completion.sequence ∉ s.joined.map BatchCompletion.sequence := by
  intro hmem
  have hnodup := h.sequences.nodup_iff.mpr List.nodup_range
  exact List.disjoint_of_nodup_append hnodup hmem (List.mem_map.mpr ⟨task, htask, rfl⟩)

theorem Running.inFlight_nodup {s : State} (h : Running source s) :
    (s.inFlight.map Task.sequence).Nodup :=
  (h.sequences.nodup_iff.mpr List.nodup_range).of_append_right

theorem complete_inv {s : State} (h : Inv source s) (hnone : s.outcome = none) {k : ℕ}
    {task : Task} (hfind : s.inFlight.find? (fun t => t.sequence = k) = some task) :
    Inv source (complete s (s.inFlight.filter (fun t => t.sequence ≠ k)) task commit) := by
  have hrun := h.running hnone
  obtain ⟨hmem, hk, hperm⟩ := find_sequence hrun.inFlight_nodup hfind
  have hdrained := commitContiguous_spec commit hrun.exact (hrun.completion_new hmem)
  unfold complete
  generalize commitContiguous commit s.cursor task.completion = r at hdrained ⊢
  cases hdrained with
  | error released hcommitted haccepted hstopped =>
    exact ⟨h.received_eq, h.pending_eq, h.timer, h.dispatches, h.sequence_eq,
      tasks_filter h _, fun hsome => by contradiction⟩
  | ok released hcommitted haccepted hexact =>
    refine ⟨h.received_eq, h.pending_eq, h.timer, h.dispatches, h.sequence_eq,
      tasks_filter h _, fun _ => ⟨hrun.pending_le, hexact, ?_, ?_⟩⟩
    · refine List.Perm.trans ?_ hrun.sequences
      rw [List.map_append, List.append_assoc]
      apply List.Perm.append_left
      simpa [Task.completion, hk] using hperm.symm
    · intro c hc
      rcases List.mem_append.mp hc with hc | hc
      · exact hrun.joined c hc
      · rw [List.mem_singleton.mp hc]
        exact (h.tasks task hmem).1

theorem join_inv {s s' : State} {k : ℕ} {result : TaskResult} (h : Inv source s)
    (hnone : s.outcome = none) (hs : join s k result commit = some s') : Inv source s' := by
  unfold join at hs
  cases hfind : s.inFlight.find? (fun t => t.sequence = k) with
  | none => simp [hfind] at hs
  | some task =>
    simp only [hfind] at hs
    cases result with
    | ok =>
      cases hs
      exact complete_inv h hnone hfind
    | error e =>
      cases hs
      exact h.fail _ (.fanout e)
    | panicked =>
      cases hs
      exact h.fail _ .fanoutPanicked

theorem elapse_inv {s : State} (h : Inv source s) (duration : ℕ) :
    Inv source { s with now := s.now + duration } where
  received_eq := h.received_eq
  pending_eq := h.pending_eq
  timer := h.timer
  dispatches := h.dispatches
  sequence_eq := h.sequence_eq
  tasks := h.tasks
  running hnone :=
    { pending_le := (h.running hnone).pending_le
      exact := (h.running hnone).exact
      sequences := (h.running hnone).sequences
      joined := (h.running hnone).joined }

theorem step_inv {s s' : State} {action : Action} (h : Inv source s)
    (hs : step source s action = some s') : Inv source s' := by
  simp only [step, Option.ite_none_right_eq_some] at hs
  obtain ⟨hnone, hs⟩ := hs
  cases action with
  | elapse duration =>
    cases hs
    exact elapse_inv h duration
  | shutdown =>
    cases hs
    exact h.stop (.ok ())
  | join k result commit => exact join_inv h hnone hs
  | lingerElapsed => exact lingerElapsed_inv h hnone hs
  | recv message => exact recv_inv h hnone hs
  | recvFailed =>
    simp only [recvFailed, Option.ite_none_right_eq_some, Option.some.injEq] at hs
    obtain ⟨-, rfl⟩ := hs
    exact h.stop (.error .consume)

theorem reachable_inv {now : ℕ} {s : State} (h : (system source now).Reachable s) :
    Inv source s := by
  apply System.Reachable.invariant (start_inv source now) _ h
  intro t a t' hi hs
  exact step_inv hi hs

end Rustper.Source
