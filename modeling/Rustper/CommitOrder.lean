import Rustper.BatchOffsets
import Rustper.SourceConservation
import Rustper.SourceHistory

/-!
The offsets that a session passes to `consumer.commit`, call by call. They follow the
sequence order of the batches, so they go backwards exactly where a batch does.
-/
namespace Rustper.Source

open TransitionSystem

variable {source : KafkaSource} {commit : BatchCompletion → Bool}

/-- The completions a drain passes to the consumer, the one it refuses included. -/
def drainCalls (commit : BatchCompletion → Bool) : ℕ → Cursor → List BatchCompletion
  | 0, _ => []
  | fuel + 1, cursor =>
    match cursor.completed.lookup cursor.nextSequence with
    | none => []
    | some completion =>
      let removed := { cursor with completed := cursor.completed.erase cursor.nextSequence }
      completion ::
        if commit completion then
          drainCalls commit fuel
            { removed with
              nextSequence := cursor.nextSequence + 1
              committed := cursor.committed ++ [completion] }
        else []

/-- The same for one call of `commit_contiguous`. -/
def contiguousCalls (commit : BatchCompletion → Bool) (cursor : Cursor)
    (completion : BatchCompletion) : List BatchCompletion :=
  let inserted := cursor.completed.insert completion.sequence completion
  drainCalls commit inserted.keys.card { cursor with completed := inserted }

/-- The commit calls of a step: only a task joined with success makes any. -/
def commitCalls (s : State) : Action → List BatchCompletion
  | .join sequence .ok commit =>
    match s.inFlight.find? (fun t => t.sequence = sequence) with
    | some task => contiguousCalls commit s.cursor task.completion
    | none => []
  | _ => []

/-- The source loop together with the commit calls made so far. -/
def session (source : KafkaSource) (now : ℕ) : System (State × List BatchCompletion) Action :=
  ⟨(State.start now, []),
    fun t a => (step source t.1 a).map (fun s' => (s', t.2 ++ commitCalls t.1 a))⟩

/-- For every partition the offsets passed in these calls never decrease. -/
def NonDecreasing (calls : List BatchCompletion) : Prop :=
  ∀ tp, (calls.flatMap (fun c => offsetsAt tp c.offsets)).Pairwise (· ≤ ·)

/-- In no partition is the later batch's highest offset below that of the earlier one. -/
def Advances (earlier later : List Event) : Prop :=
  ∀ tp, ∀ x ∈ highestNext tp earlier, ∀ y ∈ highestNext tp later, x ≤ y

/-- Only the partitions of the earlier batch matter. -/
theorem advances_iff {earlier later : List Event} :
    Advances earlier later ↔ ∀ e ∈ earlier, ∀ x ∈ highestNext e.topicPartition earlier,
      ∀ y ∈ highestNext e.topicPartition later, x ≤ y := by
  constructor
  · exact fun h e _ => h e.topicPartition
  · intro h tp x hx y hy
    obtain ⟨e, hmem, -⟩ := List.mem_map.mp (List.max?_mem hx)
    obtain ⟨he, htp⟩ := List.mem_filter.mp hmem
    obtain rfl : e.topicPartition = tp := of_decide_eq_true htp
    exact h e he x hx y hy

instance (earlier later : List Event) : Decidable (Advances earlier later) :=
  decidable_of_iff _ advances_iff.symm

section Drain

variable (commit) in
/-- A drain makes its calls in the order of the sequences, from the cursor on. If it does
not fail, these are the batches it commits. -/
theorem drainCalls_spec {fed : List BatchCompletion} (fuel : ℕ) (cursor : Cursor)
    (totals : Totals) (h : Holds fed cursor) :
    (drainCalls commit fuel cursor).map BatchCompletion.sequence =
      List.range' cursor.nextSequence (drainCalls commit fuel cursor).length ∧
    (∀ c ∈ drainCalls commit fuel cursor, c ∈ fed) ∧
    ∀ after added, drain commit fuel cursor totals = (after, .ok added) →
      after.committed = cursor.committed ++ drainCalls commit fuel cursor := by
  induction fuel generalizing cursor totals with
  | zero =>
    refine ⟨rfl, by simp [drainCalls], fun after added hdrain => ?_⟩
    obtain ⟨rfl, -⟩ := Prod.mk.inj hdrain
    exact (List.append_nil _).symm
  | succ fuel ih =>
    cases hlookup : cursor.completed.lookup cursor.nextSequence with
    | none =>
      simp only [drainCalls, drain, hlookup]
      refine ⟨rfl, by simp, fun after added hdrain => ?_⟩
      obtain ⟨rfl, -⟩ := Prod.mk.inj hdrain
      exact (List.append_nil _).symm
    | some x =>
      obtain ⟨hfed, hseq, -⟩ := (h.held _ _).mp hlookup
      by_cases hx : commit x = true
      · obtain ⟨hrange, hmem, hok⟩ := ih _ (totals.add x) (h.release hlookup)
        simp only [drainCalls, drain, hlookup, hx, if_true]
        refine ⟨?_, ?_, fun after added hdrain => ?_⟩
        · rw [List.map_cons, hrange, hseq, List.length_cons, List.range'_succ]
        · intro c hc
          rcases List.mem_cons.mp hc with rfl | hc
          · exact hfed
          · exact hmem c hc
        · rw [hok after added hdrain, List.append_assoc]
          rfl
      · simp only [drainCalls, drain, hlookup, hx, Bool.false_eq_true, if_false]
        refine ⟨?_, ?_, fun after added hdrain => ?_⟩
        · rw [List.map_singleton, hseq]
          rfl
        · intro c hc
          rwa [List.mem_singleton.mp hc]
        · exact absurd (Prod.mk.inj hdrain).2 (by simp)

variable (commit) in
theorem contiguousCalls_spec {fed : List BatchCompletion} {cursor : Cursor} {x : BatchCompletion}
    (h : Exact fed cursor) (hnew : x.sequence ∉ fed.map BatchCompletion.sequence) :
    (contiguousCalls commit cursor x).map BatchCompletion.sequence =
      List.range' cursor.nextSequence (contiguousCalls commit cursor x).length ∧
    (∀ c ∈ contiguousCalls commit cursor x, c ∈ fed ++ [x]) ∧
    ∀ after added, commitContiguous commit cursor x = (after, .ok added) →
      after.committed = cursor.committed ++ contiguousCalls commit cursor x :=
  drainCalls_spec commit _ _ ⟨0, 0⟩ (h.toHolds.insert hnew)

end Drain

/-- The calls made so far are those of the first batches, in order; while the loop runs
they are the commits. -/
structure Called (source : KafkaSource) (s : State) (calls : List BatchCompletion) : Prop where
  inOrder : calls.map BatchCompletion.sequence = List.range calls.length
  carries : ∀ c ∈ calls, Carries source s c
  committed : s.outcome = none → s.cursor.committed = calls

theorem commitCalls_nil {s : State} {a : Action} (h : ∀ k commit, a ≠ .join k .ok commit) :
    commitCalls s a = [] := by
  unfold commitCalls
  split
  · next k commit => exact absurd rfl (h k commit)
  · rfl

/-- A task joined with success continues the calls where they stopped. -/
theorem complete_called {s : State} {calls : List BatchCompletion} {k : ℕ} {task : Task}
    (hinv : Inv source s) (hnone : s.outcome = none) (h : Called source s calls)
    (hfind : s.inFlight.find? (fun t => t.sequence = k) = some task) (inFlight : List Task) :
    Called source (complete s inFlight task commit)
      (calls ++ contiguousCalls commit s.cursor task.completion) := by
  have hrun := hinv.running hnone
  have hmem := List.mem_of_find?_eq_some hfind
  obtain ⟨hrange, hfed, hok⟩ :=
    contiguousCalls_spec commit hrun.exact (hrun.completion_new hmem)
  have hlength : s.cursor.nextSequence = calls.length := by
    rw [← h.committed hnone]
    simpa using (congrArg List.length hrun.exact.inOrder).symm
  have hcarries : ∀ c ∈ s.joined ++ [task.completion], Carries source s c := by
    intro c hc
    rcases List.mem_append.mp hc with hc | hc
    · exact hrun.joined c hc
    · rw [List.mem_singleton.mp hc]
      exact (hinv.tasks task hmem).1
  have hdispatched : (complete s inFlight task commit).dispatched = s.dispatched ++ [] := by
    unfold complete
    dsimp only
    split <;> exact (List.append_nil _).symm
  refine ⟨?_, fun c hc => ?_, fun hnone' => ?_⟩
  · rw [List.map_append, h.inOrder, List.length_append, hrange, hlength, List.range_eq_range',
      List.range_eq_range', ← List.range'_append_1, Nat.zero_add]
  · rcases List.mem_append.mp hc with hc | hc
    · exact (h.carries c hc).mono hdispatched
    · exact (hcarries c (hfed c hc)).mono hdispatched
  · unfold complete at hnone' ⊢
    dsimp only at hnone' ⊢
    split at hnone'
    · contradiction
    · next totals hresult =>
      rw [← h.committed hnone]
      exact hok _ totals (Prod.ext rfl hresult)

theorem step_called {s s' : State} {calls : List BatchCompletion} {a : Action}
    (hinv : Inv source s) (h : Called source s calls) (hs : step source s a = some s') :
    Called source s' (calls ++ commitCalls s a) := by
  obtain ⟨⟨new, hnew, -⟩, -, hcursor⟩ := step_history hinv hs
  by_cases hjoin : ∃ k commit, a = .join k .ok commit
  · obtain ⟨k, commit, rfl⟩ := hjoin
    simp only [step, Option.ite_none_right_eq_some] at hs
    obtain ⟨hnone, hs⟩ := hs
    unfold join at hs
    cases hfind : s.inFlight.find? (fun t => t.sequence = k) with
    | none => simp [hfind] at hs
    | some task =>
      simp only [hfind] at hs
      cases hs
      simp only [commitCalls, hfind]
      exact complete_called hinv hnone h hfind _
  · rw [commitCalls_nil (fun k commit heq => hjoin ⟨k, commit, heq⟩), List.append_nil]
    rcases hcursor with ⟨hcursor, -⟩ | ⟨k, commit, -, heq, -⟩
    · refine ⟨h.inOrder, fun c hc => (h.carries c hc).mono hnew, fun hnone' => ?_⟩
      simp only [step, Option.ite_none_right_eq_some] at hs
      rw [hcursor]
      exact h.committed hs.1
    · exact absurd ⟨k, commit, heq⟩ hjoin

theorem reachable_called {now : ℕ} {t : State × List BatchCompletion}
    {allowed : State × List BatchCompletion → Action → Prop}
    (h : (session source now).ReachableBy allowed t) :
    Inv source t.1 ∧ Called source t.1 t.2 := by
  apply System.ReachableBy.invariant _ _ h
  · exact ⟨start_inv source now, rfl, by simp [session], fun _ => rfl⟩
  · intro t a t' ht _ hs
    obtain ⟨s', hstep, rfl⟩ := Option.map_eq_some_iff.mp hs
    exact ⟨step_inv ht.1 hstep, step_called ht.1 ht.2 hstep⟩

/-- The step dispatches no batch that lies below an earlier one in some partition. -/
def InTurn (source : KafkaSource) (s : State) (a : Action) : Prop :=
  ∀ s' ∈ step source s a, ∀ later ∈ s'.dispatched.drop s.dispatched.length,
    ∀ earlier ∈ s.dispatched, Advances earlier.batch.events later.batch.events

instance (source : KafkaSource) (s : State) (a : Action) : Decidable (InTurn source s a) :=
  inferInstanceAs (Decidable (∀ s' ∈ step source s a,
    ∀ later ∈ s'.dispatched.drop s.dispatched.length, ∀ earlier ∈ s.dispatched,
      Advances earlier.batch.events later.batch.events))

/-- The dispatched batches never go backwards in a partition. -/
def Forward (dispatched : List Dispatch) : Prop :=
  dispatched.Pairwise (fun earlier later => Advances earlier.batch.events later.batch.events)

theorem reachable_forward {now : ℕ} {t : State × List BatchCompletion}
    (h : (session source now).ReachableBy (fun t => InTurn source t.1) t) :
    Forward t.1.dispatched := by
  have hboth : Inv source t.1 ∧ Forward t.1.dispatched := by
    apply System.ReachableBy.invariant _ _ h
    · exact ⟨start_inv source now, List.Pairwise.nil⟩
    · intro t a t' ht hturn hs
      obtain ⟨hinv, hforward⟩ := ht
      obtain ⟨s', hstep, rfl⟩ := Option.map_eq_some_iff.mp hs
      obtain ⟨new, hnew, hlength⟩ := (step_history hinv hstep).1
      have hlater := hturn s' hstep
      rw [hnew, List.drop_left] at hlater
      refine ⟨step_inv hinv hstep, ?_⟩
      show Forward s'.dispatched
      rw [hnew, Forward, List.pairwise_append]
      refine ⟨hforward, ?_, fun earlier he later hl => hlater later hl earlier he⟩
      match new, hlength with
      | [], _ => exact List.Pairwise.nil
      | [d], _ => exact List.pairwise_singleton _ d
  exact hboth.2

/-- The offsets of the calls are those of the first batches. -/
theorem Called.offsets {s : State} {calls : List BatchCompletion} (h : Called source s calls) :
    calls.map BatchCompletion.offsets =
      (s.dispatched.take calls.length).map (fun d => nextOffsets d.batch.events) := by
  have hindex : ∀ (i : ℕ) (c : BatchCompletion), calls[i]? = some c → c.sequence = i := by
    intro i c hc
    have hget := congrArg (fun l => l[i]?) h.inOrder
    simp only [List.getElem?_map, hc, Option.map_some] at hget
    have hi := (List.getElem?_eq_some_iff.mp hc).1
    rw [List.getElem?_range hi] at hget
    exact Option.some.inj hget
  apply List.ext_getElem?
  intro i
  rw [List.getElem?_map, List.getElem?_map]
  cases hc : calls[i]? with
  | none =>
    have hle := List.getElem?_eq_none_iff.mp hc
    rw [List.getElem?_take_eq_none hle]
    rfl
  | some c =>
    have hi := (List.getElem?_eq_some_iff.mp hc).1
    obtain ⟨d, hd, hoffsets, -⟩ := h.carries c (List.mem_of_getElem? hc)
    rw [hindex i c hc] at hd
    rw [List.getElem?_take_of_lt hi, hd, Option.map_some, Option.map_some, offsetsFor_eq hoffsets]

/-- The calls go backwards exactly where the batches do. -/
theorem Called.nonDecreasing_iff {s : State} {calls : List BatchCompletion}
    (h : Called source s calls) :
    NonDecreasing calls ↔ Forward (s.dispatched.take calls.length) := by
  have hflat : ∀ tp, calls.flatMap (fun c => offsetsAt tp c.offsets) =
      (s.dispatched.take calls.length).filterMap (fun d => highestNext tp d.batch.events) := by
    intro tp
    rw [← List.flatMap_map BatchCompletion.offsets (offsetsAt tp), h.offsets, List.flatMap_map,
      List.filterMap_eq_flatMap_toList]
    simp only [offsetsAt_nextOffsets]
  have hpairs : NonDecreasing calls ↔ ∀ tp, (s.dispatched.take calls.length).Pairwise
      (fun d d' => ∀ x ∈ highestNext tp d.batch.events,
        ∀ y ∈ highestNext tp d'.batch.events, x ≤ y) := by
    apply forall_congr'
    intro tp
    rw [hflat tp, List.pairwise_filterMap]
    rfl
  rw [hpairs]
  constructor
  · intro h
    rw [Forward, List.pairwise_iff_getElem]
    intro i j hi hj hij tp
    exact (List.pairwise_iff_getElem.mp (h tp)) i j hi hj hij
  · intro h tp
    exact h.imp (fun hadvances => hadvances tp)

/-- If no batch is dispatched below an earlier one, then no commit goes backwards. In any
session the offsets passed to `commit` are non-decreasing exactly if the batches they
belong to are in order. -/
theorem commits_nonDecreasing {now : ℕ} {t : State × List BatchCompletion} :
    ((session source now).ReachableBy (fun t => InTurn source t.1) t → NonDecreasing t.2) ∧
    ((session source now).Reachable t →
      (NonDecreasing t.2 ↔ Forward (t.1.dispatched.take t.2.length))) := by
  constructor
  · intro h
    have hforward := (reachable_forward h).sublist (List.take_sublist t.2.length t.1.dispatched)
    exact (reachable_called h).2.nonDecreasing_iff.mpr hforward
  · intro h
    exact (reachable_called h).2.nonDecreasing_iff

/-- A source with batches of one event. -/
def singleSource : KafkaSource :=
  { pairSource with config := { pairSource.config with batchSize := 1 } }

/-- The partition is rewound after offset 10, and both batches are written: the second
commit takes the first one back. -/
theorem rewound_decreases :
    ∃ t, (session singleSource 0).Reachable t ∧ ¬ NonDecreasing t.2 := by
  have hrun : ((session singleSource 0).run (State.start 0, [])
      [.recv (message 10), .recv (message 5), .join 0 .ok (fun _ => true),
        .join 1 .ok (fun _ => true)]).map
        (fun t => t.2.flatMap (fun c => offsetsAt ("input", 0) c.offsets)) = some [11, 6] := by
    decide
  obtain ⟨t, ht, hcalls⟩ := Option.map_eq_some_iff.mp hrun
  refine ⟨t, System.Reachable.run System.ReachableBy.start ht, fun h => ?_⟩
  have hpair := h ("input", 0)
  rw [hcalls] at hpair
  exact absurd hpair (by decide)

theorem commits_nonDecreasing_inTurn : ∃ t : State × List BatchCompletion,
    t.2.map BatchCompletion.offsets = [[⟨"input", 0, 6⟩], [⟨"input", 0, 11⟩]] ∧
      NonDecreasing t.2 := by
  have hrun : ((session singleSource 0).runBy (fun t => InTurn singleSource t.1)
      (State.start 0, [])
      [.recv (message 5), .recv (message 10), .join 1 .ok (fun _ => true),
        .join 0 .ok (fun _ => true)]).map (fun t => t.2.map BatchCompletion.offsets) =
          some [[⟨"input", 0, 6⟩], [⟨"input", 0, 11⟩]] := by
    decide
  obtain ⟨t, ht, hcalls⟩ := Option.map_eq_some_iff.mp hrun
  exact ⟨t, hcalls, commits_nonDecreasing.1 (System.ReachableBy.runBy System.ReachableBy.start ht)⟩

end Rustper.Source
