import Rustper.Library.Slots
import Rustper.SourceInvariant
import Mathlib.Data.Multiset.Range
import Mathlib.Data.Multiset.UnionInter

/-!
While `run` has not returned, nothing it received is lost or duplicated: every record
is in exactly one dispatched batch or still pending, every sequence is committed,
waiting in the reorder buffer or in flight, and a short batch is only dispatched once
the linger of its first record has elapsed.
-/
namespace Rustper.Source

open TransitionSystem MachineInt

variable {source : KafkaSource}

/-- The fed sequences are the committed prefix and the keys of the map. -/
theorem Exact.sequences {fed : List BatchCompletion} {cursor : Cursor} (h : Exact fed cursor)
    (hnodup : (fed.map BatchCompletion.sequence).Nodup) :
    Multiset.range cursor.nextSequence + cursor.completed.keys.val =
      (fed.map BatchCompletion.sequence : Multiset ℕ) := by
  have hdisjoint : Disjoint (Multiset.range cursor.nextSequence) cursor.completed.keys.val := by
    rw [Multiset.disjoint_left]
    intro k hk hmem
    have hlt := ((h.mem_completed k).mp (Finmap.mem_keys.mp hmem)).2
    have hk := Multiset.mem_range.mp hk
    omega
  rw [Multiset.Nodup.ext
    (Multiset.nodup_add.mpr ⟨Multiset.nodup_range _, cursor.completed.keys.nodup, hdisjoint⟩)
    (Multiset.coe_nodup.mpr hnodup)]
  intro k
  rw [Multiset.mem_add, Multiset.mem_range, Multiset.mem_coe, Finset.mem_val, Finmap.mem_keys,
    h.mem_completed]
  constructor
  · rintro (hlt | ⟨hmem, -⟩)
    · by_contra hnot
      have := h.next_isLeast.2 hnot
      omega
    · exact hmem
  · intro hmem
    by_cases hlt : k < cursor.nextSequence
    · exact Or.inl hlt
    · refine Or.inr ⟨hmem, ?_⟩
      have hne : k ≠ cursor.nextSequence := by
        rintro rfl
        exact h.next_isLeast.1 hmem
      omega

theorem Running.sequences_eq {s : State} (h : Running source s) :
    Multiset.range s.cursor.nextSequence + s.cursor.completed.keys.val +
      (s.inFlight.map Task.sequence : Multiset ℕ) = Multiset.range s.sequence := by
  have hnodup : (s.joined.map BatchCompletion.sequence).Nodup :=
    (h.sequences.nodup_iff.mpr List.nodup_range).of_append_left
  rw [h.exact.sequences hnodup, Multiset.coe_add]
  exact Multiset.coe_eq_coe.mpr h.sequences

/-- The position among the received records of the first event of batch `k`. -/
def firstIndex (s : State) (k : ℕ) : ℕ := ((s.dispatched.take k).map (fun d => d.batch.len)).sum

/-- The receipts of a batch stand at its position among all receipts. -/
theorem Inv.received_firstIndex {s : State} (h : Inv source s) {k : ℕ} {d : Dispatch}
    (hd : s.dispatched[k]? = some d) :
    s.received[firstIndex s k]? = d.receipts.head? := by
  have hsplit := Slots.split_at hd
  have hlen : ((s.dispatched.take k).flatMap Dispatch.receipts).length = firstIndex s k := by
    rw [List.length_flatMap, firstIndex]
    congr 1
    apply List.map_congr_left
    intro d' hd'
    have hevents := (h.dispatches d' (List.mem_of_mem_take hd')).events
    rw [EventBatch.len, hevents, receiptEvents, List.length_map]
  have hne : d.receipts ≠ [] := (h.dispatches d (List.mem_of_getElem? hd)).nonempty
  rw [h.received_eq, hsplit, List.flatMap_append, List.flatMap_cons, List.append_assoc,
    List.append_assoc, List.getElem?_append_right (by omega), hlen, Nat.sub_self]
  cases hr : d.receipts with
  | nil => exact absurd hr hne
  | cons r rest => rfl

/-- Source loop conservation, in every state of a run that has not returned: the
received records are the dispatched batches in sequence order followed by `pending`;
batches are not empty and not too long; the sequences handed out are split between
the committed prefix, the reorder buffer and the tasks in flight; and a short batch
was dispatched no earlier than the receipt of its first event plus the linger. -/
theorem run_conserves {now : ℕ} {s : State} (h : (system source now).Reachable s)
    (hrun : s.outcome = none) :
    receiptEvents source s.received =
      s.dispatched.flatMap (fun d => d.batch.events) ++ s.pending ∧
    (∀ d ∈ s.dispatched, d.batch.events ≠ [] ∧ d.batch.len ≤ source.config.batchSize) ∧
    s.sequence = s.dispatched.length ∧
    (∀ t ∈ s.inFlight, (s.dispatched[t.sequence]?).map Dispatch.batch = some t.batch) ∧
    s.cursor.committed.map BatchCompletion.sequence = List.range s.cursor.nextSequence ∧
    Multiset.range s.cursor.nextSequence + s.cursor.completed.keys.val +
      (s.inFlight.map Task.sequence : Multiset ℕ) = Multiset.range s.sequence ∧
    ∀ k d, s.dispatched[k]? = some d → d.batch.len < source.config.batchSize →
      ∃ r, s.received[firstIndex s k]? = some r ∧
        r.time + source.config.batchLingerMs ≤ d.time := by
  have hinv := reachable_inv h
  have hrunning := hinv.running hrun
  have hlen : ∀ d ∈ s.dispatched, d.batch.len = d.receipts.length := by
    intro d hd
    rw [EventBatch.len, (hinv.dispatches d hd).events, receiptEvents, List.length_map]
  refine ⟨?_, ?_, hinv.sequence_eq, fun t ht => (hinv.tasks t ht).2, hrunning.exact.inOrder,
    hrunning.sequences_eq, ?_⟩
  · have hbatches : s.dispatched.flatMap (fun d => d.batch.events) =
        s.dispatched.flatMap (fun d => receiptEvents source d.receipts) := by
      apply List.flatMap_congr
      intro d hd
      exact (hinv.dispatches d hd).events
    rw [hbatches, hinv.pending_eq, hinv.received_eq, receiptEvents, List.map_append,
      List.map_flatMap]
    rfl
  · intro d hd
    have hok := hinv.dispatches d hd
    refine ⟨?_, by rw [hlen d hd]; exact hok.length_le⟩
    rw [hok.events, receiptEvents]
    simpa using hok.nonempty
  · intro k d hd hshort
    have hmem := List.mem_of_getElem? hd
    have hok := hinv.dispatches d hmem
    rw [hlen d hmem] at hshort
    cases hr : d.receipts with
    | nil => exact absurd hr hok.nonempty
    | cons r rest =>
      refine ⟨r, ?_, hok.lingered hshort r rest hr⟩
      rw [hinv.received_firstIndex hd, hr]
      rfl

/-- A source with batches of two events and a linger of five milliseconds. -/
def pairSource : KafkaSource where
  id := "in"
  config :=
    { brokers := "localhost:9092", groupId := "router", topics := ["input"]
      sessionTimeoutMs := 45000, batchSize := 2, batchLingerMs := 5
      maxInFlightBatches := 2, maxInFlightBytes := 1024
      queuedMaxMessagesKbytes := 65536, queuedMinMessages := 100000
      maxPollIntervalMs := 300000, clientConfig := ∅ }
  client := OffsetList.checked

def message (offset : ℤ) : Record := ⟨"input", 0, offset, none, some [120], none⟩

theorem run_conserves_short_batch : ∃ s : State,
    s.dispatched.length = 1 ∧
      Multiset.range s.cursor.nextSequence + s.cursor.completed.keys.val +
        (s.inFlight.map Task.sequence : Multiset ℕ) = Multiset.range s.sequence := by
  have hrun : ((system pairSource 0).run (State.start 0)
      [.recv (message 7), .elapse 5, .lingerElapsed]).map
        (fun s => (s.outcome, s.dispatched.length)) = some (none, 1) := by decide
  obtain ⟨s, hs, hview⟩ := Option.map_eq_some_iff.mp hrun
  obtain ⟨houtcome, hlen⟩ := Prod.mk.inj hview
  have hreach : (system pairSource 0).Reachable s :=
    System.Reachable.run System.ReachableBy.start hs
  obtain ⟨-, -, -, -, -, hsequences, -⟩ := run_conserves hreach houtcome
  exact ⟨s, hlen, hsequences⟩

end Rustper.Source
