import Rustper.SourceHistory
import Rustper.UncommittedWindow

/-!
What the counters of a source say. An event is counted when the batch it is in has been
committed, so the counters are sums over the commits; what was received and is not
counted is in a batch that is not committed or is being assembled. A commit that fails
ends the loop before the batches committed by the same drain are counted.
-/
namespace Rustper.Source

open TransitionSystem MachineInt

variable {source : KafkaSource} {s s' : State}

/-- The counters against the history. `counted` are the commits whose events have been
counted; a failed drain leaves the others behind. -/
structure Counts (source : KafkaSource) (s : State) : Prop where
  committed : Committed source s
  batchesIn : s.metrics.batchesIn = s.sequence
  commits : s.metrics.commits = s.cursor.committed.length
  processed : s.metrics.eventsIn = s.processed
  counted : ∃ counted rest, s.cursor.committed = counted ++ rest ∧
    s.metrics.eventsIn = eventSum counted ∧ s.metrics.bytesIn = byteSum counted ∧
    (s.outcome ≠ some (.error .commit) → rest = [])
  inFlightBytes : s.outcome = none → s.metrics.inFlightBytes = s.inFlightBytes
  inFlightBatches : s.outcome = none → s.metrics.inFlightBatches = s.inFlight.length

theorem start_counts (source : KafkaSource) (now : ℕ) : Counts source (State.start now) where
  committed := start_committed now
  batchesIn := rfl
  commits := rfl
  processed := rfl
  counted := ⟨[], [], rfl, rfl, rfl, fun _ => rfl⟩
  inFlightBytes _ := rfl
  inFlightBatches _ := rfl

/-- Everything has been counted as long as no commit has failed. -/
theorem Counts.all (h : Counts source s) (hnone : s.outcome ≠ some (.error .commit)) :
    s.metrics.eventsIn = eventSum s.cursor.committed ∧
      s.metrics.bytesIn = byteSum s.cursor.committed := by
  obtain ⟨counted, rest, hsplit, hevents, hbytes, hrest⟩ := h.counted
  rw [hrest hnone, List.append_nil] at hsplit
  rw [hsplit]
  exact ⟨hevents, hbytes⟩

/-- A step that commits nothing and leaves the counters of events alone. -/
theorem Counts.keep (h : Counts source s) (hnone : s.outcome = none)
    (hcommitted : Committed source s') (hcursor : s'.cursor = s.cursor)
    (hprocessed : s'.processed = s.processed)
    (hmetrics : s'.metrics = { s.metrics with
      batchesIn := s'.metrics.batchesIn
      inFlightBytes := s'.metrics.inFlightBytes
      inFlightBatches := s'.metrics.inFlightBatches })
    (hbatches : s'.metrics.batchesIn = s'.sequence)
    (hgauges : s'.outcome = none → s'.metrics.inFlightBytes = s'.inFlightBytes ∧
      s'.metrics.inFlightBatches = s'.inFlight.length) : Counts source s' := by
  obtain ⟨hevents, hbytes⟩ := h.all (by simp [hnone])
  refine ⟨hcommitted, hbatches, ?_, ?_, ⟨s.cursor.committed, [], ?_, ?_, ?_, fun _ => rfl⟩,
    fun hnone' => (hgauges hnone').1, fun hnone' => (hgauges hnone').2⟩
  · rw [hmetrics, hcursor]
    exact h.commits
  · rw [hmetrics, hprocessed]
    exact h.processed
  · rw [hcursor, List.append_nil]
  · rw [hmetrics]
    exact hevents
  · rw [hmetrics]
    exact hbytes

theorem dispatch_counts (h : Counts source s) (hnone : s.outcome = none)
    (hcommitted : Committed source (dispatch source s)) : Counts source (dispatch source s) := by
  have hkeep : ∀ {t : State}, t = dispatch source s → Counts source t := by
    intro t ht
    have hcommitted' : Committed source t := ht ▸ hcommitted
    unfold dispatch at ht
    split at ht
    · subst ht
      exact h.keep hnone hcommitted' rfl rfl rfl h.batchesIn (fun hnone' => by contradiction)
    · subst ht
      refine h.keep hnone hcommitted' rfl rfl rfl (congrArg (· + 1) h.batchesIn) (fun _ => ?_)
      exact ⟨rfl, by rw [List.length_append, List.length_singleton]⟩
  exact hkeep rfl

theorem complete_counts (h : Counts source s) (hinv : Inv source s) (hnone : s.outcome = none)
    {task : Task} (htask : task ∈ s.inFlight) (inFlight : List Task)
    (commit : BatchCompletion → Bool)
    (hcommitted : Committed source (complete s inFlight task commit)) :
    Counts source (complete s inFlight task commit) := by
  have hrun := hinv.running hnone
  have hdrained := commitContiguous_spec commit hrun.exact (hrun.completion_new htask)
  obtain ⟨hevents, hbytes⟩ := h.all (by simp [hnone])
  have hlength : ∀ released : List BatchCompletion,
      s.metrics.commits + ((s.cursor.committed ++ released).length - s.cursor.committed.length) =
        (s.cursor.committed ++ released).length := by
    intro released
    have hcommits := h.commits
    rw [List.length_append]
    omega
  unfold complete at hcommitted ⊢
  generalize commitContiguous commit s.cursor task.completion = r at hdrained hcommitted ⊢
  cases hdrained with
  | error released hrel haccepted hstopped =>
    refine ⟨hcommitted, h.batchesIn, ?_, h.processed,
      ⟨s.cursor.committed, released, hrel, hevents, hbytes, fun hnot => absurd rfl hnot⟩,
      fun hnone' => by contradiction, fun hnone' => by contradiction⟩
    simp only [hrel]
    exact hlength released
  | ok released hrel haccepted hexact =>
    refine ⟨hcommitted, h.batchesIn, ?_, ?_,
      ⟨s.cursor.committed ++ released, [], by rw [hrel, List.append_nil], ?_, ?_,
        fun _ => rfl⟩, fun _ => rfl, fun _ => rfl⟩
    · simp only [hrel]
      exact hlength released
    · have hprocessed := h.processed
      simp only
      omega
    · simp only [hevents, eventSum, List.map_append, List.sum_append]
      omega
    · simp only [hbytes, byteSum, List.map_append, List.sum_append]
      omega

theorem step_counts {a : Action} (hinv : Inv source s) (h : Counts source s)
    (hs : step source s a = some s') : Counts source s' := by
  have hnone : s.outcome = none := by
    simp only [step, Option.ite_none_right_eq_some] at hs
    exact hs.1
  have hcommitted := h.committed.step hinv (hinv.running hnone).joined hs
  have hgauges : s.metrics.inFlightBytes = s.inFlightBytes ∧
      s.metrics.inFlightBatches = s.inFlight.length :=
    ⟨h.inFlightBytes hnone, h.inFlightBatches hnone⟩
  simp only [step, hnone, if_true] at hs
  cases a with
  | elapse duration =>
    cases hs
    exact h.keep hnone hcommitted rfl rfl rfl h.batchesIn (fun _ => hgauges)
  | shutdown =>
    cases hs
    exact h.keep hnone hcommitted rfl rfl rfl h.batchesIn (fun hnone' => by contradiction)
  | join k result commit =>
    simp only [join] at hs
    cases hfind : s.inFlight.find? (fun t => t.sequence = k) with
    | none => simp [hfind] at hs
    | some task =>
      simp only [hfind] at hs
      cases result with
      | panicked | error e =>
        cases hs
        exact h.keep hnone hcommitted rfl rfl rfl h.batchesIn (fun hnone' => by contradiction)
      | ok =>
        cases hs
        exact complete_counts h hinv hnone (List.mem_of_find?_eq_some hfind) _ commit hcommitted
  | lingerElapsed =>
    simp only [lingerElapsed, Option.ite_none_right_eq_some, Option.some.injEq] at hs
    obtain ⟨-, rfl⟩ := hs
    exact dispatch_counts h hnone hcommitted
  | recv message =>
    simp only [recv, Option.ite_none_right_eq_some, Option.some.injEq] at hs
    obtain ⟨-, rfl⟩ := hs
    have hpush : Committed source (push source s message) → Counts source (push source s message) :=
      fun hc => h.keep hnone hc rfl rfl rfl h.batchesIn (fun _ => hgauges)
    split at hcommitted
    · rename_i hfull
      rw [if_pos hfull]
      exact dispatch_counts (hpush ⟨h.committed.inOrder, h.committed.carries⟩) hnone hcommitted
    · rename_i hfull
      rw [if_neg hfull]
      exact hpush hcommitted
  | recvFailed =>
    simp only [recvFailed, Option.ite_none_right_eq_some, Option.some.injEq] at hs
    obtain ⟨-, rfl⟩ := hs
    exact h.keep hnone hcommitted rfl rfl rfl h.batchesIn (fun hnone' => by contradiction)

theorem reachable_counts {now : ℕ} (h : (system source now).Reachable s) : Counts source s := by
  have hboth : Inv source s ∧ Counts source s := by
    have hstart : Inv source (State.start now) ∧ Counts source (State.start now) :=
      ⟨start_inv source now, start_counts source now⟩
    apply System.Reachable.invariant hstart _ h
    intro t a t' ht hs
    exact ⟨step_inv ht.1 hs, step_counts ht.1 ht.2 hs⟩
  exact hboth.2

/-- The values that commits carry are those of the first batches. -/
theorem Committed.values (h : Committed source s) {α : Type} {f : BatchCompletion → α}
    {g : Dispatch → α}
    (hvalue : ∀ c d, s.dispatched[c.sequence]? = some d → Carries source s c → f c = g d) :
    s.cursor.committed.map f = (s.dispatched.take s.cursor.nextSequence).map g := by
  have hlength : s.cursor.committed.length = s.cursor.nextSequence := by
    have hsame := congrArg List.length h.inOrder
    rwa [List.length_map, List.length_range] at hsame
  have hsequence : ∀ (k : ℕ) (hk : k < s.cursor.committed.length),
      (s.cursor.committed[k]).sequence = k := by
    intro k hk
    have hget := congrArg (fun l => l[k]?) h.inOrder
    simp only [List.getElem?_map, List.getElem?_eq_getElem hk, Option.map_some,
      List.getElem?_range (hlength ▸ hk)] at hget
    exact Option.some.inj hget
  have hdispatched : ∀ (k : ℕ) (hk : k < s.cursor.committed.length), ∃ d,
      s.dispatched[k]? = some d ∧ f s.cursor.committed[k] = g d := by
    intro k hk
    have hcarries := h.carries _ (List.getElem_mem hk)
    obtain ⟨d, hd, hrest⟩ := hcarries
    refine ⟨d, hsequence k hk ▸ hd, hvalue _ d hd ⟨d, hd, hrest⟩⟩
  apply List.ext_getElem?
  intro k
  by_cases hk : k < s.cursor.committed.length
  · obtain ⟨d, hd, hvalue⟩ := hdispatched k hk
    rw [List.getElem?_map, List.getElem?_map, List.getElem?_take_of_lt (hlength ▸ hk), hd,
      List.getElem?_eq_getElem hk, Option.map_some, Option.map_some, hvalue]
  · rw [List.getElem?_eq_none (by rw [List.length_map]; omega), List.getElem?_eq_none]
    rw [List.length_map, List.length_take]
    omega

/-- Events and bytes in the first `k` dispatched batches. -/
def eventsBefore (s : State) (k : ℕ) : ℕ :=
  ((s.dispatched.take k).map (fun d => d.batch.len)).sum

def bytesBefore (s : State) (k : ℕ) : ℕ :=
  ((s.dispatched.take k).map (fun d => d.batch.bytes)).sum

theorem Committed.values_take (h : Committed source s) {k : ℕ} (hk : k ≤ s.cursor.nextSequence) :
    eventSum (s.cursor.committed.take k) = eventsBefore s k ∧
      byteSum (s.cursor.committed.take k) = bytesBefore s k := by
  have htake : ∀ {f : BatchCompletion → ℕ} {g : Dispatch → ℕ},
      (∀ c d, s.dispatched[c.sequence]? = some d → Carries source s c → f c = g d) →
      (s.cursor.committed.take k).map f = (s.dispatched.take k).map g := by
    intro f g hvalue
    rw [List.map_take, h.values hvalue, ← List.map_take, List.take_take, Nat.min_eq_left hk]
  constructor
  · refine congrArg List.sum (htake fun c d hd hcarries => ?_)
    obtain ⟨d', hd', -, hevents, -⟩ := hcarries
    rw [hevents, Option.some.inj (hd'.symm.trans hd)]
  · refine congrArg List.sum (htake fun c d hd hcarries => ?_)
    obtain ⟨d', hd', -, -, hbytes⟩ := hcarries
    rw [hbytes, Option.some.inj (hd'.symm.trans hd)]

theorem sum_take_add_drop (l : List ℕ) (k : ℕ) : (l.take k).sum + (l.drop k).sum = l.sum := by
  rw [← List.sum_append, List.take_append_drop]

/-- What has been received is in a dispatched batch or being assembled. -/
theorem Inv.received_length (h : Inv source s) :
    s.received.length = (s.dispatched.map (fun d => d.batch.len)).sum + s.pending.length := by
  have hpending : s.pending.length = s.assembling.length := by
    rw [h.pending_eq, receiptEvents, List.length_map]
  have hreceipts : s.dispatched.map (fun d => d.receipts.length) =
      s.dispatched.map (fun d => d.batch.len) := by
    refine List.map_congr_left fun d hd => ?_
    rw [EventBatch.len, (h.dispatches d hd).events, receiptEvents, List.length_map]
  rw [h.received_eq, List.length_append, List.length_flatMap, hreceipts, hpending]

theorem Counts.committed_length (h : Counts source s) :
    s.cursor.committed.length = s.cursor.nextSequence := by
  have hsame := congrArg List.length h.committed.inOrder
  rwa [List.length_map, List.length_range] at hsame

/-- Events and bytes are those of the first batches. -/
theorem Counts.first_batches (h : Counts source s) :
    ∃ k ≤ s.cursor.nextSequence, s.metrics.eventsIn = eventsBefore s k ∧
      s.metrics.bytesIn = bytesBefore s k ∧
      (s.outcome ≠ some (.error .commit) → k = s.cursor.nextSequence) := by
  have hlength := h.committed_length
  obtain ⟨counted, rest, hsplit, hevents, hbytes, hrest⟩ := h.counted
  have hle : counted.length ≤ s.cursor.nextSequence := by
    rw [← hlength, hsplit, List.length_append]
    omega
  have hcut : s.cursor.committed.take counted.length = counted := by
    rw [hsplit, List.take_left]
  obtain ⟨hsumEvents, hsumBytes⟩ := h.committed.values_take hle
  rw [hcut] at hsumEvents hsumBytes
  refine ⟨counted.length, hle, hevents.trans hsumEvents, hbytes.trans hsumBytes, fun hnot => ?_⟩
  rw [← hlength, hsplit, hrest hnot, List.append_nil]

/-- What has been received is counted, in a batch that is not committed, or assembled. -/
theorem Counts.received_length (h : Counts source s) (hinv : Inv source s)
    (hnone : s.outcome = none) : s.received.length = s.metrics.eventsIn +
      ((s.dispatched.drop s.cursor.nextSequence).map (fun d => d.batch.len)).sum +
      s.pending.length := by
  have hall := (h.all (by simp [hnone])).1
  have hevents := (h.committed.values_take (Nat.le_refl _)).1
  rw [List.take_of_length_le h.committed_length.le] at hevents
  have hsum := sum_take_add_drop (s.dispatched.map (fun d => d.batch.len)) s.cursor.nextSequence
  rw [← List.map_take, ← List.map_drop] at hsum
  have hreceived := hinv.received_length
  unfold eventsBefore at hevents
  omega

/-- The counters of a source in every state of every run. Batches are counted at their
dispatch and commits one by one; events and bytes are those of the first batches, all the
committed ones unless a commit has failed. While the source runs, the gauges are exact,
and what it has received is counted, in a batch that is not committed, or being assembled. -/
theorem counters_exact {now : ℕ} (h : (system source now).Reachable s) :
    s.metrics.batchesIn = s.dispatched.length ∧
    s.metrics.commits = s.cursor.nextSequence ∧
    (∃ k ≤ s.cursor.nextSequence, s.metrics.eventsIn = eventsBefore s k ∧
      s.metrics.bytesIn = bytesBefore s k ∧
      (s.outcome ≠ some (.error .commit) → k = s.cursor.nextSequence)) ∧
    (s.outcome = none →
      s.metrics.inFlightBytes = s.inFlightBytes ∧
      s.metrics.inFlightBatches = s.inFlight.length ∧
      s.received.length = s.metrics.eventsIn +
        ((s.dispatched.drop s.cursor.nextSequence).map (fun d => d.batch.len)).sum +
        s.pending.length) := by
  have hinv := reachable_inv h
  have hcounts := reachable_counts h
  refine ⟨hcounts.batchesIn.trans hinv.sequence_eq, hcounts.commits.trans hcounts.committed_length,
    hcounts.first_batches, fun hnone => ?_⟩
  exact ⟨hcounts.inFlightBytes hnone, hcounts.inFlightBatches hnone,
    hcounts.received_length hinv hnone⟩

/-- A drain commits the second batch and fails on the third one: the events of the second
batch stay uncounted. -/
def failedDrain : List Action :=
  fullBatch ++ [.join 0 .ok (fun _ => true)] ++ fullBatch ++ fullBatch ++
    [.join 2 .ok (fun _ => true), .join 1 .ok (fun c => c.sequence ≠ 2)]

theorem counters_exact_failedDrain : ∃ (s : State) (k : ℕ), s.metrics.commits = 2 ∧
    s.outcome = some (.error .commit) ∧ s.metrics.eventsIn = 2 ∧ k ≤ 2 ∧
    s.metrics.eventsIn = eventsBefore s k ∧ eventsBefore s s.cursor.nextSequence = 4 := by
  have hrun : ((system pairSource 0).run (State.start 0) failedDrain).map
      (fun s => (s.cursor.nextSequence, s.outcome, s.metrics.eventsIn,
        eventsBefore s s.cursor.nextSequence)) = some (2, some (.error .commit), 2, 4) := by decide
  obtain ⟨s, hs, hview⟩ := Option.map_eq_some_iff.mp hrun
  simp only [Prod.mk.injEq] at hview
  obtain ⟨hnext, houtcome, hevents, hbefore⟩ := hview
  obtain ⟨-, hcommits, ⟨k, hk, hcounted, -, -⟩, -⟩ :=
    counters_exact (System.Reachable.run System.ReachableBy.start hs)
  exact ⟨s, k, hcommits.trans hnext, houtcome, hevents, hnext ▸ hk, hcounted, hbefore⟩

end Rustper.Source
