import Rustper.ProcessProgress
import Rustper.SourceCounters

/-!
The counters of a process against each other. A source counts an event once all of its
sinks have acknowledged it, and a sink counts it as written or dropped when it does so: so
what a sink has counted lies between what its sources have counted and what they have
received, and when nothing is left to do the three agree.
-/
namespace Rustper.Router

open TransitionSystem

variable {w : ℕ} {wiring : Wiring w} {s : State w}

/-- The envelopes of the source that a sink has delivered. -/
def ownDelivered (wiring : Wiring w) (s : State w) (i : Fin w) : List Sink.SinkEnvelope :=
  (s.sinks i).delivered.filter (fun e => e.ack.source = wiring.source.id)

/-- The envelopes of the first `k` batches. -/
def firstEnvelopes (wiring : Wiring w) (s : State w) (k : ℕ) : List Sink.SinkEnvelope :=
  (s.source.dispatched.take k).zipIdx.map (fun x => ⟨x.1.batch, ⟨wiring.source.id, x.2⟩⟩)

theorem totalEvents_subperm {batches batches' : List EventBatch} (h : batches.Subperm batches') :
    totalEvents batches ≤ totalEvents batches' := by
  obtain ⟨sorted, hperm, hsublist⟩ := h
  calc totalEvents batches = totalEvents sorted := (hperm.map EventBatch.len).sum_eq.symm
    _ ≤ totalEvents batches' := (hsublist.map EventBatch.len).sum_le_sum fun _ _ => Nat.zero_le _

theorem batches_subperm {envelopes envelopes' : List Sink.SinkEnvelope}
    (h : envelopes.Subperm envelopes') :
    totalEvents (Sink.batches envelopes) ≤ totalEvents (Sink.batches envelopes') := by
  obtain ⟨sorted, hperm, hsublist⟩ := h
  exact totalEvents_subperm ⟨_, hperm.map _, hsublist.map _⟩

theorem firstEnvelopes_events (wiring : Wiring w) (s : State w) (k : ℕ) :
    totalEvents (Sink.batches (firstEnvelopes wiring s k)) = Source.eventsBefore s.source k := by
  rw [totalEvents, Sink.batches, firstEnvelopes, List.map_map, List.map_map, Source.eventsBefore]
  refine congrArg List.sum ?_
  conv_rhs => rw [← List.zipIdx_map_fst 0 (s.source.dispatched.take k), List.map_map]
  rfl

theorem firstEnvelopes_nodup (wiring : Wiring w) (s : State w) (k : ℕ) :
    (firstEnvelopes wiring s k).Nodup := by
  refine List.Nodup.of_map (fun e => e.ack.sequence) ?_
  rw [firstEnvelopes, List.map_map]
  show ((s.source.dispatched.take k).zipIdx.map Prod.snd).Nodup
  rw [List.zipIdx_map_snd]
  exact List.nodup_range'

/-- Each sink has delivered the envelopes of the batches that are committed. -/
theorem Inv.firstEnvelopes_delivered (h : Inv wiring s) {k : ℕ}
    (hk : k ≤ s.source.cursor.nextSequence) (i : Fin w) :
    firstEnvelopes wiring s k ⊆ ownDelivered wiring s i := by
  intro e he
  obtain ⟨⟨d, q⟩, hmem, rfl⟩ := List.mem_map.mp he
  have hget := List.mem_zipIdx_iff_getElem?.mp hmem
  have hlt : q < k := by
    by_contra hle
    rw [List.getElem?_take, if_neg hle] at hget
    contradiction
  rw [List.getElem?_take, if_pos hlt] at hget
  have hcommitted : q ∈ s.source.cursor.committed.map Source.BatchCompletion.sequence := by
    rw [h.committed.inOrder]
    exact List.mem_range.mpr (Nat.lt_of_lt_of_le hlt hk)
  obtain ⟨c, hc, rfl⟩ := List.mem_map.mp hcommitted
  obtain ⟨f, hf, hphase⟩ := h.returned c (Or.inr hc)
  obtain ⟨d', hd', hreach⟩ := h.fanouts _ f hf
  obtain rfl : d = d' := Option.some.inj (hget.symm.trans hd')
  obtain ⟨x, hx, hdelivered, henvelope⟩ :=
    h.answered i _ f hf (Fanout.answered_of_returned hreach hphase i)
  rw [Fanout.reachable_batch hreach] at henvelope
  refine List.mem_filter.mpr ⟨?_, by simp⟩
  exact List.mem_map.mpr ⟨x, List.mem_filter.mpr ⟨hx, by simpa using hdelivered⟩, henvelope⟩

/-- The loop of the source is in a run of its own. -/
theorem reachable_source {now : ℕ} (h : (system wiring now).Reachable s) :
    (Source.system wiring.source now).Reachable s.source := by
  have hstart : (Source.system wiring.source now).Reachable (State.start w now).source :=
    System.ReachableBy.start
  apply System.Reachable.invariant
    (P := fun s => (Source.system wiring.source now).Reachable s.source) hstart _ h
  intro t a t' ht hs
  cases step_taken hs with
  | source a source hsource hnot => exact System.Reachable.next ht hsource
  | join k commit f result source hf hresult hsource =>
    exact System.Reachable.next (a := Source.Action.join k result commit) ht hsource
  | _ => exact ht

/-- A source counts no event that a sink has not delivered. -/
theorem Inv.counted_le (h : Inv wiring s) (hcounts : Source.Counts wiring.source s.source)
    (i : Fin w) :
    s.source.metrics.eventsIn ≤ totalEvents (Sink.batches (ownDelivered wiring s i)) := by
  obtain ⟨k, hk, hevents, -, -⟩ := hcounts.first_batches
  have hsub := List.subperm_of_subset (firstEnvelopes_nodup wiring s k)
    (h.firstEnvelopes_delivered hk i)
  rw [hevents, ← firstEnvelopes_events wiring]
  exact batches_subperm hsub

/-- A sink delivers no more of a source than it has received. -/
theorem Inv.delivered_le (h : Inv wiring s) {i : Fin w} (hlinked : Linked wiring s i) :
    totalEvents (Sink.batches (ownDelivered wiring s i)) ≤ s.source.received.length := by
  have hsettled : (s.sinks i).delivered.Subperm (s.sinks i).arrived := by
    have hsublist : (s.sinks i).delivered.Sublist (s.sinks i).settledEnvelopes :=
      List.filter_sublist.map _
    exact (hsublist.trans (List.sublist_append_left _ _)).subperm.trans
      (h.sink i).ledger.perm.symm.subperm
  calc totalEvents (Sink.batches (ownDelivered wiring s i))
      ≤ totalEvents (Sink.batches ((s.sinks i).arrived.filter
          (fun e => e.ack.source = wiring.source.id))) := batches_subperm (hsettled.filter _)
    _ ≤ totalEvents (s.source.dispatched.map Source.Dispatch.batch) :=
        totalEvents_subperm (ownBatches_subperm h hlinked)
    _ ≤ s.source.received.length := by
        rw [h.source.received_length, totalEvents, List.map_map]
        exact Nat.le_add_right _ _

end Rustper.Router

namespace Rustper.Process

open TransitionSystem

variable {m n : ℕ} {plan : Plan m n} {s s' : State plan}

/-- The sinks account for the events they are given. -/
def Accounts (s : State plan) : Action plan → Prop
  | .control (.sink i a) => Sink.Accounts (s.control.sinks i) a
  | _ => True

instance (s : State plan) (a : Action plan) : Decidable (Accounts s a) := by
  unfold Accounts
  split
  · infer_instance
  · infer_instance

/-- Every envelope comes from a source that the sink is a destination of. -/
def Sourced (s : State plan) : Prop :=
  ∀ i, ∀ e ∈ (s.control.sinks i).arrived,
    ∃ k, i ∈ plan.outputs k ∧ e.ack.source = (plan.sources k).id

/-- What a step does to the sinks, and where an envelope comes from. -/
theorem Move.sink {a : Action plan} (hmove : Move s a s') :
    s'.control.sinks = s.control.sinks ∨ ∃ i b sink,
      Sink.step (plan.runtimes i) (s.control.sinks i) b = some sink ∧
      s'.control.sinks = Function.update s.control.sinks i sink ∧
      (Accounts s a → Sink.Accounts (s.control.sinks i) b) ∧
      ∀ e, b = .arrive e → ∃ k, i ∈ plan.outputs k ∧ e.ack.source = (plan.sources k).id := by
  cases hmove with
  | part k a r hs hsinks hallows hrun => exact Or.inl rfl
  | enqueue k sequence j f f' control hf hs hcontrol =>
    rcases control_sinks hcontrol with ⟨i, b, sink, ha, hsink, hsinks⟩ | ⟨-, hsinks⟩
    · cases ha
      refine Or.inr ⟨_, _, sink, hsink, hsinks, fun _ => trivial, ?_⟩
      rintro e he
      cases he
      exact ⟨k, List.get_mem _ _, rfl⟩
    · exact Or.inl hsinks
  | sourceEnds k result control hresult hcontrol =>
    rcases control_sinks hcontrol with ⟨_, _, _, ha, -⟩ | ⟨-, hsinks⟩
    · contradiction
    · exact Or.inl hsinks
  | control a control hcontrol hadmits =>
    rcases control_sinks hcontrol with ⟨i, b, sink, rfl, hsink, hsinks⟩ | ⟨-, hsinks⟩
    · refine Or.inr ⟨i, b, sink, hsink, hsinks, id, ?_⟩
      rintro e rfl
      contradiction
    · exact Or.inl hsinks
  | idle => exact Or.inl rfl

theorem Move.sourced {a : Action plan} (hmove : Move s a s')
    (hinv : ∀ i, Sink.Inv (plan.runtimes i) (s.control.sinks i)) (h : Sourced s) :
    Sourced s' := by
  rcases hmove.sink with hsame | ⟨i, b, sink, hsink, hsinks, -, hfrom⟩
  · unfold Sourced
    rw [hsame]
    exact h
  · intro j e he
    rw [hsinks] at he
    by_cases hj : j = i
    · subst hj
      rw [Function.update_self] at he
      rcases (Sink.step_extends (hinv j) hsink).arrived with hsame | ⟨x, hb, happend⟩
      · exact h j e (hsame ▸ he)
      · rw [happend] at he
        rcases List.mem_append.mp he with he | he
        · exact h j e he
        · rw [List.mem_singleton.mp he]
          exact hfrom x hb
    · rw [Function.update_of_ne hj] at he
      exact h j e he

theorem reachable_sourced {now : ℕ} (h : (system plan now).Reachable s) : Sourced s := by
  have hboth : (system plan now).Reachable s ∧ Sourced s := by
    have hstart : (system plan now).Reachable (State.start plan now) ∧
        Sourced (State.start plan now) :=
      ⟨System.ReachableBy.start, fun i e he => by contradiction⟩
    apply System.Reachable.invariant hstart _ h
    rintro t a t' ⟨ht, hsourced⟩ hs
    have hinv := fun i =>
      Sink.reachable_inv (Shutdown.reachable_sinksRun (reachable_control ht) i)
    exact ⟨System.Reachable.next ht hs, (step_move hs).sourced hinv hsourced⟩
  exact hboth.2

/-- Each sink is in a run of its own, and it accounts for the events it is given. -/
theorem reachable_sinks {now : ℕ} (h : (system plan now).ReachableBy Accounts s) (i : Fin n) :
    (Sink.system (plan.runtimes i) now).ReachableBy Sink.Accounts (s.control.sinks i) := by
  have hall : ∀ i, (Sink.system (plan.runtimes i) now).ReachableBy Sink.Accounts
      (s.control.sinks i) := by
    have hstart : ∀ i, (Sink.system (plan.runtimes i) now).ReachableBy Sink.Accounts
        ((State.start plan now).control.sinks i) := fun i => System.ReachableBy.start
    apply System.ReachableBy.invariant (P := fun s => ∀ i, (Sink.system (plan.runtimes i)
      now).ReachableBy Sink.Accounts (s.control.sinks i)) hstart _ h
    intro t a t' ht haccounts hs j
    rcases (step_move hs).sink with hsame | ⟨i, b, sink, hsink, hupdate, hb, -⟩
    · rw [hsame]
      exact ht j
    · rw [hupdate]
      by_cases hj : j = i
      · subst hj
        rw [Function.update_self]
        exact System.ReachableBy.step (ht j) (hb haccounts) hsink
      · rw [Function.update_of_ne hj]
        exact ht j
  exact hall i

/-- The events of the envelopes of a source that a sink has delivered. -/
def deliveredFrom (s : State plan) (k : Fin m) (i : Fin n) : ℕ :=
  totalEvents (Sink.batches ((s.control.sinks i).delivered.filter
    (fun e => e.ack.source = (plan.sources k).id)))

/-- What a sink has counted, by its sources. -/
theorem counted_eq {now : ℕ} (h : (system plan now).ReachableBy Accounts s) (i : Fin n) :
    (s.control.sinks i).metrics.eventsOut + (s.control.sinks i).metrics.eventsDropped =
      ∑ k with i ∈ plan.outputs k, deliveredFrom s k i := by
  have hsourced := reachable_sourced h.reachable
  have hinv := Sink.reachable_inv (reachable_sinks h i).reachable
  have hcounted : (s.control.sinks i).metrics.eventsOut +
      (s.control.sinks i).metrics.eventsDropped =
        totalEvents (Sink.batches (s.control.sinks i).delivered) :=
    Sink.reachable_events (reachable_sinks h i)
  rw [hcounted]
  simp only [deliveredFrom, totalEvents, Sink.batches, List.map_map]
  refine (Slots.sum_filter_key plan.ids
    (fun e : Sink.SinkEnvelope => e.ack.source) _ fun e he => ?_).symm
  obtain ⟨x, hx, rfl⟩ := List.mem_map.mp he
  obtain ⟨k, hk, hid⟩ := hsourced i _ (hinv.settled_arrived (List.mem_filter.mp hx).1)
  exact ⟨k, by simpa using hk, hid⟩

/-- What a sink has delivered of a source lies between what the source has counted and what
it has received. -/
theorem deliveredFrom_bounds {now : ℕ} (h : (system plan now).Reachable s) {k : Fin m}
    {i : Fin n} (hi : i ∈ plan.outputs k) :
    (s.parts k).source.metrics.eventsIn ≤ deliveredFrom s k i ∧
      deliveredFrom s k i ≤ (s.parts k).source.received.length := by
  obtain ⟨j, rfl⟩ := List.mem_iff_get.mp hi
  have hview := reachable_view h k
  have hinv := Router.reachable_inv hview
  have hcounts := Source.reachable_counts (Router.reachable_source hview)
  exact ⟨hinv.counted_le hcounts j, hinv.delivered_le (Router.reachable_linked hview j)⟩

/-- Where nothing is left to do, a source has counted all it has received. -/
theorem Idle.counted {now : ℕ} (hidle : Idle s) (h : (system plan now).Reachable s) (k : Fin m) :
    (s.parts k).source.metrics.eventsIn = (s.parts k).source.received.length := by
  have hview := reachable_view h k
  have hcaught := (hidle.drained k).caught (hidle.sources k)
  have hcounts := Source.reachable_counts (Router.reachable_source hview)
  have hlength := hcounts.received_length (Router.reachable_inv hview).source (hidle.sources k)
  have hcommitted := congrArg List.length hcaught.committed
  rw [List.length_map, List.length_range, hcounts.committed_length] at hcommitted
  rw [hcaught.pending, List.drop_of_length_le hcommitted.ge] at hlength
  exact hlength.symm

/-- The counters agree across the process. In every state of every run whose sinks account
for the events they are given, what a sink has counted as written and dropped is at least
what its sources have counted together, and at most what they have received; and the three
are the same where nothing is left to do. -/
theorem events_conserved {now : ℕ} (h : (system plan now).ReachableBy Accounts s) (i : Fin n) :
    ∑ k with i ∈ plan.outputs k, (s.parts k).source.metrics.eventsIn ≤
      (s.control.sinks i).metrics.eventsOut + (s.control.sinks i).metrics.eventsDropped ∧
    (s.control.sinks i).metrics.eventsOut + (s.control.sinks i).metrics.eventsDropped ≤
      ∑ k with i ∈ plan.outputs k, (s.parts k).source.received.length ∧
    (Idle s → ∑ k with i ∈ plan.outputs k, (s.parts k).source.metrics.eventsIn =
      (s.control.sinks i).metrics.eventsOut + (s.control.sinks i).metrics.eventsDropped) := by
  have hbounds : ∀ k ∈ Finset.univ.filter (fun k => i ∈ plan.outputs k),
      (s.parts k).source.metrics.eventsIn ≤ deliveredFrom s k i ∧
        deliveredFrom s k i ≤ (s.parts k).source.received.length :=
    fun k hk => deliveredFrom_bounds h.reachable (Finset.mem_filter.mp hk).2
  rw [counted_eq h i]
  refine ⟨Finset.sum_le_sum fun k hk => (hbounds k hk).1,
    Finset.sum_le_sum fun k hk => (hbounds k hk).2, fun hidle => ?_⟩
  refine Finset.sum_congr rfl fun k hk => ?_
  have hcounted := hidle.counted h.reachable k
  have hbound := hbounds k hk
  omega

abbrev orphanPlan := Topology.plan .checked Topology.orphanConfig

/-- A record of the source that is listed goes through the sink. -/
def oneWritten (k : Fin Topology.orphanConfig.sources.entries.length)
    (i : Fin Topology.orphanConfig.sinks.entries.length) (j : Fin (orphanPlan.width k)) :
    List (Action orphanPlan) :=
  [.part k (.source (.recv (Source.message 0))), .part k (.enqueue 0 j), .control (.sink i .recv),
    .control (.sink i .dispatch), .control (.sink i (.begin 0)),
    .control (.sink i (.attempted 0 (.ok ⟨1, 0⟩)))]

/-- The sink has counted it, and its source has not yet. -/
theorem events_conserved_orphan : ∃ (s : State orphanPlan) (i : Fin _),
    (s.control.sinks i).metrics.eventsOut = 1 ∧
    ∑ k with i ∈ orphanPlan.outputs k, (s.parts k).source.metrics.eventsIn ≤ 1 ∧
    1 ≤ ∑ k with i ∈ orphanPlan.outputs k, (s.parts k).source.received.length := by
  let k : Fin Topology.orphanConfig.sources.entries.length := ⟨0, by decide⟩
  let i : Fin Topology.orphanConfig.sinks.entries.length := ⟨0, by decide⟩
  have hrun : ((system orphanPlan 0).runBy Accounts (State.start _ 0)
      (oneWritten k i ⟨0, by decide⟩)).map (fun s => ((s.control.sinks i).metrics.eventsOut,
        (s.control.sinks i).metrics.eventsDropped)) = some (1, 0) := by decide
  obtain ⟨s, hs, hview⟩ := Option.map_eq_some_iff.mp hrun
  obtain ⟨hout, hdropped⟩ := Prod.mk.inj hview
  have hreach : (system orphanPlan 0).ReachableBy Accounts s := System.ReachableBy.start.runBy hs
  obtain ⟨hle, hge, -⟩ := events_conserved hreach i
  rw [hout, hdropped] at hle hge
  exact ⟨s, i, hout, hle, hge⟩

end Rustper.Process
