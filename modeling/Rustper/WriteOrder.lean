import Rustper.RouterInvariant
import Rustper.SinkOrder
import Rustper.SourceConservation

/-!
When a sink with one write at a time gets the records of a partition in their order. The
source dispatches batches in order, the channel and the sink keep the order they are
given; in between, each batch is put into the channel by a task of its own, and nothing
makes these tasks run in the order of their batches.
-/
namespace Rustper.Router

open TransitionSystem

variable {n : ℕ} {wiring : Wiring n} {s s' : State n} {i : Fin n}

def SharesPartition (b b' : EventBatch) : Prop :=
  ∃ e ∈ b.events, ∃ e' ∈ b'.events, e.topicPartition = e'.topicPartition

instance (b b' : EventBatch) : Decidable (SharesPartition b b') := by
  unfold SharesPartition
  infer_instance

theorem SharesPartition.symm {b b' : EventBatch} (h : SharesPartition b b') :
    SharesPartition b' b := by
  obtain ⟨e, he, e', he', htp⟩ := h
  exact ⟨e', he', e, he, htp.symm⟩

/-- The envelope for sink `i` is still to be put into its channel. -/
def Waiting (i : Fin n) (f : Fanout.State n) : Prop :=
  f.phase = .sending ∧ (f.branches i).stage = .sending

instance (f : Fanout.State n) : Decidable (Waiting i f) :=
  inferInstanceAs (Decidable (_ ∧ _))

/-- A batch goes into the channel of sink `i` only when no earlier one that shares a
partition with it is still waiting. -/
def EnqueuesInOrder (i : Fin n) (s : State n) : Action n → Prop
  | .enqueue k j => j = i → ∀ k' < k, ∀ f' ∈ s.fanouts[k']?, ∀ f ∈ s.fanouts[k]?,
      Waiting i f' → ¬ SharesPartition f'.batch f.batch
  | _ => True

instance (s : State n) (a : Action n) : Decidable (EnqueuesInOrder i s a) := by
  unfold EnqueuesInOrder
  split
  · infer_instance
  · infer_instance

/-- The offsets of the events of a partition, in their order. -/
def offsetsIn (p : TopicPartition) (events : List Event) : List ℤ :=
  (events.filter (fun e => e.topicPartition = p)).map (fun e => e.source.offset)

/-- Offsets strictly increase within each partition. -/
def InOffsetOrder (events : List Event) : Prop :=
  ∀ p, (offsetsIn p events).Pairwise (· < ·)

/-- The events that a source made of the records it has received. -/
def receivedEvents (wiring : Wiring n) (s : State n) : List Event :=
  Source.receiptEvents wiring.source s.source.received

/-- The events of the source passed to `write_batches`, over successive calls. -/
def passedEvents (wiring : Wiring n) (s : State n) (i : Fin n) : List Event :=
  (((s.sinks i).calls.flatMap Sink.Call.batches).flatMap EventBatch.events).filter
    (fun e => e.source.componentId = wiring.source.id)

/-- In the channel of sink `i`, batches that share a partition stand in their order. -/
structure Ordered (wiring : Wiring n) (s : State n) (i : Fin n) : Prop where
  arrived : (s.sinks i).arrived.Pairwise (fun e e' =>
    e.ack.source = wiring.source.id → e'.ack.source = wiring.source.id →
    SharesPartition e.batch e'.batch → e.ack.sequence < e'.ack.sequence)
  waiting : ∀ e ∈ (s.sinks i).arrived, e.ack.source = wiring.source.id →
    ∀ k ≤ e.ack.sequence, ∀ f, s.fanouts[k]? = some f → Waiting i f →
      ¬ SharesPartition f.batch e.batch
  foreign : ∀ e ∈ (s.sinks i).arrived, e.ack.source ≠ wiring.source.id →
    ∀ ev ∈ e.batch.events, ev.source.componentId ≠ wiring.source.id

theorem start_ordered (wiring : Wiring n) (now : ℕ) (i : Fin n) :
    Ordered wiring (State.start n now) i where
  arrived := List.Pairwise.nil
  waiting := by simp [State.start, Sink.State.start]
  foreign := by simp [State.start, Sink.State.start]

/-- A step that adds nothing of the source to the channel. -/
theorem Ordered.keep (h : Ordered wiring s i)
    (harrived : (s'.sinks i).arrived = (s.sinks i).arrived ∨ ∃ e,
      (s'.sinks i).arrived = (s.sinks i).arrived ++ [e] ∧ e.ack.source ≠ wiring.source.id ∧
        ∀ ev ∈ e.batch.events, ev.source.componentId = e.ack.source)
    (hwaiting : ∀ e ∈ (s.sinks i).arrived, e.ack.source = wiring.source.id →
      ∀ k ≤ e.ack.sequence, ∀ f', s'.fanouts[k]? = some f' → Waiting i f' →
        ∃ f, s.fanouts[k]? = some f ∧ Waiting i f ∧ f.batch = f'.batch) :
    Ordered wiring s' i := by
  have hold : ∀ e ∈ (s.sinks i).arrived, e.ack.source = wiring.source.id →
      ∀ k ≤ e.ack.sequence, ∀ f', s'.fanouts[k]? = some f' → Waiting i f' →
        ¬ SharesPartition f'.batch e.batch := by
    intro e he hown k hk f' hf' hwait
    obtain ⟨f, hf, hwait', hbatch⟩ := hwaiting e he hown k hk f' hf' hwait
    rw [← hbatch]
    exact h.waiting e he hown k hk f hf hwait'
  rcases harrived with hsame | ⟨e, happend, hforeign, hevents⟩
  · refine ⟨hsame ▸ h.arrived, ?_, hsame ▸ h.foreign⟩
    rw [hsame]
    exact hold
  · have hlast : ∀ {P : Sink.SinkEnvelope → Prop}, (∀ x ∈ (s.sinks i).arrived, P x) → P e →
        ∀ x ∈ (s'.sinks i).arrived, P x := by
      intro P hall he x hx
      rw [happend] at hx
      rcases List.mem_append.mp hx with hx | hx
      · exact hall x hx
      · rwa [List.mem_singleton.mp hx]
    refine ⟨?_, hlast hold (fun hown => absurd hown hforeign), hlast h.foreign ?_⟩
    · rw [happend, List.pairwise_append]
      refine ⟨h.arrived, List.pairwise_singleton _ _, ?_⟩
      intro x _ y hy _ hown
      rw [List.mem_singleton.mp hy] at hown
      exact absurd hown hforeign
    · intro _ ev hev
      rw [hevents ev hev]
      exact hforeign

theorem Waiting.before {f f' : Fanout.State n} {a : Fanout.Action n}
    (hs : Fanout.step f a = some f') (h : Waiting i f') : Waiting i f :=
  ⟨(Fanout.step_evolves hs).phase h.1, (Fanout.step_evolves hs).stage i h.2⟩

/-- A step of one fan-out: what waits after it was waiting before. -/
theorem waiting_set {k : ℕ} {f f' : Fanout.State n} {a : Fanout.Action n}
    (hf : s.fanouts[k]? = some f) (hs : Fanout.step f a = some f') {j : ℕ} {g : Fanout.State n}
    (hg : (s.fanouts.set k f')[j]? = some g) (hwait : Waiting i g) :
    ∃ g', s.fanouts[j]? = some g' ∧ Waiting i g' ∧ g'.batch = g.batch := by
  by_cases hj : j = k
  · subst j
    rw [List.getElem?_set_self (List.getElem?_eq_some_iff.mp hf).1] at hg
    obtain rfl : f' = g := Option.some.inj hg
    exact ⟨f, hf, hwait.before hs, (Fanout.step_evolves hs).batch.symm⟩
  · rw [List.getElem?_set_ne (Ne.symm hj)] at hg
    exact ⟨g, hg, hwait, rfl⟩

/-- An envelope that is enqueued in order follows those it shares a partition with. -/
theorem enqueue_ordered (h : Ordered wiring s i) {k : ℕ}
    {f f' : Fanout.State n} {sink : Sink.State} (hf : s.fanouts[k]? = some f)
    (hs : Fanout.step f (.enqueue i) = some f')
    (harrive : Sink.step (wiring.runtimes i) (s.sinks i) (.arrive (envelopeOf wiring k f)) =
      some sink)
    (hinOrder : EnqueuesInOrder i s (.enqueue k i)) :
    Ordered wiring { s with
      fanouts := s.fanouts.set k f'
      sinks := Function.update s.sinks i sink } i := by
  have hwait : Waiting i f := by
    simp only [Fanout.step, Fanout.enqueue, Option.ite_none_right_eq_some] at hs
    exact hs.1
  have hgone : ¬ Waiting i f' := by
    simp only [Fanout.step, Fanout.enqueue, Option.ite_none_right_eq_some,
      Option.some.injEq] at hs
    obtain ⟨-, rfl⟩ := hs
    simp [Waiting, Fanout.State.modify]
  have harrived : sink.arrived = (s.sinks i).arrived ++ [envelopeOf wiring k f] := by
    simp only [Sink.step, Sink.arrive, Option.ite_none_right_eq_some, Option.some.injEq]
      at harrive
    rw [← harrive.2]
  refine ⟨?_, ?_, ?_⟩ <;> dsimp only <;> rw [Function.update_self, harrived]
  · rw [List.pairwise_append]
    refine ⟨h.arrived, List.pairwise_singleton _ _, ?_⟩
    intro e he e' he' hown _ hshares
    rw [List.mem_singleton.mp he'] at hshares ⊢
    by_contra hle
    exact h.waiting e he hown k (Nat.le_of_not_lt hle) f hf hwait hshares.symm
  · intro e he hown j hj g hg hwaiting
    rcases List.mem_append.mp he with he | he
    · obtain ⟨g', hg', hwait', hbatch⟩ := waiting_set hf hs hg hwaiting
      rw [← hbatch]
      exact h.waiting e he hown j hj g' hg' hwait'
    · rw [List.mem_singleton.mp he] at hj ⊢
      change j ≤ k at hj
      rcases Nat.lt_or_eq_of_le hj with hlt | rfl
      · rw [List.getElem?_set_ne (Nat.ne_of_gt hlt)] at hg
        exact hinOrder rfl j hlt g hg f hf hwaiting
      · rw [List.getElem?_set_self (List.getElem?_eq_some_iff.mp hf).1] at hg
        exact absurd (Option.some.inj hg ▸ hwaiting) hgone
  · intro e he hforeign
    rcases List.mem_append.mp he with he | he
    · exact h.foreign e he hforeign
    · rw [List.mem_singleton.mp he] at hforeign
      exact absurd rfl hforeign

theorem Move.ordered {a : Action n} (hmove : Move wiring s a s') (hinv : Inv wiring s)
    (h : Ordered wiring s i) (hinOrder : EnqueuesInOrder i s a) : Ordered wiring s' i := by
  cases hmove with
  | source _ a' source hs hjoin hrecv =>
    refine h.keep (Or.inl rfl) ?_
    intro e he hown k hk f hf hwait
    obtain ⟨g, hg, -⟩ := hinv.envelopes i e he hown
    have hlt := (List.getElem?_eq_some_iff.mp hg).1
    refine ⟨f, ?_, hwait, rfl⟩
    exact (List.getElem?_append_left (Nat.lt_of_le_of_lt hk hlt)).symm.trans hf
  | fanout _ k a' f f' hf hs hdelivered =>
    exact h.keep (Or.inl rfl) (fun e he hown j hj g hg hwait => waiting_set hf hs hg hwait)
  | enqueue k j f f' sink hf hs harrive =>
    by_cases hj : i = j
    · subst j
      exact enqueue_ordered h hf hs harrive hinOrder
    · refine h.keep (Or.inl ?_) (fun e he hown j hj g hg hwait => waiting_set hf hs hg hwait)
      dsimp only
      rw [Function.update_of_ne hj]
  | sink _ j a' sink hs hforeign =>
    refine h.keep ?_ (fun e he hown k hk f hf hwait => ⟨f, hf, hwait, rfl⟩)
    dsimp only
    by_cases hj : i = j
    · subst j
      rw [Function.update_self]
      refine (Sink.step_extends (hinv.sink i) hs).arrived.imp_right ?_
      rintro ⟨e, ha, happend⟩
      exact ⟨e, happend, hforeign e ha⟩
    · rw [Function.update_of_ne hj]
      exact Or.inl rfl

theorem reachable_ordered {now : ℕ} (h : (system wiring now).ReachableBy (EnqueuesInOrder i) s) :
    Inv wiring s ∧ Ordered wiring s i := by
  have hstart : Inv wiring (State.start n now) ∧ Ordered wiring (State.start n now) i :=
    ⟨start_inv wiring now, start_ordered wiring now i⟩
  apply System.ReachableBy.invariant hstart _ h
  intro t a t' hi hinOrder hs
  exact ⟨step_inv hi.1 hs, (step_move hs).ordered hi.1 hi.2 hinOrder⟩

theorem offsetsIn_sublist {events events' : List Event} (p : TopicPartition)
    (h : events.Sublist events') : (offsetsIn p events).Sublist (offsetsIn p events') :=
  (h.filter _).map _

theorem offsetsIn_flatMap {α : Type} (l : List α) (f : α → List Event) (p : TopicPartition) :
    offsetsIn p (l.flatMap f) = l.flatMap (fun x => offsetsIn p (f x)) := by
  rw [offsetsIn, List.filter_flatMap, List.map_flatMap]
  rfl

theorem sharesPartition_of_mem {b b' : EventBatch} {p : TopicPartition} {x y : ℤ}
    (hx : x ∈ offsetsIn p b.events) (hy : y ∈ offsetsIn p b'.events) : SharesPartition b b' := by
  obtain ⟨e, he, -⟩ := List.mem_map.mp hx
  obtain ⟨e', he', -⟩ := List.mem_map.mp hy
  obtain ⟨he, htp⟩ := List.mem_filter.mp he
  obtain ⟨he', htp'⟩ := List.mem_filter.mp he'
  exact ⟨e, he, e', he', (of_decide_eq_true htp).trans (of_decide_eq_true htp').symm⟩

/-- Batches dispatched from records received in order are in order themselves. -/
theorem dispatched_inOrder (h : Inv wiring s) (hreceived : InOffsetOrder (receivedEvents wiring s))
    (p : TopicPartition) :
    (∀ d ∈ s.source.dispatched, (offsetsIn p d.batch.events).Pairwise (· < ·)) ∧
      s.source.dispatched.Pairwise (fun d d' =>
        ∀ x ∈ offsetsIn p d.batch.events, ∀ y ∈ offsetsIn p d'.batch.events, x < y) := by
  have hsub : (s.source.dispatched.flatMap (fun d => d.batch.events)).Sublist
      (receivedEvents wiring s) := by
    have hbatches : s.source.dispatched.flatMap (fun d => d.batch.events) =
        s.source.dispatched.flatMap
          (fun d => Source.receiptEvents wiring.source d.receipts) := by
      apply List.flatMap_congr
      intro d hd
      exact (h.source.dispatches d hd).events
    rw [hbatches, receivedEvents, h.source.received_eq, Source.receiptEvents, List.map_append,
      List.map_flatMap]
    exact List.sublist_append_left _ _
  have hpairwise := (hreceived p).sublist (offsetsIn_sublist p hsub)
  rw [offsetsIn_flatMap, List.pairwise_flatMap] at hpairwise
  exact hpairwise

/-- What arrived of the source is in order, if it was enqueued in order. -/
theorem arrived_inOrder (hinv : Inv wiring s) (h : Ordered wiring s i)
    (hreceived : InOffsetOrder (receivedEvents wiring s)) :
    InOffsetOrder (((s.sinks i).arrived.flatMap (fun e => e.batch.events)).filter
      (fun e => e.source.componentId = wiring.source.id)) := by
  intro p
  obtain ⟨hwithin, hacross⟩ := dispatched_inOrder hinv hreceived p
  rw [List.filter_flatMap, offsetsIn_flatMap, List.pairwise_flatMap]
  -- Only an envelope of the source has events of the source, and its batch was dispatched.
  have hown : ∀ e ∈ (s.sinks i).arrived, ∀ x ∈ offsetsIn p (e.batch.events.filter
      (fun ev => ev.source.componentId = wiring.source.id)),
      e.ack.source = wiring.source.id ∧ x ∈ offsetsIn p e.batch.events := by
    intro e he x hx
    refine ⟨?_, (offsetsIn_sublist p List.filter_sublist).subset hx⟩
    by_contra hforeign
    obtain ⟨ev, hev, -⟩ := List.mem_map.mp hx
    obtain ⟨hev, hid⟩ := List.mem_filter.mp (List.mem_of_mem_filter hev)
    exact h.foreign e he hforeign ev hev (of_decide_eq_true hid)
  have hdispatched : ∀ e ∈ (s.sinks i).arrived, e.ack.source = wiring.source.id →
      ∃ d, s.source.dispatched[e.ack.sequence]? = some d ∧ d.batch = e.batch := by
    intro e he hack
    obtain ⟨f, hf, hbatch⟩ := hinv.envelopes i e he hack
    obtain ⟨d, hd, hreach⟩ := hinv.fanouts _ f hf
    exact ⟨d, hd, (Fanout.reachable_batch hreach).symm.trans hbatch⟩
  constructor
  · intro e he
    by_cases hack : e.ack.source = wiring.source.id
    · obtain ⟨d, hd, hbatch⟩ := hdispatched e he hack
      refine List.Pairwise.sublist (offsetsIn_sublist p List.filter_sublist) ?_
      rw [← hbatch]
      exact hwithin d (List.mem_of_getElem? hd)
    · have hnil : offsetsIn p (e.batch.events.filter
          (fun ev => ev.source.componentId = wiring.source.id)) = [] :=
        List.eq_nil_iff_forall_not_mem.mpr (fun x hx => hack (hown e he x hx).1)
      rw [hnil]
      exact List.Pairwise.nil
  · refine h.arrived.imp_of_mem ?_
    intro e e' he he' hbefore x hx y hy
    obtain ⟨hack, hx⟩ := hown e he x hx
    obtain ⟨hack', hy⟩ := hown e' he' y hy
    obtain ⟨d, hd, hbatch⟩ := hdispatched e he hack
    obtain ⟨d', hd', hbatch'⟩ := hdispatched e' he' hack'
    have hlt := hbefore hack hack' (sharesPartition_of_mem hx hy)
    obtain ⟨hk, rfl⟩ := List.getElem?_eq_some_iff.mp hd
    obtain ⟨hk', rfl⟩ := List.getElem?_eq_some_iff.mp hd'
    rw [← hbatch] at hx
    rw [← hbatch'] at hy
    exact List.pairwise_iff_getElem.mp hacross _ _ hk hk' hlt x hx y hy

/-- Order at a sink with one write at a time, in every run in which a batch is put into
its channel only when no earlier one that shares a partition with it is still waiting:
if the records were received in the order of their offsets and no write attempt failed,
the events passed to successive calls of `write_batches` are in that order as well. -/
theorem passed_inOrder {now : ℕ} (hone : (wiring.runtimes i).settings.maxConcurrentWrites = 1)
    (h : (system wiring now).ReachableBy (EnqueuesInOrder i) s)
    (hreceived : InOffsetOrder (receivedEvents wiring s))
    (hok : ∀ a ∈ (s.sinks i).attempts, a.succeeded = true) :
    InOffsetOrder (passedEvents wiring s i) := by
  obtain ⟨hinv, hordered⟩ := reachable_ordered h
  obtain ⟨sinkNow, hsink⟩ := hinv.sinks i
  have hcalls := (Sink.calls_arrived hsink hone hok).sublist
  have hsub : (passedEvents wiring s i).Sublist
      (((s.sinks i).arrived.flatMap (fun e => e.batch.events)).filter
        (fun e => e.source.componentId = wiring.source.id)) := by
    refine List.Sublist.filter _ ?_
    have hflat := hcalls.flatMap EventBatch.events
    rwa [Sink.batches, List.flatMap_map] at hflat
  intro p
  exact (arrived_inOrder hinv hordered hreceived p).sublist (offsetsIn_sublist p hsub)

/-- Batches of one event, two of them in flight, and a sink with one write at a time. -/
def singleWiring : Wiring 1 where
  source :=
    { Source.pairSource with config := { Source.pairSource.config with batchSize := 1 } }
  runtimes := fun _ => Sink.sequential

/-- Two batches are dispatched; their tasks enqueue them in the order `first`, `second`. -/
def enqueueBoth (first second : ℕ) : List (Action 1) :=
  [.source (.recv (Source.message 0)), .source (.recv (Source.message 1)),
    .enqueue first (Fin.last 0), .enqueue second (Fin.last 0)] ++
  [.recv, .dispatch, .begin 0, .attempted 0 (.ok ⟨1, 0⟩), .reap 0, .recv, .dispatch,
    .begin 0].map (.sink (Fin.last 0))

theorem inOffsetOrder_of_increasing {events : List Event}
    (h : (events.map (fun e => e.source.offset)).Pairwise (· < ·)) : InOffsetOrder events :=
  fun _ => h.sublist (List.filter_sublist.map _)

/-- The task of the second batch runs first: no write fails, yet the sink is passed
offset 1 before offset 0. -/
theorem enqueueBoth_reversed : ∃ s : State 1, (system singleWiring 0).Reachable s ∧
    (singleWiring.runtimes 0).settings.maxConcurrentWrites = 1 ∧
    InOffsetOrder (receivedEvents singleWiring s) ∧
    (∀ a ∈ (s.sinks 0).attempts, a.succeeded = true) ∧
    ¬ InOffsetOrder (passedEvents singleWiring s 0) := by
  have hrun : ((system singleWiring 0).run (State.start 1 0) (enqueueBoth 1 0)).map
      (fun s => ((receivedEvents singleWiring s).map (fun e => e.source.offset),
        (s.sinks 0).attempts.all Sink.Attempt.succeeded,
        offsetsIn ("input", 0) (passedEvents singleWiring s 0))) =
          some ([0, 1], true, [1, 0]) := by decide
  obtain ⟨s, hs, hview⟩ := Option.map_eq_some_iff.mp hrun
  simp only [Prod.mk.injEq] at hview
  obtain ⟨hreceived, hok, hpassed⟩ := hview
  refine ⟨s, System.Reachable.run System.ReachableBy.start hs, rfl,
    inOffsetOrder_of_increasing (by rw [hreceived]; decide), by simpa using hok, ?_⟩
  intro hinOrder
  have hpair := hinOrder ("input", 0)
  rw [hpassed] at hpair
  revert hpair
  decide

theorem passed_inOrder_enqueueBoth : ∃ s : State 1,
    offsetsIn ("input", 0) (passedEvents singleWiring s 0) = [0, 1] ∧
      InOffsetOrder (passedEvents singleWiring s 0) := by
  have hrun : ((system singleWiring 0).runBy (EnqueuesInOrder 0) (State.start 1 0)
      (enqueueBoth 0 1)).map
        (fun s => ((receivedEvents singleWiring s).map (fun e => e.source.offset),
          (s.sinks 0).attempts.all Sink.Attempt.succeeded,
          offsetsIn ("input", 0) (passedEvents singleWiring s 0))) =
            some ([0, 1], true, [0, 1]) := by decide
  obtain ⟨s, hs, hview⟩ := Option.map_eq_some_iff.mp hrun
  simp only [Prod.mk.injEq] at hview
  obtain ⟨hreceived, hok, hpassed⟩ := hview
  have hreach : (system singleWiring 0).ReachableBy (EnqueuesInOrder 0) s :=
    System.ReachableBy.start.runBy hs
  exact ⟨s, hpassed, passed_inOrder rfl hreach
    (inOffsetOrder_of_increasing (by rw [hreceived]; decide)) (by simpa using hok)⟩

end Rustper.Router
