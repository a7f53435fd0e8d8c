import Rustper.Cluster
import Rustper.Library.Refinement
import Rustper.Library.Relay

/-!
A deployment is a relay. Of all that goes on in it, the logs, the committed offsets and what
the destinations hold are all that a relay knows, and every step is to them nothing or a
step that a relay may take.
-/
namespace Rustper.Cluster

open TransitionSystem Destination

/-- The records of a source are to be copied to the sinks that list it. -/
def Site.relay (d : Site) : Relay.Spec d.SourceId d.SinkId TopicPartition Record Item where
  feeds := fun k i => Topology.lists (d.sink i).2 (d.sourceId k) = true
  partition := Record.topicPartition
  offset := Record.offset
  copy := fun k i r => item? (d.sink i).2 (toEvent (d.sourceId k) r)

variable {d : Site} {s s' : State d} {k : d.SourceId} {i : d.SinkId}

def State.relay (s : State d) : Relay.State d.SourceId d.SinkId TopicPartition Record Item where
  log := fun k p => ((s.groups k).log p).records
  mark := fun k => (s.groups k).committed
  held := s.held

theorem mem_outputs : i ∈ d.plan.outputs k ↔ d.relay.feeds k i := by
  simp [Site.relay, Site.sink, Site.sourceId, Topology.plan]

theorem feeds_iff_target : d.relay.feeds k i ↔ ∃ j, d.plan.target k j = i := by
  rw [← mem_outputs, List.mem_iff_get]
  rfl

theorem source_id (k : d.SourceId) : (d.plan.sources k).id = d.sourceId k :=
  Topology.build_id _ _

/-- What an offset covers the destinations hold. -/
theorem Inv.copied_of_covers (h : Inv s) {p : TopicPartition} {o : ℤ}
    (hcovers : Pipeline.Covers (d.plan.wiring k) (s.pipeline k) [] p o) :
    Relay.Copied d.relay s.relay k p o := by
  have hdeployment := Deployment.reachable_inv (h.deployment k)
  refine ⟨hcovers.bounded, ?_⟩
  intro r hr hlt i hfeeds item hitem
  obtain ⟨j, rfl⟩ := feeds_iff_target.mp hfeeds
  have hdelivered := (hcovers.below r hr hlt).resolve_right List.not_mem_nil
  refine hdeployment.written j _ (hdelivered j) item ?_
  have hid := source_id k
  simp only [Process.Plan.wiring, hid]
  exact hitem

/-- What a call of `write_batches` puts at a destination was made of records of sources that
the sink lists. -/
theorem Inv.genuine_of_answer (h : Inv s) {process process' : Process.State d.plan}
    (hp : s.process = some process) {task : ℕ} {w : Sink.Write} {exchange : Exchange}
    {result : Except String Sink.WriteOutcome} {taken : List Item}
    (hw : (process.control.sinks i).writes[task]? = some w)
    (hperform : perform d.formats (d.sink i).1 (d.sink i).2 (Sink.batches w.envelopes) exchange =
      some (result, taken))
    (hstep : Process.step process (.control (.sink i (.attempted task result))) = some process') :
    ∀ item ∈ taken, Relay.Genuine d.relay s.relay i item := by
  intro item hitem
  obtain ⟨e, hevent, he⟩ := Deployment.mem_items.mp ((perform_subperm hperform).subset hitem)
  rw [← Sink.events_eq] at hevent
  obtain ⟨x, hx, hevent⟩ := List.mem_flatMap.mp hevent
  obtain ⟨now, hreach⟩ := h.running process hp
  have hsink := Sink.reachable_inv
    (Shutdown.reachable_sinksRun (Process.reachable_control hreach) i)
  have hlive : w.live = true := by
    obtain ⟨-, -, sink, hs, -⟩ := step_sink_alone hstep
    exact Sink.live_of_attempted hs hw
  have harrived := hsink.arrived_of_live (List.mem_of_getElem? hw) hlive hx
  obtain ⟨k, hk, hown⟩ := Process.reachable_sourced hreach i x harrived
  obtain ⟨j, rfl⟩ := feeds_iff_target.mp (mem_outputs.mp hk)
  have hview := Router.reachable_inv (Process.reachable_view hreach k)
  have harrived' : x ∈ ((process.view k).sinks j).arrived := harrived
  obtain ⟨r, hr, rfl⟩ := hview.event_of_own harrived' hown hevent
  have hprocess : (s.pipeline k).process = some (process.view k) := by
    simp only [State.pipeline, hp, Option.map_some]
  have hlog := Pipeline.received_genuine (Deployment.reachable_inv (h.deployment k)).pipeline
    hprocess hr
  refine ⟨k, mem_outputs.mp hk, r.record, hlog, ?_⟩
  have hid := source_id k
  simp only [Process.Plan.wiring, hid] at he
  exact he

/-- Brokers that change neither their logs nor their offsets. -/
theorem relay_of_same (hlog : ∀ k, (s'.groups k).log = (s.groups k).log)
    (hcommitted : ∀ k, (s'.groups k).committed = (s.groups k).committed)
    (hheld : s'.held = s.held) : s'.relay = s.relay := by
  simp only [State.relay, hlog, hcommitted, hheld]

theorem Ran.relay_eq {process process' : Process.State d.plan} (h : Ran s s' process process') :
    s'.relay = s.relay :=
  relay_of_same (fun k => by rw [h.groups]) (fun k => by rw [h.groups]) h.held

theorem relay_setGroup (s : State d) (k : d.SourceId) (g : Group) :
    (s.setGroup k g).relay =
      { log := Function.update s.relay.log k (fun p => (g.log p).records)
        mark := Function.update s.relay.mark k g.committed
        held := s.relay.held } := by
  simp only [State.relay, State.setGroup, Relay.State.mk.injEq, and_true]
  refine ⟨funext fun l => ?_, funext fun l => ?_⟩
  · by_cases hl : l = k
    · subst hl
      simp only [Function.update_self]
    · simp only [Function.update_of_ne hl]
  · by_cases hl : l = k
    · subst hl
      simp only [Function.update_self]
    · simp only [Function.update_of_ne hl]

theorem relay_log_same (s : State d) (k : d.SourceId) :
    Function.update s.relay.log k (fun p => ((s.groups k).log p).records) = s.relay.log :=
  Function.update_eq_self k s.relay.log

theorem relay_mark_same (s : State d) (k : d.SourceId) :
    Function.update s.relay.mark k (s.groups k).committed = s.relay.mark :=
  Function.update_eq_self k s.relay.mark

/-- A group whose log and offsets stay. -/
theorem same_refines {g : Group} (hlog : g.log = (s.groups k).log)
    (hcommitted : g.committed = (s.groups k).committed) :
    Relation.ReflGen (Relay.Step d.relay) s.relay (s.setGroup k g).relay := by
  rw [relay_setGroup, hlog, hcommitted, relay_log_same, relay_mark_same]

/-- A group whose log grows by a record. -/
theorem append_refines {g : Group} {r : Record}
    (hfits : ((s.groups k).log r.topicPartition).Fits r)
    (hlog : g.log = Function.update (s.groups k).log r.topicPartition
      (Pipeline.PartitionLog.append (s.groups k).log r hfits))
    (hcommitted : g.committed = (s.groups k).committed) :
    Relation.ReflGen (Relay.Step d.relay) s.relay (s.setGroup k g).relay := by
  have hlogs : (fun p => (g.log p).records) = Function.update (s.relay.log k) r.topicPartition
      (s.relay.log k r.topicPartition ++ [r]) := by
    funext p
    rw [hlog]
    by_cases hp : p = r.topicPartition
    · subst hp
      rw [Function.update_self, Function.update_self]
      rfl
    · rw [Function.update_of_ne hp, Function.update_of_ne hp]
      rfl
  rw [relay_setGroup, hlogs, hcommitted, relay_mark_same]
  exact .single (.append k r hfits.2)

/-- A group with a new committed offset, which covers its log. -/
theorem mark_refines {g : Group} {p : TopicPartition} {o : ℤ}
    (hcopied : Relay.Copied d.relay s.relay k p o) (hlog : g.log = (s.groups k).log)
    (hcommitted : g.committed = Function.update (s.groups k).committed p (some o)) :
    Relation.ReflGen (Relay.Step d.relay) s.relay (s.setGroup k g).relay := by
  rw [relay_setGroup, hlog, hcommitted, relay_log_same]
  exact .single (.mark k p o hcopied)

theorem broker_refines {a : Pipeline.Action (d.plan.width k)} (h : Inv s)
    (hs : brokerStep s k a = some s') :
    Relation.ReflGen (Relay.Step d.relay) s.relay s'.relay := by
  obtain ⟨ha, hstep, hs'⟩ := brokerStep_some hs
  generalize s'.pipeline k = next at hstep hs'
  rw [hs']
  cases a with
  | append r =>
    simp only [Pipeline.step, Pipeline.append] at hstep
    split at hstep
    · rename_i hfits
      cases hstep
      exact append_refines hfits rfl rfl
    · contradiction
  | assign p =>
    cases hstep
    exact same_refines rfl rfl
  | revoke p =>
    cases hstep
    exact same_refines rfl rfl
  | applyCommit c =>
    obtain ⟨entry, hentry, hstep⟩ := Option.bind_eq_some_iff.mp hstep
    cases hstep
    have hinv := Pipeline.reachable_inv (Deployment.reachable_inv (h.deployment k)).pipeline
    have hcovers := hinv.inTransit entry (List.mem_of_getElem? hentry)
    exact mark_refines (h.copied_of_covers hcovers) rfl rfl
  | loseCommit c =>
    obtain ⟨entry, -, hstep⟩ := Option.bind_eq_some_iff.mp hstep
    cases hstep
    exact same_refines rfl rfl
  | _ => contradiction

theorem step_refines {a : Action d} (h : Inv s) (hs : step s a = some s') :
    Relation.ReflGen (Relay.Step d.relay) s.relay s'.relay := by
  cases a with
  | broker k action => exact broker_refines h hs
  | start now =>
    simp only [step, startProcess] at hs
    split at hs
    · cases hs
      exact .refl
    · contradiction
  | crash =>
    simp only [step, crash] at hs
    split at hs
    · contradiction
    · cases hs
      exact .refl
  | recv k p =>
    simp only [step, recv, Option.bind_eq_bind, Option.bind_eq_some_iff] at hs
    obtain ⟨r, hr, t, ht, hs⟩ := hs
    obtain ⟨process, process', -, hran⟩ := runProcess_ran ht
    cases hs
    rw [← hran.relay_eq]
    exact same_refines rfl rfl
  | process action =>
    obtain ⟨process, process', -, hran⟩ := runProcess_ran (processStep_some hs).1
    rw [hran.relay_eq]
  | answer i task exchange =>
    obtain ⟨process, process', w, result, taken, t, hw, hperform, hstep, hran, rfl⟩ :=
      answer_some hs
    have hput : State.relay { t with held := Function.update s.held i (s.held i ++ taken) } =
        s.relay.put i taken := by
      rw [← hran.relay_eq]
      simp only [Relay.State.put, State.relay, hran.held]
    rw [hput]
    exact .single (.put i taken (h.genuine_of_answer hran.old hw hperform hstep))

/-- Every run of a deployment is the run of a relay: what is appended to the logs, what the
destinations acknowledge and what the brokers take for committed happens in an order in
which a relay may do it. -/
theorem refines_relay (d : Site) :
    Refines (system d) Relay.State.start (Relay.Step d.relay) State.relay where
  start := rfl
  step := fun _ _ _ h hs => step_refines (reachable_inv h) hs

theorem reachable_relay (h : (system d).Reachable s) : Relay.Inv d.relay s.relay :=
  (Refines.mk rfl fun _ _ _ h hs => step_refines (reachable_inv h) hs).invariant
    (Relay.start_inv d.relay) (fun _ _ hinv hstep => hstep.inv hinv) h

/-- A deployment of any configuration delivers at least once and makes nothing up, in every
run of processes, crashes, restarts and reassignments and with any answers of the Kafka
producers and ClickHouse servers. A record below a committed offset of a source is at the
destination of every sink that lists the source, unless a ClickHouse sink in JSON mode
refuses its payload; and a destination holds only what was made of records of sources that
its sink lists. -/
theorem delivers_at_least_once (h : (system d).Reachable s) :
    (∀ k p x, (s.groups k).committed p = some x → ∀ r ∈ ((s.groups k).log p).records,
      r.offset < x → ∀ i, d.sourceId k ∈ (d.sink i).2.inputs →
        refuses (d.sink i).2 (toEvent (d.sourceId k) r) = true ∨
        ∃ item ∈ s.held i, item? (d.sink i).2 (toEvent (d.sourceId k) r) = some item) ∧
    ∀ i, ∀ item ∈ s.held i, ∃ k, d.sourceId k ∈ (d.sink i).2.inputs ∧
      ∃ r ∈ ((s.groups k).log r.topicPartition).records,
        item? (d.sink i).2 (toEvent (d.sourceId k) r) = some item := by
  have hrelay := reachable_relay h
  refine ⟨?_, ?_⟩
  · intro k p x hx r hr hlt i hlists
    have hcopied := hrelay.marked k p x hx
    cases hitem : item? (d.sink i).2 (toEvent (d.sourceId k) r) with
    | none => exact Or.inl (item?_eq_none_iff.mp hitem)
    | some item =>
      exact Or.inr ⟨item, hcopied.below r hr hlt i (Topology.lists_iff.mpr hlists) item hitem, rfl⟩
  · intro i item hitem
    obtain ⟨k, hfeeds, r, hr, hcopy⟩ := hrelay.genuine i item hitem
    exact ⟨k, Topology.lists_iff.mp hfeeds, r, hr, hcopy⟩

def orphanSite : Site := ⟨Sink.plainFormats, .checked, Topology.orphanConfig⟩

/-- The first batch of the source that is listed. -/
def firstEnvelope : Sink.SinkEnvelope := ⟨EventBatch.new [toEvent "a" (Source.message 0)], ⟨"a", 0⟩⟩

/-- A record is accepted by the destination and committed, and the commit takes effect when
the process is gone. -/
def relayedAndCommitted (k : orphanSite.SourceId) (i : orphanSite.SinkId)
    (j : Fin (orphanSite.plan.width k)) : List (Action orphanSite) :=
  [.broker k (.append (Source.message 0)), .start 0, .broker k (.assign ("input", 0)),
    .recv k ("input", 0), .process (.part k (.enqueue 0 j)), .process (.control (.sink i .recv)),
    .process (.control (.sink i .dispatch)), .process (.control (.sink i (.begin 0))),
    .answer i 0 (.producer 0 [.send (.ok ()), .report 0 none, .settle 0, .done]),
    .process (.part k (.settle j ⟨firstEnvelope, some 0, .delivered⟩)),
    .process (.part k (.fanout 0 .joinSends)), .process (.part k (.fanout 0 .acknowledged)),
    .process (.part k (.join 0 (fun _ => true))), .crash, .broker k (.applyCommit 0)]

theorem delivers_at_least_once_orphan : ∃ (s : State orphanSite) (k : orphanSite.SourceId)
    (i : orphanSite.SinkId), (s.groups k).committed ("input", 0) = some 1 ∧
      ∃ item ∈ s.held i, item? (.kafka Topology.kafkaOut) (toEvent "a" (Source.message 0)) =
        some item := by
  let k : orphanSite.SourceId := ⟨0, by decide⟩
  let i : orphanSite.SinkId := ⟨0, by decide⟩
  have hrun : ((system orphanSite).run (State.start _)
      (relayedAndCommitted k i ⟨0, by decide⟩)).map (fun s =>
        ((s.groups k).committed ("input", 0), ((s.groups k).log ("input", 0)).records)) =
          some (some 1, [Source.message 0]) := by decide
  obtain ⟨s, hs, hview⟩ := Option.map_eq_some_iff.mp hrun
  obtain ⟨hcommitted, hlog⟩ := Prod.mk.inj hview
  have hreach : (system orphanSite).Reachable s := System.Reachable.run System.ReachableBy.start hs
  have hmem : Source.message 0 ∈ ((s.groups k).log ("input", 0)).records := by
    rw [hlog]
    exact List.mem_singleton.mpr rfl
  have hheld := (delivers_at_least_once hreach).1 k _ _ hcommitted _ hmem (by decide) i (by decide)
  exact ⟨s, k, i, hcommitted, hheld.resolve_left (by decide)⟩

end Rustper.Cluster
