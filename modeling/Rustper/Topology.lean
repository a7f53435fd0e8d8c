import Rustper.Library.Overrides
import Rustper.RouterInvariant
import Rustper.SourceConservation
import Rustper.Validation

/-!
The graph that `topology::run` wires from a configuration: one channel for each sink,
and for each source the senders of the sinks that list it. Both loops iterate over the
maps of the configuration in some order.
-/
namespace Rustper.Topology

open TransitionSystem Fallible

/-- The sender of a sink's channel, with what the task of that sink was given. -/
structure Sender where
  sink : String
  runtime : Sink.Runtime

def sender (id : String) (sink : SinkConfig) : Sender where
  sink := id
  runtime :=
    { capacity := sink.bufferCapacity
      batching := sink.batchSettings
      settings := sink.runtimeSettings }

/-- A source task with the destinations of its fan-out. -/
structure SourceTask where
  source : Source.KafkaSource
  destinations : List Sender

/-- What `sink_inputs` holds once every sink has been spawned. -/
def sinkInputs (config : Config) : ConfigMap Sender :=
  config.sinks.entries.foldl
    (fun inputs entry => inputs.insert entry.1 (sender entry.1 entry.2)) ∅

/-- Whether the sink lists the source in its inputs. -/
def lists (sink : SinkConfig) (source : String) : Bool :=
  sink.inputs.any (fun input => input = source)

/-- `sink_inputs[sink_id]` would panic on an identifier it does not hold. -/
def destinations (config : Config) (source : String) : Option (List Sender) :=
  (config.sinks.entries.filter (fun entry => lists entry.2 source)).mapM
    (fun entry => (sinkInputs config).lookup entry.1)

/-- `source::build`. -/
def build (client : Source.OffsetList) (id : String) : SourceConfig → Source.KafkaSource
  | .kafka config => ⟨id, config, client⟩

def spawnSource (client : Source.OffsetList) (config : Config)
    (entry : Sigma (fun _ : String => SourceConfig)) : Option SourceTask :=
  (destinations config entry.1).map (fun senders => ⟨build client entry.1 entry.2, senders⟩)

/-- The source tasks; `none` where wiring them would panic. -/
def wire (client : Source.OffsetList) (config : Config) : Option (List SourceTask) :=
  config.sources.entries.mapM (spawnSource client config)

/-- `topology::run` up to where its tasks start, when every client of a component could be
created. -/
def run (client : Source.OffsetList) (config : Config) :
    Except ConfigError (Option (List SourceTask)) := do
  config.validate
  pure (wire client config)

/-- The process as one of the sources sees it. -/
def SourceTask.wiring (task : SourceTask) : Router.Wiring task.destinations.length where
  source := task.source
  runtimes := fun i => (task.destinations.get i).runtime

section wiring

variable {client : Source.OffsetList} {config : Config}

theorem destinations_eq (config : Config) (source : String) :
    destinations config source =
      some ((config.sinks.entries.filter (fun entry => lists entry.2 source)).map
        (fun entry => sender entry.1 entry.2)) := by
  apply mapM_eq_some
  intro entry hentry
  exact Overrides.lookup_foldl_of_mem config.sinks.nodupKeys
    (fun entry => sender entry.1 entry.2) ∅ (List.mem_of_mem_filter hentry)

/-- The source task that is spawned for an entry of the configuration. -/
def sourceTask (client : Source.OffsetList) (config : Config)
    (entry : Sigma (fun _ : String => SourceConfig)) : SourceTask where
  source := build client entry.1 entry.2
  destinations := (config.sinks.entries.filter (fun sink => lists sink.2 entry.1)).map
    (fun sink => sender sink.1 sink.2)

theorem wire_eq (client : Source.OffsetList) (config : Config) :
    wire client config = some (config.sources.entries.map (sourceTask client config)) := by
  apply mapM_eq_some
  intro entry _
  rw [spawnSource, destinations_eq]
  rfl

theorem run_eq (h : config.validate = .ok ()) :
    run client config = .ok (some (config.sources.entries.map (sourceTask client config))) := by
  rw [run, h, wire_eq]
  rfl

@[simp] theorem build_id (id : String) (source : SourceConfig) :
    (build client id source).id = id := by
  cases source
  rfl

theorem lists_iff {sink : SinkConfig} {source : String} :
    lists sink source = true ↔ source ∈ sink.inputs := by
  simp [lists]

/-- A key of the map is the key of one entry only. -/
theorem countP_key {entries : List (Sigma (fun _ : String => SinkConfig))}
    (hnodup : entries.NodupKeys) {id : String} {sink : SinkConfig} (h : ⟨id, sink⟩ ∈ entries)
    (p : SinkConfig → Bool) :
    entries.countP (fun entry => decide (entry.1 = id) && p entry.2) =
      if p sink = true then 1 else 0 := by
  obtain ⟨pre, post, rfl⟩ := List.append_of_mem h
  have hkeys : id ∉ pre.keys ∧ id ∉ post.keys := by
    rw [List.NodupKeys, List.keys_append, List.keys_cons] at hnodup
    have hnot := (List.nodup_middle.mp hnodup).notMem
    rwa [List.mem_append, not_or] at hnot
  have hnone : ∀ {l : List (Sigma (fun _ : String => SinkConfig))}, id ∉ l.keys →
      l.countP (fun entry => decide (entry.1 = id) && p entry.2) = 0 := by
    intro l hl
    rw [List.countP_eq_zero]
    intro entry hentry
    have hne : entry.1 ≠ id := fun heq => hl (heq ▸ List.mem_map_of_mem hentry)
    simp [hne]
  rw [List.countP_append, List.countP_cons, hnone hkeys.1, hnone hkeys.2]
  simp

theorem countP_destinations {entry : Sigma (fun _ : String => SourceConfig)} {id : String}
    {sink : SinkConfig} (h : config.sinks.lookup id = some sink) :
    (sourceTask client config entry).destinations.countP (fun d => d.sink = id) =
      if entry.1 ∈ sink.inputs then 1 else 0 := by
  have hmem : ⟨id, sink⟩ ∈ config.sinks.entries := AList.mem_lookup_iff.mp h
  have hcount := countP_key config.sinks.nodupKeys hmem (fun sink => lists sink entry.1)
  rw [sourceTask, List.countP_map, List.countP_filter]
  simpa only [lists_iff, Function.comp_def, sender] using hcount

theorem mem_destinations {entry : Sigma (fun _ : String => SourceConfig)} {d : Sender} :
    d ∈ (sourceTask client config entry).destinations ↔
      ∃ sink, config.sinks.lookup d.sink = some sink ∧ entry.1 ∈ sink.inputs ∧
        d = sender d.sink sink := by
  simp only [sourceTask, List.mem_map, List.mem_filter, lists_iff]
  constructor
  · rintro ⟨⟨id, sink⟩, ⟨hmem, hlists⟩, rfl⟩
    exact ⟨sink, AList.mem_lookup_iff.mpr hmem, hlists, rfl⟩
  · rintro ⟨sink, hlookup, hlists, hd⟩
    exact ⟨⟨d.sink, sink⟩, ⟨AList.mem_lookup_iff.mp hlookup, hlists⟩, hd.symm⟩

/-- What a wired source has committed was handed to its sinks and delivered by them. -/
theorem committed_written (task : SourceTask) {now : ℕ}
    {s : Router.State task.destinations.length}
    (h : (Router.system task.wiring now).Reachable s) {c : Source.BatchCompletion}
    (hc : c ∈ s.source.cursor.committed) :
    ∃ d, s.source.dispatched[c.sequence]? = some d ∧
      ∀ i, ⟨d.batch, ⟨task.source.id, c.sequence⟩⟩ ∈ (s.sinks i).arrived ∧
        ∀ e ∈ d.batch.events, e ∈ (s.sinks i).written := by
  have hinv := Router.reachable_inv h
  obtain ⟨d, hd, -⟩ := hinv.committed.carries c hc
  exact ⟨d, hd, fun i => hinv.delivered_of_committed (Or.inr hc) hd i⟩

/-- The graph of an accepted configuration: it has every source, every sink is fed by
one of them at least, a source has the sender of a sink once if the sink lists it and
not at all otherwise, so it has a destination exactly when some sink lists it. In every
run a source commits only batches that were handed to each of its destinations and
whose events each of them has written. -/
theorem run_wires (client : Source.OffsetList) (h : config.validate = .ok ()) :
    ∃ tasks, run client config = .ok (some tasks) ∧
      tasks.map (fun task => task.source.id) = config.sources.keys ∧
      (∀ id sink, config.sinks.lookup id = some sink →
        ∃ task ∈ tasks, ∃ d ∈ task.destinations, d.sink = id) ∧
      ∀ task ∈ tasks,
        (∀ id sink, config.sinks.lookup id = some sink →
          task.destinations.countP (fun d => d.sink = id) =
            if task.source.id ∈ sink.inputs then 1 else 0) ∧
        (task.destinations ≠ [] ↔
          ∃ id sink, config.sinks.lookup id = some sink ∧ task.source.id ∈ sink.inputs) ∧
        ∀ now s, (Router.system task.wiring now).Reachable s →
          ∀ c ∈ s.source.cursor.committed, ∃ d, s.source.dispatched[c.sequence]? = some d ∧
            ∀ i, ⟨d.batch, ⟨task.source.id, c.sequence⟩⟩ ∈ (s.sinks i).arrived ∧
              ∀ e ∈ d.batch.events, e ∈ (s.sinks i).written := by
  refine ⟨_, run_eq h, ?_, ?_, ?_⟩
  · rw [List.map_map]
    apply List.map_congr_left
    intro entry _
    exact build_id entry.1 entry.2
  · intro id sink hsink
    have hvalid := (Config.validate_ok h).2.2.1 ⟨id, sink⟩ (AList.mem_lookup_iff.mp hsink)
    obtain ⟨input, hinput⟩ := List.exists_mem_of_ne_nil _ hvalid.inputs
    obtain ⟨source, hsource⟩ := Option.isSome_iff_exists.mp
      (AList.lookup_isSome.mpr (hvalid.known input hinput))
    have hentry : ⟨input, source⟩ ∈ config.sources.entries := AList.mem_lookup_iff.mp hsource
    refine ⟨_, List.mem_map_of_mem hentry, sender id sink, ?_, rfl⟩
    exact mem_destinations.mpr ⟨sink, hsink, hinput, rfl⟩
  · intro task htask
    obtain ⟨entry, hentry, rfl⟩ := List.mem_map.mp htask
    have hid : (sourceTask client config entry).source.id = entry.1 := build_id entry.1 entry.2
    refine ⟨?_, ?_, fun now s hreach c hc => committed_written _ hreach hc⟩
    · intro id sink hsink
      rw [hid]
      exact countP_destinations hsink
    · rw [hid]
      constructor
      · intro hne
        obtain ⟨d, hd⟩ := List.exists_mem_of_ne_nil _ hne
        obtain ⟨sink, hsink, hlists, -⟩ := mem_destinations.mp hd
        exact ⟨d.sink, sink, hsink, hlists⟩
      · rintro ⟨id, sink, hsink, hlists⟩
        have hd : sender id sink ∈ (sourceTask client config entry).destinations :=
          mem_destinations.mpr ⟨sink, hsink, hlists, rfl⟩
        exact List.ne_nil_of_mem hd

end wiring

def singleConfig : KafkaSourceConfig := { Source.pairSource.config with batchSize := 1 }

def kafkaOut : KafkaSinkConfig where
  inputs := ["a", "a"]
  brokers := "localhost:9092"
  topic := "output"
  deliveryTimeoutMs := 30000
  bufferCapacity := 4
  batchMaxEvents := 1
  batchMaxBytes := 1024
  batchLingerMs := 5
  maxConcurrentWrites := 1
  retryMaxAttempts := 2
  retryInitialBackoffMs := 1
  retryMaxBackoffMs := 2
  acks := "all"
  enableIdempotence := true
  compressionType := "lz4"
  producerLingerMs := 5
  producerBatchNumMessages := 10000
  queueBufferingMaxMessages := 100000
  queueBufferingMaxKbytes := 1048576
  clientConfig := ∅

/-- Two sources, of which the only sink lists the first, twice. -/
def orphanConfig : Config where
  sources := ((∅ : ConfigMap SourceConfig).insert "b" (.kafka singleConfig)).insert "a"
    (.kafka singleConfig)
  sinks := (∅ : ConfigMap SinkConfig).insert "out" (.kafka kafkaOut)

/-- The source that no sink lists. -/
def orphan : SourceTask := sourceTask .checked orphanConfig ⟨"b", .kafka singleConfig⟩

theorem orphanConfig_valid : orphanConfig.validate = .ok () := by
  decide

theorem orphan_spawned : ∃ tasks, run .checked orphanConfig = .ok (some tasks) ∧
    orphan ∈ tasks :=
  ⟨_, run_eq orphanConfig_valid, List.mem_map_of_mem (List.mem_cons_of_mem _ List.mem_cons_self)⟩

/-- The configuration is accepted, and the orphan consumes and commits a record that is
handed to nobody. -/
theorem orphan_commits : orphanConfig.validate = .ok () ∧
    (∃ tasks, run .checked orphanConfig = .ok (some tasks) ∧ orphan ∈ tasks) ∧
    orphan.destinations = [] ∧
    ∃ s, (Router.system orphan.wiring 0).Reachable s ∧
      s.source.cursor.committed.map Source.BatchCompletion.events = [1] ∧
      s.source.received.map Source.Receipt.record = [Source.message 0] := by
  have hrun : ((Router.system orphan.wiring 0).run (Router.State.start _ 0)
      [.source (.recv (Source.message 0)), .join 0 (fun _ => true)]).map
        (fun s => (s.source.cursor.committed.map Source.BatchCompletion.events,
          s.source.received.map Source.Receipt.record)) =
            some ([1], [Source.message 0]) := by decide
  obtain ⟨s, hs, hview⟩ := Option.map_eq_some_iff.mp hrun
  obtain ⟨hcommitted, hreceived⟩ := Prod.mk.inj hview
  exact ⟨orphanConfig_valid, orphan_spawned, rfl, s,
    System.Reachable.run System.ReachableBy.start hs, hcommitted, hreceived⟩

/-- The other source has the sender of the sink once, although the sink lists it twice. -/
theorem run_wires_orphanConfig : ∃ tasks, run .checked orphanConfig = .ok (some tasks) ∧
    ∀ task ∈ tasks, task.destinations.countP (fun d => d.sink = "out") =
      if task.source.id ∈ ["a", "a"] then 1 else 0 := by
  obtain ⟨tasks, hrun, -, -, htasks⟩ := run_wires .checked orphanConfig_valid
  exact ⟨tasks, hrun, fun task htask => (htasks task htask).1 "out" (.kafka kafkaOut) rfl⟩

end Rustper.Topology
