import Rustper.Config
import Rustper.Library.Fallible

/-!
What `Config::validate` guarantees of the configurations it accepts.
-/
namespace Rustper

open Fallible

theorem bailIf_eq_ok {condition : Bool} {error : ConfigError} :
    bailIf condition error = .ok () ↔ condition = false := by
  cases condition <;> simp [bailIf]

structure SinkValid (sources : ConfigMap SourceConfig) (sink : SinkConfig) : Prop where
  inputs : sink.inputs ≠ []
  bufferCapacity : sink.bufferCapacity ≠ 0
  maxEvents : sink.batchLimits.1 ≠ 0
  maxBytes : sink.batchLimits.2 ≠ 0
  clickhouse : ∀ c, sink = .clickhouse c →
    (c.schema = .event → c.metadataColumns = .default) ∧ c.allowErrorsRatio.inUnit = true
  backoff : sink.runtimeSettings.retryInitialBackoff ≤ sink.runtimeSettings.retryMaxBackoff
  known : ∀ input ∈ sink.inputs, input ∈ sources

structure SourceValid (source : KafkaSourceConfig) : Prop where
  topics : source.topics ≠ []
  batchSize : source.batchSize ≠ 0
  maxInFlightBatches : source.maxInFlightBatches ≠ 0
  maxInFlightBytes : source.maxInFlightBytes ≠ 0

theorem validateClickhouse_iff {id : String} {sink : SinkConfig} :
    validateClickhouse id sink = .ok () ↔ ∀ c, sink = .clickhouse c →
      (c.schema = .event → c.metadataColumns = .default) ∧ c.allowErrorsRatio.inUnit = true := by
  cases sink with
  | kafka c => simp [validateClickhouse]
  | clickhouse c =>
    simp only [validateClickhouse, seq_eq_ok, bailIf_eq_ok, Bool.and_eq_false_iff,
      decide_eq_false_iff_not, MetadataColumnsConfig.isEmpty, decide_eq_true_eq,
      Bool.not_eq_eq_eq_not, Bool.not_false, SinkConfig.clickhouse.injEq, forall_eq']
    exact and_congr_left fun _ => imp_iff_not_or.symm

theorem validateInputs_iff {sources : ConfigMap SourceConfig} {id : String}
    {inputs : List String} :
    inputs.forM (fun input => bailIf (decide (input ∉ sources)) (.sinkUnknownInput id input)) =
      .ok () ↔ ∀ input ∈ inputs, input ∈ sources := by
  rw [forM_eq_ok]
  exact forall₂_congr fun input _ => by simp [bailIf_eq_ok]

/-- The rules for a sink, in the order of the checks. -/
theorem validateSink_iff {sources : ConfigMap SourceConfig} {id : String} {sink : SinkConfig} :
    validateSink sources id sink = .ok () ↔ SinkValid sources sink := by
  rw [validateSink]
  simp only [seq_eq_ok, bailIf_eq_ok, validateClickhouse_iff, validateInputs_iff,
    decide_eq_false_iff_not, List.isEmpty_eq_false_iff, not_or, not_lt]
  constructor
  · intro h
    obtain ⟨hinputs, hcapacity, ⟨hevents, hbytes⟩, hclickhouse, hbackoff, hknown⟩ := h
    exact ⟨hinputs, hcapacity, hevents, hbytes, hclickhouse, hbackoff, hknown⟩
  · intro h
    exact ⟨h.inputs, h.bufferCapacity, ⟨h.maxEvents, h.maxBytes⟩, h.clickhouse, h.backoff, h.known⟩

theorem validateSource_iff {id : String} {source : KafkaSourceConfig} :
    validateSource id (.kafka source) = .ok () ↔ SourceValid source := by
  simp only [validateSource, seq_eq_ok, bailIf_eq_ok, decide_eq_false_iff_not,
    List.isEmpty_eq_false_iff, not_or]
  constructor
  · intro h
    obtain ⟨htopics, hbatch, hbatches, hbytes⟩ := h
    exact ⟨htopics, hbatch, hbatches, hbytes⟩
  · intro h
    exact ⟨h.topics, h.batchSize, h.maxInFlightBatches, h.maxInFlightBytes⟩

/-- Every component of an accepted configuration obeys its own rules. -/
theorem Config.validate_ok {config : Config} (h : config.validate = .ok ()) :
    config.sources.entries ≠ [] ∧ config.sinks.entries ≠ [] ∧
      (∀ entry ∈ config.sinks.entries, SinkValid config.sources entry.2) ∧
      ∀ id source, ⟨id, .kafka source⟩ ∈ config.sources.entries → SourceValid source := by
  simp only [Config.validate, seq_eq_ok, bailIf_eq_ok, List.isEmpty_eq_false_iff] at h
  obtain ⟨hsources, hsinks, hsink, hsource⟩ := h
  refine ⟨hsources, hsinks, ?_, ?_⟩
  · intro entry hentry
    exact validateSink_iff.mp (forM_eq_ok.mp hsink entry hentry)
  · intro id source hentry
    exact validateSource_iff.mp (forM_eq_ok.mp hsource _ hentry)

end Rustper
