import Mathlib.Data.List.AList
import Mathlib.Data.Rat.Defs
import Mathlib.Algebra.Order.Ring.Rat

/-!
The configuration and its validation. A map of the configuration is an association
list without repeated keys: the order of its entries is one iteration order of the
hash map, and nothing below depends on which one it is.
-/
namespace Rustper

/-- A `HashMap<String, α>` with the order in which one process iterates over it. -/
abbrev ConfigMap (α : Type) := AList (fun _ : String => α)

structure KafkaSourceConfig where
  brokers : String
  groupId : String
  topics : List String
  sessionTimeoutMs : ℕ
  batchSize : ℕ
  batchLingerMs : ℕ
  maxInFlightBatches : ℕ
  maxInFlightBytes : ℕ
  queuedMaxMessagesKbytes : ℕ
  queuedMinMessages : ℕ
  maxPollIntervalMs : ℕ
  clientConfig : ConfigMap String

inductive SourceConfig
  | kafka (config : KafkaSourceConfig)

structure KafkaSinkConfig where
  inputs : List String
  brokers : String
  topic : String
  deliveryTimeoutMs : ℕ
  bufferCapacity : ℕ
  batchMaxEvents : ℕ
  batchMaxBytes : ℕ
  batchLingerMs : ℕ
  maxConcurrentWrites : ℕ
  retryMaxAttempts : ℕ
  retryInitialBackoffMs : ℕ
  retryMaxBackoffMs : ℕ
  acks : String
  enableIdempotence : Bool
  compressionType : String
  producerLingerMs : ℕ
  producerBatchNumMessages : ℕ
  queueBufferingMaxMessages : ℕ
  queueBufferingMaxKbytes : ℕ
  clientConfig : ConfigMap String

inductive ClickhouseSchema
  | event
  | json
deriving DecidableEq, Repr

structure MetadataColumnsConfig where
  topic : Option String
  partition : Option String
  offset : Option String
  timestamp : Option String
  key : Option String
deriving DecidableEq, Repr

def MetadataColumnsConfig.default : MetadataColumnsConfig := ⟨none, none, none, none, none⟩

def MetadataColumnsConfig.isEmpty (c : MetadataColumnsConfig) : Bool :=
  decide (c = MetadataColumnsConfig.default)

/-- An `f64` that TOML can carry: every finite one is a rational. -/
inductive Ratio
  | finite (value : ℚ)
  | infinite (negative : Bool)
  | nan
deriving DecidableEq

/-- `(0.0..=1.0).contains`, which is false of a NaN. -/
def Ratio.inUnit : Ratio → Bool
  | .finite value => decide (0 ≤ value ∧ value ≤ 1)
  | .infinite _ => false
  | .nan => false

/-- `ratio > 0.0`, which is false of a NaN. -/
def Ratio.isPositive : Ratio → Bool
  | .finite value => decide (0 < value)
  | .infinite negative => !negative
  | .nan => false

structure ClickhouseSinkConfig where
  inputs : List String
  endpoint : String
  database : String
  table : String
  user : String
  password : String
  bufferCapacity : ℕ
  batchMaxEvents : ℕ
  batchMaxBytes : ℕ
  batchLingerMs : ℕ
  schema : ClickhouseSchema
  metadataColumns : MetadataColumnsConfig
  allowErrorsNum : ℕ
  allowErrorsRatio : Ratio
  maxConcurrentWrites : ℕ
  retryMaxAttempts : ℕ
  retryInitialBackoffMs : ℕ
  retryMaxBackoffMs : ℕ

inductive SinkConfig
  | kafka (config : KafkaSinkConfig)
  | clickhouse (config : ClickhouseSinkConfig)

structure Config where
  sources : ConfigMap SourceConfig
  sinks : ConfigMap SinkConfig

/-- Delivery behaviour as the sink runtime uses it, durations in milliseconds. The
clamps of `delivery_settings!` make both counts positive. -/
structure DeliverySettings where
  maxConcurrentWrites : ℕ
  retryMaxAttempts : ℕ
  retryInitialBackoff : ℕ
  retryMaxBackoff : ℕ
  one_le_writes : 1 ≤ maxConcurrentWrites
  one_le_attempts : 1 ≤ retryMaxAttempts

/-- The `delivery_settings!` macro on the four fields both sink configs carry. -/
def deliverySettings (maxConcurrentWrites retryMaxAttempts retryInitialBackoffMs
    retryMaxBackoffMs : ℕ) : DeliverySettings where
  maxConcurrentWrites := max maxConcurrentWrites 1
  retryMaxAttempts := max retryMaxAttempts 1
  retryInitialBackoff := retryInitialBackoffMs
  retryMaxBackoff := retryMaxBackoffMs
  one_le_writes := Nat.le_max_right _ _
  one_le_attempts := Nat.le_max_right _ _

structure BatchSettings where
  maxEvents : ℕ
  maxBytes : ℕ
  linger : ℕ
deriving DecidableEq, Repr

namespace SinkConfig

def inputs : SinkConfig → List String
  | .kafka c => c.inputs
  | .clickhouse c => c.inputs

def bufferCapacity : SinkConfig → ℕ
  | .kafka c => c.bufferCapacity
  | .clickhouse c => c.bufferCapacity

def batchLimits : SinkConfig → ℕ × ℕ
  | .kafka c => (c.batchMaxEvents, c.batchMaxBytes)
  | .clickhouse c => (c.batchMaxEvents, c.batchMaxBytes)

def runtimeSettings : SinkConfig → DeliverySettings
  | .kafka c => deliverySettings c.maxConcurrentWrites c.retryMaxAttempts
      c.retryInitialBackoffMs c.retryMaxBackoffMs
  | .clickhouse c => deliverySettings c.maxConcurrentWrites c.retryMaxAttempts
      c.retryInitialBackoffMs c.retryMaxBackoffMs

/-- What `KafkaSink::new` and `ClickhouseSink::new` keep for `batch_settings`. -/
def batchSettings : SinkConfig → BatchSettings
  | .kafka c => ⟨c.batchMaxEvents, c.batchMaxBytes, c.batchLingerMs⟩
  | .clickhouse c => ⟨c.batchMaxEvents, c.batchMaxBytes, c.batchLingerMs⟩

end SinkConfig

/-- One constructor for each `bail!` of `Config::validate`. -/
inductive ConfigError
  | noSource
  | noSink
  | sinkNoInputs (id : String)
  | sinkBufferCapacity (id : String)
  | sinkBatchLimits (id : String)
  | sinkMetadataColumns (id : String)
  | sinkErrorsRatio (id : String)
  | sinkBackoff (id : String)
  | sinkUnknownInput (id input : String)
  | sourceNoTopics (id : String)
  | sourceLimits (id : String)
deriving DecidableEq, Repr

/-- The message, given how `{:?}` prints an identifier. -/
def ConfigError.message (debug : String → String) : ConfigError → String
  | .noSource => "at least one source is required"
  | .noSink => "at least one sink is required"
  | .sinkNoInputs id => "sink " ++ debug id ++ " has no inputs"
  | .sinkBufferCapacity id => "sink " ++ debug id ++ " buffer_capacity must be > 0"
  | .sinkBatchLimits id => "sink " ++ debug id ++ " batch limits must be > 0"
  | .sinkMetadataColumns id => "sink " ++ debug id ++
      " sets metadata_columns, which only applies to schema = \"json\"; in event mode the column names are fixed"
  | .sinkErrorsRatio id => "sink " ++ debug id ++
      " allow_errors_ratio must be between 0.0 and 1.0"
  | .sinkBackoff id => "sink " ++ debug id ++
      " retry_initial_backoff_ms must be <= retry_max_backoff_ms"
  | .sinkUnknownInput id input => "sink " ++ debug id ++ " references unknown input " ++ debug input
  | .sourceNoTopics id => "source " ++ debug id ++ " has no topics"
  | .sourceLimits id => "source " ++ debug id ++ " batch and in-flight limits must be > 0"

/-- `if condition { bail!(..) }`. -/
def bailIf (condition : Bool) (error : ConfigError) : Except ConfigError Unit :=
  if condition then .error error else .ok ()

/-- The rules that only a ClickHouse sink has. -/
def validateClickhouse (id : String) : SinkConfig → Except ConfigError Unit
  | .kafka _ => .ok ()
  | .clickhouse c => do
    bailIf (decide (c.schema = .event) && !c.metadataColumns.isEmpty) (.sinkMetadataColumns id)
    bailIf (!c.allowErrorsRatio.inUnit) (.sinkErrorsRatio id)

def validateSink (sources : ConfigMap SourceConfig) (id : String) (sink : SinkConfig) :
    Except ConfigError Unit := do
  bailIf sink.inputs.isEmpty (.sinkNoInputs id)
  bailIf (decide (sink.bufferCapacity = 0)) (.sinkBufferCapacity id)
  bailIf (decide (sink.batchLimits.1 = 0 ∨ sink.batchLimits.2 = 0)) (.sinkBatchLimits id)
  validateClickhouse id sink
  bailIf (decide (sink.runtimeSettings.retryMaxBackoff < sink.runtimeSettings.retryInitialBackoff))
    (.sinkBackoff id)
  sink.inputs.forM (fun input =>
    bailIf (decide (input ∉ sources)) (.sinkUnknownInput id input))

def validateSource (id : String) : SourceConfig → Except ConfigError Unit
  | .kafka source => do
    bailIf source.topics.isEmpty (.sourceNoTopics id)
    bailIf (decide (source.batchSize = 0 ∨ source.maxInFlightBatches = 0 ∨
      source.maxInFlightBytes = 0)) (.sourceLimits id)

def Config.validate (config : Config) : Except ConfigError Unit := do
  bailIf config.sources.entries.isEmpty .noSource
  bailIf config.sinks.entries.isEmpty .noSink
  config.sinks.entries.forM (fun entry => validateSink config.sources entry.1 entry.2)
  config.sources.entries.forM (fun entry => validateSource entry.1 entry.2)

end Rustper
