import Rustper.Validation

/-!
What a configuration file may leave out. The defaults obey every rule of the validation
that is not about the names of inputs and topics.
-/
namespace Rustper

def KafkaSourceConfig.defaults (brokers groupId : String) (topics : List String) :
    KafkaSourceConfig where
  brokers := brokers
  groupId := groupId
  topics := topics
  sessionTimeoutMs := 45000
  batchSize := 1000
  batchLingerMs := 5
  maxInFlightBatches := 8
  maxInFlightBytes := 256 * 1024 * 1024
  queuedMaxMessagesKbytes := 65536
  queuedMinMessages := 100000
  maxPollIntervalMs := 300000
  clientConfig := ∅

def KafkaSinkConfig.defaults (inputs : List String) (brokers topic : String) :
    KafkaSinkConfig where
  inputs := inputs
  brokers := brokers
  topic := topic
  deliveryTimeoutMs := 30000
  bufferCapacity := 32
  batchMaxEvents := 10000
  batchMaxBytes := 16 * 1024 * 1024
  batchLingerMs := 5
  maxConcurrentWrites := 1
  retryMaxAttempts := 5
  retryInitialBackoffMs := 100
  retryMaxBackoffMs := 5000
  acks := "all"
  enableIdempotence := true
  compressionType := "lz4"
  producerLingerMs := 5
  producerBatchNumMessages := 10000
  queueBufferingMaxMessages := 100000
  queueBufferingMaxKbytes := 1048576
  clientConfig := ∅

def ClickhouseSinkConfig.defaults (inputs : List String) (endpoint table : String) :
    ClickhouseSinkConfig where
  inputs := inputs
  endpoint := endpoint
  database := "default"
  table := table
  user := ""
  password := ""
  bufferCapacity := 32
  batchMaxEvents := 10000
  batchMaxBytes := 16 * 1024 * 1024
  batchLingerMs := 50
  schema := .event
  metadataColumns := .default
  allowErrorsNum := 0
  allowErrorsRatio := .finite 0
  maxConcurrentWrites := 1
  retryMaxAttempts := 5
  retryInitialBackoffMs := 100
  retryMaxBackoffMs := 5000

variable {sources : ConfigMap SourceConfig} {inputs : List String}

/-- The inputs are the only part of a Kafka sink left to check. -/
theorem KafkaSinkConfig.defaults_valid (id brokers topic : String) :
    validateSink sources id (.kafka (.defaults inputs brokers topic)) = .ok () ↔
      inputs ≠ [] ∧ ∀ input ∈ inputs, input ∈ sources := by
  rw [validateSink_iff]
  constructor
  · intro h
    exact ⟨h.inputs, h.known⟩
  · intro h
    exact ⟨h.1, by simp [SinkConfig.bufferCapacity, defaults],
      by simp [SinkConfig.batchLimits, defaults], by simp [SinkConfig.batchLimits, defaults],
      fun c hc => by contradiction,
      by simp [SinkConfig.runtimeSettings, deliverySettings, defaults], h.2⟩

theorem ClickhouseSinkConfig.defaults_valid (id endpoint table : String) :
    validateSink sources id (.clickhouse (.defaults inputs endpoint table)) = .ok () ↔
      inputs ≠ [] ∧ ∀ input ∈ inputs, input ∈ sources := by
  rw [validateSink_iff]
  constructor
  · intro h
    exact ⟨h.inputs, h.known⟩
  · intro h
    refine ⟨h.1, by simp [SinkConfig.bufferCapacity, defaults],
      by simp [SinkConfig.batchLimits, defaults], by simp [SinkConfig.batchLimits, defaults],
      ?_, by simp [SinkConfig.runtimeSettings, deliverySettings, defaults], h.2⟩
    intro c hc
    cases hc
    exact ⟨fun _ => rfl, rfl⟩

theorem KafkaSourceConfig.defaults_valid (id brokers groupId : String) (topics : List String) :
    validateSource id (.kafka (.defaults brokers groupId topics)) = .ok () ↔ topics ≠ [] := by
  rw [validateSource_iff]
  constructor
  · intro h
    exact h.topics
  · intro h
    exact ⟨h, by simp [defaults], by simp [defaults], by simp [defaults]⟩

/-- One source, and one sink that may differ from the defaults. -/
def oneSink (sink : SinkConfig) : Config where
  sources := (∅ : ConfigMap SourceConfig).insert "in"
    (.kafka (.defaults "localhost:9092" "router" ["orders"]))
  sinks := (∅ : ConfigMap SinkConfig).insert "out" sink

end Rustper
