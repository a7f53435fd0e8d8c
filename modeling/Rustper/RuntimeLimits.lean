import Rustper.Library.MachineInt
import Rustper.WriteRetry

/-!
The numbers of a configuration where the runtime hands them to primitives that panic
outside a range: the channels of the sinks, the buffers of the sources, the deadlines and
the backoff. What the validation leaves open is the upper end of two of these ranges.
-/
namespace Rustper

open Clock (Duration Instant)
open MachineInt (usizeMax)

def isizeMax : ℕ := 2 ^ 63 - 1

/-- `mpsc::channel`: a bounded channel has room for one value at least and for as many as
its semaphore counts. -/
def mpscChannel (buffer : ℕ) : Option ℕ :=
  if 1 ≤ buffer ∧ buffer ≤ usizeMax / 2 ^ 3 then some buffer else none

/-- `Vec::with_capacity`: the bytes of the allocation. -/
def vecWithCapacity (size capacity : ℕ) : Option ℕ :=
  if capacity * size ≤ isizeMax then some (capacity * size) else none

/-- The channels that `topology::run` makes, one for each sink. -/
def sinkChannels (config : Config) : Option (List ℕ) :=
  config.sinks.entries.mapM (fun entry => mpscChannel entry.2.bufferCapacity)

/-- What `KafkaSource::run` allocates for its pending events, at its start and again for
each batch. -/
def pendingBuffer : SourceConfig → Option ℕ
  | .kafka source => vecWithCapacity Event.structSize source.batchSize

def sourceBuffers (config : Config) : Option (List ℕ) :=
  config.sources.entries.mapM (fun entry => pendingBuffer entry.2)

/-- The milliseconds that a sink adds to the clock: its linger, and for a Kafka sink the
time it may take to enqueue a batch. -/
def SinkConfig.deadlineMillis : SinkConfig → List ℕ
  | .kafka c => [c.batchLingerMs, c.deliveryTimeoutMs]
  | .clickhouse c => [c.batchLingerMs]

def SourceConfig.deadlineMillis : SourceConfig → List ℕ
  | .kafka c => [c.batchLingerMs]

def SinkConfig.integers : SinkConfig → List ℕ
  | .kafka c =>
    [c.deliveryTimeoutMs, c.bufferCapacity, c.batchMaxEvents, c.batchMaxBytes, c.batchLingerMs,
      c.maxConcurrentWrites, c.retryMaxAttempts, c.retryInitialBackoffMs, c.retryMaxBackoffMs,
      c.producerLingerMs, c.producerBatchNumMessages, c.queueBufferingMaxMessages,
      c.queueBufferingMaxKbytes]
  | .clickhouse c =>
    [c.bufferCapacity, c.batchMaxEvents, c.batchMaxBytes, c.batchLingerMs, c.allowErrorsNum,
      c.maxConcurrentWrites, c.retryMaxAttempts, c.retryInitialBackoffMs, c.retryMaxBackoffMs]

def SourceConfig.integers : SourceConfig → List ℕ
  | .kafka c =>
    [c.sessionTimeoutMs, c.batchSize, c.batchLingerMs, c.maxInFlightBatches, c.maxInFlightBytes,
      c.queuedMaxMessagesKbytes, c.queuedMinMessages, c.maxPollIntervalMs]

/-- Every integer of the configuration is one that TOML can carry. -/
structure TomlIntegers (config : Config) : Prop where
  sinks : ∀ entry ∈ config.sinks.entries, ∀ n ∈ entry.2.integers, n < 2 ^ 63
  sources : ∀ entry ∈ config.sources.entries, ∀ n ∈ entry.2.integers, n < 2 ^ 63

/-- A clock that counts from the start of the machine. -/
def Uptime (now : Instant) : Prop := now.secs < 2 ^ 62

/-- The deadline that many milliseconds from now is an instant. -/
def Representable (now : Instant) (millis : ℕ) : Prop :=
  ∃ h : millis < 2 ^ 64, (now.add (.fromMillis millis h)).isSome

/-- No number of the configuration makes a primitive of the runtime panic, and the retry
loop calls its sink. -/
structure Usable (config : Config) : Prop where
  channels : (sinkChannels config).isSome
  buffers : (sourceBuffers config).isSome
  sinkDeadlines : ∀ entry ∈ config.sinks.entries, ∀ millis ∈ entry.2.deadlineMillis,
    ∀ now, Uptime now → Representable now millis
  sourceDeadlines : ∀ entry ∈ config.sources.entries, ∀ millis ∈ entry.2.deadlineMillis,
    ∀ now, Uptime now → Representable now millis
  retries : ∀ entry ∈ config.sinks.entries, ∃ hinitial hmax, ∀ outcomes batches metrics,
    ∃ log result, Sink.writeWithRetry outcomes batches
        (Sink.retryPolicy entry.2.runtimeSettings hinitial hmax) metrics =
          (log, .returned result) ∧
      log.calls ≠ []

/-- The upper ends of the two ranges. -/
structure WithinLimits (config : Config) : Prop where
  bufferCapacity : ∀ entry ∈ config.sinks.entries, entry.2.bufferCapacity ≤ usizeMax / 2 ^ 3
  batchSize : ∀ id source, ⟨id, .kafka source⟩ ∈ config.sources.entries →
    source.batchSize * Event.structSize ≤ isizeMax

variable {config : Config}

theorem representable_of_uptime {now : Instant} (hnow : Uptime now) {millis : ℕ}
    (h : millis < 2 ^ 63) : Representable now millis := by
  refine ⟨by omega, Clock.Instant.isSome_add ?_⟩
  simp only [Uptime, Duration.fromMillis] at *
  omega

theorem SinkConfig.deadlineMillis_subset (c : SinkConfig) :
    c.deadlineMillis ⊆ c.integers := by
  intro millis h
  cases c <;> simp only [deadlineMillis, integers, List.mem_cons] at h ⊢ <;> tauto

theorem SourceConfig.deadlineMillis_subset (c : SourceConfig) :
    c.deadlineMillis ⊆ c.integers := by
  intro millis h
  cases c
  simp only [deadlineMillis, integers, List.mem_cons] at h ⊢
  tauto

theorem SinkConfig.backoff_mem_integers (c : SinkConfig) :
    c.runtimeSettings.retryInitialBackoff ∈ c.integers ∧
      c.runtimeSettings.retryMaxBackoff ∈ c.integers := by
  cases c <;> simp [runtimeSettings, deliverySettings, integers]

theorem isSome_mpscChannel {buffer : ℕ} (hpos : buffer ≠ 0) :
    (mpscChannel buffer).isSome ↔ buffer ≤ usizeMax / 2 ^ 3 := by
  have hone : 1 ≤ buffer := by omega
  simp only [mpscChannel, hone, true_and, Option.isSome_ite]

theorem isSome_pendingBuffer (source : KafkaSourceConfig) :
    (pendingBuffer (.kafka source)).isSome ↔
      source.batchSize * Event.structSize ≤ isizeMax := by
  simp only [pendingBuffer, vecWithCapacity, Option.isSome_ite]

theorem channels_iff (hvalid : config.validate = .ok ()) :
    (sinkChannels config).isSome ↔
      ∀ entry ∈ config.sinks.entries, entry.2.bufferCapacity ≤ usizeMax / 2 ^ 3 := by
  rw [sinkChannels, Fallible.isSome_mapM]
  refine forall₂_congr fun entry hentry => ?_
  exact isSome_mpscChannel ((Config.validate_ok hvalid).2.2.1 entry hentry).bufferCapacity

theorem buffers_iff : (sourceBuffers config).isSome ↔
    ∀ id source, ⟨id, .kafka source⟩ ∈ config.sources.entries →
      source.batchSize * Event.structSize ≤ isizeMax := by
  rw [sourceBuffers, Fallible.isSome_mapM]
  constructor
  · intro h id source hsource
    have hbuffer := h ⟨id, .kafka source⟩ hsource
    rwa [isSome_pendingBuffer] at hbuffer
  · intro h entry hentry
    obtain ⟨id, source⟩ := entry
    cases source with
    | kafka source =>
      rw [isSome_pendingBuffer]
      exact h id source hentry

/-- What the validation and the clamps do cover. -/
theorem retries_of_valid (hvalid : config.validate = .ok ()) (htoml : TomlIntegers config)
    {entry : Sigma fun _ : String => SinkConfig} (hentry : entry ∈ config.sinks.entries) :
    ∃ hinitial hmax, ∀ outcomes batches metrics, ∃ log result,
      Sink.writeWithRetry outcomes batches
          (Sink.retryPolicy entry.2.runtimeSettings hinitial hmax) metrics =
            (log, .returned result) ∧
        log.calls ≠ [] := by
  obtain ⟨hinitial, hmax⟩ := entry.2.backoff_mem_integers
  replace hinitial := htoml.sinks entry hentry _ hinitial
  replace hmax := htoml.sinks entry hentry _ hmax
  refine ⟨by omega, by omega, fun outcomes batches metrics => ?_⟩
  have hbackoff := ((Config.validate_ok hvalid).2.2.1 entry hentry).backoff
  obtain ⟨n, hends, hrun⟩ :=
    Sink.writeWithRetry_eq (by omega) (by omega) hbackoff outcomes batches metrics
  refine ⟨_, _, hrun, ?_⟩
  have hone := hends.1
  simp [Sink.RetryLog.after]
  omega

/-- For an accepted configuration the runtime does not panic over a number exactly if no
sink asks for a larger channel, and no source for a larger buffer, than there can be. -/
theorem usable_iff (hvalid : config.validate = .ok ()) (htoml : TomlIntegers config) :
    Usable config ↔ WithinLimits config := by
  constructor
  · intro h
    exact ⟨(channels_iff hvalid).mp h.channels, buffers_iff.mp h.buffers⟩
  · intro h
    refine ⟨(channels_iff hvalid).mpr h.bufferCapacity, buffers_iff.mpr h.batchSize, ?_, ?_,
      fun entry => retries_of_valid hvalid htoml⟩
    · intro entry hentry millis hmillis now hnow
      exact representable_of_uptime hnow
        (htoml.sinks entry hentry millis (entry.2.deadlineMillis_subset hmillis))
    · intro entry hentry millis hmillis now hnow
      exact representable_of_uptime hnow
        (htoml.sources entry hentry millis (entry.2.deadlineMillis_subset hmillis))

/-- The largest capacity that TOML can carry. -/
def hugeBuffer : SinkConfig :=
  .kafka { KafkaSinkConfig.defaults ["in"] "localhost:9092" "output" with
    bufferCapacity := 9223372036854775807 }

theorem hugeBuffer_valid : (oneSink hugeBuffer).validate = .ok () := by
  decide

theorem oneSink_tomlIntegers {sink : SinkConfig} (h : ∀ n ∈ sink.integers, n < 2 ^ 63) :
    TomlIntegers (oneSink sink) where
  sinks := by
    intro entry hentry
    obtain rfl : entry = ⟨"out", sink⟩ := List.mem_singleton.mp hentry
    exact h
  sources := by
    intro entry hentry
    obtain rfl := List.mem_singleton.mp hentry
    decide

/-- The configuration is accepted, and making its channel panics. -/
theorem hugeBuffer_panics : (oneSink hugeBuffer).validate = .ok () ∧
    TomlIntegers (oneSink hugeBuffer) ∧ ¬ Usable (oneSink hugeBuffer) := by
  refine ⟨hugeBuffer_valid, oneSink_tomlIntegers (by decide), fun h => ?_⟩
  have hlimit := (channels_iff hugeBuffer_valid).mp h.channels _ List.mem_cons_self
  exact absurd hlimit (by decide)

theorem usable_iff_hugeBuffer :
    Usable (oneSink hugeBuffer) ↔ WithinLimits (oneSink hugeBuffer) :=
  usable_iff hugeBuffer_valid (oneSink_tomlIntegers (by decide))

end Rustper
