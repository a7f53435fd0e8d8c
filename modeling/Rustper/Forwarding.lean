import Rustper.BatchBuffer
import Rustper.KafkaCompletion

/-!
A record on its way from one Kafka topic to another: out of the consumer's buffer, into
the arena of the source and out of it into a record of the sink.
-/
namespace Rustper.Kafka

open TransitionSystem

/-- The first events of a run of the source, read from the arena at any later time. -/
def consumed (componentId : String) (chunk : ℕ) (records later : List Record) : List Event :=
  let converted := (Converter.new chunk).convert componentId (records ++ later)
  (converted.1.take records.length).map (SharedEvent.read converted.2.buffer.heap)

end Rustper.Kafka
