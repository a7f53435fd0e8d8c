import Mathlib.Algebra.BigOperators.Group.List.Basic
import Mathlib.Algebra.Order.Ring.Int

/-!
Events and batches as the source hands them to the sinks. A batch carries its
byte count as a checked field, since `EventBatch::new` is the only constructor.
-/
namespace Rustper

abbrev Bytes := List UInt8

structure SourceMetadata where
  componentId : String
  topic : String
  partition : ℤ
  offset : ℤ
deriving DecidableEq, Repr

structure Event where
  key : Option Bytes
  payload : Bytes
  timestampMs : Option ℤ
  source : SourceMetadata
deriving DecidableEq, Repr

abbrev TopicPartition := String × ℤ

/-- A record as `consumer.recv` yields it; its headers are never read. -/
structure Record where
  topic : String
  partition : ℤ
  offset : ℤ
  key : Option Bytes
  payload : Option Bytes
  timestampMs : Option ℤ
deriving DecidableEq, Repr

def Record.topicPartition (r : Record) : TopicPartition := (r.topic, r.partition)

namespace Event

def topicPartition (e : Event) : TopicPartition := (e.source.topic, e.source.partition)

/-- `size_of::<Event>()` on a 64-bit target. -/
def structSize : ℕ := 128

def estimatedSize (e : Event) : ℕ :=
  structSize + (e.key.elim 0 List.length) + e.payload.length

end Event

/-- A tombstone has no payload and becomes an event with an empty one. -/
def toEvent (componentId : String) (message : Record) : Event where
  key := message.key
  payload := message.payload.getD []
  timestampMs := message.timestampMs
  source :=
    { componentId := componentId
      topic := message.topic
      partition := message.partition
      offset := message.offset }

@[simp] theorem toEvent_topicPartition (componentId : String) (r : Record) :
    (toEvent componentId r).topicPartition = r.topicPartition := rfl

@[simp] theorem toEvent_offset (componentId : String) (r : Record) :
    (toEvent componentId r).source.offset = r.offset := rfl

/-- The byte count is computed once, where the batch is built. -/
structure EventBatch where
  events : List Event
  bytes : ℕ
  bytes_eq : bytes = (events.map Event.estimatedSize).sum
deriving DecidableEq

namespace EventBatch

def new (events : List Event) : EventBatch :=
  ⟨events, (events.map Event.estimatedSize).sum, rfl⟩

def len (batch : EventBatch) : ℕ := batch.events.length

@[simp] theorem new_events (events : List Event) : (new events).events = events := rfl

@[simp] theorem new_len (events : List Event) : (new events).len = events.length := rfl

@[ext] theorem ext_events {a b : EventBatch} (h : a.events = b.events) : a = b := by
  obtain ⟨events, bytes, hbytes⟩ := a
  obtain ⟨events', bytes', hbytes'⟩ := b
  subst hbytes hbytes'
  cases h
  rfl

end EventBatch

/-- How many events a list of batches holds, as `write_batches` counts them. -/
def totalEvents (batches : List EventBatch) : ℕ := (batches.map EventBatch.len).sum

end Rustper
