import Rustper.Event
import Rustper.Fanout
import Mathlib.Data.Finmap

/-!
What the Kafka source commits: the next offset of every partition of a batch, and
the drain that commits completed batches in the order of their sequences. The
consumer's answer to a commit call is a parameter of the drain.
-/
namespace Rustper.Source

open MachineInt

inductive SourceError
  | recordOffsets
  | commit
  | consume
  | fanoutPanicked
  | fanout (error : Fanout.SendError)
deriving DecidableEq, Repr

def SourceError.message : SourceError → String
  | .recordOffsets => "cannot record next offsets for Kafka batch"
  | .commit => "cannot commit Kafka batch"
  | .consume => "Kafka consume failed"
  | .fanoutPanicked => "fan-out task panicked"
  | .fanout error => error.message

structure PartitionOffset where
  topic : String
  partition : ℤ
  offset : ℤ
deriving DecidableEq, Repr

def PartitionOffset.topicPartition (p : PartitionOffset) : TopicPartition :=
  (p.topic, p.partition)

abbrev TopicPartitionList := List PartitionOffset

/-- The offset list of the client library. Adding an entry appends it unless the
library refuses it, which it never does for an offset that is not negative. -/
structure OffsetList where
  refuses : TopicPartitionList → PartitionOffset → Bool
  accepts : ∀ list entry, 0 ≤ entry.offset → refuses list entry = false

def OffsetList.addPartitionOffset (client : OffsetList) (list : TopicPartitionList)
    (entry : PartitionOffset) : Except SourceError TopicPartitionList :=
  if client.refuses list entry then .error .recordOffsets else .ok (list ++ [entry])

/-- The library's own check: a negative offset is not a position in a log. -/
def OffsetList.checked : OffsetList where
  refuses := fun _ entry => decide (entry.offset < 0)
  accepts := by
    intro list entry h
    simpa using h

/-- The offset to resume from after an event, in 64-bit arithmetic. -/
def nextOffset (event : Event) : ℤ := wrapI64 (event.source.offset + 1)

/-- Raise the entry of the event's partition, or append one when there is none. -/
def noteNext : TopicPartitionList → Event → TopicPartitionList
  | [], event => [⟨event.source.topic, event.source.partition, nextOffset event⟩]
  | seen :: rest, event =>
    if seen.partition = event.source.partition ∧ seen.topic = event.source.topic then
      { seen with offset := max seen.offset (nextOffset event) } :: rest
    else seen :: noteNext rest event

def nextOffsets (events : List Event) : TopicPartitionList := events.foldl noteNext []

def offsetsFor (client : OffsetList) (events : List Event) :
    Except SourceError TopicPartitionList :=
  (nextOffsets events).foldlM client.addPartitionOffset []

structure BatchCompletion where
  sequence : ℕ
  offsets : TopicPartitionList
  events : ℕ
  bytes : ℕ
deriving DecidableEq, Repr

/-- The reorder buffer of the source and the commits it has issued, in order. -/
structure Cursor where
  completed : Finmap (fun _ : ℕ => BatchCompletion)
  nextSequence : ℕ
  committed : List BatchCompletion
deriving DecidableEq

def Cursor.start : Cursor := ⟨∅, 0, []⟩

/-- Events and bytes returned by one call. -/
structure Totals where
  events : ℕ
  bytes : ℕ
deriving DecidableEq, Repr

def Totals.add (t : Totals) (completion : BatchCompletion) : Totals :=
  ⟨t.events + completion.events, t.bytes + completion.bytes⟩

/-- The `while let` loop. Every round removes an entry, so the size of the map is
enough fuel. -/
def drain (commit : BatchCompletion → Bool) :
    ℕ → Cursor → Totals → Cursor × Except SourceError Totals
  | 0, cursor, totals => (cursor, .ok totals)
  | fuel + 1, cursor, totals =>
    match cursor.completed.lookup cursor.nextSequence with
    | none => (cursor, .ok totals)
    | some completion =>
      let removed := { cursor with completed := cursor.completed.erase cursor.nextSequence }
      if commit completion then
        drain commit fuel
          { removed with
            nextSequence := cursor.nextSequence + 1
            committed := cursor.committed ++ [completion] }
          (totals.add completion)
      else (removed, .error .commit)

def commitContiguous (commit : BatchCompletion → Bool) (cursor : Cursor)
    (completion : BatchCompletion) : Cursor × Except SourceError Totals :=
  let inserted := cursor.completed.insert completion.sequence completion
  drain commit inserted.keys.card { cursor with completed := inserted } ⟨0, 0⟩

/-- Completions fed one by one, stopping at the first failed commit; the totals of
the calls are added up. -/
def commitAll (commit : BatchCompletion → Bool) :
    Cursor → List BatchCompletion → Totals → Cursor × Except SourceError Totals
  | cursor, [], totals => (cursor, .ok totals)
  | cursor, completion :: rest, totals =>
    match commitContiguous commit cursor completion with
    | (cursor', .ok added) =>
      commitAll commit cursor' rest ⟨totals.events + added.events, totals.bytes + added.bytes⟩
    | (cursor', .error e) => (cursor', .error e)

end Rustper.Source
