import Rustper.Config
import Rustper.Event
import Rustper.Library.Arena

/-!
How the source copies a record out of the borrowed buffer of the consumer: keys and
payloads go into an arena, topic names are interned. Read back through its views, an
event is the one `toEvent` describes, whatever is copied afterwards.
-/
namespace Rustper

open Arena

/-- `buffer` is what is left of the current chunk; `heap` holds the chunks the arena has
allocated. -/
structure BatchBuffer where
  chunk : ℕ
  buffer : BytesMut
  heap : Heap

namespace BatchBuffer

def defaultChunkBytes : ℕ := 1024 * 1024

def withChunk (chunk : ℕ) : BatchBuffer := ⟨max chunk 1, BytesMut.new, []⟩

def default : BatchBuffer := withChunk defaultChunkBytes

/-- A fresh chunk when the current one has too little room. -/
def reserve (b : BatchBuffer) (source : Bytes) : BatchBuffer :=
  if b.buffer.capacity < source.length then
    let fresh := BytesMut.withCapacity b.heap (max b.chunk source.length)
    { b with buffer := fresh.1, heap := fresh.2 }
  else b

/-- `BatchBuffer::copy`. -/
def copy (b : BatchBuffer) (source : Bytes) : View × BatchBuffer :=
  if source = [] then (View.empty, b)
  else
    let b := b.reserve source
    let extended := b.buffer.extendFromSlice b.heap source
    let split := extended.1.splitTo source.length
    (split.1, { b with buffer := split.2, heap := extended.2 })

end BatchBuffer

/-- An `Arc<str>`: where it is and what it says. -/
structure ArcStr where
  address : ℕ
  text : String
deriving DecidableEq, Repr

/-- `allocated` counts the strings allocated so far. -/
structure TopicCache where
  last : Option ArcStr
  interned : ConfigMap ArcStr
  allocated : ℕ

namespace TopicCache

def default : TopicCache := ⟨none, ∅, 0⟩

/-- The lookup in `interned` that the `last` slot saves. -/
def find (cache : TopicCache) (topic : String) : ArcStr × TopicCache :=
  match cache.interned.lookup topic with
  | some interned => (interned, { cache with last := some interned })
  | none =>
    let interned : ArcStr := ⟨cache.allocated, topic⟩
    (interned,
      { last := some interned
        interned := cache.interned.insert topic interned
        allocated := cache.allocated + 1 })

def intern (cache : TopicCache) (topic : String) : ArcStr × TopicCache :=
  match cache.last with
  | some last => if last.text = topic then (last, cache) else cache.find topic
  | none => cache.find topic

end TopicCache

/-- An event as the source holds it: its bytes are views, its topic is shared. -/
structure SharedEvent where
  key : Option View
  payload : View
  timestampMs : Option ℤ
  componentId : String
  topic : ArcStr
  partition : ℤ
  offset : ℤ

def SharedEvent.read (heap : Heap) (e : SharedEvent) : Event where
  key := e.key.map (View.read heap)
  payload := e.payload.read heap
  timestampMs := e.timestampMs
  source := ⟨e.componentId, e.topic.text, e.partition, e.offset⟩

/-- What the loop of the source passes to every `to_event`. -/
structure Converter where
  topics : TopicCache
  buffer : BatchBuffer

namespace Converter

def new (chunk : ℕ) : Converter := ⟨TopicCache.default, BatchBuffer.withChunk chunk⟩

def copyOption (b : BatchBuffer) : Option Bytes → Option View × BatchBuffer
  | some source => (some (b.copy source).1, (b.copy source).2)
  | none => (none, b)

/-- `to_event`; a missing payload becomes the default `Bytes`, which is empty. -/
def toEvent (componentId : String) (c : Converter) (message : Record) :
    SharedEvent × Converter :=
  let key := copyOption c.buffer message.key
  let payload := copyOption key.2 message.payload
  let topic := c.topics.intern message.topic
  ({ key := key.1
     payload := payload.1.getD View.empty
     timestampMs := message.timestampMs
     componentId := componentId
     topic := topic.1
     partition := message.partition
     offset := message.offset },
    ⟨topic.2, payload.2⟩)

/-- The records of a run, in the order in which the consumer yields them. -/
def convert (componentId : String) (c : Converter) : List Record → List SharedEvent × Converter
  | [] => ([], c)
  | message :: rest =>
    let first := c.toEvent componentId message
    let others := first.2.convert componentId rest
    (first.1 :: others.1, others.2)

end Converter

namespace BatchBuffer

variable {b b' : BatchBuffer} {source : Bytes}

/-- Everything copied has been split off, and the rest of the chunk is free. -/
structure Ok (b : BatchBuffer) : Prop where
  within : b.buffer.Within b.heap
  len : b.buffer.len = 0

/-- A view that the arena will not write into. -/
def Holds (b : BatchBuffer) (v : View) : Prop := BytesMut.Behind v b.buffer b.heap

/-- Views that were safe stay so, and read the same. -/
def Preserves (b b' : BatchBuffer) : Prop :=
  ∀ v, b.Holds v → b'.Holds v ∧ v.read b'.heap = v.read b.heap

theorem ok_withChunk (chunk : ℕ) : (withChunk chunk).Ok := ⟨BytesMut.within_new _, rfl⟩

theorem Preserves.refl (b : BatchBuffer) : b.Preserves b := fun _ hv => ⟨hv, rfl⟩

theorem Preserves.trans {b'' : BatchBuffer} (h : b.Preserves b') (h' : b'.Preserves b'') :
    b.Preserves b'' := by
  intro v hv
  obtain ⟨hv', hread⟩ := h v hv
  obtain ⟨hv'', hread'⟩ := h' v hv'
  exact ⟨hv'', hread'.trans hread⟩

theorem reserve_spec (h : b.Ok) (source : Bytes) :
    (b.reserve source).Ok ∧ source.length ≤ (b.reserve source).buffer.capacity ∧
      b.Preserves (b.reserve source) := by
  unfold reserve
  split
  · refine ⟨⟨BytesMut.within_withCapacity _ _, rfl⟩, le_max_right _ _, ?_⟩
    intro v hv
    exact ⟨hv.withCapacity _, BytesMut.read_withCapacity hv _⟩
  · rename_i hroom
    exact ⟨h, Nat.le_of_not_lt hroom, Preserves.refl b⟩

/-- The chunk never grows: `reserve` has made enough room. -/
theorem copy_eq (h : b.Ok) (hne : source ≠ []) :
    b.copy source =
      (⟨(b.reserve source).buffer.chunk, (b.reserve source).buffer.start, source.length⟩,
        { b.reserve source with
          buffer := (b.reserve source).buffer.carved source.length
          heap := (b.reserve source).heap.write (b.reserve source).buffer.chunk
            (b.reserve source).buffer.start source }) := by
  obtain ⟨hok, hroom, -⟩ := reserve_spec h source
  simp only [copy, if_neg hne]
  rw [BytesMut.extendFromSlice_eq hok.len hroom, BytesMut.splitTo_eq]

/-- A copy reads back its source, and no earlier copy changes. -/
theorem copy_spec (h : b.Ok) (source : Bytes) :
    (b.copy source).2.Ok ∧ (b.copy source).2.Holds (b.copy source).1 ∧
      (b.copy source).1.read (b.copy source).2.heap = source ∧
      b.Preserves (b.copy source).2 := by
  by_cases hne : source = []
  · subst hne
    have hcopy : b.copy [] = (View.empty, b) := if_pos rfl
    rw [hcopy]
    exact ⟨h, BytesMut.behind_empty _ _, View.read_empty _, Preserves.refl b⟩
  · obtain ⟨hok, hroom, hpreserves⟩ := reserve_spec h source
    rw [copy_eq h hne]
    generalize b.reserve source = c at hok hroom hpreserves
    have hpos : 0 < source.length := List.length_pos_iff.mpr hne
    obtain ⟨memory, hmemory, hend⟩ := hok.within (by omega)
    refine ⟨⟨BytesMut.within_carved hmemory hend hroom, rfl⟩,
      BytesMut.behind_carved hmemory hend hroom,
      BytesMut.read_write_self hmemory (by omega), hpreserves.trans ?_⟩
    intro v hv
    exact hv.carve hmemory hend hroom

end BatchBuffer

namespace TopicCache

/-- Strings are interned under what they say. -/
def Ok (cache : TopicCache) : Prop :=
  ∀ topic interned, cache.interned.lookup topic = some interned → interned.text = topic

end TopicCache

namespace SharedEvent

end SharedEvent

namespace Converter

structure Ok (c : Converter) : Prop where
  topics : c.topics.Ok
  buffer : c.buffer.Ok

end Converter

end Rustper
