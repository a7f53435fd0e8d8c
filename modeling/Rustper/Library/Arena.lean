import Mathlib.Data.List.Basic
import Mathlib.Data.Set.Defs

/-!
Byte buffers that share the chunk they were carved from. A `BytesMut` is the part of its
chunk that has not been split off; a view is a range that has. Chunks are never freed
here, which is what the views keep true of theirs.
-/
namespace Arena

/-- Every chunk allocated so far. -/
abbrev Heap := List (List UInt8)

/-- A range of a chunk that has been split off. -/
structure View where
  chunk : ℕ
  start : ℕ
  len : ℕ
deriving DecidableEq, Repr

/-- The bytes written but not split off are the first `len` from `start`; `capacity` counts
from there to the end of the chunk. -/
structure BytesMut where
  chunk : ℕ
  start : ℕ
  len : ℕ
  capacity : ℕ
deriving DecidableEq, Repr

/-- An empty view points nowhere. -/
def View.empty : View := ⟨0, 0, 0⟩

def View.read (heap : Heap) (v : View) : List UInt8 :=
  ((heap[v.chunk]?.getD []).drop v.start).take v.len

@[simp] theorem View.read_empty (heap : Heap) : View.empty.read heap = [] := by
  simp [View.read, View.empty]

/-- The places in memory of a view, by chunk and position. -/
def View.cells (v : View) : Set (ℕ × ℕ) :=
  {cell | cell.1 = v.chunk ∧ v.start ≤ cell.2 ∧ cell.2 < v.start + v.len}

/-- No place in memory belongs to both views. -/
def View.Apart (v w : View) : Prop := ∀ cell ∈ v.cells, cell ∉ w.cells

/-- Overwrite a chunk from a position on. -/
def Heap.write (heap : Heap) (chunk position : ℕ) (source : List UInt8) : Heap :=
  heap.modify chunk
    (fun memory => memory.take position ++ source ++ memory.drop (position + source.length))

namespace BytesMut

def new : BytesMut := ⟨0, 0, 0, 0⟩

def withCapacity (heap : Heap) (capacity : ℕ) : BytesMut × Heap :=
  (⟨heap.length, 0, 0, capacity⟩, heap ++ [List.replicate capacity 0])

/-- The written bytes move to a fresh chunk when the source does not fit behind them. -/
def extendFromSlice (b : BytesMut) (heap : Heap) (source : List UInt8) : BytesMut × Heap :=
  if b.capacity < b.len + source.length then
    let written := View.read heap ⟨b.chunk, b.start, b.len⟩
    let grown := withCapacity heap (b.len + source.length)
    ({ grown.1 with len := b.len + source.length },
      grown.2.write grown.1.chunk 0 (written ++ source))
  else
    ({ b with len := b.len + source.length }, heap.write b.chunk (b.start + b.len) source)

def splitTo (b : BytesMut) (n : ℕ) : View × BytesMut :=
  (⟨b.chunk, b.start, n⟩,
    { b with start := b.start + n, len := b.len - n, capacity := b.capacity - n })

/-- The buffer reaches to the end of its chunk, unless it has no room. -/
def Within (b : BytesMut) (heap : Heap) : Prop :=
  0 < b.capacity → ∃ memory, heap[b.chunk]? = some memory ∧
    b.start + b.capacity = memory.length

/-- The view lies in its chunk, in front of what the buffer may still write. -/
def Behind (v : View) (b : BytesMut) (heap : Heap) : Prop :=
  0 < v.len → ∃ memory, heap[v.chunk]? = some memory ∧ v.start + v.len ≤ memory.length ∧
    (v.chunk = b.chunk → v.start + v.len ≤ b.start)

theorem behind_empty (b : BytesMut) (heap : Heap) : Behind View.empty b heap := by
  intro hpos
  exact absurd hpos (Nat.lt_irrefl 0)

theorem within_new (heap : Heap) : Within new heap := by
  intro hpos
  exact absurd hpos (Nat.lt_irrefl 0)

theorem within_withCapacity (heap : Heap) (capacity : ℕ) :
    Within (withCapacity heap capacity).1 (withCapacity heap capacity).2 := by
  intro _
  exact ⟨List.replicate capacity 0, List.getElem?_concat_length, by simp [withCapacity]⟩

/-- A fresh chunk is behind no view. -/
theorem Behind.withCapacity {v : View} {b : BytesMut} {heap : Heap} (h : Behind v b heap)
    (capacity : ℕ) :
    Behind v (withCapacity heap capacity).1 (withCapacity heap capacity).2 := by
  intro hpos
  obtain ⟨memory, hmemory, hle, -⟩ := h hpos
  have hlt := (List.getElem?_eq_some_iff.mp hmemory).1
  refine ⟨memory, ?_, hle, fun heq => ?_⟩
  · exact (List.getElem?_append_left hlt).trans hmemory
  · have hchunk : v.chunk = heap.length := heq
    omega

/-- What the buffer writes next is no part of a view behind it. -/
theorem Behind.apart {v : View} {b : BytesMut} {heap : Heap} (h : Behind v b heap) (n : ℕ) :
    v.Apart ⟨b.chunk, b.start, n⟩ := by
  intro cell hv hnew
  obtain ⟨hchunk, hstart, hend⟩ := hv
  obtain ⟨hchunk', hstart', -⟩ := hnew
  obtain ⟨-, -, -, hbefore⟩ := h (by omega)
  have hle := hbefore (hchunk.symm.trans hchunk')
  dsimp only at hstart'
  omega

theorem read_withCapacity {v : View} {b : BytesMut} {heap : Heap} (h : Behind v b heap)
    (capacity : ℕ) : v.read (withCapacity heap capacity).2 = v.read heap := by
  by_cases hpos : 0 < v.len
  · obtain ⟨memory, hmemory, -⟩ := h hpos
    have hlt := (List.getElem?_eq_some_iff.mp hmemory).1
    rw [View.read, View.read]
    show (((heap ++ [List.replicate capacity 0])[v.chunk]?.getD []).drop v.start).take v.len = _
    rw [List.getElem?_append_left hlt]
  · have hzero : v.len = 0 := by omega
    simp [View.read, hzero]

section write

variable {v : View} {heap : Heap} {chunk position : ℕ} {source memory : List UInt8}

theorem getElem?_write (h : heap[chunk]? = some memory) :
    (heap.write chunk position source)[chunk]? =
      some (memory.take position ++ source ++ memory.drop (position + source.length)) := by
  simp [Heap.write, h]

theorem length_write_chunk (h : position + source.length ≤ memory.length) :
    (memory.take position ++ source ++ memory.drop (position + source.length)).length =
      memory.length := by
  simp only [List.length_append, List.length_take, List.length_drop]
  omega

/-- A write that fits changes the size of no chunk. -/
theorem lengths_write (h : heap[chunk]? = some memory)
    (hle : position + source.length ≤ memory.length) :
    (heap.write chunk position source).map List.length = heap.map List.length := by
  apply List.ext_getElem?
  intro i
  rw [List.getElem?_map, List.getElem?_map]
  by_cases hi : chunk = i
  · subst hi
    rw [getElem?_write h, h, Option.map_some, Option.map_some, length_write_chunk hle]
  · simp [Heap.write, hi]

/-- What was just written is read back. -/
theorem read_write_self (h : heap[chunk]? = some memory)
    (hle : position + source.length ≤ memory.length) :
    View.read (heap.write chunk position source) ⟨chunk, position, source.length⟩ = source := by
  have hlength : (memory.take position).length = position := List.length_take_of_le (by omega)
  rw [View.read, getElem?_write h, Option.getD_some, List.append_assoc,
    List.drop_left' hlength, List.take_left]

/-- A view in front of the position, or in another chunk, does not notice. -/
theorem read_write_of_behind (hle : position ≤ (heap[chunk]?.getD []).length)
    (hbefore : v.chunk = chunk → v.start + v.len ≤ position) :
    v.read (heap.write chunk position source) = v.read heap := by
  by_cases hchunk : v.chunk = chunk
  · subst hchunk
    have hend := hbefore rfl
    cases hmemory : heap[v.chunk]? with
    | none => simp [View.read, Heap.write, hmemory]
    | some memory =>
      rw [hmemory, Option.getD_some] at hle
      have htake : (memory.take position ++ source ++ memory.drop (position + source.length)).take
          (v.start + v.len) = memory.take (v.start + v.len) := by
        rw [List.append_assoc, List.take_append_of_le_length (by
          rw [List.length_take]
          omega), List.take_take, Nat.min_eq_left hend]
      rw [View.read, View.read, getElem?_write hmemory, hmemory, Option.getD_some,
        Option.getD_some, List.take_drop, List.take_drop, htake]
  · simp [View.read, Heap.write, Ne.symm hchunk]

end write

section carve

variable {b : BytesMut} {heap : Heap} {source memory : List UInt8}

theorem extendFromSlice_eq (hlen : b.len = 0) (hroom : source.length ≤ b.capacity) :
    b.extendFromSlice heap source =
      ({ b with len := source.length }, heap.write b.chunk b.start source) := by
  have hfits : ¬ b.capacity < b.len + source.length := by omega
  rw [extendFromSlice, if_neg hfits, hlen, Nat.zero_add, Nat.add_zero]

/-- The buffer that is left when the source has been written and split off. -/
def carved (b : BytesMut) (n : ℕ) : BytesMut :=
  { b with start := b.start + n, len := 0, capacity := b.capacity - n }

theorem splitTo_eq (n : ℕ) :
    splitTo { b with len := n } n = (⟨b.chunk, b.start, n⟩, b.carved n) := by
  rw [splitTo, carved, Nat.sub_self]

theorem getElem?_carve (hmemory : heap[b.chunk]? = some memory)
    (hend : b.start + b.capacity = memory.length) (hroom : source.length ≤ b.capacity) :
    ∃ memory', (heap.write b.chunk b.start source)[b.chunk]? = some memory' ∧
      memory'.length = memory.length :=
  ⟨_, getElem?_write hmemory, length_write_chunk (by omega)⟩

theorem within_carved (hmemory : heap[b.chunk]? = some memory)
    (hend : b.start + b.capacity = memory.length) (hroom : source.length ≤ b.capacity) :
    Within (b.carved source.length) (heap.write b.chunk b.start source) := by
  intro _
  obtain ⟨memory', hmemory', hlength⟩ := getElem?_carve hmemory hend hroom
  refine ⟨memory', hmemory', ?_⟩
  simp only [carved]
  omega

theorem behind_carved (hmemory : heap[b.chunk]? = some memory)
    (hend : b.start + b.capacity = memory.length) (hroom : source.length ≤ b.capacity) :
    Behind ⟨b.chunk, b.start, source.length⟩ (b.carved source.length)
      (heap.write b.chunk b.start source) := by
  intro _
  obtain ⟨memory', hmemory', hlength⟩ := getElem?_carve hmemory hend hroom
  refine ⟨memory', hmemory', ?_, fun _ => Nat.le_refl _⟩
  dsimp only
  omega

/-- A view behind the buffer stays behind it and reads the same. -/
theorem Behind.carve {v : View} (h : Behind v b heap) (hmemory : heap[b.chunk]? = some memory)
    (hend : b.start + b.capacity = memory.length) (hroom : source.length ≤ b.capacity) :
    Behind v (b.carved source.length) (heap.write b.chunk b.start source) ∧
      v.read (heap.write b.chunk b.start source) = v.read heap := by
  obtain ⟨memory', hmemory', hlength⟩ := getElem?_carve hmemory hend hroom
  by_cases hpos : 0 < v.len
  · obtain ⟨own, hown, hle, hbefore⟩ := h hpos
    refine ⟨fun _ => ?_, ?_⟩
    · by_cases hchunk : v.chunk = b.chunk
      · rw [hchunk, hmemory] at hown
        obtain rfl := Option.some.inj hown
        refine ⟨memory', hchunk ▸ hmemory', by omega, fun _ => ?_⟩
        have hstart := hbefore hchunk
        simp only [carved]
        omega
      · refine ⟨own, ?_, hle, fun heq => absurd heq hchunk⟩
        simpa [Heap.write, Ne.symm hchunk] using hown
    · refine read_write_of_behind ?_ hbefore
      rw [hmemory, Option.getD_some]
      omega
  · have hzero : v.len = 0 := by omega
    exact ⟨fun hlt => absurd hlt hpos, by simp [View.read, hzero]⟩

end carve

end BytesMut

end Arena
