import Rustper.BatchBuffer
import Rustper.Library.NextFit

/-!
A run of copies into one arena: where the views lie, and how many chunks are allocated.
The chunks are the bins of a next-fit packing of the sources.
-/
namespace Rustper.BatchBuffer

open Arena

/-- The sources copied one after another. -/
def copies (b : BatchBuffer) : List Bytes → List View × BatchBuffer
  | [] => ([], b)
  | source :: rest =>
    let first := b.copy source
    let others := first.2.copies rest
    (first.1 :: others.1, others.2)

/-- A new arena and the views it handed out. -/
def filled (chunk : ℕ) (sources : List Bytes) : List View × BatchBuffer :=
  (withChunk chunk).copies sources

/-- The view lies in its chunk. -/
def Inside (heap : Heap) (v : View) : Prop :=
  0 < v.len → ∃ memory, heap[v.chunk]? = some memory ∧ v.start + v.len ≤ memory.length

variable {b : BatchBuffer} {source : Bytes} {v : View}

theorem Holds.inside (h : b.Holds v) : Inside b.heap v := by
  intro hpos
  obtain ⟨memory, hmemory, hle, -⟩ := h hpos
  exact ⟨memory, hmemory, hle⟩

theorem reserve_nil (b : BatchBuffer) : b.reserve [] = b := if_neg (Nat.not_lt_zero _)

theorem copy_nil (b : BatchBuffer) : b.copy [] = (View.empty, b) := if_pos rfl

theorem chunk_reserve (b : BatchBuffer) (source : Bytes) :
    (b.reserve source).chunk = b.chunk := by
  unfold reserve
  split <;> rfl

theorem chunk_copy (b : BatchBuffer) (source : Bytes) : (b.copy source).2.chunk = b.chunk := by
  unfold copy
  split
  · rfl
  · exact chunk_reserve b source

theorem chunk_copies (b : BatchBuffer) (sources : List Bytes) :
    (b.copies sources).2.chunk = b.chunk := by
  induction sources generalizing b with
  | nil => rfl
  | cons source rest ih => exact (ih _).trans (chunk_copy b source)

/-- A fresh chunk, when there is one, is the only change that `reserve` makes. -/
theorem lengths_reserve (b : BatchBuffer) (source : Bytes) :
    (b.reserve source).heap.map List.length = b.heap.map List.length ++
      (if b.buffer.capacity < source.length then [max b.chunk source.length] else []) := by
  unfold reserve
  split
  · simp [BytesMut.withCapacity]
  · exact (List.append_nil _).symm

/-- The copy itself changes the size of no chunk. -/
theorem lengths_copy (h : b.Ok) (source : Bytes) :
    (b.copy source).2.heap.map List.length = (b.reserve source).heap.map List.length := by
  by_cases hne : source = []
  · rw [hne, copy_nil, reserve_nil]
  · obtain ⟨hok, hroom, -⟩ := reserve_spec h source
    have hpos : 0 < source.length := List.length_pos_iff.mpr hne
    obtain ⟨memory, hmemory, hend⟩ := hok.within (by omega)
    rw [copy_eq h hne]
    exact BytesMut.lengths_write hmemory (by omega)

/-- A view that was safe is no part of the next copy. -/
theorem copy_apart (h : b.Ok) (hv : b.Holds v) (source : Bytes) :
    v.Apart (b.copy source).1 := by
  by_cases hne : source = []
  · rw [hne, copy_nil]
    intro cell _ hcell
    obtain ⟨-, hstart, hend⟩ := hcell
    exact absurd hend (Nat.not_lt.mpr hstart)
  · rw [copy_eq h hne]
    exact ((reserve_spec h source).2.2 v hv).1.apart _

/-- The views of a run are safe and apart from each other and from those before it, and
each reads back its source. -/
theorem copies_spec (h : b.Ok) (sources : List Bytes) :
    (b.copies sources).2.Ok ∧ b.Preserves (b.copies sources).2 ∧
      (∀ v ∈ (b.copies sources).1, (b.copies sources).2.Holds v) ∧
      (b.copies sources).1.map (View.read (b.copies sources).2.heap) = sources ∧
      (∀ v, b.Holds v → ∀ w ∈ (b.copies sources).1, v.Apart w) ∧
      (b.copies sources).1.Pairwise View.Apart := by
  induction sources generalizing b with
  | nil =>
    exact ⟨h, Preserves.refl b, fun v hv => by contradiction, rfl,
      fun v hv w hw => by contradiction, .nil⟩
  | cons source rest ih =>
    obtain ⟨hok, hholds, hread, hpreserves⟩ := copy_spec h source
    obtain ⟨hend, hkept, hrest, hreads, hapart, hpairwise⟩ := ih hok
    obtain ⟨hlater, hsame⟩ := hkept _ hholds
    refine ⟨hend, hpreserves.trans hkept, ?_, ?_, ?_, ?_⟩
    · intro v hv
      rcases List.mem_cons.mp hv with rfl | hv
      · exact hlater
      · exact hrest v hv
    · exact congrArg₂ List.cons (hsame.trans hread) hreads
    · intro v hv w hw
      rcases List.mem_cons.mp hw with rfl | hw
      · exact copy_apart h hv source
      · exact hapart v (hpreserves v hv).1 w hw
    · exact List.pairwise_cons.mpr ⟨hapart _ hholds, hpairwise⟩

/-- The chunks as bins. -/
def bins (b : BatchBuffer) : NextFit.Bins := ⟨b.heap.length, b.buffer.start, b.buffer.capacity⟩

theorem bins_copy (h : b.Ok) (source : Bytes) :
    (b.copy source).2.bins = NextFit.place b.chunk b.bins source.length := by
  have hlength := congrArg List.length (lengths_copy h source)
  rw [List.length_map, List.length_map] at hlength
  by_cases hne : source = []
  · rw [hne, copy_nil]
    rfl
  · rw [bins, hlength, copy_eq h hne, NextFit.place, bins]
    unfold reserve
    split
    · simp [BytesMut.withCapacity, BytesMut.carved]
    · rfl

theorem bins_copies (h : b.Ok) (sources : List Bytes) :
    (b.copies sources).2.bins =
      (sources.map List.length).foldl (NextFit.place b.chunk) b.bins := by
  induction sources generalizing b with
  | nil => rfl
  | cons source rest ih =>
    rw [List.map_cons, List.foldl_cons, ← bins_copy h source, ← chunk_copy b source]
    exact ih (copy_spec h source).1

/-- For every chunk size and all sources: the views read back their sources after the last
copy, they occupy disjoint ranges inside their chunks, no copy needs more room than its
chunk has left, so that chunks are only added and never grow, and there are at most twice
as many as the bytes would fill, and one. -/
theorem copies_packed (chunk : ℕ) (sources : List Bytes) :
    (filled chunk sources).1.map (View.read (filled chunk sources).2.heap) = sources ∧
      (filled chunk sources).1.Pairwise View.Apart ∧
      (∀ v ∈ (filled chunk sources).1, Inside (filled chunk sources).2.heap v) ∧
      (∀ source, let b := (filled chunk sources).2
        (b.reserve source).buffer.len + source.length ≤ (b.reserve source).buffer.capacity ∧
        (b.copy source).2.heap.map List.length = b.heap.map List.length ++
          (if b.buffer.capacity < source.length then [max (max chunk 1) source.length]
          else [])) ∧
      (filled chunk sources).2.heap.length ≤
        2 * (sources.map List.length).sum / max chunk 1 + 1 := by
  obtain ⟨hend, -, hholds, hreads, -, hpairwise⟩ := copies_spec (ok_withChunk chunk) sources
  have hchunk : (filled chunk sources).2.chunk = max chunk 1 := chunk_copies _ sources
  refine ⟨hreads, hpairwise, fun v hv => (hholds v hv).inside, fun source => ⟨?_, ?_⟩, ?_⟩
  · obtain ⟨hok, hroom, -⟩ := reserve_spec hend source
    rw [filled, hok.len, Nat.zero_add]
    exact hroom
  · rw [← hchunk, filled, lengths_copy hend, lengths_reserve]
  · have hbins : (filled chunk sources).2.bins =
        (sources.map List.length).foldl (NextFit.place (max chunk 1)) .none :=
      bins_copies (ok_withChunk chunk) sources
    have hpacked := (NextFit.packed_none (max chunk 1)).foldl (sources.map List.length)
    rw [← hbins, Nat.zero_add] at hpacked
    exact hpacked.count_le (by omega)

/-- An empty source, one that fills its chunk, and one larger than a chunk. -/
theorem copies_packed_four : ∃ v,
    (filled 4 [[1, 2], [], [3, 4], [5, 6, 7, 8, 9, 10]]).1[3]? = some v ∧
      Inside (filled 4 [[1, 2], [], [3, 4], [5, 6, 7, 8, 9, 10]]).2.heap v := by
  have hlast : ∃ v, (filled 4 [[1, 2], [], [3, 4], [5, 6, 7, 8, 9, 10]]).1[3]? = some v :=
    ⟨_, rfl⟩
  obtain ⟨v, hv⟩ := hlast
  obtain ⟨-, -, hinside, -⟩ := copies_packed 4 [[1, 2], [], [3, 4], [5, 6, 7, 8, 9, 10]]
  exact ⟨v, hv, hinside v (List.mem_of_getElem? hv)⟩

end Rustper.BatchBuffer
