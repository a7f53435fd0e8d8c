import Rustper.BatchOffsets
import Rustper.Library.GroupedMax

/-!
The offset list of a batch as a map from partitions. It depends on the events of the batch
only as a set, and the map of two batches together is the union of their maps.
-/
namespace Rustper.Source

open MachineInt

/-- The position a list has for a partition. -/
def offsetAt (tp : TopicPartition) (list : TopicPartitionList) : Option ℤ :=
  (offsetsAt tp list).head?

/-- No event stands at the last position a log can have. -/
def Resumable (events : List Event) : Prop :=
  ∀ event ∈ events, 0 ≤ event.source.offset ∧ event.source.offset ≤ i64Max - 1

variable {client : OffsetList} {events more : List Event} {entry : PartitionOffset}

theorem highestNext_eq (tp : TopicPartition) (events : List Event) :
    highestNext tp events = GroupedMax.highest Event.topicPartition nextOffset tp events :=
  rfl

theorem offsetAt_nextOffsets (tp : TopicPartition) (events : List Event) :
    offsetAt tp (nextOffsets events) = highestNext tp events := by
  rw [offsetAt, offsetsAt_nextOffsets]
  cases highestNext tp events <;> rfl

theorem Resumable.nextOffset (h : Resumable events) {event : Event} (he : event ∈ events) :
    nextOffset event = event.source.offset + 1 := by
  obtain ⟨hmin, hmax⟩ := h event he
  apply wrapI64_of_mem
  · rw [i64Min]
    omega
  · omega

theorem Resumable.append (h : Resumable events) (hmore : Resumable more) :
    Resumable (events ++ more) := by
  intro event he
  rcases List.mem_append.mp he with he | he
  · exact h event he
  · exact hmore event he

theorem Resumable.perm (h : Resumable events) {permuted : List Event}
    (hperm : permuted.Perm events) : Resumable permuted :=
  fun event he => h event (hperm.mem_iff.mp he)

theorem foldlM_addPartitionOffset_ok {entries : TopicPartitionList}
    (h : ∀ entry ∈ entries, 0 ≤ entry.offset) (list : TopicPartitionList) :
    entries.foldlM client.addPartitionOffset list = .ok (list ++ entries) := by
  induction entries generalizing list with
  | nil =>
    rw [List.append_nil]
    rfl
  | cons entry rest ih =>
    have haccepts := client.accepts list entry (h entry List.mem_cons_self)
    have hrest : ∀ entry ∈ rest, 0 ≤ entry.offset :=
      fun entry he => h entry (List.mem_cons_of_mem _ he)
    rw [List.foldlM_cons, OffsetList.addPartitionOffset, haccepts]
    exact (ih hrest _).trans (by rw [List.append_assoc]; rfl)

theorem Resumable.offsetsFor_ok (h : Resumable events) :
    offsetsFor client events = .ok (nextOffsets events) := by
  apply foldlM_addPartitionOffset_ok
  intro entry hentry
  obtain ⟨event, he, -, hoffset⟩ := mem_nextOffsets hentry
  rw [hoffset, h.nextOffset he]
  have := (h event he).1
  omega

theorem mem_offsetsAt {list : TopicPartitionList} (h : entry ∈ list) :
    entry.offset ∈ offsetsAt entry.topicPartition list :=
  List.mem_map_of_mem (List.mem_filter.mpr ⟨h, by simp⟩)

/-- A list with at most one offset for every partition has no partition twice. -/
theorem nodup_of_length_offsetsAt {list : TopicPartitionList}
    (h : ∀ tp, (offsetsAt tp list).length ≤ 1) :
    (list.map PartitionOffset.topicPartition).Nodup := by
  rw [List.nodup_iff_count_le_one]
  intro tp
  refine Nat.le_trans (Nat.le_of_eq ?_) (h tp)
  rw [List.count_eq_countP, List.countP_map, List.countP_eq_length_filter, offsetsAt,
    List.length_map]
  simp only [Function.comp_def, beq_eq_decide]

theorem nextOffsets_nodup (events : List Event) :
    ((nextOffsets events).map PartitionOffset.topicPartition).Nodup := by
  apply nodup_of_length_offsetsAt
  intro tp
  rw [offsetsAt_nextOffsets]
  cases highestNext tp events <;> simp

/-- The entry of a partition has the highest offset to resume from. -/
theorem offset_eq_highestNext (h : entry ∈ nextOffsets events) :
    highestNext entry.topicPartition events = some entry.offset := by
  have hmem := mem_offsetsAt h
  rw [offsetsAt_nextOffsets] at hmem
  simpa using hmem

theorem exists_entry_iff (tp : TopicPartition) : (∃ entry ∈ nextOffsets events,
    entry.topicPartition = tp) ↔ ∃ event ∈ events, event.topicPartition = tp := by
  constructor
  · intro h
    obtain ⟨entry, hentry, rfl⟩ := h
    obtain ⟨event, he, hfollows⟩ := mem_nextOffsets hentry
    exact ⟨event, he, hfollows.1.symm⟩
  · intro h
    obtain ⟨event, he, rfl⟩ := h
    cases hhighest : highestNext event.topicPartition events with
    | none => exact absurd rfl (GroupedMax.highest_eq_none_iff.mp hhighest event he)
    | some x =>
      have hoffsets := offsetsAt_nextOffsets event.topicPartition events
      rw [hhighest] at hoffsets
      have hx : x ∈ offsetsAt event.topicPartition (nextOffsets events) := by
        rw [hoffsets]
        exact List.mem_cons_self
      obtain ⟨entry, hentry, -⟩ := List.mem_map.mp hx
      obtain ⟨hmem, htp⟩ := List.mem_filter.mp hentry
      exact ⟨entry, hmem, of_decide_eq_true htp⟩

/-- An entry is one past the greatest offset of its partition. -/
theorem Resumable.entry_greatest (h : Resumable events) (hentry : entry ∈ nextOffsets events) :
    (∃ event ∈ events, event.topicPartition = entry.topicPartition ∧
      entry.offset = event.source.offset + 1) ∧
    ∀ event ∈ events, event.topicPartition = entry.topicPartition →
      event.source.offset + 1 ≤ entry.offset := by
  have hhighest := offset_eq_highestNext hentry
  rw [highestNext_eq] at hhighest
  obtain ⟨⟨event, he, htp, hoffset⟩, hle⟩ := GroupedMax.highest_eq_some_iff.mp hhighest
  refine ⟨⟨event, he, htp, ?_⟩, ?_⟩
  · rw [← hoffset, h.nextOffset he]
  · intro other hother htp
    rw [← h.nextOffset hother]
    exact hle other hother htp

/-- For events below the last position of a log the offsets are recorded: one entry for
every partition of the batch and no other, one past the greatest offset. The order of the
events is not seen in the map, and the map of a concatenation is the union of the maps with
the larger offset where both have the partition. -/
theorem offsetsFor_map (client : OffsetList) (events : List Event) (h : Resumable events) :
    ∃ offsets, offsetsFor client events = .ok offsets ∧
      (offsets.map PartitionOffset.topicPartition).Nodup ∧
      (∀ tp, (∃ entry ∈ offsets, entry.topicPartition = tp) ↔
        ∃ event ∈ events, event.topicPartition = tp) ∧
      (∀ entry ∈ offsets,
        (∃ event ∈ events, event.topicPartition = entry.topicPartition ∧
          entry.offset = event.source.offset + 1) ∧
        ∀ event ∈ events, event.topicPartition = entry.topicPartition →
          event.source.offset + 1 ≤ entry.offset) ∧
      (∀ permuted : List Event, permuted.Perm events →
        ∃ same, offsetsFor client permuted = .ok same ∧
          ∀ tp, offsetAt tp same = offsetAt tp offsets) ∧
      ∀ more, Resumable more →
        ∃ other both, offsetsFor client more = .ok other ∧
          offsetsFor client (events ++ more) = .ok both ∧
          ∀ tp, offsetAt tp both = Option.merge max (offsetAt tp offsets) (offsetAt tp other) := by
  refine ⟨nextOffsets events, h.offsetsFor_ok, nextOffsets_nodup events, exists_entry_iff,
    fun entry => h.entry_greatest, ?_, ?_⟩
  · intro permuted hperm
    refine ⟨nextOffsets permuted, (h.perm hperm).offsetsFor_ok, fun tp => ?_⟩
    rw [offsetAt_nextOffsets, offsetAt_nextOffsets]
    exact GroupedMax.highest_perm hperm
  · intro more hmore
    refine ⟨nextOffsets more, nextOffsets (events ++ more), hmore.offsetsFor_ok,
      (h.append hmore).offsetsFor_ok, fun tp => ?_⟩
    rw [offsetAt_nextOffsets, offsetAt_nextOffsets, offsetAt_nextOffsets]
    exact GroupedMax.highest_append events more

/-- Two topics that share a partition number, and an older record of the first. -/
def consumed (topic : String) (offset : ℤ) : Event :=
  ⟨none, [], none, "in", topic, 0, offset⟩

theorem offsetsFor_map_sharedPartition :
    ∃ offsets other both,
      offsetsFor OffsetList.checked [consumed "a" 4, consumed "b" 1] = .ok offsets ∧
      offsetsFor OffsetList.checked [consumed "a" 2] = .ok other ∧
      offsetsFor OffsetList.checked ([consumed "a" 4, consumed "b" 1] ++ [consumed "a" 2]) =
        .ok both ∧
      ∀ tp, offsetAt tp both = Option.merge max (offsetAt tp offsets) (offsetAt tp other) := by
  obtain ⟨offsets, hoffsets, -, -, -, -, hunion⟩ :=
    offsetsFor_map OffsetList.checked [consumed "a" 4, consumed "b" 1]
      (by unfold Resumable; decide)
  obtain ⟨other, both, hother, hboth, hat⟩ :=
    hunion [consumed "a" 2] (by unfold Resumable; decide)
  exact ⟨offsets, other, both, hoffsets, hother, hboth, hat⟩

end Rustper.Source
