import Rustper.Commit

/-!
Every entry of the offset list of a batch resumes right after one of its events.
-/
namespace Rustper.Source

open MachineInt

variable {client : OffsetList}

theorem foldlM_addPartitionOffset {entries list offsets : TopicPartitionList}
    (h : entries.foldlM client.addPartitionOffset list = .ok offsets) :
    offsets = list ++ entries := by
  induction entries generalizing list with
  | nil =>
    cases h
    exact (List.append_nil _).symm
  | cons entry rest ih =>
    rw [List.foldlM_cons, OffsetList.addPartitionOffset] at h
    split at h
    · contradiction
    · rw [ih h, List.append_assoc, List.singleton_append]

/-- The client library records the entries it is given, in their order. -/
theorem offsetsFor_eq {events : List Event} {offsets : TopicPartitionList}
    (h : offsetsFor client events = .ok offsets) : offsets = nextOffsets events :=
  foldlM_addPartitionOffset h

/-- The entry resumes right after the event. -/
def PartitionOffset.Follows (entry : PartitionOffset) (event : Event) : Prop :=
  entry.topicPartition = event.topicPartition ∧ entry.offset = nextOffset event

theorem mem_noteNext {list : TopicPartitionList} {event : Event} {entry : PartitionOffset}
    (h : entry ∈ noteNext list event) : entry.Follows event ∨
      ∃ seen ∈ list, seen.topicPartition = entry.topicPartition ∧ seen.offset = entry.offset := by
  induction list with
  | nil =>
    rw [noteNext, List.mem_singleton] at h
    subst h
    exact Or.inl ⟨rfl, rfl⟩
  | cons seen rest ih =>
    rw [noteNext] at h
    split at h
    · rename_i hsame
      rcases List.mem_cons.mp h with rfl | h
      · rcases max_choice seen.offset (nextOffset event) with hmax | hmax
        · exact Or.inr ⟨seen, List.mem_cons_self, rfl, hmax.symm⟩
        · refine Or.inl ⟨?_, hmax⟩
          exact Prod.ext hsame.2 hsame.1
      · exact Or.inr ⟨entry, List.mem_cons_of_mem _ h, rfl, rfl⟩
    · rcases List.mem_cons.mp h with rfl | h
      · exact Or.inr ⟨entry, List.mem_cons_self, rfl, rfl⟩
      · refine (ih h).imp_right ?_
        rintro ⟨old, hold, hrest⟩
        exact ⟨old, List.mem_cons_of_mem _ hold, hrest⟩

theorem mem_foldl_noteNext {events : List Event} {list : TopicPartitionList}
    {entry : PartitionOffset} (h : entry ∈ events.foldl noteNext list) :
    (∃ event ∈ events, entry.Follows event) ∨
      ∃ seen ∈ list, seen.topicPartition = entry.topicPartition ∧ seen.offset = entry.offset := by
  induction events generalizing list with
  | nil => exact Or.inr ⟨entry, h, rfl, rfl⟩
  | cons event rest ih =>
    rcases ih h with ⟨later, hlater, hfollows⟩ | ⟨seen, hseen, htopic, hoffset⟩
    · exact Or.inl ⟨later, List.mem_cons_of_mem _ hlater, hfollows⟩
    · rcases mem_noteNext hseen with ⟨htp, hnext⟩ | ⟨old, hold, htp, hold_offset⟩
      · exact Or.inl ⟨event, List.mem_cons_self, htopic.symm.trans htp, hoffset.symm.trans hnext⟩
      · exact Or.inr ⟨old, hold, htp.trans htopic, hold_offset.trans hoffset⟩

theorem mem_nextOffsets {events : List Event} {entry : PartitionOffset}
    (h : entry ∈ nextOffsets events) : ∃ event ∈ events, entry.Follows event := by
  rcases mem_foldl_noteNext h with hevent | ⟨seen, hseen, -⟩
  · exact hevent
  · contradiction

/-- The offsets a list has for a partition, in order. -/
def offsetsAt (tp : TopicPartition) (list : TopicPartitionList) : List ℤ :=
  (list.filter (fun entry => entry.topicPartition = tp)).map PartitionOffset.offset

/-- The highest offset to resume from after the events of a partition, if there are any. -/
def highestNext (tp : TopicPartition) (events : List Event) : Option ℤ :=
  ((events.filter (fun event => event.topicPartition = tp)).map nextOffset).max?

section OffsetsAt

variable {tp : TopicPartition} {event : Event} {entry : PartitionOffset}

theorem offsetsAt_cons_pos (h : entry.topicPartition = tp) (rest : TopicPartitionList) :
    offsetsAt tp (entry :: rest) = entry.offset :: offsetsAt tp rest := by
  rw [offsetsAt, List.filter_cons_of_pos (by simpa using h), List.map_cons]
  rfl

theorem offsetsAt_cons_neg (h : entry.topicPartition ≠ tp) (rest : TopicPartitionList) :
    offsetsAt tp (entry :: rest) = offsetsAt tp rest := by
  rw [offsetsAt, List.filter_cons_of_neg (by simpa using h)]
  rfl

theorem same_topicPartition
    (h : entry.partition = event.source.partition ∧ entry.topic = event.source.topic) :
    entry.topicPartition = event.topicPartition :=
  Prod.ext h.2 h.1

theorem offsetsAt_noteNext_ne (h : event.topicPartition ≠ tp) (list : TopicPartitionList) :
    offsetsAt tp (noteNext list event) = offsetsAt tp list := by
  induction list with
  | nil =>
    apply offsetsAt_cons_neg
    exact h
  | cons seen rest ih =>
    rw [noteNext]
    split
    · next hsame =>
      have hseen : seen.topicPartition ≠ tp := (same_topicPartition hsame).trans_ne h
      rw [offsetsAt_cons_neg hseen]
      apply offsetsAt_cons_neg
      exact hseen
    · by_cases hseen : seen.topicPartition = tp
      · rw [offsetsAt_cons_pos hseen, offsetsAt_cons_pos hseen, ih]
      · rw [offsetsAt_cons_neg hseen, offsetsAt_cons_neg hseen, ih]

/-- The entry of the event's partition is raised, or made. -/
theorem offsetsAt_noteNext (h : event.topicPartition = tp) {list : TopicPartitionList}
    {highest : Option ℤ} (hlist : offsetsAt tp list = highest.toList) :
    offsetsAt tp (noteNext list event) =
      [highest.elim (nextOffset event) (max · (nextOffset event))] := by
  induction list generalizing highest with
  | nil =>
    obtain rfl : highest = none := by simpa [offsetsAt] using hlist.symm
    apply offsetsAt_cons_pos
    exact h
  | cons seen rest ih =>
    rw [noteNext]
    split
    · next hsame =>
      have hseen : seen.topicPartition = tp := (same_topicPartition hsame).trans h
      rw [offsetsAt_cons_pos hseen] at hlist
      cases highest with
      | none => contradiction
      | some x =>
        obtain ⟨rfl, hrest⟩ := List.cons.inj hlist
        rw [offsetsAt_cons_pos, hrest]
        · rfl
        · exact hseen
    · next hdiffer =>
      have hseen : seen.topicPartition ≠ tp := by
        intro heq
        obtain ⟨htopic, hpartition⟩ := Prod.mk.inj (heq.trans h.symm)
        exact hdiffer ⟨hpartition, htopic⟩
      rw [offsetsAt_cons_neg hseen] at hlist
      rw [offsetsAt_cons_neg hseen, ih hlist]

end OffsetsAt

/-- A batch has one offset for each of its partitions, the highest, and no other. -/
theorem offsetsAt_nextOffsets (tp : TopicPartition) (events : List Event) :
    offsetsAt tp (nextOffsets events) = (highestNext tp events).toList := by
  induction events using List.reverseRecOn with
  | nil => rfl
  | append_singleton events event ih =>
    have hfold : nextOffsets (events ++ [event]) = noteNext (nextOffsets events) event := by
      rw [nextOffsets, List.foldl_append]
      rfl
    rw [hfold]
    by_cases h : event.topicPartition = tp
    · rw [offsetsAt_noteNext h ih]
      have hfilter : (events ++ [event]).filter (fun event => event.topicPartition = tp) =
          events.filter (fun event => event.topicPartition = tp) ++ [event] := by
        simp [h]
      rw [highestNext, highestNext, hfilter, List.map_append]
      cases hmap : (events.filter (fun event => event.topicPartition = tp)).map nextOffset with
      | nil => rfl
      | cons x rest =>
        rw [List.cons_append, List.max?_cons', List.max?_cons', List.foldl_append]
        rfl
    · rw [offsetsAt_noteNext_ne h, ih, highestNext, highestNext, List.filter_append]
      simp [h]

end Rustper.Source
