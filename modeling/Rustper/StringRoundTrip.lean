import Rustper.ColumnNames
import Rustper.Library.JsonBytes

/-!
The strings of a row read back: a written string is one literal for the text of its bytes,
whatever the bytes are, so a name or a value cannot reach beyond its own literal.
-/
namespace Rustper.Clickhouse

open Json (Derives IsText Literal Member closingQuote readString)

/-- The bytes are one string literal for the text. They hold no control byte, are closed by
their last byte and by no other whatever follows, and a reader takes all of them and no more. -/
structure Spells (written : Bytes) (text : List Char) : Prop where
  literal : ∃ s : Literal, written = Utf8.encode s.lexeme ∧ s.text? = some text
  printable : ∀ b ∈ written, 0x20 ≤ b.toNat
  closed : ∀ rest, closingQuote false (written.tail ++ rest) = some (written.length - 2)
  reads : ∀ rest, readString (written ++ Utf8.encode rest) = some (text, rest)

theorem Spells.of_literal {s : Literal} {text : List Char} (h : s.text? = some text) :
    Spells (Utf8.encode s.lexeme) text where
  literal := ⟨s, rfl, h⟩
  printable _ hb := Utf8.le_of_mem_encode s.lexeme_printable hb
  closed rest := Json.closingQuote_lexeme s rest
  reads rest := Json.readString_lexeme h rest

theorem writeJsonString_spells (value : Bytes) :
    ∃ written, (∀ out, writeJsonString out value = out ++ written) ∧
      Spells written (Utf8.lossy value) := by
  obtain ⟨s, hs, htext⟩ := writeJsonString_literal value
  exact ⟨Utf8.encode s.lexeme, hs, .of_literal htext⟩

/-- Equal literals stand for equal texts. -/
theorem writeJsonString_lossy {v w : Bytes} (h : writeJsonString [] v = writeJsonString [] w) :
    Utf8.lossy v = Utf8.lossy w := by
  obtain ⟨written, hwritten, hv⟩ := writeJsonString_spells v
  obtain ⟨written', hwritten', hw⟩ := writeJsonString_spells w
  rw [hwritten, hwritten', List.nil_append, List.nil_append] at h
  have hread := hv.reads []
  rw [h, hw.reads] at hread
  simpa using hread.symm

section Row

variable {event : Event} {metadata : MetadataColumns} {added ms : List Member}

theorem forall₂_fields_length (h : List.Forall₂ Represents (metadata.fields event) added) :
    added.length = metadata.names.length := by
  rw [← h.length_eq, ← fields_names metadata event, List.length_map]

variable (metadata) in
/-- What stands in front of the payload's members is, once closed, an object with the
configured members, whatever the payload is. -/
theorem writeRow_head {b : Bytes} (out : Bytes) (h : objectBody event.payload = .ok b) :
    ∃ added head, List.Forall₂ Represents (metadata.fields event) added ∧
      IsText (.object added) ('{' :: (head ++ ['}'])) ∧
      writeRow out event metadata =
        (out ++ Utf8.encode ('{' :: head) ++
          (if head = [] ∨ b = [] then [] else Utf8.encode [',']) ++ b ++
          Utf8.encode ['}', '\n'], .ok ()) := by
  obtain ⟨added, head, hout, hfields, hcase⟩ := rowOf_holds out event metadata
  have hobject : Derives (.value (.object added)) ('{' :: (head ++ ['}'])) := by
    rcases hcase with ⟨-, rfl, rfl⟩ | ⟨-, hmembers⟩
    · exact .emptyObject .nil
    · exact .object hmembers
  refine ⟨added, head, hfields, ?_, ?_⟩
  · simpa [IsText] using Derives.element .nil hobject .nil
  · rw [writeRow_of_body out h]
    by_cases hb : b = []
    · simp [hb, RowInProgress.body, hout]
    · have hbytes : b.isEmpty = false := List.isEmpty_eq_false_iff.mpr hb
      rcases hcase with ⟨hfirst, rfl, rfl⟩ | ⟨hfirst, hmembers⟩
      · simp [hbytes, RowInProgress.body, RowInProgress.separate, hfirst, hout]
      · have hhead : head ≠ [] := by
          intro hnil
          rw [hnil] at hmembers
          exact hmembers.members_ne_nil rfl
        simp [hb, hbytes, hhead, RowInProgress.body, RowInProgress.separate, hfirst, hout]

end Row

/-- For every byte string, what is appended is one literal for the text of the bytes, and
well-formed texts are told apart by it. Topics, keys and names add no member to a row: in
front of the payload stand the configured columns and nothing else, and the row of an object
has no reading but those columns and the object's own members. -/
theorem writeJsonString_roundTrip :
    (∀ value, ∃ written, (∀ out, writeJsonString out value = out ++ written) ∧
      Spells written (Utf8.lossy value)) ∧
    (∀ v w, writeJsonString [] (Utf8.encode v) = writeJsonString [] (Utf8.encode w) → v = w) ∧
    (∀ out event metadata b, objectBody event.payload = .ok b →
      ∃ added head, List.Forall₂ Represents (metadata.fields event) added ∧
        added.length = metadata.names.length ∧
        (∀ v, IsText v ('{' :: (head ++ ['}'])) ↔ v = .object added) ∧
        writeRow out event metadata =
          (out ++ Utf8.encode ('{' :: head) ++
            (if head = [] ∨ b = [] then [] else Utf8.encode [',']) ++ b ++
            Utf8.encode ['}', '\n'], .ok ())) ∧
    ∀ out event metadata ms text, event.payload = Utf8.encode text →
      IsText (.object ms) text →
      ∃ added row, List.Forall₂ Represents (metadata.fields event) added ∧
        added.length = metadata.names.length ∧
        (∀ v, IsText v row ↔ v = .object (added ++ ms)) ∧
        writeRow out event metadata = (out ++ Utf8.encode row ++ [0x0A], .ok ()) := by
  refine ⟨writeJsonString_spells, ?_, ?_, ?_⟩
  · intro v w h
    simpa using writeJsonString_lossy h
  · intro out event metadata b h
    obtain ⟨added, head, hfields, hobject, hrow⟩ := writeRow_head metadata out h
    exact ⟨added, head, hfields, forall₂_fields_length hfields, hobject.iff, hrow⟩
  · intro out event metadata ms text hpayload htext
    obtain ⟨added, row, hwrite, hfields, hrow⟩ :=
      writeRow_object out event metadata hpayload htext
    exact ⟨added, row, hfields, forall₂_fields_length hfields, hrow.iff, hwrite⟩

theorem writeJsonString_roundTrip_nullMember :
    ∃ added row, List.Forall₂ Represents
        [("_key", .text ['\uFFFD'])] added ∧ added.length = 1 ∧
      (∀ v, IsText v row ↔ v = .object (added ++ [(nameA, .null)])) ∧
      writeRow [] nullMember { key := some "_key" } =
        ([] ++ Utf8.encode row ++ [0x0A], .ok ()) :=
  writeJsonString_roundTrip.2.2.2 [] nullMember { key := some "_key" } _ _ rfl nullMember_text

end Rustper.Clickhouse
