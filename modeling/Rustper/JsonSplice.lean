import Rustper.JsonRow
import Rustper.Library.JsonParser

/-!
What a written row stands for: the metadata members in front, then the members of the
payload as they were.
-/
namespace Rustper.Clickhouse

open Json (Derives IsText Literal Member Spaces Tight Value isGraphic)

section Bytes

variable {c : Char} {w w' t : List Char}

theorem encode_graphic (h : isGraphic c = true) :
    String.utf8EncodeChar c = [c.toUInt8] := by
  simp only [isGraphic, decide_eq_true_eq] at h
  exact Utf8.encodeChar_ascii (by omega)

theorem toNat_graphic (h : isGraphic c = true) : c.toUInt8.toNat = c.toNat := by
  simp only [isGraphic, decide_eq_true_eq] at h
  exact Utf8.toNat_toUInt8 (by omega)

theorem not_isAsciiWhitespace (h : isGraphic c = true) :
    isAsciiWhitespace c.toUInt8 = false := by
  have hbyte := toNat_graphic h
  simp only [isGraphic, decide_eq_true_eq] at h
  have hspace : ∀ b : UInt8, isAsciiWhitespace b = true → b.toNat < 0x21 := by
    intro b hb
    simp only [isAsciiWhitespace, decide_eq_true_eq] at hb
    rcases hb with rfl | rfl | rfl | rfl | rfl <;> decide
  by_contra hcon
  have := hspace _ (by simpa using hcon)
  omega

theorem isAsciiWhitespace_spaces (hw : Spaces w) :
    ∀ b ∈ Utf8.encode w, isAsciiWhitespace b = true := by
  have hchar : ∀ c, Json.isSpace c = true →
      ∀ b ∈ String.utf8EncodeChar c, isAsciiWhitespace b = true := by
    intro c hc
    simp only [Json.isSpace, decide_eq_true_eq] at hc
    rw [← List.all_eq_true]
    rcases hc with rfl | rfl | rfl | rfl <;> decide
  intro b hb
  obtain ⟨c, hc, hbyte⟩ := List.mem_flatMap.mp hb
  exact hchar c (hw c hc) b hbyte

theorem encode_head (h : t.head? = some c) (hc : isGraphic c = true) :
    (Utf8.encode t).head? = some c.toUInt8 := by
  obtain ⟨u, rfl⟩ := List.head?_eq_some_iff.mp h
  rw [Utf8.encode_cons, encode_graphic hc]
  rfl

theorem encode_getLast (h : t.getLast? = some c) (hc : isGraphic c = true) :
    (Utf8.encode t).getLast? = some c.toUInt8 := by
  obtain ⟨u, rfl⟩ := List.getLast?_eq_some_iff.mp h
  rw [Utf8.encode_append, Utf8.encode_cons, encode_graphic hc, Utf8.encode_nil, List.append_nil,
    List.getLast?_concat]

end Bytes

section Trim

variable {w w' t : List Char}

theorem rdropWhile_append {p : UInt8 → Bool} (u w : Bytes) (hw : ∀ b ∈ w, p b = true) :
    (u ++ w).rdropWhile p = u.rdropWhile p := by
  rw [List.rdropWhile, List.reverse_append, List.dropWhile_append_of_pos (by simpa using hw),
    List.rdropWhile]

theorem trimAscii_tight (hw : Spaces w) (hw' : Spaces w') (ht : Tight t) :
    trimAscii (Utf8.encode (w ++ t ++ w')) = Utf8.encode t := by
  obtain ⟨⟨c, hc, hcg⟩, d, hd, hdg⟩ := ht
  have hhead := encode_head hc hcg
  have hlast := encode_getLast hd hdg
  have hleft : (Utf8.encode t ++ Utf8.encode w').dropWhile isAsciiWhitespace =
      Utf8.encode t ++ Utf8.encode w' := by
    obtain ⟨u, hu⟩ := List.head?_eq_some_iff.mp hhead
    rw [hu, List.cons_append, List.dropWhile_cons_of_neg (by simp [not_isAsciiWhitespace hcg])]
  have hright : (Utf8.encode t).rdropWhile isAsciiWhitespace = Utf8.encode t := by
    obtain ⟨u, hu⟩ := List.getLast?_eq_some_iff.mp hlast
    rw [hu, List.rdropWhile_concat_neg _ _ _ (by simp [not_isAsciiWhitespace hdg])]
  rw [trimAscii, Utf8.encode_append, Utf8.encode_append, List.append_assoc,
    List.dropWhile_append_of_pos (isAsciiWhitespace_spaces hw), hleft,
    rdropWhile_append _ _ (isAsciiWhitespace_spaces hw'), hright]

theorem trimAscii_spaces (hw : Spaces w) : trimAscii (Utf8.encode w) = [] := by
  have h : (Utf8.encode w).dropWhile isAsciiWhitespace = [] :=
    List.dropWhile_eq_nil_iff.mpr (isAsciiWhitespace_spaces hw)
  rw [trimAscii, h]
  rfl

end Trim

section Body

variable {text : List Char}

/-- A value that is not an object is refused. -/
theorem objectBody_of_notObject {v : Value} (h : IsText v text) (hv : ∀ ms, v ≠ .object ms) :
    objectBody (Utf8.encode text) = .error .notAnObject := by
  cases h with
  | @element v t w w' hw h hw' =>
    obtain ⟨c, hc, hcg⟩ := h.tight.1
    have hhead := encode_head hc hcg
    have hne : (Utf8.encode t).isEmpty = false := by
      rw [List.isEmpty_eq_false_iff]
      intro hnil
      rw [hnil] at hhead
      contradiction
    have hbrace : (Utf8.encode t).head? ≠ some '{'.toUInt8 := by
      rw [hhead]
      intro heq
      have hnat := congrArg UInt8.toNat (Option.some.inj heq)
      rw [toNat_graphic hcg, toNat_graphic (c := '{') (by decide)] at hnat
      have hchar : c = '{' := Char.ext (UInt32.toNat_inj.mp hnat)
      exact h.head_ne_brace hv (hchar ▸ hc)
    rw [objectBody, trimAscii_tight hw hw' h.tight]
    simp only [hne, hbrace, false_and, if_false, Bool.false_eq_true]

theorem objectBody_braces {w w' u : List Char} (hw : Spaces w) (hw' : Spaces w') :
    objectBody (Utf8.encode (w ++ '{' :: (u ++ ['}']) ++ w')) =
      .ok (trimAscii (Utf8.encode u)) := by
  have htight : Tight ('{' :: (u ++ ['}'])) := Json.tight_between u (by decide) (by decide)
  have hbytes : Utf8.encode ('{' :: (u ++ ['}'])) =
      '{'.toUInt8 :: (Utf8.encode u ++ ['}'.toUInt8]) := by
    rw [Utf8.encode_cons, Utf8.encode_append]
    rfl
  have hslice : (('{'.toUInt8 :: (Utf8.encode u ++ ['}'.toUInt8])).take
      (('{'.toUInt8 :: (Utf8.encode u ++ ['}'.toUInt8])).length - 1)).drop 1 =
      Utf8.encode u := by
    simp
  have hlast : ('{'.toUInt8 :: (Utf8.encode u ++ ['}'.toUInt8])).getLast? =
      some '}'.toUInt8 := by
    rw [← List.cons_append, List.getLast?_concat]
  rw [objectBody, trimAscii_tight hw hw' htight, hbytes]
  simp only [List.isEmpty_cons, List.head?_cons, hlast, hslice, and_self, if_true,
    Bool.false_eq_true, if_false]

/-- An object's body holds its members, without whitespace around them. -/
theorem objectBody_of_object {ms : List Member} (h : IsText (.object ms) text) :
    ∃ t, objectBody (Utf8.encode text) = .ok (Utf8.encode t) ∧
      (ms = [] ∧ t = [] ∨ Derives (.members ms) t ∧ t ≠ []) := by
  cases h with
  | element hw h hw' =>
    cases h with
    | @emptyObject u hu =>
      refine ⟨[], ?_, Or.inl ⟨rfl, rfl⟩⟩
      rw [objectBody_braces hw hw', trimAscii_spaces hu]
      rfl
    | @object ms u hms =>
      obtain ⟨w, t, w', rfl, hw₁, hw₂, ht, htight⟩ := hms.trim
      refine ⟨t, ?_, Or.inr ⟨ht, ?_⟩⟩
      · rw [objectBody_braces hw hw', trimAscii_tight hw₁ hw₂ htight]
      · intro hnil
        obtain ⟨⟨c, hc, -⟩, -⟩ := htight
        rw [hnil] at hc
        contradiction

end Body

section Strings

/-- The characters with an escape of their own. -/
def specials : List Char := ['"', '\\', '\n', '\r', '\t']

theorem writeCharacter_other {c : Char} (h : c ∉ specials) (out : Bytes) :
    writeCharacter out c =
      if c.toNat < 0x20 then out ++ Utf8.encode ('\\' :: 'u' :: hex4 c.toNat)
      else out ++ Utf8.encode [c] := by
  unfold writeCharacter
  split
  · exact absurd (by decide) h
  · exact absurd (by decide) h
  · exact absurd (by decide) h
  · exact absurd (by decide) h
  · exact absurd (by decide) h
  · rfl

theorem hex4_control : ∀ n < 0x20,
    hex4 n = ['0', '0', Nat.digitChar (n / 16), Nat.digitChar (n % 16)] := by
  decide

/-- A character is written as one piece that stands for it. -/
theorem writeCharacter_piece (c : Char) :
    ∃ p : Json.Piece, (∀ out, writeCharacter out c = out ++ Utf8.encode p.lexeme) ∧
      ∀ rest, Literal.text? (p :: rest) = (Literal.text? rest).map (c :: ·) := by
  by_cases hspecial : c ∈ specials
  · simp only [specials, List.mem_cons, List.not_mem_nil, or_false] at hspecial
    rcases hspecial with rfl | rfl | rfl | rfl | rfl
    · exact ⟨.escape .quote, fun out => rfl, fun rest => rfl⟩
    · exact ⟨.escape .backslash, fun out => rfl, fun rest => rfl⟩
    · exact ⟨.escape .newline, fun out => rfl, fun rest => rfl⟩
    · exact ⟨.escape .carriageReturn, fun out => rfl, fun rest => rfl⟩
    · exact ⟨.escape .tab, fun out => rfl, fun rest => rfl⟩
  by_cases hcontrol : c.toNat < 0x20
  · let zero : Json.HexDigit := .ofNat 0 (by decide)
    let high : Json.HexDigit := .ofNat (c.toNat / 16) (by omega)
    let low : Json.HexDigit := .ofNat (c.toNat % 16) (by omega)
    have hunit : Json.unit zero zero high low = c.toNat := by
      simp only [Json.unit, zero, high, low, Json.HexDigit.value_ofNat]
      omega
    refine ⟨.unicode zero zero high low, fun out => ?_, fun rest => ?_⟩
    · rw [writeCharacter_other hspecial, if_pos hcontrol, hex4_control _ hcontrol]
      rfl
    · rw [Literal.text?_unicode, hunit, Char.ofNat_toNat]
      · rw [hunit, Json.isHighSurrogate, decide_eq_false_iff_not]
        omega
      · rw [hunit, Json.isLowSurrogate, decide_eq_false_iff_not]
        omega
  · have hplain : Json.isPlain c = true := by
      simp only [specials, List.mem_cons, not_or] at hspecial
      exact decide_eq_true ⟨Nat.not_lt.mp hcontrol, hspecial.1, hspecial.2.1⟩
    refine ⟨.plain c hplain, fun out => ?_, fun rest => rfl⟩
    rw [writeCharacter_other hspecial, if_neg hcontrol]
    rfl

theorem foldl_writeCharacter (text : List Char) :
    ∃ s : Literal, (∀ out, text.foldl writeCharacter out = out ++ Utf8.encode s.body) ∧
      s.text? = some text := by
  induction text with
  | nil => exact ⟨[], fun out => (List.append_nil out).symm, rfl⟩
  | cons c text ih =>
    obtain ⟨s, hs, hstext⟩ := ih
    obtain ⟨p, hp, hptext⟩ := writeCharacter_piece c
    refine ⟨p :: s, fun out => ?_, ?_⟩
    · rw [List.foldl_cons, hp, hs, Literal.body_cons, Utf8.encode_append, List.append_assoc]
    · rw [hptext, hstext]
      rfl

/-- What is written is a literal for the lossy text of the bytes. -/
theorem writeJsonString_literal (value : Bytes) :
    ∃ s : Literal, (∀ out, writeJsonString out value = out ++ Utf8.encode s.lexeme) ∧
      s.text? = some (Utf8.lossy value) := by
  obtain ⟨s, hs, htext⟩ := foldl_writeCharacter (Utf8.lossy value)
  refine ⟨s, fun out => ?_, htext⟩
  simp only [writeJsonString, hs, Literal.lexeme, Utf8.encode_cons, Utf8.encode_append,
    Utf8.encode_nil, List.append_assoc, List.append_nil]

theorem writeKey_literal (name : String) :
    ∃ s : Literal, (∀ out, writeKey out name = out ++ Utf8.encode (s.lexeme ++ [':'])) ∧
      s.text? = some name.toList := by
  obtain ⟨s, hs, htext⟩ := writeJsonString_literal (asBytes name)
  refine ⟨s, fun out => ?_, ?_⟩
  · rw [writeKey, hs, Utf8.encode_append, List.append_assoc]
  · rw [htext, asBytes, Utf8.lossy_encode]

end Strings

/-- What a metadata member is to stand for. -/
inductive Field
  | text (t : List Char)
  | number (z : ℤ)

/-- The metadata members a row is to have, by name and in order. -/
def MetadataColumns.fields (metadata : MetadataColumns) (event : Event) :
    List (String × Field) :=
  (metadata.topic.map (·, .text (Utf8.lossy (asBytes event.source.topic)))).toList ++
  (metadata.partition.map (·, .number event.source.partition)).toList ++
  (metadata.offset.map (·, .number event.source.offset)).toList ++
  (metadata.timestamp.map (·, .number (event.timestampMs.getD 0))).toList ++
  (metadata.key.map (·, .text (Utf8.lossy (event.key.getD [])))).toList

/-- Whether a member of a JSON text has the name and the content. -/
def Represents : String × Field → Member → Prop
  | (name, .text t), (n, .string s) => n.text? = some name.toList ∧ s.text? = some t
  | (name, .number z), (n, .number x) => n.text? = some name.toList ∧ x.val.value = z
  | _, _ => False

section Fields

/-- A field is written as one member. -/
def Writes (field : Bytes → String → Bytes) (f : Field) : Prop :=
  ∀ name, ∃ m t, (∀ out, field out name = out ++ Utf8.encode t) ∧
    Derives (.member m) t ∧ Represents (name, f) m

theorem member_bare {s : Literal} {v : Value} {t : List Char} (h : Derives (.value v) t) :
    Derives (.member (s, v)) (s.lexeme ++ ':' :: t) := by
  simpa using Derives.member (s := s) .nil .nil (.element .nil h .nil)

theorem writeStringField_writes (value : Bytes) :
    Writes (writeStringField value) (.text (Utf8.lossy value)) := by
  intro name
  obtain ⟨n, hn, hname⟩ := writeKey_literal name
  obtain ⟨s, hs, htext⟩ := writeJsonString_literal value
  refine ⟨(n, .string s), _, fun out => ?_, member_bare (.string s), hname, htext⟩
  rw [writeStringField, hs, hn, List.append_assoc, ← Utf8.encode_append, List.append_assoc]
  rfl

theorem writeNumberField_writes (value : ℤ) :
    Writes (writeNumberField value) (.number value) := by
  intro name
  obtain ⟨n, hn, hname⟩ := writeKey_literal name
  let x : Json.Number := ⟨.ofInt value, Json.Numeral.ofInt_valid value⟩
  have hx : itoa value = x.val.lexeme := by
    simp [itoa, x, Json.Numeral.lexeme, Json.Numeral.ofInt]
  refine ⟨(n, .number x), _, fun out => ?_, member_bare (.number x), hname,
    Json.Numeral.ofInt_value value⟩
  rw [writeNumberField, hn, hx, List.append_assoc, ← Utf8.encode_append, List.append_assoc]
  rfl

end Fields

section Rows

variable {out : Bytes} {row : RowInProgress} {fields : List (String × Field)}

/-- The row holds members for the fields, and no comma is missing or left over. -/
def Holds (out : Bytes) (row : RowInProgress) (fields : List (String × Field)) : Prop :=
  ∃ ms t, row.out = out ++ Utf8.encode ('{' :: t) ∧ List.Forall₂ Represents fields ms ∧
    (row.first = true ∧ ms = [] ∧ t = [] ∨ row.first = false ∧ Derives (.members ms) t)

theorem Holds.start (out : Bytes) : Holds out ⟨out ++ Utf8.encode ['{'], true⟩ [] :=
  ⟨[], [], rfl, .nil, Or.inl ⟨rfl, rfl, rfl⟩⟩

/-- After `separate`, more members may follow at once. -/
theorem Holds.separate (h : Holds out row fields) :
    ∃ ms t, row.separate.out = out ++ Utf8.encode ('{' :: t) ∧ row.separate.first = false ∧
      List.Forall₂ Represents fields ms ∧
      ∀ ns u, Derives (.members ns) u → Derives (.members (ms ++ ns)) (t ++ u) := by
  obtain ⟨ms, t, hout, hfields, ⟨hfirst, rfl, rfl⟩ | ⟨hfirst, hmembers⟩⟩ := h
  · refine ⟨[], [], ?_, ?_, hfields, fun ns u hns => hns⟩
    · rw [RowInProgress.separate, if_pos hfirst]
      exact hout
    · rw [RowInProgress.separate, if_pos hfirst]
  · refine ⟨ms, t ++ [','], ?_, ?_, hfields, fun ns u hns => ?_⟩
    · rw [RowInProgress.separate, if_neg (by simp [hfirst])]
      simp [hout, Utf8.encode_cons]
    · rw [RowInProgress.separate, if_neg (by simp [hfirst])]
      exact hfirst
    · rw [List.append_assoc]
      exact hmembers.members_append hns

theorem Holds.column {field : Bytes → String → Bytes} {f : Field} (h : Holds out row fields)
    (hfield : Writes field f) (name : Option String) :
    Holds out (row.column name field) (fields ++ (name.map (·, f)).toList) := by
  cases name with
  | none => simpa [RowInProgress.column] using h
  | some name =>
    obtain ⟨ms, t, hout, hfirst, hfields, hmembers⟩ := h.separate
    obtain ⟨m, u, hu, hm, hrepresents⟩ := hfield name
    refine ⟨ms ++ [m], t ++ u, ?_, List.rel_append hfields (.cons hrepresents .nil),
      Or.inr ⟨hfirst, hmembers [m] u (.lastMember hm)⟩⟩
    simp [RowInProgress.column, hu, hout, Utf8.encode_cons]

/-- The payload's members complete the object. -/
theorem Holds.body {ms : List Member} {b : List Char} (h : Holds out row fields)
    (hb : ms = [] ∧ b = [] ∨ Derives (.members ms) b ∧ b ≠ []) :
    ∃ added t, (row.body (Utf8.encode b)).out = out ++ Utf8.encode ('{' :: t) ∧
      List.Forall₂ Represents fields added ∧
      Derives (.value (.object (added ++ ms))) ('{' :: (t ++ ['}'])) := by
  obtain ⟨rfl, rfl⟩ | ⟨hms, hne⟩ := hb
  · obtain ⟨added, t, hout, hfields, ⟨-, rfl, rfl⟩ | ⟨-, hmembers⟩⟩ := h
    · exact ⟨[], [], hout, hfields, .emptyObject .nil⟩
    · refine ⟨added, t, hout, hfields, ?_⟩
      rw [List.append_nil]
      exact .object hmembers
  · have hbytes : (Utf8.encode b).isEmpty = false := by
      rw [List.isEmpty_eq_false_iff]
      exact fun hnil => hne (Utf8.encode_injective hnil)
    obtain ⟨added, t, hout, -, hfields, hmembers⟩ := h.separate
    refine ⟨added, t ++ b, ?_, hfields, .object (hmembers ms b hms)⟩
    simp [RowInProgress.body, hbytes, hout, Utf8.encode_cons]

/-- A body after nothing is copied as it is. -/
theorem body_of_first (out bytes : Bytes) :
    ((⟨out, true⟩ : RowInProgress).body bytes).out = out ++ bytes := by
  cases bytes with
  | nil => exact (List.append_nil out).symm
  | cons b bytes => rfl

end Rows

/-- The row `writeRow` completes, whether or not metadata is configured. -/
def rowOf (out : Bytes) (event : Event) (metadata : MetadataColumns) : RowInProgress :=
  (((((⟨out ++ Utf8.encode ['{'], true⟩ : RowInProgress).column metadata.topic
    (writeStringField (asBytes event.source.topic))).column metadata.partition
    (writeNumberField event.source.partition)).column metadata.offset
    (writeNumberField event.source.offset)).column metadata.timestamp
    (writeNumberField (event.timestampMs.getD 0))).column metadata.key
    (writeStringField (event.key.getD []))

theorem rowOf_holds (out : Bytes) (event : Event) (metadata : MetadataColumns) :
    Holds out (rowOf out event metadata) (metadata.fields event) := by
  have htopic := (Holds.start out).column
    (writeStringField_writes (asBytes event.source.topic)) metadata.topic
  have hpartition := htopic.column
    (writeNumberField_writes event.source.partition) metadata.partition
  have hoffset := hpartition.column
    (writeNumberField_writes event.source.offset) metadata.offset
  have htimestamp := hoffset.column
    (writeNumberField_writes (event.timestampMs.getD 0)) metadata.timestamp
  have hkey := htimestamp.column (writeStringField_writes (event.key.getD [])) metadata.key
  rwa [List.nil_append] at hkey

theorem writeRow_of_body {event : Event} {metadata : MetadataColumns} {b : Bytes}
    (out : Bytes) (h : objectBody event.payload = .ok b) :
    writeRow out event metadata =
      (((rowOf out event metadata).body b).out ++ Utf8.encode ['}', '\n'], .ok ()) := by
  cases hempty : metadata.isEmpty with
  | false => simp [writeRow, h, hempty, rowOf]
  | true =>
    simp only [MetadataColumns.isEmpty, Bool.and_eq_true, Option.isNone_iff_eq_none] at hempty
    obtain ⟨⟨⟨⟨htopic, hpartition⟩, hoffset⟩, htimestamp⟩, hkey⟩ := hempty
    simp [writeRow, h, rowOf, htopic, hpartition, hoffset, htimestamp, hkey,
      MetadataColumns.isEmpty, RowInProgress.column, body_of_first]

/-- The metadata members come first, then the members of the payload. -/
theorem writeRow_object {ms : List Member} {text : List Char} (out : Bytes) (event : Event)
    (metadata : MetadataColumns) (hpayload : event.payload = Utf8.encode text)
    (htext : IsText (.object ms) text) :
    ∃ added row, writeRow out event metadata = (out ++ Utf8.encode row ++ [0x0A], .ok ()) ∧
      List.Forall₂ Represents (metadata.fields event) added ∧
      IsText (.object (added ++ ms)) row := by
  obtain ⟨b, hbody, hb⟩ := objectBody_of_object htext
  rw [← hpayload] at hbody
  obtain ⟨added, t, hout, hfields, hobject⟩ := (rowOf_holds out event metadata).body hb
  refine ⟨added, '{' :: (t ++ ['}']), ?_, hfields, ?_⟩
  · rw [writeRow_of_body out hbody, hout]
    simp [Utf8.encode_cons]
    rfl
  · simpa [IsText] using Derives.element .nil hobject .nil

/-- A payload that is a JSON text of an object gives one line: an object with the metadata
members in front and then the payload's own members as they were, and the line has no other
reading. A payload that is a JSON text of anything else is refused. -/
theorem writeRow_splices (out : Bytes) (event : Event) (metadata : MetadataColumns)
    (v : Value) (text : List Char) (hpayload : event.payload = Utf8.encode text)
    (htext : IsText v text) :
    ((∀ members, v ≠ .object members) →
      writeRow out event metadata = (out, .error .notAnObject)) ∧
    ∀ members, v = .object members →
      ∃ added row, writeRow out event metadata = (out ++ Utf8.encode row ++ [0x0A], .ok ()) ∧
        List.Forall₂ Represents (metadata.fields event) added ∧
        ∀ w, IsText w row ↔ w = .object (added ++ members) := by
  constructor
  · intro hv
    rw [writeRow, hpayload, objectBody_of_notObject htext hv]
  · intro members hv
    subst hv
    obtain ⟨added, row, hwrite, hfields, hrow⟩ := writeRow_object out event metadata hpayload htext
    exact ⟨added, row, hwrite, hfields, hrow.iff⟩

/-- A key that is no UTF-8 and no timestamp, before a payload of one member. -/
def nullMember : Event where
  key := some [0xFF]
  payload := Utf8.encode [' ', '{', '"', 'a', '"', ':', 'n', 'u', 'l', 'l', '\n', '}']
  timestampMs := none
  source := ⟨"in", "input", 0, -1⟩

def nameA : Literal := [.plain 'a' (by decide)]

theorem nullMember_text : IsText (.object [(nameA, .null)])
    [' ', '{', '"', 'a', '"', ':', 'n', 'u', 'l', 'l', '\n', '}'] := by
  have hline : Spaces ['\n'] := by decide
  have hnull : Derives (.element .null) ([] ++ ['n', 'u', 'l', 'l'] ++ ['\n']) :=
    .element .nil .null hline
  have hmember : Derives (.member (nameA, .null))
      (['"', 'a', '"', ':'] ++ ['n', 'u', 'l', 'l', '\n']) :=
    .member .nil .nil hnull
  exact .element (w := [' ']) (by decide) (.object (.lastMember hmember)) .nil

theorem writeRow_splices_nullMember :
    ∃ added row, writeRow [] nullMember { timestamp := some "_ts", key := some "_key" } =
        ([] ++ Utf8.encode row ++ [0x0A], .ok ()) ∧
      List.Forall₂ Represents [("_ts", .number 0), ("_key", .text ['\uFFFD'])] added ∧
      ∀ w, IsText w row ↔ w = .object (added ++ [(nameA, .null)]) :=
  (writeRow_splices [] nullMember _ _ _ rfl nullMember_text).2 _ rfl

end Rustper.Clickhouse
