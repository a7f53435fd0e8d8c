import Rustper.ClickhouseSink
import Rustper.JsonSplice
import Rustper.Library.Lines

/-!
The buffer of a write is the rows one after the other. Whether the rows are its lines
depends on the payloads: what stands between their braces is copied as it is.
-/
namespace Rustper.Clickhouse

def lineFeed : UInt8 := 0x0A

section Members

variable {field : Bytes → String → Bytes} {write : Bytes → RowInProgress}

/-- What is appended does not depend on the buffer and has no control characters. -/
def Appends (field : Bytes → String → Bytes) : Prop :=
  ∀ name, ∃ t, (∀ out, field out name = out ++ Utf8.encode t) ∧ ∀ c ∈ t, 0x20 ≤ c.toNat

theorem writeStringField_appends (value : Bytes) : Appends (writeStringField value) := by
  intro name
  obtain ⟨n, hn, -⟩ := writeKey_literal name
  obtain ⟨s, hs, -⟩ := writeJsonString_literal value
  refine ⟨n.lexeme ++ [':'] ++ s.lexeme, fun out => ?_, fun c hc => ?_⟩
  · rw [writeStringField, hs, hn, Utf8.encode_append _ s.lexeme, List.append_assoc]
  · simp only [List.mem_append, List.mem_singleton] at hc
    rcases hc with (hc | rfl) | hc
    · exact n.lexeme_printable c hc
    · decide
    · exact s.lexeme_printable c hc

theorem itoa_printable (value : ℤ) : ∀ c ∈ itoa value, 0x20 ≤ c.toNat := by
  intro c hc
  rw [itoa, List.mem_append] at hc
  rcases hc with hc | hc
  · split at hc
    · rw [List.mem_singleton.mp hc]
      decide
    · contradiction
  · have hdigit := Nat.isDigit_of_mem_toDigits (by decide) (by decide) hc
    simp only [Char.isDigit, Bool.and_eq_true, decide_eq_true_eq] at hdigit
    have hle : (48 : UInt32).toNat ≤ c.val.toNat := hdigit.1
    exact Nat.le_trans (by decide) hle

theorem writeNumberField_appends (value : ℤ) : Appends (writeNumberField value) := by
  intro name
  obtain ⟨n, hn, -⟩ := writeKey_literal name
  refine ⟨n.lexeme ++ [':'] ++ itoa value, fun out => ?_, fun c hc => ?_⟩
  · rw [writeNumberField, hn, Utf8.encode_append _ (itoa value), List.append_assoc]
  · simp only [List.mem_append, List.mem_singleton] at hc
    rcases hc with (hc | rfl) | hc
    · exact n.lexeme_printable c hc
    · decide
    · exact itoa_printable value c hc

/-- A row so far: the same text behind any buffer, without control characters. -/
def Uniform (write : Bytes → RowInProgress) : Prop :=
  ∃ t first, (∀ c ∈ t, 0x20 ≤ c.toNat) ∧ ∀ out, write out = ⟨out ++ Utf8.encode t, first⟩

theorem Uniform.start : Uniform (fun out => ⟨out ++ Utf8.encode ['{'], true⟩) :=
  ⟨['{'], true, by simp, fun _ => rfl⟩

theorem Uniform.separate (h : Uniform write) : Uniform (fun out => (write out).separate) := by
  obtain ⟨t, first, ht, hwrite⟩ := h
  cases first with
  | true =>
    refine ⟨t, false, ht, fun out => ?_⟩
    show (write out).separate = _
    rw [hwrite]
    rfl
  | false =>
    refine ⟨t ++ [','], false, fun c hc => ?_, fun out => ?_⟩
    · rcases List.mem_append.mp hc with hc | hc
      · exact ht c hc
      · rw [List.mem_singleton.mp hc]
        decide
    · show (write out).separate = _
      rw [hwrite, Utf8.encode_append, ← List.append_assoc]
      rfl

theorem Uniform.column (h : Uniform write) (hfield : Appends field) (name : Option String) :
    Uniform (fun out => (write out).column name field) := by
  cases name with
  | none => exact h
  | some name =>
    obtain ⟨t, first, ht, hwrite⟩ := h.separate
    obtain ⟨u, hu, hprintable⟩ := hfield name
    refine ⟨t ++ u, first, fun c hc => ?_, fun out => ?_⟩
    · rcases List.mem_append.mp hc with hc | hc
      · exact ht c hc
      · exact hprintable c hc
    · have hout := hwrite out
      simp only [RowInProgress.column, hout, hu, Utf8.encode_append, List.append_assoc]

theorem Uniform.body (h : Uniform write) (bytes : Bytes) :
    ∃ t, (∀ c ∈ t, 0x20 ≤ c.toNat) ∧
      ∀ out, ((write out).body bytes).out = out ++ Utf8.encode t ++ bytes := by
  cases bytes with
  | nil =>
    obtain ⟨t, first, ht, hwrite⟩ := h
    refine ⟨t, ht, fun out => ?_⟩
    rw [hwrite, List.append_nil]
    rfl
  | cons b bytes =>
    obtain ⟨t, first, ht, hwrite⟩ := h.separate
    refine ⟨t, ht, fun out => ?_⟩
    have hout := hwrite out
    simp only [RowInProgress.body, List.isEmpty_cons, Bool.false_eq_true, if_false, hout]

end Members

theorem rowOf_uniform (event : Event) (metadata : MetadataColumns) :
    Uniform (fun out => rowOf out event metadata) := by
  have htopic := Uniform.start.column
    (writeStringField_appends (asBytes event.source.topic)) metadata.topic
  have hpartition := htopic.column
    (writeNumberField_appends event.source.partition) metadata.partition
  have hoffset := hpartition.column
    (writeNumberField_appends event.source.offset) metadata.offset
  have htimestamp := hoffset.column
    (writeNumberField_appends (event.timestampMs.getD 0)) metadata.timestamp
  exact htimestamp.column (writeStringField_appends (event.key.getD [])) metadata.key

/-- A row is a text without control characters, the body and the closing brace, behind
whatever the buffer already holds. -/
theorem writeRow_line {event : Event} {b : Bytes} (metadata : MetadataColumns)
    (h : objectBody event.payload = .ok b) :
    ∃ t, (∀ c ∈ t, 0x20 ≤ c.toNat) ∧ ∀ out, writeRow out event metadata =
      (out ++ (Utf8.encode t ++ b ++ ['}'.toUInt8] ++ [lineFeed]), .ok ()) := by
  obtain ⟨t, ht, hbody⟩ := (rowOf_uniform event metadata).body b
  refine ⟨t, ht, fun out => ?_⟩
  rw [writeRow_of_body out h, hbody]
  simp only [List.append_assoc]
  rfl

section Rows

variable {metadata : MetadataColumns} {event : Event} {b : Bytes}

/-- The row of an accepted event, written to an empty buffer. -/
def rowAlone (metadata : MetadataColumns) (event : Event) : Option Bytes :=
  match writeRow [] event metadata with
  | (row, .ok ()) => some row
  | (_, .error _) => none

def acceptedRows (metadata : MetadataColumns) (events : List Event) : List Bytes :=
  events.filterMap (rowAlone metadata)

/-- A rejection, and the offset of the event. -/
def rejection? (event : Event) : Option (Rejection × ℤ) :=
  match objectBody event.payload with
  | .ok _ => none
  | .error rejection => some (rejection, event.source.offset)

theorem rowAlone_accepted (metadata : MetadataColumns) (h : objectBody event.payload = .ok b) :
    ∃ row, rowAlone metadata event = some row ∧
      ∀ rows : JsonRows, rows.visit metadata event =
        { rows with
          buffer := rows.buffer ++ row
          outcome := { rows.outcome with written := rows.outcome.written + 1 } } := by
  obtain ⟨t, -, hrow⟩ := writeRow_line metadata h
  refine ⟨_, by rw [rowAlone, hrow], fun rows => ?_⟩
  rw [JsonRows.visit, hrow, List.nil_append]

theorem rowAlone_rejected {rejection : Rejection} (metadata : MetadataColumns)
    (h : objectBody event.payload = .error rejection) :
    rowAlone metadata event = none ∧
      ∀ rows : JsonRows, rows.visit metadata event =
        { rows with
          outcome := { rows.outcome with dropped := rows.outcome.dropped + 1 }
          firstRejection := rows.firstRejection.or (some (rejection, event.source.offset)) } := by
  constructor
  · rw [rowAlone, writeRow, h]
  · intro rows
    rw [JsonRows.visit, writeRow, h]

/-- The loop appends the rows of the accepted events, counts both kinds and remembers the
first rejection. -/
theorem foldl_visit (events : List Event) (rows : JsonRows) :
    events.foldl (JsonRows.visit metadata) rows =
      { buffer := rows.buffer ++ (acceptedRows metadata events).flatten
        outcome :=
          { written := rows.outcome.written + (acceptedRows metadata events).length
            dropped := rows.outcome.dropped + (events.filterMap rejection?).length }
        firstRejection := rows.firstRejection.or (events.filterMap rejection?).head? } := by
  induction events generalizing rows with
  | nil => simp [acceptedRows]
  | cons event events ih =>
    rw [List.foldl_cons, ih]
    cases hbody : objectBody event.payload with
    | ok b =>
      obtain ⟨row, hrow, hvisit⟩ := rowAlone_accepted metadata hbody
      have hnone : rejection? event = none := by rw [rejection?, hbody]
      simp only [hvisit, acceptedRows, List.filterMap_cons, hrow, hnone, List.flatten_cons,
        List.length_cons, List.append_assoc, JsonRows.mk.injEq, true_and,
        Sink.WriteOutcome.mk.injEq, and_true]
      omega
    | error rejection =>
      obtain ⟨hrow, hvisit⟩ := rowAlone_rejected metadata hbody
      have hsome : rejection? event = some (rejection, event.source.offset) := by
        rw [rejection?, hbody]
      simp only [hvisit, acceptedRows, List.filterMap_cons, hrow, hsome, List.length_cons,
        List.head?_cons, JsonRows.mk.injEq, true_and, Sink.WriteOutcome.mk.injEq]
      refine ⟨by omega, ?_⟩
      cases rows.firstRejection <;> rfl

theorem accepted_add_rejected (metadata : MetadataColumns) (events : List Event) :
    (acceptedRows metadata events).length + (events.filterMap rejection?).length =
      events.length := by
  induction events with
  | nil => rfl
  | cons event events ih =>
    rw [acceptedRows] at ih ⊢
    cases hbody : objectBody event.payload with
    | ok b =>
      obtain ⟨row, hrow, -⟩ := rowAlone_accepted metadata hbody
      have hnone : rejection? event = none := by rw [rejection?, hbody]
      simp only [List.filterMap_cons, hrow, hnone, List.length_cons]
      omega
    | error rejection =>
      obtain ⟨hrow, -⟩ := rowAlone_rejected metadata hbody
      have hsome : rejection? event = some (rejection, event.source.offset) := by
        rw [rejection?, hbody]
      simp only [List.filterMap_cons, hrow, hsome, List.length_cons]
      omega

/-- What the loop has gathered when it has visited every event. -/
theorem jsonRows_gathered (metadata : MetadataColumns) (batches : List EventBatch) :
    (jsonRows metadata batches).buffer =
        (acceptedRows metadata (batches.flatMap EventBatch.events)).flatten ∧
      (jsonRows metadata batches).outcome.written =
        (acceptedRows metadata (batches.flatMap EventBatch.events)).length ∧
      (jsonRows metadata batches).outcome.written + (jsonRows metadata batches).outcome.dropped =
        totalEvents batches := by
  have hrows : jsonRows metadata batches = _ :=
    foldl_visit (batches.flatMap EventBatch.events) .empty
  have hwritten : (jsonRows metadata batches).outcome.written =
      (acceptedRows metadata (batches.flatMap EventBatch.events)).length := by
    rw [hrows]
    exact Nat.zero_add _
  have hdropped : (jsonRows metadata batches).outcome.dropped =
      ((batches.flatMap EventBatch.events).filterMap rejection?).length := by
    rw [hrows]
    exact Nat.zero_add _
  refine ⟨?_, hwritten, ?_⟩
  · rw [hrows]
    rfl
  · rw [hwritten, hdropped, accepted_add_rejected]
    exact List.length_flatMap

theorem writeJsonRows_eq_ok {ε : Type}
    {insert : Client → List Char → Bytes → Except ε Unit} {sink : ClickhouseSink}
    {batches : List EventBatch} {outcome : Sink.WriteOutcome}
    (h : writeJsonRows insert sink batches = .ok outcome) :
    outcome = (jsonRows sink.metadata batches).outcome := by
  simp only [writeJsonRows] at h
  split at h
  · exact (Except.ok.inj h).symm
  · split at h
    · exact (Except.ok.inj h).symm
    · contradiction

/-- A write that succeeds has written or dropped every event. -/
theorem writeJsonRows_accounts {ε : Type}
    {insert : Client → List Char → Bytes → Except ε Unit} {sink : ClickhouseSink}
    {batches : List EventBatch} {outcome : Sink.WriteOutcome}
    (h : writeJsonRows insert sink batches = .ok outcome) :
    outcome.written + outcome.dropped = totalEvents batches := by
  rw [writeJsonRows_eq_ok h]
  exact (jsonRows_gathered sink.metadata batches).2.2

/-- The rows without their terminators: lines if and only if the bodies are. -/
theorem acceptedRows_lines (metadata : MetadataColumns) (events : List Event) :
    ∃ lines : List Bytes, acceptedRows metadata events = lines.map (· ++ [lineFeed]) ∧
      ((∀ line ∈ lines, lineFeed ∉ line) ↔
        ∀ event ∈ events, ∀ b, objectBody event.payload = .ok b → lineFeed ∉ b) := by
  induction events with
  | nil => exact ⟨[], rfl, by simp⟩
  | cons event events ih =>
    obtain ⟨lines, hlines, hiff⟩ := ih
    rw [acceptedRows] at hlines
    cases hbody : objectBody event.payload with
    | error rejection =>
      obtain ⟨hrow, -⟩ := rowAlone_rejected metadata hbody
      refine ⟨lines, by rw [acceptedRows, List.filterMap_cons_none hrow, hlines], ?_⟩
      rw [hiff, List.forall_mem_cons]
      simp [hbody]
    | ok b =>
      obtain ⟨t, ht, hrow⟩ := writeRow_line metadata hbody
      have halone : rowAlone metadata event =
          some (Utf8.encode t ++ b ++ ['}'.toUInt8] ++ [lineFeed]) := by
        rw [rowAlone, hrow, List.nil_append]
      have hclean : lineFeed ∉ Utf8.encode t ++ b ++ ['}'.toUInt8] ↔ lineFeed ∉ b := by
        have hencode : lineFeed ∉ Utf8.encode t := fun hmem =>
          absurd (Utf8.le_of_mem_encode ht hmem) (by decide)
        have hbrace : lineFeed ≠ '}'.toUInt8 := by decide
        simp [hencode, hbrace]
      refine ⟨(Utf8.encode t ++ b ++ ['}'.toUInt8]) :: lines, ?_, ?_⟩
      · rw [acceptedRows, List.filterMap_cons_some halone, hlines, List.map_cons]
      · rw [List.forall_mem_cons, List.forall_mem_cons, hiff, hclean]
        simp [hbody]

end Rows

/-- What the rows of a write are to be: counted, one behind the other, each one line. -/
structure Framed (metadata : MetadataColumns) (batches : List EventBatch) : Prop where
  counted : (jsonRows metadata batches).outcome.written +
    (jsonRows metadata batches).outcome.dropped = totalEvents batches
  concatenated : (jsonRows metadata batches).buffer =
    (acceptedRows metadata (batches.flatMap EventBatch.events)).flatten
  framed : ∃ lines, Lines.split? lineFeed (jsonRows metadata batches).buffer = some lines ∧
    lines.length = (jsonRows metadata batches).outcome.written ∧
    lines.map (· ++ [lineFeed]) = acceptedRows metadata (batches.flatMap EventBatch.events)

/-- No accepted payload has a line feed between its braces, apart from the whitespace that
is trimmed there. -/
def SingleLine (batches : List EventBatch) : Prop :=
  ∀ event ∈ batches.flatMap EventBatch.events, ∀ b,
    objectBody event.payload = .ok b → lineFeed ∉ b

/-- The rows of a write are its lines exactly if no accepted payload spans several lines. -/
theorem framed_iff_singleLine (metadata : MetadataColumns) (batches : List EventBatch) :
    Framed metadata batches ↔ SingleLine batches := by
  let events := batches.flatMap EventBatch.events
  obtain ⟨lines, hlines, hclean⟩ := acceptedRows_lines metadata events
  obtain ⟨hbuffer, hwritten, hcounted⟩ := jsonRows_gathered metadata batches
  have hjoin : (acceptedRows metadata events).flatten = Lines.join lineFeed lines := by
    rw [hlines, Lines.join, List.flatMap_def]
  constructor
  · intro h
    obtain ⟨found, hsplit, -, hfound⟩ := h.framed
    have hsame : found = lines := by
      have hinj : Function.Injective (fun line : Bytes => line ++ [lineFeed]) :=
        fun _ _ heq => List.append_cancel_right heq
      exact List.map_injective_iff.mpr hinj (hfound.trans hlines)
    exact hclean.mp (hsame ▸ (Lines.join_split? hsplit).2)
  · intro h
    refine ⟨hcounted, hbuffer, lines, ?_, ?_, hlines.symm⟩
    · rw [hbuffer, hjoin, Lines.split?_join (hclean.mpr h)]
    · rw [hwritten, hlines, List.length_map]

/-- A payload that is one JSON object, spelt over two lines. -/
def twoLines : Event where
  key := none
  payload := Utf8.encode ['{', '"', 'a', '"', ':', '\n', '1', '}']
  timestampMs := none
  source := ⟨"in", "input", 0, 0⟩

theorem twoLines_not_framed : ¬ Framed {} [EventBatch.new [twoLines]] := by
  intro h
  obtain ⟨lines, hsplit, hlength, -⟩ := h.framed
  have htwo : Lines.split? lineFeed (jsonRows {} [EventBatch.new [twoLines]]).buffer =
      some [Utf8.encode ['{', '"', 'a', '"', ':'], Utf8.encode ['1', '}']] := by
    decide
  rw [htwo] at hsplit
  obtain rfl := Option.some.inj hsplit
  exact absurd hlength (by decide)

end Rustper.Clickhouse
