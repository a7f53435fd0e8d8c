import Mathlib.Data.List.DropRight
import Rustper.Event
import Rustper.Library.Utf8

/-!
How the ClickHouse sink turns an event into one `JSONEachRow` line. The payload is not
parsed: the metadata members are spliced in behind its opening brace.
-/
namespace Rustper.Clickhouse

/-- Names for the Kafka coordinates. Only the fields set are injected. -/
structure MetadataColumns where
  topic : Option String := none
  partition : Option String := none
  offset : Option String := none
  timestamp : Option String := none
  key : Option String := none
deriving DecidableEq, Repr

def MetadataColumns.isEmpty (metadata : MetadataColumns) : Bool :=
  metadata.topic.isNone && metadata.partition.isNone && metadata.offset.isNone &&
    metadata.timestamp.isNone && metadata.key.isNone

inductive Rejection
  | empty
  | notAnObject
deriving DecidableEq, Repr

def isAsciiWhitespace (b : UInt8) : Bool :=
  decide (b = 0x20 ∨ b = 0x09 ∨ b = 0x0A ∨ b = 0x0C ∨ b = 0x0D)

def trimAscii (bytes : Bytes) : Bytes :=
  (bytes.dropWhile isAsciiWhitespace).rdropWhile isAsciiWhitespace

/-- Everything between the outer braces. -/
def objectBody (payload : Bytes) : Except Rejection Bytes :=
  let trimmed := trimAscii payload
  if trimmed.isEmpty then .error .empty
  else if trimmed.head? = some '{'.toUInt8 ∧ trimmed.getLast? = some '}'.toUInt8 then
    .ok (trimAscii ((trimmed.take (trimmed.length - 1)).drop 1))
  else .error .notAnObject

/-- `format!("{:04x}", n)`. -/
def hex4 (n : ℕ) : List Char := (Nat.toDigits 16 n).leftpad 4 '0'

def writeCharacter (out : Bytes) (character : Char) : Bytes :=
  match character with
  | '"' => out ++ Utf8.encode ['\\', '"']
  | '\\' => out ++ Utf8.encode ['\\', '\\']
  | '\n' => out ++ Utf8.encode ['\\', 'n']
  | '\r' => out ++ Utf8.encode ['\\', 'r']
  | '\t' => out ++ Utf8.encode ['\\', 't']
  | c =>
    if c.toNat < 0x20 then out ++ Utf8.encode ('\\' :: 'u' :: hex4 c.toNat)
    else out ++ Utf8.encode [c]

/-- What is not valid UTF-8 in `value` is replaced. -/
def writeJsonString (out value : Bytes) : Bytes :=
  let text := Utf8.lossy value
  text.foldl writeCharacter (out ++ Utf8.encode ['"']) ++ Utf8.encode ['"']

/-- A Rust string as bytes. -/
def asBytes (s : String) : Bytes := Utf8.encode s.toList

def writeKey (out : Bytes) (name : String) : Bytes :=
  writeJsonString out (asBytes name) ++ Utf8.encode [':']

def itoa (value : ℤ) : List Char :=
  (if value < 0 then ['-'] else []) ++ Nat.toDigits 10 value.natAbs

def writeNumberField (value : ℤ) (out : Bytes) (name : String) : Bytes :=
  writeKey out name ++ Utf8.encode (itoa value)

def writeStringField (value : Bytes) (out : Bytes) (name : String) : Bytes :=
  writeJsonString (writeKey out name) value

/-- A row being written: the buffer, and whether the row has no member yet. -/
structure RowInProgress where
  out : Bytes
  first : Bool

namespace RowInProgress

def separate (row : RowInProgress) : RowInProgress :=
  if row.first then { row with first := false }
  else { row with out := row.out ++ Utf8.encode [','] }

/-- Writes a member under the column's name, if the column is configured. -/
def column (row : RowInProgress) (name : Option String) (field : Bytes → String → Bytes) :
    RowInProgress :=
  match name with
  | some name => { row.separate with out := field row.separate.out name }
  | none => row

/-- An empty body has nothing to separate from. -/
def body (row : RowInProgress) (bytes : Bytes) : RowInProgress :=
  if bytes.isEmpty then row else { row.separate with out := row.separate.out ++ bytes }

end RowInProgress

/-- Appends the line of one event to `out`, or says why not. -/
def writeRow (out : Bytes) (event : Event) (metadata : MetadataColumns) :
    Bytes × Except Rejection Unit :=
  match objectBody event.payload with
  | .error rejection => (out, .error rejection)
  | .ok body =>
    if metadata.isEmpty then
      (out ++ Utf8.encode ['{'] ++ body ++ Utf8.encode ['}', '\n'], .ok ())
    else
      let row : RowInProgress := ⟨out ++ Utf8.encode ['{'], true⟩
      let row := row.column metadata.topic (writeStringField (asBytes event.source.topic))
      let row := row.column metadata.partition (writeNumberField event.source.partition)
      let row := row.column metadata.offset (writeNumberField event.source.offset)
      let row := row.column metadata.timestamp (writeNumberField (event.timestampMs.getD 0))
      let row := row.column metadata.key (writeStringField (event.key.getD []))
      let row := row.body body
      (row.out ++ Utf8.encode ['}', '\n'], .ok ())

end Rustper.Clickhouse
