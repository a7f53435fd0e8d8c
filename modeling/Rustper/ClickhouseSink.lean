import Rustper.Config
import Rustper.JsonRow
import Rustper.Sink

/-!
The ClickHouse sink and its write in JSON mode: the rows of all batches are gathered in
one buffer, which is sent behind one `INSERT` statement.
-/
namespace Rustper.Clickhouse

open Sink (WriteOutcome)

/-- How the HTTP client is set up. -/
structure Client where
  url : String
  database : String
  user : String
  password : String
  settings : List (String × String)
deriving DecidableEq, Repr

def Client.withSetting (client : Client) (name value : String) : Client :=
  { client with settings := client.settings ++ [(name, value)] }

structure ClickhouseSink where
  id : String
  table : String
  client : Client
  batch : BatchSettings
  schema : ClickhouseSchema
  metadata : MetadataColumns
deriving DecidableEq, Repr

def MetadataColumns.ofConfig (config : MetadataColumnsConfig) : MetadataColumns where
  topic := config.topic
  partition := config.partition
  offset := config.offset
  timestamp := config.timestamp
  key := config.key

/-- Whether ClickHouse is told to skip rows is decided by the two limits; `print` is how a
ratio is printed. -/
def ClickhouseSink.new (print : Ratio → String) (id : String) (config : ClickhouseSinkConfig) :
    ClickhouseSink :=
  let client : Client := ⟨config.endpoint, config.database, config.user, config.password, []⟩
  let client :=
    if 0 < config.allowErrorsNum then
      client.withSetting "input_format_allow_errors_num" (toString config.allowErrorsNum)
    else client
  let client :=
    if config.allowErrorsRatio.isPositive then
      client.withSetting "input_format_allow_errors_ratio" (print config.allowErrorsRatio)
    else client
  { id := id
    table := config.table
    client := client
    batch := ⟨config.batchMaxEvents, config.batchMaxBytes, config.batchLingerMs⟩
    schema := config.schema
    metadata := .ofConfig config.metadataColumns }

def Rejection.asStr : Rejection → String
  | .empty => "payload is empty"
  | .notAnObject => "payload is not a JSON object"

/-- What `write_json_rows` gathers while it visits the events. -/
structure JsonRows where
  buffer : Bytes
  outcome : WriteOutcome
  firstRejection : Option (Rejection × ℤ)
deriving DecidableEq

def JsonRows.empty : JsonRows := ⟨[], ⟨0, 0⟩, none⟩

/-- The body of the loop. -/
def JsonRows.visit (metadata : MetadataColumns) (rows : JsonRows) (event : Event) : JsonRows :=
  match writeRow rows.buffer event metadata with
  | (buffer, .ok ()) =>
    { rows with
      buffer := buffer
      outcome := { rows.outcome with written := rows.outcome.written + 1 } }
  | (buffer, .error rejection) =>
    { buffer := buffer
      outcome := { rows.outcome with dropped := rows.outcome.dropped + 1 }
      firstRejection := rows.firstRejection.or (some (rejection, event.source.offset)) }

/-- The loop over the events of all batches. -/
def jsonRows (metadata : MetadataColumns) (batches : List EventBatch) : JsonRows :=
  (batches.flatMap EventBatch.events).foldl (JsonRows.visit metadata) .empty

/-- The warning, once for each write that dropped a row. -/
structure DroppedRows where
  component : String
  dropped : ℕ
  firstBadOffset : ℤ
  reason : String
deriving DecidableEq, Repr

def JsonRows.warning (rows : JsonRows) (id : String) : Option DroppedRows :=
  rows.firstRejection.map (fun rejection =>
    ⟨id, rows.outcome.dropped, rejection.2, rejection.1.asStr⟩)

/-- Quotes a table identifier for interpolation into the INSERT statement. -/
def escapeIdentifier (name : List Char) : List Char :=
  '`' :: (name.flatMap (fun c => if c = '`' then ['\\', '`'] else [c]) ++ ['`'])

def insertStatement (table : String) : List Char :=
  "INSERT INTO ".toList ++ escapeIdentifier table.toList ++ " FORMAT JSONEachRow".toList

/-- The error of a rejected insert, with what the client reported. -/
structure InsertError (ε : Type) where
  table : String
  cause : ε

/-- The outermost message of the error, given how `{:?}` prints a table name. -/
def InsertError.message {ε : Type} (debug : String → String) (error : InsertError ε) : String :=
  "ClickHouse rejected the batch for " ++ debug error.table

/-- `insert` is what the client makes of a statement and a body. Nothing is sent when no
row could be written. -/
def writeJsonRows {ε : Type} (insert : Client → List Char → Bytes → Except ε Unit)
    (sink : ClickhouseSink) (batches : List EventBatch) : Except (InsertError ε) WriteOutcome :=
  let rows := jsonRows sink.metadata batches
  if rows.outcome.written = 0 then .ok rows.outcome
  else
    match insert sink.client (insertStatement sink.table) rows.buffer with
    | .ok () => .ok rows.outcome
    | .error cause => .error ⟨sink.table, cause⟩

end Rustper.Clickhouse
