import Rustper.ClickhouseSink
import Rustper.Library.Fallible

/-!
The ClickHouse sink in event mode, where every event becomes a row of seven fixed columns,
and the choice between the two modes. The rows go one by one into an insert of the client,
which may fail when it is opened, at any row and at its end.
-/
namespace Rustper.Clickhouse

open Fallible
open Sink (WriteOutcome)

structure EventRow where
  timestampMs : ℤ
  sourceComponent : String
  sourceTopic : String
  sourcePartition : ℤ
  sourceOffset : ℤ
  key : Bytes
  payload : Bytes
deriving DecidableEq, Repr

/-- A missing timestamp becomes 0 and a missing key an empty one. -/
def eventRow (event : Event) : EventRow where
  timestampMs := event.timestampMs.getD 0
  sourceComponent := event.source.componentId
  sourceTopic := event.source.topic
  sourcePartition := event.source.partition
  sourceOffset := event.source.offset
  key := event.key.getD []
  payload := event.payload

/-- What the client makes of the opening of an insert, of a row behind the rows it already
has, and of the end. -/
structure TypedInsert (ε : Type) where
  start : Client → String → Except ε Unit
  write : List EventRow → EventRow → Except ε Unit
  finish : List EventRow → Except ε Unit

inductive WriteError (ε : Type)
  | insert (table : String) (cause : ε)
  | encode (cause : ε)
  | rejectedBatch (cause : ε)
  | rejectedRows (error : InsertError ε)

/-- The outermost message of the error, given how `{:?}` prints a table name. -/
def WriteError.message {ε : Type} (debug : String → String) : WriteError ε → String
  | .insert table _ => "ClickHouse insert into " ++ debug table ++ " failed"
  | .encode _ => "cannot encode ClickHouse row"
  | .rejectedBatch _ => "ClickHouse rejected batch"
  | .rejectedRows error => error.message debug

/-- The rows an insert has been given, and `written`. -/
structure EventRows where
  sent : List EventRow
  written : ℕ
deriving DecidableEq

/-- The body of the loop. -/
def EventRows.visit {ε : Type} (insert : TypedInsert ε) (rows : EventRows) (event : Event) :
    Except (WriteError ε) EventRows :=
  match insert.write rows.sent (eventRow event) with
  | .ok () => .ok ⟨rows.sent ++ [eventRow event], rows.written + 1⟩
  | .error cause => .error (.encode cause)

/-- `write_event_rows` up to its result, with the rows that the accepted insert has. -/
def sendEventRows {ε : Type} (insert : TypedInsert ε) (sink : ClickhouseSink)
    (batches : List EventBatch) : Except (WriteError ε) EventRows :=
  match insert.start sink.client sink.table with
  | .error cause => .error (.insert sink.table cause)
  | .ok () => do
    let rows ← (batches.flatMap EventBatch.events).foldlM (EventRows.visit insert) ⟨[], 0⟩
    match insert.finish rows.sent with
    | .ok () => .ok rows
    | .error cause => .error (.rejectedBatch cause)

def writeEventRows {ε : Type} (insert : TypedInsert ε) (sink : ClickhouseSink)
    (batches : List EventBatch) : Except (WriteError ε) WriteOutcome :=
  (sendEventRows insert sink batches).map (fun rows => ⟨rows.written, 0⟩)

/-- The client in both modes. -/
structure Server (ε : Type) where
  typed : TypedInsert ε
  formatted : Client → List Char → Bytes → Except ε Unit

def writeBatches {ε : Type} (server : Server ε) (sink : ClickhouseSink)
    (batches : List EventBatch) : Except (WriteError ε) WriteOutcome :=
  match sink.schema with
  | .event => writeEventRows server.typed sink batches
  | .json => (writeJsonRows server.formatted sink batches).mapError .rejectedRows

section rows

variable {ε : Type} {insert : TypedInsert ε} {sink : ClickhouseSink} {batches : List EventBatch}

theorem visit_eq_ok {rows rows' : EventRows} {event : Event}
    (h : rows.visit insert event = .ok rows') :
    rows' = ⟨rows.sent ++ [eventRow event], rows.written + 1⟩ := by
  unfold EventRows.visit at h
  split at h
  · exact (Except.ok.inj h).symm
  · contradiction

/-- A loop that runs to its end has sent the row of every event, in their order. -/
theorem foldlM_visit_eq_ok {events : List Event} {rows rows' : EventRows}
    (h : events.foldlM (EventRows.visit insert) rows = .ok rows') :
    rows' = ⟨rows.sent ++ events.map eventRow, rows.written + events.length⟩ := by
  induction events generalizing rows with
  | nil =>
    obtain rfl := Except.ok.inj h
    simp
  | cons event rest ih =>
    rw [List.foldlM_cons] at h
    obtain ⟨next, hvisit, h⟩ := bind_eq_ok.mp h
    rw [ih h, visit_eq_ok hvisit]
    simp only [List.map_cons, List.append_assoc, List.singleton_append, List.length_cons,
      EventRows.mk.injEq, true_and]
    omega

/-- An insert that was accepted has the row of every event once, in their order. -/
theorem sendEventRows_eq_ok {rows : EventRows} (h : sendEventRows insert sink batches = .ok rows) :
    insert.finish rows.sent = .ok () ∧
      rows.sent = (batches.flatMap EventBatch.events).map eventRow ∧
      rows.written = totalEvents batches := by
  unfold sendEventRows at h
  split at h
  · contradiction
  · obtain ⟨sent, hloop, h⟩ := bind_eq_ok.mp h
    split at h
    · rename_i hfinish
      obtain rfl := Except.ok.inj h
      have hlength : (batches.flatMap EventBatch.events).length = totalEvents batches :=
        List.length_flatMap
      rw [foldlM_visit_eq_ok hloop] at hfinish ⊢
      refine ⟨hfinish, ?_, ?_⟩
      · rw [List.nil_append]
      · rw [Nat.zero_add, hlength]
    · contradiction

theorem writeEventRows_eq_ok {outcome : WriteOutcome}
    (h : writeEventRows insert sink batches = .ok outcome) :
    outcome = ⟨totalEvents batches, 0⟩ := by
  unfold writeEventRows at h
  cases hsend : sendEventRows insert sink batches with
  | error e =>
    rw [hsend] at h
    contradiction
  | ok rows =>
    rw [hsend] at h
    obtain rfl := Except.ok.inj h
    have hwritten := (sendEventRows_eq_ok hsend).2.2
    simp only [hwritten]

end rows

end Rustper.Clickhouse
