import Rustper.EventRows
import Rustper.JsonFraming
import Rustper.KafkaReports
import Rustper.Library.Fallible

/-!
The destinations that `sink::build` can put behind the sink runtime, each run against the
client it writes through. A call that succeeds has had an item acknowledged for every event
it was given, except for those that a ClickHouse sink in JSON mode refuses.
-/
namespace Rustper.Destination

open TransitionSystem Fallible
open Sink (WriteOutcome)

/-- How durations, names and ratios are printed. -/
structure Formats where
  duration : ℕ → String
  name : String → String
  ratio : Ratio → String

/-- What a destination keeps of an event. -/
inductive Item
  | record (record : Kafka.BaseRecord)
  | row (row : Clickhouse.EventRow)
  | line (line : Bytes)
deriving DecidableEq

/-- One call of `write_batches`, by what its client does: the run of the Kafka producer, or
the answers of the ClickHouse client. -/
inductive Exchange
  | producer (now : ℕ) (actions : List Kafka.Action)
  | client (server : Clickhouse.Server String)

/-- A Kafka write run to its end: its result, and the records that were confirmed. -/
def performKafka (formats : Formats) (sink : Kafka.KafkaSink) (batches : List EventBatch)
    (now : ℕ) (actions : List Kafka.Action) :
    Option (Except String WriteOutcome × List Item) := do
  let s ← (Kafka.system sink batches now).run (Kafka.State.start sink batches now) actions
  match s.phase with
  | .returned result =>
    some (result.mapError (Kafka.WriteError.message formats.duration),
      (Kafka.acknowledged actions s.accepted).map .record)
  | _ => none

/-- What an insert that was accepted has put into the table: the rows of the typed insert,
or the rows that make up the body of the formatted one. -/
def insertedItems (server : Clickhouse.Server String) (sink : Clickhouse.ClickhouseSink)
    (batches : List EventBatch) : List Item :=
  match sink.schema with
  | .event =>
    match Clickhouse.sendEventRows server.typed sink batches with
    | .ok rows => rows.sent.map .row
    | .error _ => []
  | .json =>
    match Clickhouse.writeJsonRows server.formatted sink batches with
    | .ok _ => (Clickhouse.acceptedRows sink.metadata
        (batches.flatMap EventBatch.events)).map .line
    | .error _ => []

/-- `write_batches` of the sink that `sink::build` makes of the configuration: its result and
what the destination has acknowledged. -/
def perform (formats : Formats) (id : String) (config : SinkConfig) (batches : List EventBatch) :
    Exchange → Option (Except String WriteOutcome × List Item)
  | .producer now actions =>
    match config with
    | .kafka c => performKafka formats (.new c) batches now actions
    | .clickhouse _ => none
  | .client server =>
    match config with
    | .kafka _ => none
    | .clickhouse c =>
      let sink := Clickhouse.ClickhouseSink.new formats.ratio id c
      some ((Clickhouse.writeBatches server sink batches).mapError
          (Clickhouse.WriteError.message formats.name),
        insertedItems server sink batches)

/-- The item of an event; an event that is refused has none. -/
def item? : SinkConfig → Event → Option Item
  | .kafka c, event => some (.record (Kafka.toRecord (.new c) event))
  | .clickhouse c, event =>
    match c.schema with
    | .event => some (.row (Clickhouse.eventRow event))
    | .json => (Clickhouse.rowAlone (.ofConfig c.metadataColumns) event).map .line

/-- Only a ClickHouse sink in JSON mode refuses events: those whose payload does not stand in
braces. -/
def refuses : SinkConfig → Event → Bool
  | .kafka _, _ => false
  | .clickhouse c, event =>
    decide (c.schema = .json) && (Clickhouse.rejection? event).isSome

variable {formats : Formats} {id : String} {config : SinkConfig} {batches : List EventBatch}

theorem item?_eq_none_iff {event : Event} :
    item? config event = none ↔ refuses config event = true := by
  cases config with
  | kafka c => simp [item?, refuses]
  | clickhouse c =>
    cases hschema : c.schema with
    | event => simp [item?, refuses, hschema]
    | json =>
      cases hbody : Clickhouse.objectBody event.payload with
      | ok body =>
        obtain ⟨row, hrow, -⟩ :=
          Clickhouse.rowAlone_accepted (.ofConfig c.metadataColumns) hbody
        simp [item?, refuses, hschema, hrow, Clickhouse.rejection?, hbody]
      | error rejection =>
        have hrow := (Clickhouse.rowAlone_rejected (.ofConfig c.metadataColumns) hbody).1
        simp [item?, refuses, hschema, hrow, Clickhouse.rejection?, hbody]

/-- The items of the events of a call, in their order. -/
def items (config : SinkConfig) (batches : List EventBatch) : List Item :=
  (batches.flatMap EventBatch.events).filterMap (item? config)

theorem items_kafka (c : KafkaSinkConfig) (batches : List EventBatch) :
    items (.kafka c) batches =
      ((Kafka.events batches).map (Kafka.toRecord (.new c))).map .record := by
  rw [items, List.map_map, ← List.filterMap_eq_map]
  rfl

theorem items_event {c : ClickhouseSinkConfig} (hschema : c.schema = .event)
    (batches : List EventBatch) :
    items (.clickhouse c) batches =
      ((batches.flatMap EventBatch.events).map Clickhouse.eventRow).map .row := by
  have hitem : item? (.clickhouse c) = some ∘ Item.row ∘ Clickhouse.eventRow := by
    funext event
    simp [item?, hschema]
  rw [items, hitem, List.filterMap_eq_map, List.map_map]

theorem items_json {c : ClickhouseSinkConfig} (hschema : c.schema = .json)
    (batches : List EventBatch) :
    items (.clickhouse c) batches =
      (Clickhouse.acceptedRows (.ofConfig c.metadataColumns)
        (batches.flatMap EventBatch.events)).map .line := by
  have hitem : item? (.clickhouse c) = fun event =>
      (Clickhouse.rowAlone (.ofConfig c.metadataColumns) event).map Item.line := by
    funext event
    simp [item?, hschema]
  rw [items, hitem, Clickhouse.acceptedRows, List.map_filterMap]

/-- An event of a call has an item or is refused. -/
theorem items_add_refused (config : SinkConfig) (batches : List EventBatch) :
    (items config batches).length +
      ((batches.flatMap EventBatch.events).filter (refuses config)).length =
        totalEvents batches := by
  have hlength : (batches.flatMap EventBatch.events).length = totalEvents batches :=
    List.length_flatMap
  rw [← hlength, items]
  induction batches.flatMap EventBatch.events with
  | nil => rfl
  | cons event rest ih =>
    have hnone : item? config event = none ↔ refuses config event = true := item?_eq_none_iff
    cases hitem : item? config event with
    | none =>
      have hrefuses := hnone.mp hitem
      rw [List.filterMap_cons_none hitem, List.filter_cons_of_pos hrefuses]
      simp only [List.length_cons]
      omega
    | some item =>
      have hrefuses : ¬ refuses config event = true := by
        rw [← hnone, hitem]
        simp
      rw [List.filterMap_cons_some hitem, List.filter_cons_of_neg hrefuses]
      simp only [List.length_cons]
      omega

section contract

variable {outcome : WriteOutcome} {taken : List Item}

/-- What a call that succeeds has done for the events of its batches. -/
structure Honours (config : SinkConfig) (batches : List EventBatch) (outcome : WriteOutcome)
    (taken : List Item) : Prop where
  written : outcome.written = (items config batches).length
  dropped : outcome.dropped = ((batches.flatMap EventBatch.events).filter (refuses config)).length
  taken : taken.Perm (items config batches)

/-- The counts follow from what was written, once every event is accounted for. -/
theorem Honours.of_accounts (hwritten : outcome.written = (items config batches).length)
    (haccounts : outcome.written + outcome.dropped = totalEvents batches)
    (htaken : taken.Perm (items config batches)) : Honours config batches outcome taken := by
  have hsum := items_add_refused config batches
  exact ⟨hwritten, by omega, htaken⟩

theorem performKafka_ok {c : KafkaSinkConfig} {now : ℕ} {actions : List Kafka.Action}
    (h : performKafka formats (.new c) batches now actions = some (.ok outcome, taken)) :
    Honours (.kafka c) batches outcome taken := by
  simp only [performKafka, Option.bind_eq_bind, Option.bind_eq_some_iff] at h
  obtain ⟨s, hrun, h⟩ := h
  split at h
  · rename_i result hphase
    obtain ⟨hresult, rfl⟩ := Prod.mk.inj (Option.some.inj h)
    obtain rfl := mapError_eq_ok hresult
    obtain ⟨hwritten, hperm⟩ := Kafka.acknowledged_of_ok hrun hphase
    have hlength : (items (.kafka c) batches).length = totalEvents batches := by
      rw [items_kafka, List.length_map, List.length_map, Kafka.events_length]
    refine .of_accounts ?_ ?_ ?_
    · rw [hwritten, hlength]
    · rw [hwritten, Nat.add_zero]
    · rw [items_kafka]
      exact hperm.map _
  · contradiction

section inserted

variable {c : ClickhouseSinkConfig} {server : Clickhouse.Server String}

theorem insertedItems_event {rows : Clickhouse.EventRows} (hschema : c.schema = .event)
    (hsend : Clickhouse.sendEventRows server.typed (.new formats.ratio id c) batches = .ok rows) :
    insertedItems server (.new formats.ratio id c) batches = items (.clickhouse c) batches := by
  have hsink : (Clickhouse.ClickhouseSink.new formats.ratio id c).schema = .event := hschema
  obtain ⟨-, hsent, -⟩ := Clickhouse.sendEventRows_eq_ok hsend
  rw [insertedItems, hsink]
  simp only [hsend, hsent, items_event hschema]

theorem insertedItems_json (hschema : c.schema = .json)
    (hrows : Clickhouse.writeJsonRows server.formatted (.new formats.ratio id c) batches =
      .ok outcome) :
    insertedItems server (.new formats.ratio id c) batches = items (.clickhouse c) batches := by
  have hsink : (Clickhouse.ClickhouseSink.new formats.ratio id c).schema = .json := hschema
  rw [insertedItems, hsink]
  simp only [hrows, items_json hschema]
  rfl

theorem insertedItems_ok
    (h : Clickhouse.writeBatches server (.new formats.ratio id c) batches = .ok outcome) :
    Honours (.clickhouse c) batches outcome
      (insertedItems server (.new formats.ratio id c) batches) := by
  cases hschema : c.schema with
  | event =>
    have hsink : (Clickhouse.ClickhouseSink.new formats.ratio id c).schema = .event := hschema
    rw [Clickhouse.writeBatches, hsink] at h
    have houtcome := Clickhouse.writeEventRows_eq_ok h
    rw [Clickhouse.writeEventRows] at h
    cases hsend : Clickhouse.sendEventRows server.typed (.new formats.ratio id c) batches with
    | error e =>
      rw [hsend] at h
      contradiction
    | ok rows =>
      have hlength : (items (.clickhouse c) batches).length = totalEvents batches := by
        rw [items_event hschema, List.length_map, List.length_map, List.length_flatMap]
        rfl
      refine .of_accounts ?_ ?_ (insertedItems_event hschema hsend ▸ List.Perm.refl _)
      · rw [houtcome, hlength]
      · rw [houtcome, Nat.add_zero]
  | json =>
    have hsink : (Clickhouse.ClickhouseSink.new formats.ratio id c).schema = .json := hschema
    rw [Clickhouse.writeBatches, hsink] at h
    have hrows := mapError_eq_ok h
    refine .of_accounts ?_ (Clickhouse.writeJsonRows_accounts hrows)
      (insertedItems_json hschema hrows ▸ List.Perm.refl _)
    rw [Clickhouse.writeJsonRows_eq_ok hrows, items_json hschema, List.length_map]
    exact (Clickhouse.jsonRows_gathered _ batches).2.1

/-- An insert that fails is not acknowledged at all. -/
theorem insertedItems_subperm (server : Clickhouse.Server String) :
    (insertedItems server (.new formats.ratio id c) batches).Subperm
      (items (.clickhouse c) batches) := by
  cases hschema : c.schema with
  | event =>
    cases hsend : Clickhouse.sendEventRows server.typed (.new formats.ratio id c) batches with
    | error e =>
      have hsink : (Clickhouse.ClickhouseSink.new formats.ratio id c).schema = .event := hschema
      rw [insertedItems, hsink]
      simp only [hsend, List.nil_subperm]
    | ok rows =>
      rw [insertedItems_event hschema hsend]
  | json =>
    cases hrows : Clickhouse.writeJsonRows server.formatted (.new formats.ratio id c) batches with
    | error e =>
      have hsink : (Clickhouse.ClickhouseSink.new formats.ratio id c).schema = .json := hschema
      rw [insertedItems, hsink]
      simp only [hrows, List.nil_subperm]
    | ok outcome =>
      rw [insertedItems_json hschema hrows]

end inserted

/-- A call that succeeds honours the contract of a sink, whatever its configuration. -/
theorem perform_ok {x : Exchange}
    (h : perform formats id config batches x = some (.ok outcome, taken)) :
    Honours config batches outcome taken := by
  cases x with
  | producer now actions =>
    cases config with
    | kafka c => exact performKafka_ok h
    | clickhouse c => contradiction
  | client server =>
    cases config with
    | kafka c => contradiction
    | clickhouse c =>
      obtain ⟨hresult, rfl⟩ := Prod.mk.inj (Option.some.inj h)
      exact insertedItems_ok (mapError_eq_ok hresult)

/-- No call has more acknowledged than the items of its events, each once. -/
theorem perform_subperm {x : Exchange} {result : Except String WriteOutcome}
    (h : perform formats id config batches x = some (result, taken)) :
    taken.Subperm (items config batches) := by
  cases x with
  | producer now actions =>
    cases config with
    | kafka c =>
      simp only [perform, performKafka, Option.bind_eq_bind, Option.bind_eq_some_iff] at h
      obtain ⟨s, hrun, h⟩ := h
      split at h
      · obtain ⟨-, rfl⟩ := Prod.mk.inj (Option.some.inj h)
        have haccepted := Kafka.accepted_eq (System.Reachable.run System.ReachableBy.start hrun)
        have hpart : s.accepted.Subperm
            ((Kafka.events batches).map (Kafka.toRecord (.new c))) := by
          rw [haccepted]
          exact ((List.take_sublist _ _).map _).subperm
        rw [items_kafka]
        obtain ⟨records, hperm, hsublist⟩ := (Kafka.acknowledged_subperm hrun).trans hpart
        exact ⟨_, hperm.map _, hsublist.map _⟩
      · contradiction
    | clickhouse c => contradiction
  | client server =>
    cases config with
    | kafka c => contradiction
    | clickhouse c =>
      obtain ⟨-, rfl⟩ := Prod.mk.inj (Option.some.inj h)
      exact insertedItems_subperm server

end contract

end Rustper.Destination
