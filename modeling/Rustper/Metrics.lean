import Mathlib.Data.String.Basic
import Rustper.Sink
import Rustper.Source

/-!
The counters of the components and the text in which they are exposed. A snapshot is
modelled by the counters its loads saw; the time at which it was taken is left out, as the
text does not show it.
-/
namespace Rustper

section components

variable {α β : Type}

/-- A `BTreeMap<String, α>`: its entries in the order of their keys. -/
structure ComponentMap (α : Type) where
  entries : List (String × α)
  sorted : (entries.map Prod.fst).Pairwise (· < ·)

def insertEntry (id : String) (value : α) : List (String × α) → List (String × α)
  | [] => [(id, value)]
  | (key, v) :: rest =>
    if id < key then (id, value) :: (key, v) :: rest
    else if id = key then (id, value) :: rest
    else (key, v) :: insertEntry id value rest

theorem mem_keys_insertEntry {id key : String} {value : α} {entries : List (String × α)} :
    key ∈ (insertEntry id value entries).map Prod.fst ↔
      key = id ∨ key ∈ entries.map Prod.fst := by
  induction entries with
  | nil => simp [insertEntry]
  | cons entry rest ih =>
    obtain ⟨k, v⟩ := entry
    rw [insertEntry]
    split_ifs with hlt heq
    · simp
    · subst heq
      simp
    · rw [List.map_cons, List.mem_cons, ih, List.map_cons, List.mem_cons]
      tauto

theorem sorted_insertEntry {id : String} {value : α} {entries : List (String × α)}
    (h : (entries.map Prod.fst).Pairwise (· < ·)) :
    ((insertEntry id value entries).map Prod.fst).Pairwise (· < ·) := by
  induction entries with
  | nil => simp [insertEntry]
  | cons entry rest ih =>
    obtain ⟨k, v⟩ := entry
    obtain ⟨hk, hrest⟩ := List.pairwise_cons.mp h
    rw [insertEntry]
    split_ifs with hlt heq
    · refine List.pairwise_cons.mpr ⟨fun key hkey => ?_, h⟩
      rcases List.mem_cons.mp hkey with rfl | hkey
      · exact hlt
      · exact lt_trans hlt (hk key hkey)
    · subst heq
      exact h
    · refine List.pairwise_cons.mpr ⟨fun key hkey => ?_, ih hrest⟩
      rcases mem_keys_insertEntry.mp hkey with rfl | hkey
      · exact lt_of_le_of_ne (not_lt.mp hlt) (Ne.symm heq)
      · exact hk key hkey

namespace ComponentMap

def ids (m : ComponentMap α) : List String := m.entries.map Prod.fst

def empty : ComponentMap α := ⟨[], List.Pairwise.nil⟩

def insert (m : ComponentMap α) (id : String) (value : α) : ComponentMap α :=
  ⟨insertEntry id value m.entries, sorted_insertEntry m.sorted⟩

def map (f : α → β) (m : ComponentMap α) : ComponentMap β where
  entries := m.entries.map (fun entry => (entry.1, f entry.2))
  sorted := by simpa [Function.comp_def] using m.sorted

/-- One entry for each id, all with the same value. -/
def register (value : α) (ids : List String) : ComponentMap α :=
  ids.foldl (fun m id => m.insert id value) empty

theorem ids_nodup (m : ComponentMap α) : m.ids.Nodup :=
  m.sorted.imp (fun hlt => ne_of_lt hlt)

@[simp] theorem ids_map (f : α → β) (m : ComponentMap α) : (m.map f).ids = m.ids := by
  simp [ids, map]

theorem mem_ids_foldl_insert {value : α} {id : String} (ids : List String)
    (m : ComponentMap α) :
    id ∈ (ids.foldl (fun m id => m.insert id value) m).ids ↔ id ∈ ids ∨ id ∈ m.ids := by
  induction ids generalizing m with
  | nil => simp
  | cons first rest ih =>
    have hinsert : id ∈ (m.insert first value).ids ↔ id = first ∨ id ∈ m.ids :=
      mem_keys_insertEntry
    rw [List.foldl_cons, ih, hinsert, List.mem_cons]
    tauto

theorem mem_ids_register {value : α} {ids : List String} {id : String} :
    id ∈ (register value ids).ids ↔ id ∈ ids := by
  have hempty : id ∉ (empty : ComponentMap α).ids := List.not_mem_nil
  rw [register, mem_ids_foldl_insert, or_iff_left hempty]

end ComponentMap

end components

/-- What the source task counts, and the callback that counts rebalances. -/
structure SourceMetrics extends Source.SourceMetrics where
  rebalances : ℕ
deriving DecidableEq, Repr

structure SourceValues where
  eventsIn : ℕ
  bytesIn : ℕ
  batchesIn : ℕ
  commits : ℕ
  rebalances : ℕ
  inFlightBytes : ℕ
  inFlightBatches : ℕ
deriving DecidableEq, Repr

structure SinkValues where
  eventsOut : ℕ
  eventsDropped : ℕ
  batchesWritten : ℕ
  writeErrors : ℕ
  retries : ℕ
  queueDepth : ℕ
deriving DecidableEq, Repr

structure Snapshot where
  sources : ComponentMap SourceValues
  sinks : ComponentMap SinkValues

structure Metrics where
  sources : ComponentMap SourceMetrics
  sinks : ComponentMap Sink.SinkMetrics

/-- A line of the tables `SOURCE_SERIES` and `SINK_SERIES`. -/
structure Series (α : Type) where
  metric : String
  help : String
  kind : String
  extract : α → ℕ

def sourceSeries : List (Series SourceValues) :=
  [⟨"rustper_source_events_total", "Events consumed and committed.", "counter",
      SourceValues.eventsIn⟩,
    ⟨"rustper_source_bytes_total", "Payload bytes consumed.", "counter", SourceValues.bytesIn⟩,
    ⟨"rustper_source_batches_total", "Batches dispatched to the fan-out.", "counter",
      SourceValues.batchesIn⟩,
    ⟨"rustper_source_commits_total", "Offset commits issued.", "counter", SourceValues.commits⟩,
    ⟨"rustper_source_rebalances_total", "Consumer group rebalances observed.", "counter",
      SourceValues.rebalances⟩,
    ⟨"rustper_source_in_flight_bytes", "Bytes held by unacknowledged batches.", "gauge",
      SourceValues.inFlightBytes⟩,
    ⟨"rustper_source_in_flight_batches", "Unacknowledged batches.", "gauge",
      SourceValues.inFlightBatches⟩]

def sinkSeries : List (Series SinkValues) :=
  [⟨"rustper_sink_events_total", "Events written.", "counter", SinkValues.eventsOut⟩,
    ⟨"rustper_sink_events_dropped_total", "Events the sink refused to write.", "counter",
      SinkValues.eventsDropped⟩,
    ⟨"rustper_sink_batches_total", "Coalesced writes completed.", "counter",
      SinkValues.batchesWritten⟩,
    ⟨"rustper_sink_write_errors_total", "Writes that failed after retries.", "counter",
      SinkValues.writeErrors⟩,
    ⟨"rustper_sink_retries_total", "Write attempts retried.", "counter", SinkValues.retries⟩,
    ⟨"rustper_sink_queue_depth", "Envelopes waiting in the sink queue.", "gauge",
      SinkValues.queueDepth⟩]

section render

variable {α : Type}

def writeSample (label : String) (series : Series α) (out : String) (entry : String × α) :
    String :=
  out ++ (series.metric ++ "\x7b" ++ label ++ "=\"" ++ entry.1 ++ "\"\x7d " ++
    toString (series.extract entry.2) ++ "\n")

/-- The body of either loop; `label` is the one name in which they differ. -/
def writeSeries (label : String) (components : ComponentMap α) (out : String)
    (series : Series α) : String :=
  components.entries.foldl (writeSample label series)
    (out ++ ("# HELP " ++ series.metric ++ " " ++ series.help ++ "\n") ++
      ("# TYPE " ++ series.metric ++ " " ++ series.kind ++ "\n"))

end render

namespace Metrics

def new (sources sinks : List String) : Metrics :=
  ⟨.register ⟨⟨0, 0, 0, 0, 0, 0⟩, 0⟩ sources, .register ⟨0, 0, 0, 0, 0, 0⟩ sinks⟩

def snapshot (m : Metrics) : Snapshot where
  sources := m.sources.map (fun c => ⟨c.eventsIn, c.bytesIn, c.batchesIn, c.commits,
    c.rebalances, c.inFlightBytes, c.inFlightBatches⟩)
  sinks := m.sinks.map (fun c => ⟨c.eventsOut, c.eventsDropped, c.batchesWritten,
    c.writeErrors, c.retries, c.queueDepth⟩)

def renderPrometheus (m : Metrics) : String :=
  let snapshot := m.snapshot
  let out := sourceSeries.foldl (writeSeries "source" snapshot.sources) ""
  sinkSeries.foldl (writeSeries "sink" snapshot.sinks) out

end Metrics

end Rustper
