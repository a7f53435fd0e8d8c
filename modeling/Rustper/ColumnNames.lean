import Rustper.ClickhouseSink
import Rustper.JsonSplice
import Rustper.Library.JsonNames

/-!
The member names of a written row. The configured columns are injected as they are and
the payload is not parsed, so nothing compares their names.
-/
namespace Rustper.Clickhouse

open Json (IsText Member)

def nameUnits (name : String) : List ℕ := name.toList.flatMap Json.utf16

/-- The configured column names, in the order in which a row has them. -/
def MetadataColumns.names (metadata : MetadataColumns) : List String :=
  [metadata.topic, metadata.partition, metadata.offset, metadata.timestamp,
    metadata.key].filterMap id

/-- The names of the members are pairwise distinct. -/
def Distinct (members : List Member) : Prop := (members.map (·.1.units)).Nodup

/-- The columns differ from each other and from the members of the payload. -/
structure NoClash (metadata : MetadataColumns) (members : List Member) : Prop where
  columns : metadata.names.Nodup
  payload : ∀ name ∈ metadata.names, ∀ m ∈ members, m.1.units ≠ nameUnits name

variable {metadata : MetadataColumns} {event : Event} {members added : List Member}

theorem nameUnits_injective : Function.Injective nameUnits :=
  fun _ _ h => String.toList_inj.mp (Json.utf16_injective h)

theorem fields_names (metadata : MetadataColumns) (event : Event) :
    (metadata.fields event).map Prod.fst = metadata.names := by
  obtain ⟨topic, partition, offset, timestamp, key⟩ := metadata
  cases topic <;> cases partition <;> cases offset <;> cases timestamp <;> cases key <;> rfl

theorem Represents.units {field : String × Field} {m : Member} (h : Represents field m) :
    m.1.units = nameUnits field.1 := by
  obtain ⟨name, f⟩ := field
  obtain ⟨n, v⟩ := m
  cases f with
  | text t =>
    cases v with
    | string s => exact Json.Literal.units_of_text? h.1
    | _ => exact h.elim
  | number z =>
    cases v with
    | number x => exact Json.Literal.units_of_text? h.1
    | _ => exact h.elim

theorem represents_names {fields : List (String × Field)}
    (h : List.Forall₂ Represents fields added) :
    added.map (·.1.units) = (fields.map Prod.fst).map nameUnits := by
  induction h with
  | nil => rfl
  | cons hm _ ih => rw [List.map_cons, List.map_cons, List.map_cons, hm.units, ih]

/-- The members in front bring no repetition of their own exactly if nothing clashes. -/
theorem distinct_append_iff (hadded : List.Forall₂ Represents (metadata.fields event) added)
    (hdistinct : Distinct members) :
    Distinct (added ++ members) ↔ NoClash metadata members := by
  have hnames := represents_names hadded
  rw [fields_names] at hnames
  rw [Distinct, List.map_append, hnames, List.nodup_append]
  constructor
  · intro h
    obtain ⟨hcolumns, -, hdisjoint⟩ := h
    refine ⟨List.Nodup.of_map _ hcolumns, fun name hname m hm heq => ?_⟩
    exact hdisjoint _ (List.mem_map_of_mem hname) _ (List.mem_map_of_mem hm) heq.symm
  · intro h
    refine ⟨h.columns.map nameUnits_injective, hdistinct, fun a ha b hb heq => ?_⟩
    obtain ⟨name, hname, rfl⟩ := List.mem_map.mp ha
    obtain ⟨m, hm, rfl⟩ := List.mem_map.mp hb
    exact h.payload name hname m hm heq.symm

/-- The row of a payload without repeated names repeats no name exactly if the configured
columns differ from each other and from the members of the payload. -/
theorem writeRow_distinct_iff (config : ClickhouseSinkConfig) (out : Bytes) (event : Event)
    (members : List Member) (text : List Char) (hpayload : event.payload = Utf8.encode text)
    (htext : IsText (.object members) text) (hdistinct : Distinct members) :
    ∃ all row, writeRow out event (.ofConfig config.metadataColumns) =
        (out ++ Utf8.encode row ++ [0x0A], .ok ()) ∧
      (∀ w, IsText w row ↔ w = .object all) ∧
      (Distinct all ↔ NoClash (.ofConfig config.metadataColumns) members) := by
  obtain ⟨added, row, hwrite, hadded, hrow⟩ :=
    writeRow_object out event (.ofConfig config.metadataColumns) hpayload htext
  refine ⟨added ++ members, row, hwrite, fun w => ⟨fun hw => hw.unique hrow, fun hw => ?_⟩,
    distinct_append_iff hadded hdistinct⟩
  rw [hw]
  exact hrow

/-- Every event of the sink whose payload repeats no name gets a row that repeats none. -/
def NamesDistinct (config : ClickhouseSinkConfig) : Prop :=
  ∀ (out : Bytes) (event : Event) (members all : List Member) (text row : List Char),
    event.payload = Utf8.encode text → IsText (.object members) text → Distinct members →
    writeRow out event (.ofConfig config.metadataColumns) =
      (out ++ Utf8.encode row ++ [0x0A], .ok ()) →
    IsText (.object all) row → Distinct all

/-- Rows of JSON objects, with the topic in a column that payloads have too. -/
def topicColumn : ClickhouseSinkConfig where
  inputs := ["in"]
  endpoint := "http://clickhouse:8123"
  database := "default"
  table := "events"
  user := ""
  password := ""
  bufferCapacity := 1
  batchMaxEvents := 1
  batchMaxBytes := 1
  batchLingerMs := 0
  schema := .json
  metadataColumns := ⟨some "a", none, none, none, none⟩
  allowErrorsNum := 0
  allowErrorsRatio := .finite 0
  maxConcurrentWrites := 1
  retryMaxAttempts := 1
  retryInitialBackoffMs := 0
  retryMaxBackoffMs := 0

def inputTopic : KafkaSourceConfig where
  brokers := "localhost:9092"
  groupId := "rustper"
  topics := ["input"]
  sessionTimeoutMs := 45000
  batchSize := 1
  batchLingerMs := 0
  maxInFlightBatches := 1
  maxInFlightBytes := 1
  queuedMaxMessagesKbytes := 1
  queuedMinMessages := 1
  maxPollIntervalMs := 300000
  clientConfig := ∅

def topicConfig : Config where
  sources := (∅ : ConfigMap SourceConfig).insert "in" (.kafka inputTopic)
  sinks := (∅ : ConfigMap SinkConfig).insert "out" (.clickhouse topicColumn)

theorem topicConfig_valid : topicConfig.validate = .ok () := by
  decide

theorem nameA_distinct : Distinct [(nameA, .null)] := List.nodup_singleton _

theorem topicColumn_clash : ¬ NoClash (.ofConfig topicColumn.metadataColumns) [(nameA, .null)] :=
  fun h => h.payload "a" List.mem_cons_self _ List.mem_cons_self rfl

/-- The configuration is accepted, and a payload with a member of that name gets it twice. -/
theorem topicColumn_repeats : topicConfig.validate = .ok () ∧
    ⟨"out", .clickhouse topicColumn⟩ ∈ topicConfig.sinks.entries ∧ topicColumn.schema = .json ∧
    ¬ NamesDistinct topicColumn := by
  refine ⟨topicConfig_valid, List.mem_cons_self, rfl, fun h => ?_⟩
  obtain ⟨added, row, hwrite, hadded, hrow⟩ :=
    writeRow_object [] nullMember (.ofConfig topicColumn.metadataColumns) rfl nullMember_text
  have hall := h [] nullMember _ _ _ row rfl nullMember_text nameA_distinct hwrite hrow
  exact topicColumn_clash ((distinct_append_iff hadded nameA_distinct).mp hall)

theorem writeRow_distinct_iff_topicColumn :
    ∃ all row, writeRow [] nullMember (.ofConfig topicColumn.metadataColumns) =
        ([] ++ Utf8.encode row ++ [0x0A], .ok ()) ∧
      (∀ w, IsText w row ↔ w = .object all) ∧
      (Distinct all ↔ NoClash (.ofConfig topicColumn.metadataColumns) [(nameA, .null)]) :=
  writeRow_distinct_iff topicColumn [] nullMember _ _ rfl nullMember_text nameA_distinct

end Rustper.Clickhouse
