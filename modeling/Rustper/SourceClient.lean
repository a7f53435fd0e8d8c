import Rustper.Defaults
import Rustper.Library.Overrides
import Rustper.Source

/-!
The client that `KafkaSource::new` configures: the properties it sets itself, and the
`client_config` of the configuration that is applied last.
-/
namespace Rustper.Source

abbrev ClientConfig := ConfigMap String

def ClientConfig.set (client : ClientConfig) (key value : String) : ClientConfig :=
  client.insert key value

/-- What `new` sets before it looks at `client_config`. -/
def ownProperties (config : KafkaSourceConfig) : ClientConfig :=
  ((((((((∅ : ClientConfig).set "bootstrap.servers" config.brokers).set
    "group.id" config.groupId).set
    "session.timeout.ms" (toString config.sessionTimeoutMs)).set
    "enable.auto.commit" "false").set
    "enable.auto.offset.store" "false").set
    "auto.offset.reset" "earliest").set
    "queued.max.messages.kbytes" (toString config.queuedMaxMessagesKbytes)).set
    "queued.min.messages" (toString config.queuedMinMessages)

def clientProperties (config : KafkaSourceConfig) : ClientConfig :=
  config.clientConfig.entries.foldl (fun client entry => client.set entry.1 entry.2)
    (ownProperties config)

inductive NewError
  | create
  | subscribe
deriving DecidableEq, Repr

def NewError.message : NewError → String
  | .create => "cannot create Kafka source"
  | .subscribe => "cannot subscribe to Kafka topics"

/-- `KafkaSource::new`; whether the client library accepts the properties and the topics is
a parameter. -/
def KafkaSource.new (creates : ClientConfig → Bool) (subscribes : List String → Bool)
    (client : OffsetList) (id : String) (config : KafkaSourceConfig) :
    Except NewError KafkaSource :=
  if creates (clientProperties config) then
    if subscribes config.topics then .ok ⟨id, config, client⟩ else .error .subscribe
  else .error .create

/-- The fields that are documented as properties of the client library and forwarded. -/
def forwarded (config : KafkaSourceConfig) : List (String × String) :=
  [("bootstrap.servers", config.brokers), ("group.id", config.groupId),
    ("session.timeout.ms", toString config.sessionTimeoutMs),
    ("queued.max.messages.kbytes", toString config.queuedMaxMessagesKbytes),
    ("queued.min.messages", toString config.queuedMinMessages)]

/-- The properties that leave commits to the router. -/
def manualCommits : List (String × String) :=
  [("enable.auto.commit", "false"), ("enable.auto.offset.store", "false")]

/-- What one would have of the map, were the properties of the router out of reach of
`client_config`. -/
structure Faithful (config : KafkaSourceConfig) : Prop where
  fields : ∀ property ∈ forwarded config ++
    [("max.poll.interval.ms", toString config.maxPollIntervalMs)],
    (clientProperties config).lookup property.1 = some property.2
  manual : ∀ property ∈ manualCommits,
    (clientProperties config).lookup property.1 = some property.2
  others : ∀ key value, config.clientConfig.lookup key = some value →
    key ∉ (forwarded config ++ [("max.poll.interval.ms", toString config.maxPollIntervalMs)] ++
      manualCommits).map Prod.fst →
    (clientProperties config).lookup key = some value

/-- A source that could be created was created with those properties. -/
theorem KafkaSource.new_eq_ok {creates : ClientConfig → Bool} {subscribes : List String → Bool}
    {client : OffsetList} {id : String} {config : KafkaSourceConfig} {source : KafkaSource} :
    KafkaSource.new creates subscribes client id config = .ok source ↔
      creates (clientProperties config) = true ∧ subscribes config.topics = true ∧
        source = ⟨id, config, client⟩ := by
  unfold KafkaSource.new
  split
  · split <;> simp [*, eq_comm]
  · simp [*]

theorem lookup_clientProperties (config : KafkaSourceConfig) (key : String) :
    (clientProperties config).lookup key =
      (config.clientConfig.lookup key).or ((ownProperties config).lookup key) :=
  Overrides.lookup_foldl_entries _ _ _

theorem ownProperties_spec (config : KafkaSourceConfig) :
    ∀ property ∈ forwarded config ++ manualCommits,
      (ownProperties config).lookup property.1 = some property.2 := by
  intro property h
  simp only [forwarded, manualCommits, List.cons_append, List.nil_append, List.mem_cons,
    List.not_mem_nil, or_false] at h
  rcases h with rfl | rfl | rfl | rfl | rfl | rfl | rfl <;> rfl

/-- `client_config` has the last word on every property it names. Where it does not name
them, the forwarded fields have their values and commits are left to the router. -/
theorem clientProperties_spec (config : KafkaSourceConfig) :
    (∀ key value, config.clientConfig.lookup key = some value →
      (clientProperties config).lookup key = some value) ∧
    ∀ property ∈ forwarded config ++ manualCommits, property.1 ∉ config.clientConfig →
      (clientProperties config).lookup property.1 = some property.2 := by
  constructor
  · intro key value h
    rw [lookup_clientProperties, h]
    rfl
  · intro property hproperty hkey
    rw [lookup_clientProperties, AList.lookup_eq_none.mpr hkey]
    exact ownProperties_spec config property hproperty

/-- A source that turns the automatic commits back on. -/
def autoCommitting : KafkaSourceConfig :=
  { KafkaSourceConfig.defaults "localhost:9092" "router" ["orders"] with
    clientConfig := (∅ : ConfigMap String).insert "enable.auto.commit" "true" }

def autoCommittingConfig : Config :=
  { oneSink (.kafka (.defaults ["in"] "localhost:9092" "output")) with
    sources := (∅ : ConfigMap SourceConfig).insert "in" (.kafka autoCommitting) }

theorem autoCommitting_not_faithful : autoCommittingConfig.validate = .ok () ∧
    ⟨"in", .kafka autoCommitting⟩ ∈ autoCommittingConfig.sources.entries ∧
    ¬ Faithful autoCommitting := by
  refine ⟨by decide, List.mem_cons_self, fun h => ?_⟩
  have hmanual := h.manual ("enable.auto.commit", "false") List.mem_cons_self
  have htrue : (clientProperties autoCommitting).lookup "enable.auto.commit" = some "true" := rfl
  rw [htrue] at hmanual
  exact absurd hmanual (by decide)

theorem clientProperties_spec_autoCommitting :
    (clientProperties autoCommitting).lookup "enable.auto.commit" = some "true" ∧
      (clientProperties autoCommitting).lookup "enable.auto.offset.store" = some "false" := by
  constructor
  · exact (clientProperties_spec autoCommitting).1 "enable.auto.commit" "true" rfl
  · exact (clientProperties_spec autoCommitting).2 ("enable.auto.offset.store", "false")
      (by decide) (by decide)

end Rustper.Source
