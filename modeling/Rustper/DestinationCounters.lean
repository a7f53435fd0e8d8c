import Rustper.Destinations
import Rustper.Library.Potential
import Rustper.SinkHistory

/-!
The sink runtime in front of one of its destinations. A call then returns what the write it
makes returns, so the two counters of events are exact: they tell the events that were
written from those that were refused.
-/
namespace Rustper.Sink

open TransitionSystem Destination

variable {runtime : Runtime} {formats : Formats} {id : String} {config : SinkConfig}
  {s s' : State}

/-- The result of a call is that of some exchange of its destination on its batches. -/
def Answers (formats : Formats) (id : String) (config : SinkConfig) (s : State) : Action → Prop
  | .attempted k result => ∀ w ∈ s.writes[k]?, ∃ x taken,
      perform formats id config (batches w.envelopes) x = some (result, taken)
  | _ => True

theorem Answers.honours {k : ℕ} {outcome : WriteOutcome} {w : Write}
    (h : Answers formats id config s (.attempted k (.ok outcome))) (hw : s.writes[k]? = some w) :
    ∃ taken, Honours config (batches w.envelopes) outcome taken := by
  obtain ⟨x, taken, hperform⟩ := h w hw
  exact ⟨taken, perform_ok hperform⟩

theorem Answers.accounts {a : Action} (h : Answers formats id config s a) : Accounts s a := by
  unfold Accounts
  split
  · intro w hw
    obtain ⟨taken, hhonours⟩ := h.honours hw
    have hsum := items_add_refused config (batches w.envelopes)
    rw [hhonours.written, hhonours.dropped, hsum]
  · trivial

/-- The events of a list of envelopes that the destination takes. -/
def takenEvents (config : SinkConfig) (envelopes : List SinkEnvelope) : List Event :=
  (events envelopes).filter (fun e => !refuses config e)

def refusedEvents (config : SinkConfig) (envelopes : List SinkEnvelope) : List Event :=
  (events envelopes).filter (refuses config)

theorem events_eq (envelopes : List SinkEnvelope) :
    events envelopes = (batches envelopes).flatMap EventBatch.events := by
  rw [events, batches, List.flatMap_map]

@[simp] theorem takenEvents_append (config : SinkConfig) (l l' : List SinkEnvelope) :
    takenEvents config (l ++ l') = takenEvents config l ++ takenEvents config l' := by
  simp [takenEvents, events]

@[simp] theorem refusedEvents_append (config : SinkConfig) (l l' : List SinkEnvelope) :
    refusedEvents config (l ++ l') = refusedEvents config l ++ refusedEvents config l' := by
  simp [refusedEvents, events]

theorem honours_tally {envelopes : List SinkEnvelope} {outcome : WriteOutcome}
    {taken : List Item} (h : Honours config (batches envelopes) outcome taken) :
    outcome.written = (takenEvents config envelopes).length ∧
      outcome.dropped = (refusedEvents config envelopes).length := by
  have hsum := items_add_refused config (batches envelopes)
  have hlength : (events envelopes).length = totalEvents (batches envelopes) := by
    rw [events_eq, List.length_flatMap]
    rfl
  have hsplit := List.length_eq_length_filter_add (l := events envelopes) (refuses config)
  rw [hlength] at hsplit
  rw [h.written, h.dropped, takenEvents, refusedEvents, ← events_eq]
  rw [← events_eq] at hsum
  exact ⟨by omega, rfl⟩

/-- What the two counters of events say about the delivered envelopes. -/
structure EventTally (config : SinkConfig) (s : State) : Prop where
  written : s.metrics.eventsOut = (takenEvents config s.delivered).length
  dropped : s.metrics.eventsDropped = (refusedEvents config s.delivered).length

theorem delivered_settle (t : State) (write : Option ℕ) (g : List SinkEnvelope)
    (how : Settlement) :
    (t.settle write g how).delivered =
      t.delivered ++ if how = .delivered then g else [] := by
  rw [State.delivered, State.settle, List.filter_append, List.map_append, ← State.delivered]
  congr 1
  by_cases hhow : how = .delivered
  · rw [if_pos hhow, List.filter_eq_self.mpr, settlements_envelope]
    intro x hx
    rw [(mem_settlements _ _ _ hx).2, hhow]
    rfl
  · rw [if_neg hhow, List.filter_eq_nil_iff.mpr]
    · rfl
    · intro x hx
      rw [(mem_settlements _ _ _ hx).2]
      simpa using hhow

theorem EventTally.same (h : EventTally config s) (hout : s'.metrics.eventsOut = s.metrics.eventsOut)
    (hdropped : s'.metrics.eventsDropped = s.metrics.eventsDropped)
    (hdelivered : s'.delivered = s.delivered) : EventTally config s' := by
  refine ⟨?_, ?_⟩
  · rw [hout, hdelivered, h.written]
  · rw [hdropped, hdelivered, h.dropped]

theorem EventTally.shuffle {lost : List ℕ} (h : EventTally config s) (hsame : Shuffle lost s s') :
    EventTally config s' := by
  refine h.same ?_ ?_ ?_
  · rw [hsame.metrics]
  · rw [hsame.metrics]
  · rw [State.delivered, hsame.settled, State.delivered]

/-- What is dropped is not delivered. -/
theorem EventTally.drop {t : State} {write : Option ℕ} {g : List SinkEnvelope}
    (h : EventTally config s) (hmetrics : t.metrics = s.metrics) (hsettled : t.settled = s.settled) :
    EventTally config (t.settle write g .dropped) := by
  refine h.same ?_ ?_ ?_
  · exact congrArg SinkMetrics.eventsOut hmetrics
  · exact congrArg SinkMetrics.eventsDropped hmetrics
  · rw [delivered_settle, State.delivered, hsettled, State.delivered]
    exact List.append_nil _

theorem Move.eventTally {a : Action} (hmove : Move runtime s a s')
    (hanswers : Answers formats id config s a) (h : EventTally config s) : EventTally config s' := by
  cases hmove with
  | shuffle _ _ hsame => exact h.shuffle hsame
  | exit k _ w hsame => exact h.shuffle hsame
  | arrive e hrun => exact h.same rfl rfl rfl
  | dispatch envelopes hphase => exact h.same rfl rfl rfl
  | call _ pre post w number backoff hwrites hlive hnumber => exact h.same rfl rfl rfl
  | retry _ pre post w attempt backoff e hwrites hstage hretry => exact h.same rfl rfl rfl
  | finish k _ pre post w attempt backoff result ending hk hwrites hstage hlast hok =>
    cases result with
    | ok outcome =>
      rw [hok outcome rfl] at hanswers
      obtain ⟨taken, hhonours⟩ := hanswers.honours hk
      obtain ⟨hwritten, hdropped⟩ := honours_tally hhonours
      refine ⟨?_, ?_⟩
      · rw [delivered_settle, takenEvents_append, List.length_append]
        simp only [concluded, if_true, ← hwritten]
        exact congrArg (· + outcome.written) h.written
      · rw [delivered_settle, refusedEvents_append, List.length_append]
        simp only [concluded, if_true, ← hdropped]
        exact congrArg (· + outcome.dropped) h.dropped
    | error e =>
      cases e with
      | panicked => exact h.drop rfl rfl
      | write e =>
        refine h.same rfl rfl ?_
        rw [delivered_settle]
        exact List.append_nil _
  | dropRest _ e queue orphans hrun hrest => exact h.drop rfl rfl
  | dropWrite _ pre post w hrun hwrites hlive => exact h.drop rfl rfl

theorem reachable_eventTally {now : ℕ}
    (h : (system runtime now).ReachableBy (Answers formats id config) s) : EventTally config s := by
  have hboth : Inv runtime s ∧ EventTally config s := by
    have hstart : Inv runtime (State.start now) ∧ EventTally config (State.start now) :=
      ⟨start_inv runtime now, rfl, rfl⟩
    apply System.ReachableBy.invariant hstart _ h
    intro t a t' hi hanswers hs
    have hmove := step_move hi.1.ledger.orphans hi.1.fates.stages hs
    exact ⟨step_inv hi.1 hs, hmove.eventTally hanswers hi.2⟩
  exact hboth.2

theorem refuses_iff {event : Event} : refuses config event = true ↔
    ∃ c rejection, config = .clickhouse c ∧ c.schema = .json ∧
      Clickhouse.objectBody event.payload = .error rejection := by
  cases config with
  | kafka c => simp [refuses]
  | clickhouse c =>
    cases hbody : Clickhouse.objectBody event.payload with
    | ok body => simp [refuses, Clickhouse.rejection?, hbody]
    | error rejection => simp [refuses, Clickhouse.rejection?, hbody]

/-- The event counters of a sink in every state of every run of its own destination: out of
the events of the delivered envelopes, `events_dropped` counts those with a payload that a
ClickHouse sink in JSON mode cannot use as a row, and `events_out` all the others. So every
run is one of a sink that accounts for its events, and no other sink ever drops one. -/
theorem counters_by_destination {now : ℕ}
    (h : (system runtime now).ReachableBy (Answers formats id config) s) :
    (system runtime now).ReachableBy Accounts s ∧
    s.metrics.eventsOut = (takenEvents config s.delivered).length ∧
    s.metrics.eventsDropped = (refusedEvents config s.delivered).length ∧
    (∀ e, e ∈ refusedEvents config s.delivered ↔ e ∈ events s.delivered ∧
      ∃ c rejection, config = .clickhouse c ∧ c.schema = .json ∧
        Clickhouse.objectBody e.payload = .error rejection) := by
  have htally := reachable_eventTally h
  refine ⟨h.mono fun _ _ hanswers => hanswers.accounts, htally.written, htally.dropped, ?_⟩
  intro e
  rw [refusedEvents, List.mem_filter, refuses_iff]

/-- A table that is fed with JSON payloads. -/
def jsonTable : ClickhouseSinkConfig where
  inputs := ["in"]
  endpoint := "http://localhost:8123"
  database := "default"
  table := "events"
  user := ""
  password := ""
  bufferCapacity := 4
  batchMaxEvents := 2
  batchMaxBytes := 1024
  batchLingerMs := 5
  schema := .json
  metadataColumns := .default
  allowErrorsNum := 0
  allowErrorsRatio := .finite 0
  maxConcurrentWrites := 1
  retryMaxAttempts := 2
  retryInitialBackoffMs := 1
  retryMaxBackoffMs := 2

/-- An object, and a payload that is none. -/
def mixedEnvelope : SinkEnvelope where
  batch := EventBatch.new [⟨none, [0x7B, 0x7D], none, ⟨"in", "input", 0, 0⟩⟩,
    ⟨none, [0x78], none, ⟨"in", "input", 0, 1⟩⟩]
  ack := ⟨"in", 0⟩

/-- The client accepts whatever it is given. -/
def acceptingServer : Clickhouse.Server String where
  typed := ⟨fun _ _ => .ok (), fun _ _ => .ok (), fun _ => .ok ()⟩
  formatted := fun _ _ _ => .ok ()

def plainFormats : Formats := ⟨toString, fun name => name, fun _ => ""⟩

theorem perform_mixed : perform plainFormats "table" (.clickhouse jsonTable)
    [mixedEnvelope.batch] (.client acceptingServer) =
      some (.ok ⟨1, 1⟩, [.line [0x7B, 0x7D, 0x0A]]) := by
  decide

/-- The group is about to be written. -/
def mixedCalled : List Action := [.arrive mixedEnvelope, .recv, .dispatch, .begin 0]

theorem counters_by_destination_mixed : ∃ s : State, s.delivered = [mixedEnvelope] ∧
    s.metrics.eventsOut = 1 ∧
    s.metrics.eventsDropped = (refusedEvents (.clickhouse jsonTable) s.delivered).length := by
  have hrun : ((system sequential 0).run (State.start 0)
      (mixedCalled ++ [.attempted 0 (.ok ⟨1, 1⟩)])).map
        (fun s => (s.delivered, s.metrics.eventsOut)) = some ([mixedEnvelope], 1) := by decide
  have hcalled : ((system sequential 0).run (State.start 0) mixedCalled).map State.writes =
      some [⟨0, [mixedEnvelope], .writing 1 1⟩] := by decide
  obtain ⟨s, hs, hview⟩ := Option.map_eq_some_iff.mp hrun
  obtain ⟨hdelivered, hout⟩ := Prod.mk.inj hview
  obtain ⟨t, ht, hlast⟩ := System.run_prefix hs
  obtain ⟨u, hu, hstop⟩ := Option.bind_eq_some_iff.mp hlast
  obtain rfl := Option.some.inj hstop
  have hwrites : t.writes = [⟨0, [mixedEnvelope], .writing 1 1⟩] := by
    rw [ht] at hcalled
    exact Option.some.inj hcalled
  have hreach : (system sequential 0).ReachableBy
      (Answers plainFormats "table" (.clickhouse jsonTable)) t := by
    refine System.ReachableBy.start.run ?_ ht
    simp [mixedCalled, Answers]
  have hanswers : Answers plainFormats "table" (.clickhouse jsonTable) t
      (.attempted 0 (.ok ⟨1, 1⟩)) := by
    intro w hw
    rw [hwrites] at hw
    obtain rfl := Option.some.inj hw
    exact ⟨_, _, perform_mixed⟩
  obtain ⟨-, -, hdropped, -⟩ := counters_by_destination (hreach.step hanswers hu)
  exact ⟨u, hdelivered, hout, hdropped⟩

end Rustper.Sink
