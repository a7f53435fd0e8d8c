import Rustper.Commit
import Rustper.Config

/-!
The loop of `KafkaSource::run`. A step is the body of one arm of its `select!`, which
runs without awaiting; what the consumer, the fan-out tasks and the clock do between
two of them is the choice of the next action. The arms are tried in a fixed order,
but a higher one may become ready right after it was polled, so an action only has
to meet the guard of its own arm. Times are milliseconds.
-/
namespace Rustper.Source

open TransitionSystem MachineInt

structure KafkaSource where
  id : String
  config : KafkaSourceConfig
  client : OffsetList

structure SourceMetrics where
  eventsIn : ℕ
  bytesIn : ℕ
  batchesIn : ℕ
  commits : ℕ
  inFlightBytes : ℕ
  inFlightBatches : ℕ
deriving DecidableEq, Repr

/-- A spawned fan-out task with the values its future has captured. -/
structure Task where
  sequence : ℕ
  batch : EventBatch
  offsets : TopicPartitionList
  events : ℕ
  bytes : ℕ
deriving DecidableEq

def Task.completion (t : Task) : BatchCompletion := ⟨t.sequence, t.offsets, t.events, t.bytes⟩

/-- A record with the time at which `recv` yielded it. -/
structure Receipt where
  record : Record
  time : ℕ
deriving DecidableEq, Repr

/-- A batch handed to the fan-out, when, and the receipts of its events. -/
structure Dispatch where
  batch : EventBatch
  receipts : List Receipt
  time : ℕ
deriving DecidableEq

/-- The locals of `run`, then its history: every receipt, the receipts behind
`pending`, every dispatched batch in sequence order and every joined completion. -/
structure State where
  now : ℕ
  deadline : ℕ
  pending : List Event
  inFlight : List Task
  sequence : ℕ
  inFlightBytes : ℕ
  cursor : Cursor
  processed : ℕ
  metrics : SourceMetrics
  outcome : Option (Except SourceError Unit)
  received : List Receipt
  assembling : List Receipt
  dispatched : List Dispatch
  joined : List BatchCompletion
deriving DecidableEq

inductive TaskResult
  | ok
  | error (e : Fanout.SendError)
  | panicked
deriving DecidableEq, Repr

inductive Action
  | elapse (duration : ℕ)
  | shutdown
  | join (sequence : ℕ) (result : TaskResult) (commit : BatchCompletion → Bool)
  | lingerElapsed
  | recv (message : Record)
  | recvFailed

/-- The timer starts out elapsed. -/
def State.start (now : ℕ) : State where
  now := now
  deadline := now
  pending := []
  inFlight := []
  sequence := 0
  inFlightBytes := 0
  cursor := Cursor.start
  processed := 0
  metrics := ⟨0, 0, 0, 0, 0, 0⟩
  outcome := none
  received := []
  assembling := []
  dispatched := []
  joined := []

def admitsBatch (config : KafkaSourceConfig) (s : State) : Bool :=
  decide (s.inFlight.length < config.maxInFlightBatches) &&
    decide (s.inFlightBytes < config.maxInFlightBytes)

/-- The `dispatch!` macro; a failure to record the offsets returns from `run`. -/
def dispatch (source : KafkaSource) (s : State) : State :=
  match offsetsFor source.client s.pending with
  | .error e => { s with outcome := some (.error e) }
  | .ok offsets =>
    let batch := EventBatch.new s.pending
    let inFlightBytes := saturatingAdd s.inFlightBytes batch.bytes
    { s with
      pending := []
      inFlightBytes := inFlightBytes
      metrics :=
        { s.metrics with
          batchesIn := s.metrics.batchesIn + 1
          inFlightBytes := inFlightBytes
          inFlightBatches := s.inFlight.length + 1 }
      sequence := s.sequence + 1
      inFlight := s.inFlight ++ [⟨s.sequence, batch, offsets, batch.len, batch.bytes⟩]
      assembling := []
      dispatched := s.dispatched ++ [⟨batch, s.assembling, s.now⟩] }

/-- A successful task: release its bytes, then commit the contiguous prefix. -/
def complete (s : State) (inFlight : List Task) (task : Task)
    (commit : BatchCompletion → Bool) : State :=
  let inFlightBytes := s.inFlightBytes - task.bytes
  let drained := commitContiguous commit s.cursor task.completion
  let commits := s.metrics.commits + (drained.1.committed.length - s.cursor.committed.length)
  let metrics :=
    { s.metrics with
      inFlightBytes := inFlightBytes, inFlightBatches := inFlight.length, commits := commits }
  match drained.2 with
  | .error e =>
    { s with
      inFlight := inFlight, inFlightBytes := inFlightBytes, cursor := drained.1
      metrics := metrics, outcome := some (.error e) }
  | .ok totals =>
    { s with
      inFlight := inFlight, inFlightBytes := inFlightBytes, cursor := drained.1
      processed := s.processed + totals.events
      metrics :=
        { metrics with
          eventsIn := metrics.eventsIn + totals.events
          bytesIn := metrics.bytesIn + totals.bytes }
      joined := s.joined ++ [task.completion] }

/-- The `join_next` arm: any finished task may come first. -/
def join (s : State) (sequence : ℕ) (result : TaskResult) (commit : BatchCompletion → Bool) :
    Option State :=
  match s.inFlight.find? (fun t => t.sequence = sequence) with
  | none => none
  | some task =>
    let inFlight := s.inFlight.filter (fun t => t.sequence ≠ sequence)
    match result with
    | .panicked => some { s with inFlight := inFlight, outcome := some (.error .fanoutPanicked) }
    | .error e => some { s with inFlight := inFlight, outcome := some (.error (.fanout e)) }
    | .ok => some (complete s inFlight task commit)

/-- The deadline arm. -/
def lingerElapsed (source : KafkaSource) (s : State) : Option State :=
  if s.pending ≠ [] ∧ admitsBatch source.config s = true ∧ s.deadline ≤ s.now then
    some (dispatch source s)
  else none

/-- The state after a message has been pushed; the first one of a batch arms the timer. -/
def push (source : KafkaSource) (s : State) (message : Record) : State :=
  { s with
    deadline := if s.pending = [] then s.now + source.config.batchLingerMs else s.deadline
    pending := s.pending ++ [toEvent source.id message]
    received := s.received ++ [⟨message, s.now⟩]
    assembling := s.assembling ++ [⟨message, s.now⟩] }

/-- The `recv` arm. -/
def recv (source : KafkaSource) (s : State) (message : Record) : Option State :=
  if admitsBatch source.config s = true ∧ s.pending.length < source.config.batchSize then
    let pushed := push source s message
    some (if source.config.batchSize ≤ pushed.pending.length then dispatch source pushed
      else pushed)
  else none

def recvFailed (source : KafkaSource) (s : State) : Option State :=
  if admitsBatch source.config s = true ∧ s.pending.length < source.config.batchSize then
    some { s with outcome := some (.error .consume) }
  else none

/-- Nothing happens once `run` has returned. -/
def step (source : KafkaSource) (s : State) (action : Action) : Option State :=
  if s.outcome = none then
    match action with
    | .elapse duration => some { s with now := s.now + duration }
    | .shutdown => some { s with outcome := some (.ok ()) }
    | .join sequence result commit => join s sequence result commit
    | .lingerElapsed => lingerElapsed source s
    | .recv message => recv source s message
    | .recvFailed => recvFailed source s
  else none

def system (source : KafkaSource) (now : ℕ) : System State Action :=
  ⟨State.start now, step source⟩

end Rustper.Source
