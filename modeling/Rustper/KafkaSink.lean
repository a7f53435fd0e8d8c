import Rustper.Sink
import Rustper.Library.Latch
import Rustper.Library.MachineInt

/-!
One call of `KafkaSink::write_batches` against a producer that queues records and
reports on them later. The enqueue loop and the delivery callbacks interleave freely;
a callback takes two steps, one for the error it records and one for the unit it takes
off the counter. Times are milliseconds.
-/
namespace Rustper.Kafka

open TransitionSystem MachineInt Countdown
open Sink (WriteOutcome)

inductive RDKafkaErrorCode
  | queueFull
  | messageTimedOut
  | other (code : ℤ)
deriving DecidableEq, Repr

inductive KafkaError
  | messageProduction (code : RDKafkaErrorCode)
  | other (message : String)
deriving DecidableEq, Repr

inductive WriteError
  | queueStayedFull (timeout : ℕ)
  | enqueue (error : KafkaError)
  | trackerDropped
  | delivery (error : KafkaError)
deriving DecidableEq, Repr

/-- The outermost message of the error, given how a duration is printed. -/
def WriteError.message (debug : ℕ → String) : WriteError → String
  | .queueStayedFull timeout => "librdkafka queue stayed full for " ++ debug timeout ++
      "; raise queue_buffering_max_messages/kbytes or lower batch_max_events"
  | .enqueue _ => "cannot enqueue Kafka record"
  | .trackerDropped => "Kafka delivery tracker dropped"
  | .delivery _ => "Kafka delivery failed"

/-- Milliseconds between two offers of a record to a full queue. -/
def queueFullBackoff : ℕ := 2

/-- What a write uses of its sink. -/
structure KafkaSink where
  topic : String
  enqueueTimeout : ℕ
deriving DecidableEq, Repr

def KafkaSink.new (config : KafkaSinkConfig) : KafkaSink :=
  ⟨config.topic, config.deliveryTimeoutMs⟩

/-- A record as the producer takes it. -/
structure BaseRecord where
  topic : String
  payload : Option Bytes
  key : Option Bytes
  timestamp : Option ℤ
deriving DecidableEq, Repr

/-- The payload is always set; key and timestamp only where the event has them. -/
def toRecord (sink : KafkaSink) (event : Event) : BaseRecord :=
  ⟨sink.topic, some event.payload, event.key, event.timestampMs⟩

def events (batches : List EventBatch) : List Event := batches.flatMap EventBatch.events

structure BatchTracker where
  remaining : ℕ
  failed : Bool
  error : Option KafkaError
  notify : Bool
deriving DecidableEq, Repr

def BatchTracker.new (records : ℕ) : BatchTracker := ⟨records, false, none, true⟩

/-- The first half of `settle`: only the first error is kept. -/
def BatchTracker.note (t : BatchTracker) : Option KafkaError → BatchTracker
  | some error => if t.failed = true then t else { t with failed := true, error := some error }
  | none => t

/-- How far the delivery report of an accepted record has come. -/
inductive Report
  | outstanding
  | noted
  | settled
deriving DecidableEq, Repr

inductive Phase
  | enqueuing
  | sleeping (wakeAt : ℕ)
  | abandoning
  | awaiting
  | returned (result : Except WriteError WriteOutcome)
deriving DecidableEq

/-- The locals of the write and its tracker, then the history: values sent through the
channel of the tracker, records the producer accepted, their reports, and the results
of these in the order in which their callbacks started. -/
structure State where
  now : ℕ
  deadline : ℕ
  enqueued : ℕ
  enqueueError : Option WriteError
  phase : Phase
  tracker : BatchTracker
  notifications : ℕ
  accepted : List BaseRecord
  reports : List Report
  results : List (Option KafkaError)
deriving DecidableEq

inductive Action
  | elapse (duration : ℕ)
  | send (result : Except KafkaError Unit)
  | wake
  | abandon
  | report (k : ℕ) (result : Option KafkaError)
  | settle (k : ℕ)
  | done
  | doneClosed

/-- Without events the write returns before it creates a tracker. -/
def State.start (sink : KafkaSink) (batches : List EventBatch) (now : ℕ) : State where
  now := now
  deadline := now + sink.enqueueTimeout
  enqueued := 0
  enqueueError := none
  phase := if totalEvents batches = 0 then .returned (.ok ⟨0, 0⟩) else .enqueuing
  tracker := BatchTracker.new (totalEvents batches)
  notifications := 0
  accepted := []
  reports := []
  results := []

/-- The second half of `settle`. -/
def State.count (s : State) (count : ℕ) : State :=
  let remaining := wrappingSub s.tracker.remaining count
  if s.tracker.remaining = count ∧ s.tracker.notify = true then
    { s with
      tracker := { s.tracker with remaining := remaining, notify := false }
      notifications := s.notifications + 1 }
  else { s with tracker := { s.tracker with remaining := remaining } }

/-- One offer of the next event to the producer. -/
def send (sink : KafkaSink) (batches : List EventBatch) (s : State)
    (result : Except KafkaError Unit) : Option State :=
  match s.phase, (events batches)[s.enqueued]? with
  | .enqueuing, some event =>
    match result with
    | .ok () =>
      some { s with
        enqueued := s.enqueued + 1
        phase := if s.enqueued + 1 = (events batches).length then .awaiting else .enqueuing
        accepted := s.accepted ++ [toRecord sink event]
        reports := s.reports ++ [.outstanding] }
    | .error (.messageProduction .queueFull) =>
      if s.deadline ≤ s.now then
        some { s with
          enqueueError := some (.queueStayedFull sink.enqueueTimeout), phase := .abandoning }
      else some { s with phase := .sleeping (s.now + queueFullBackoff) }
    | .error error =>
      some { s with enqueueError := some (.enqueue error), phase := .abandoning }
  | _, _ => none

def wake (s : State) : Option State :=
  match s.phase with
  | .sleeping wakeAt => if wakeAt ≤ s.now then some { s with phase := .enqueuing } else none
  | _ => none

/-- The records that were never accepted are settled at once. -/
def abandon (batches : List EventBatch) (s : State) : Option State :=
  match s.phase with
  | .abandoning =>
    let abandoned := totalEvents batches - s.enqueued
    some { (if abandoned = 0 then s else s.count abandoned) with phase := .awaiting }
  | _ => none

/-- The delivery callback of an accepted record starts. -/
def report (s : State) (k : ℕ) (result : Option KafkaError) : Option State :=
  match s.reports[k]? with
  | some .outstanding =>
    some { s with
      tracker := s.tracker.note result
      reports := s.reports.set k .noted
      results := s.results ++ [result] }
  | _ => none

/-- It ends. -/
def settle (s : State) (k : ℕ) : Option State :=
  match s.reports[k]? with
  | some .noted => some (State.count { s with reports := s.reports.set k .settled } 1)
  | _ => none

/-- What `write_batches` returns after `done.await`. -/
def outcome (batches : List EventBatch) (s : State) : Except WriteError WriteOutcome :=
  match s.enqueueError with
  | some error => .error error
  | none =>
    match s.tracker.error with
    | some error => .error (.delivery error)
    | none => .ok ⟨totalEvents batches, 0⟩

def done (batches : List EventBatch) (s : State) : Option State :=
  if s.phase = .awaiting ∧ 0 < s.notifications then
    some { s with phase := .returned (outcome batches s) }
  else none

/-- `done.await` fails when the sender of the channel is gone without having sent. -/
def doneClosed (s : State) : Option State :=
  if s.phase = .awaiting ∧ s.notifications = 0 ∧ s.tracker.notify = false then
    some { s with phase := .returned (.error .trackerDropped) }
  else none

def step (sink : KafkaSink) (batches : List EventBatch) (s : State) : Action → Option State
  | .elapse duration => some { s with now := s.now + duration }
  | .send result => send sink batches s result
  | .wake => wake s
  | .abandon => abandon batches s
  | .report k result => report s k result
  | .settle k => settle s k
  | .done => done batches s
  | .doneClosed => doneClosed s

def system (sink : KafkaSink) (batches : List EventBatch) (now : ℕ) : System State Action :=
  ⟨State.start sink batches now, step sink batches⟩

end Rustper.Kafka
