import Rustper.Config
import Rustper.Event
import Rustper.Library.TransitionSystem

/-!
The sink runtime: `sink::run`, the write tasks it spawns and `write_with_retry`
inside them. A step is what one of these tasks does between two awaits, or what the
channel, the clock or the destination does. As in the source loop the arms of a
`select!` only have to meet their own guards. Times are milliseconds.
-/
namespace Rustper.Sink

open TransitionSystem

structure WriteOutcome where
  written : ℕ
  dropped : ℕ
deriving DecidableEq, Repr

/-- Which branch acknowledgement an envelope carries: that of the batch a source
dispatched under this sequence. -/
structure BranchAck where
  source : String
  sequence : ℕ
deriving DecidableEq, Repr

structure SinkEnvelope where
  batch : EventBatch
  ack : BranchAck
deriving DecidableEq

structure SinkMetrics where
  eventsOut : ℕ
  eventsDropped : ℕ
  batchesWritten : ℕ
  writeErrors : ℕ
  retries : ℕ
  queueDepth : ℕ
deriving DecidableEq, Repr

inductive WriteError
  | write (message : String)
  | panicked
deriving DecidableEq, Repr

/-- Where the future of a write task stands. `backoff` is the local of the retry
loop: the next pause to make. -/
inductive WriteStage
  | spawned
  | writing (attempt backoff : ℕ)
  | sleeping (attempt backoff wakeAt : ℕ)
  | done (result : Except WriteError Unit)
deriving DecidableEq

/-- A task of the join set; `id` numbers the groups in the order of their dispatch. -/
structure Write where
  id : ℕ
  envelopes : List SinkEnvelope
  stage : WriteStage
deriving DecidableEq

def Write.live (w : Write) : Bool :=
  match w.stage with
  | .done _ => false
  | _ => true

def Write.failed (w : Write) : Bool :=
  match w.stage with
  | .done (.error _) => true
  | _ => false

def batches (envelopes : List SinkEnvelope) : List EventBatch :=
  envelopes.map SinkEnvelope.batch

/-- Where `run` stands: in one of its three loops over a group, in the final drain,
or past its end. -/
inductive Phase
  | accepting
  | coalescing (envelopes : List SinkEnvelope) (eventCount byteCount : ℕ)
  | freeing (envelopes : List SinkEnvelope)
  | draining (outcome : Except WriteError Unit)
  | returned (outcome : Except WriteError Unit)
deriving DecidableEq

def Phase.group : Phase → List SinkEnvelope
  | .coalescing envelopes _ _ => envelopes
  | .freeing envelopes => envelopes
  | _ => []

def Phase.isDraining : Phase → Bool
  | .draining _ => true
  | _ => false

def Phase.isReturned : Phase → Bool
  | .returned _ => true
  | _ => false

structure Receipt where
  envelope : SinkEnvelope
  time : ℕ
deriving DecidableEq

/-- A group whose assembly is over, when, and whether the end of the channel was
what ended it. -/
structure Group where
  receipts : List Receipt
  closedAt : ℕ
  ended : Bool
deriving DecidableEq

/-- A call of `write_batches`. -/
structure Call where
  write : ℕ
  number : ℕ
  batches : List EventBatch
deriving DecidableEq

/-- A call of `write_batches` that is over. -/
structure Attempt where
  write : ℕ
  number : ℕ
  result : Except WriteError WriteOutcome
deriving DecidableEq

namespace Attempt

def succeeded (a : Attempt) : Bool := a.result.toBool

/-- The call returned an error. -/
def failed (a : Attempt) : Bool :=
  match a.result with
  | .error (.write _) => true
  | _ => false

def panicked (a : Attempt) : Bool := decide (a.result = .error .panicked)

/-- The call returned an error and was the last one the settings allow. -/
def exhausts (settings : DeliverySettings) (a : Attempt) : Bool :=
  a.failed && decide (a.number = settings.retryMaxAttempts)

def retried (settings : DeliverySettings) (a : Attempt) : Bool :=
  a.failed && decide (a.number < settings.retryMaxAttempts)

end Attempt

inductive Settlement
  | delivered
  | failed
  | dropped
deriving DecidableEq, Repr

/-- How an envelope was settled, and by which write if it had been handed to one. -/
structure Settled where
  envelope : SinkEnvelope
  write : Option ℕ
  settlement : Settlement
deriving DecidableEq

def settlements (write : Option ℕ) (settlement : Settlement) (envelopes : List SinkEnvelope) :
    List Settled :=
  envelopes.map (fun e => ⟨e, write, settlement⟩)

/-- The channel, the locals of `run` and its tasks, then the history: envelopes put
into the channel, receipts of the group being assembled, groups assembled,
dispatched, calls and their results, settlements, and the writes that were still
running when `run` returned. -/
structure State where
  now : ℕ
  deadline : ℕ
  queue : List SinkEnvelope
  inputClosed : Bool
  phase : Phase
  writes : List Write
  orphans : List SinkEnvelope
  metrics : SinkMetrics
  arrived : List SinkEnvelope
  assembling : List Receipt
  groups : List Group
  dispatched : List (List SinkEnvelope)
  calls : List Call
  attempts : List Attempt
  settled : List Settled
  aborted : List ℕ
deriving DecidableEq

/-- What `run` is given: the channel, what the sink wants coalesced and how it is
to deliver. -/
structure Runtime where
  capacity : ℕ
  batching : BatchSettings
  settings : DeliverySettings

inductive Action
  | elapse (duration : ℕ)
  | arrive (envelope : SinkEnvelope)
  | closeInput
  | shutdown
  | recv
  | inputEnd
  | linger
  | reap (k : ℕ)
  | dispatch
  | finishDrain
  | begin (k : ℕ)
  | attempted (k : ℕ) (result : Except String WriteOutcome)
  | panicked (k : ℕ)
  | wake (k : ℕ)
  | dropOrphan
  | dropQueued
  | dropWrite (k : ℕ)
deriving DecidableEq

def State.start (now : ℕ) : State where
  now := now
  deadline := now
  queue := []
  inputClosed := false
  phase := .accepting
  writes := []
  orphans := []
  metrics := ⟨0, 0, 0, 0, 0, 0⟩
  arrived := []
  assembling := []
  groups := []
  dispatched := []
  calls := []
  attempts := []
  settled := []
  aborted := []

namespace State

def returned (s : State) : Bool := s.phase.isReturned

def settle (s : State) (write : Option ℕ) (envelopes : List SinkEnvelope)
    (settlement : Settlement) : State :=
  { s with settled := s.settled ++ settlements write settlement envelopes }

/-- A call of `write_batches` is over and the counters are brought up to date. -/
def record (s : State) (metrics : SinkMetrics) (attempt : Attempt) : State :=
  { s with metrics := metrics, attempts := s.attempts ++ [attempt] }

/-- The coalescing loop is left and the group waits for a free slot. -/
def close (s : State) (envelopes : List SinkEnvelope) (ended : Bool) : State :=
  { s with
    phase := .freeing envelopes
    groups := s.groups ++ [⟨s.assembling, s.now, ended⟩]
    assembling := [] }

/-- The condition of the coalescing loop. -/
def coalesce (s : State) (batching : BatchSettings) (envelopes : List SinkEnvelope)
    (eventCount byteCount : ℕ) : State :=
  if eventCount < batching.maxEvents ∧ byteCount < batching.maxBytes then
    { s with phase := .coalescing envelopes eventCount byteCount }
  else s.close envelopes false

/-- `result?` on a failed write: `run` returns, its group and channel are dropped
and the writes still in the join set are aborted. -/
def exit (s : State) (e : WriteError) : State :=
  { s with
    phase := .returned (.error e)
    orphans := s.phase.group
    aborted := s.aborted ++ (s.writes.filter Write.live).map Write.id }

end State

/-- A sender finds room in the channel. -/
def arrive (runtime : Runtime) (s : State) (envelope : SinkEnvelope) : Option State :=
  if s.returned = false ∧ s.inputClosed = false ∧ s.queue.length < runtime.capacity then
    some { s with queue := s.queue ++ [envelope], arrived := s.arrived ++ [envelope] }
  else none

/-- The `recv` arms; the first envelope of a group arms the timer. -/
def recv (runtime : Runtime) (s : State) : Option State :=
  match s.phase, s.queue with
  | .accepting, e :: rest =>
    let first : State :=
      { s with
        queue := rest
        deadline := s.now + runtime.batching.linger
        assembling := [⟨e, s.now⟩] }
    some (first.coalesce runtime.batching [e] e.batch.len e.batch.bytes)
  | .coalescing envelopes eventCount byteCount, e :: rest =>
    let next : State := { s with queue := rest, assembling := s.assembling ++ [⟨e, s.now⟩] }
    some (next.coalesce runtime.batching (envelopes ++ [e]) (eventCount + e.batch.len)
      (byteCount + e.batch.bytes))
  | _, _ => none

/-- `recv` yields nothing once the channel is closed and empty. -/
def inputEnd (s : State) : Option State :=
  if s.queue = [] ∧ s.inputClosed = true then
    match s.phase with
    | .accepting => some { s with phase := .draining (.ok ()) }
    | .coalescing envelopes _ _ => some (s.close envelopes true)
    | _ => none
  else none

def shutdown (s : State) : Option State :=
  match s.phase with
  | .accepting => some { s with phase := .draining (.ok ()) }
  | _ => none

def linger (s : State) : Option State :=
  match s.phase with
  | .coalescing envelopes _ _ =>
    if s.deadline ≤ s.now then some (s.close envelopes false) else none
  | _ => none

/-- Where `join_next` is awaited: anywhere while a group is built, when there is no
free slot before its dispatch, and in the drain. -/
def reaps (runtime : Runtime) (s : State) : Bool :=
  match s.phase with
  | .freeing _ => decide (runtime.settings.maxConcurrentWrites ≤ s.writes.length)
  | .returned _ => false
  | _ => true

/-- What becomes of a result that was joined: the drain keeps the first failure,
everywhere else a failure ends `run`. -/
def propagate (s : State) (result : Except WriteError Unit) : State :=
  match s.phase, result with
  | .draining (.ok ()), result => { s with phase := .draining result }
  | .draining (.error _), _ => s
  | _, .ok () => s
  | _, .error e => s.exit e

def reap (runtime : Runtime) (s : State) (k : ℕ) : Option State :=
  match s.writes[k]? with
  | some ⟨_, _, .done result⟩ =>
    if reaps runtime s = true then
      some (propagate { s with writes := s.writes.eraseIdx k } result)
    else none
  | _ => none

def dispatch (runtime : Runtime) (s : State) : Option State :=
  match s.phase with
  | .freeing envelopes =>
    if s.writes.length < runtime.settings.maxConcurrentWrites then
      some { s with
        phase := .accepting
        writes := s.writes ++ [⟨s.dispatched.length, envelopes, .spawned⟩]
        metrics := { s.metrics with queueDepth := s.queue.length }
        dispatched := s.dispatched ++ [envelopes] }
    else none
  | _ => none

def finishDrain (s : State) : Option State :=
  match s.phase with
  | .draining outcome =>
    if s.writes = [] then some { s with phase := .returned outcome } else none
  | _ => none

/-- The retry loop calls `write_batches` for the `number`-th time. -/
def call (s : State) (k : ℕ) (w : Write) (number backoff : ℕ) : State :=
  { s with
    writes := s.writes.set k { w with stage := .writing number backoff }
    calls := s.calls ++ [⟨w.id, number, batches w.envelopes⟩] }

def begin (runtime : Runtime) (s : State) (k : ℕ) : Option State :=
  match s.writes[k]? with
  | some ⟨id, envelopes, .spawned⟩ =>
    some (call s k ⟨id, envelopes, .spawned⟩ 1 runtime.settings.retryInitialBackoff)
  | _ => none

/-- A write task ends and settles the envelopes it holds. -/
def finish (s : State) (k : ℕ) (w : Write) (result : Except WriteError Unit)
    (settlement : Settlement) : State :=
  let ended : State := { s with writes := s.writes.set k { w with stage := .done result } }
  ended.settle (some w.id) w.envelopes settlement

/-- `write_batches` returns: the `match` of the retry loop and, where that ends it,
the `match` around it. -/
def attempted (runtime : Runtime) (s : State) (k : ℕ) (result : Except String WriteOutcome) :
    Option State :=
  match s.writes[k]? with
  | some ⟨id, envelopes, .writing attempt backoff⟩ =>
    let w : Write := ⟨id, envelopes, .writing attempt backoff⟩
    match result with
    | .ok outcome =>
      let counted :=
        { s.metrics with
          eventsOut := s.metrics.eventsOut + outcome.written
          eventsDropped := s.metrics.eventsDropped + outcome.dropped
          batchesWritten := s.metrics.batchesWritten + 1 }
      some (finish (s.record counted ⟨id, attempt, .ok outcome⟩) k w (.ok ()) .delivered)
    | .error e =>
      if attempt < runtime.settings.retryMaxAttempts then
        let counted := { s.metrics with retries := s.metrics.retries + 1 }
        some { s.record counted ⟨id, attempt, .error (.write e)⟩ with
          writes := s.writes.set k
            { w with stage := .sleeping attempt backoff (s.now + backoff) } }
      else
        let counted := { s.metrics with writeErrors := s.metrics.writeErrors + 1 }
        some (finish (s.record counted ⟨id, attempt, .error (.write e)⟩) k w
          (.error (.write e)) .failed)
  | _ => none

/-- A panic inside `write_batches` unwinds the task and drops its envelopes. -/
def panicked (s : State) (k : ℕ) : Option State :=
  match s.writes[k]? with
  | some ⟨id, envelopes, .writing attempt backoff⟩ =>
    some (finish (s.record s.metrics ⟨id, attempt, .error .panicked⟩) k
      ⟨id, envelopes, .writing attempt backoff⟩ (.error .panicked) .dropped)
  | _ => none

/-- The pause is over: the backoff doubles up to its limit and the loop goes on. -/
def wake (runtime : Runtime) (s : State) (k : ℕ) : Option State :=
  match s.writes[k]? with
  | some ⟨id, envelopes, .sleeping attempt backoff wakeAt⟩ =>
    if wakeAt ≤ s.now then
      some (call s k ⟨id, envelopes, .sleeping attempt backoff wakeAt⟩ (attempt + 1)
        (min (backoff * 2) runtime.settings.retryMaxBackoff))
    else none
  | _ => none

/-- The group that `run` was assembling is dropped with its locals. -/
def dropOrphan (s : State) : Option State :=
  match s.returned, s.orphans with
  | true, e :: rest => some (State.settle { s with orphans := rest } none [e] .dropped)
  | _, _ => none

/-- The receiver is dropped with what its channel still holds. -/
def dropQueued (s : State) : Option State :=
  match s.returned, s.queue with
  | true, e :: rest => some (State.settle { s with queue := rest } none [e] .dropped)
  | _, _ => none

/-- An aborted write is dropped, if the poll it may be in does not finish it first. -/
def dropWrite (s : State) (k : ℕ) : Option State :=
  match s.returned, s.writes[k]? with
  | true, some w =>
    if w.live = true then
      some (State.settle { s with writes := s.writes.eraseIdx k } (some w.id) w.envelopes
        .dropped)
    else none
  | _, _ => none

def step (runtime : Runtime) (s : State) : Action → Option State
  | .elapse duration => some { s with now := s.now + duration }
  | .arrive envelope => arrive runtime s envelope
  | .closeInput => some { s with inputClosed := true }
  | .shutdown => shutdown s
  | .recv => recv runtime s
  | .inputEnd => inputEnd s
  | .linger => linger s
  | .reap k => reap runtime s k
  | .dispatch => dispatch runtime s
  | .finishDrain => finishDrain s
  | .begin k => begin runtime s k
  | .attempted k result => attempted runtime s k result
  | .panicked k => panicked s k
  | .wake k => wake runtime s k
  | .dropOrphan => dropOrphan s
  | .dropQueued => dropQueued s
  | .dropWrite k => dropWrite s k

def system (runtime : Runtime) (now : ℕ) : System State Action :=
  ⟨State.start now, step runtime⟩

end Rustper.Sink
