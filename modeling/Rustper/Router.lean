import Rustper.FanoutHistory
import Rustper.SinkHistory
import Rustper.SourceHistory

/-!
One process of the router, seen from a source: its loop, the fan-out tasks it has
spawned and the sinks it is wired to. A step is a step of one of these parts, or one
that two of them take together: an envelope goes into a channel, and a settlement
reaches the branch it acknowledges. Other sources feed the same sinks.
-/
namespace Rustper.Router

open TransitionSystem

structure Wiring (n : ℕ) where
  source : Source.KafkaSource
  runtimes : Fin n → Sink.Runtime

/-- `fanouts` holds the future of every batch the source has dispatched, by sequence. -/
structure State (n : ℕ) where
  source : Source.State
  fanouts : List (Fanout.State n)
  sinks : Fin n → Sink.State
deriving DecidableEq

inductive Action (n : ℕ)
  | source (action : Source.Action)
  | join (sequence : ℕ) (commit : Source.BatchCompletion → Bool)
  | fanout (sequence : ℕ) (action : Fanout.Action n)
  | enqueue (sequence : ℕ) (i : Fin n)
  | refuse (sequence : ℕ) (i : Fin n)
  | settle (i : Fin n) (settled : Sink.Settled)
  | sink (i : Fin n) (action : Sink.Action)
  | foreign (i : Fin n) (envelope : Sink.SinkEnvelope)

variable {n : ℕ}

def State.start (n now : ℕ) : State n where
  source := Source.State.start now
  fanouts := []
  sinks := fun _ => Sink.State.start now

/-- What a task of the join set has returned, if its future is over. -/
def taskResult (f : Fanout.State n) : Option Source.TaskResult :=
  match f.phase with
  | .returned (.ok ()) => some .ok
  | .returned (.error e) => some (.error e)
  | _ => none

/-- The source has run on; every batch that `dispatch!` has handed over meanwhile is
sent by a task of its own. -/
def spawn (s : State n) (source : Source.State) : State n :=
  { s with
    source := source
    fanouts := s.fanouts ++
      (source.dispatched.drop s.source.dispatched.length).map
        (fun d => Fanout.State.start n d.batch) }

/-- The source loop alone; what it joins is the business of `join`. -/
def sourceStep (wiring : Wiring n) (s : State n) : Source.Action → Option (State n)
  | .join _ _ _ => none
  | action => (Source.step wiring.source s.source action).map (spawn s)

def join (wiring : Wiring n) (s : State n) (sequence : ℕ)
    (commit : Source.BatchCompletion → Bool) : Option (State n) := do
  let f ← s.fanouts[sequence]?
  let result ← taskResult f
  let source ← Source.step wiring.source s.source (.join sequence result commit)
  some (spawn s source)

def updateFanout (s : State n) (sequence : ℕ) (action : Fanout.Action n) : Option (State n) := do
  let f ← s.fanouts[sequence]?
  let f' ← Fanout.step f action
  some { s with fanouts := s.fanouts.set sequence f' }

/-- What a send does by itself. Its task is aborted once the source has returned, and
an envelope that has been answered is dropped by the call that answered it. -/
def ownAction (s : State n) (f : Fanout.State n) : Fanout.Action n → Bool
  | .abort => s.source.outcome.isSome
  | .drop i => decide ((f.branches i).stage = .answered)
  | .enqueue _ | .refuse _ | .delivered _ | .failed _ => false
  | _ => true

def fanoutStep (s : State n) (sequence : ℕ) (action : Fanout.Action n) : Option (State n) := do
  let f ← s.fanouts[sequence]?
  if ownAction s f action = true then updateFanout s sequence action else none

def updateSink (wiring : Wiring n) (s : State n) (i : Fin n) (action : Sink.Action) :
    Option (State n) :=
  (Sink.step (wiring.runtimes i) (s.sinks i) action).map
    (fun sink => { s with sinks := Function.update s.sinks i sink })

def envelopeOf (wiring : Wiring n) (sequence : ℕ) (f : Fanout.State n) : Sink.SinkEnvelope :=
  ⟨f.batch, ⟨wiring.source.id, sequence⟩⟩

/-- `destination.send(envelope)` finds room in the channel. -/
def enqueue (wiring : Wiring n) (s : State n) (sequence : ℕ) (i : Fin n) : Option (State n) := do
  let f ← s.fanouts[sequence]?
  let s' ← updateFanout s sequence (.enqueue i)
  updateSink wiring s' i (.arrive (envelopeOf wiring sequence f))

/-- `destination.send(envelope)` fails because the sink has returned. -/
def refuse (s : State n) (sequence : ℕ) (i : Fin n) : Option (State n) :=
  if (s.sinks i).returned = true then updateFanout s sequence (.refuse i) else none

def settlementAction (i : Fin n) : Sink.Settlement → Fanout.Action n
  | .delivered => .delivered i
  | .failed => .failed i
  | .dropped => .drop i

/-- An envelope that a sink has settled acknowledges its branch. -/
def settle (wiring : Wiring n) (s : State n) (i : Fin n) (settled : Sink.Settled) :
    Option (State n) :=
  if settled ∈ (s.sinks i).settled ∧ settled.envelope.ack.source = wiring.source.id then
    updateFanout s settled.envelope.ack.sequence (settlementAction i settled.settlement)
  else none

/-- A sink alone; the source's own envelopes only arrive through `enqueue`. -/
def sinkStep (wiring : Wiring n) (s : State n) (i : Fin n) : Sink.Action → Option (State n)
  | .arrive _ => none
  | action => updateSink wiring s i action

/-- Another source puts an envelope into the channel; identifiers of sources are the
keys of one map, and an event carries that of its source. -/
def foreign (wiring : Wiring n) (s : State n) (i : Fin n) (envelope : Sink.SinkEnvelope) :
    Option (State n) :=
  if envelope.ack.source ≠ wiring.source.id ∧
      ∀ e ∈ envelope.batch.events, e.source.componentId = envelope.ack.source then
    updateSink wiring s i (.arrive envelope)
  else none

def step (wiring : Wiring n) (s : State n) : Action n → Option (State n)
  | .source action => sourceStep wiring s action
  | .join sequence commit => join wiring s sequence commit
  | .fanout sequence action => fanoutStep s sequence action
  | .enqueue sequence i => enqueue wiring s sequence i
  | .refuse sequence i => refuse s sequence i
  | .settle i settled => settle wiring s i settled
  | .sink i action => sinkStep wiring s i action
  | .foreign i envelope => foreign wiring s i envelope

def system (wiring : Wiring n) (now : ℕ) : System (State n) (Action n) :=
  ⟨State.start n now, step wiring⟩

end Rustper.Router
