import Rustper.Event
import Rustper.Library.Latch
import Rustper.Library.MachineInt
import Rustper.Library.TransitionSystem
import Mathlib.Data.Fintype.Card
import Mathlib.Data.Fintype.Pi

/-!
One call of `Fanout::send`: a batch, one envelope a destination, and the shared
acknowledgement state. A step is one atomic thing that a destination, the send
future or the runtime does: an envelope is queued or refused, its holder answers
or drops it, the joined sends resolve, are cancelled or are aborted, and the
future returns. Every interleaving of these steps is a run.
-/
namespace Rustper.Fanout

open TransitionSystem Countdown MachineInt

inductive SendError
  | sinkStopped
  | rejected
  | ackChannelClosed
deriving DecidableEq, Repr

def SendError.message : SendError → String
  | .sinkStopped => "sink task stopped"
  | .rejected => "one or more sinks rejected the batch"
  | .ackChannelClosed => "acknowledgement channel closed"

/-- Who owns the envelope of a branch. An answered envelope has been consumed by
`delivered` or `failed` and is about to be dropped. -/
inductive Stage
  | sending
  | held
  | answered
  | gone
deriving DecidableEq, Repr

/-- `completed` is the flag of `BranchAck`; the other fields are the history of
the branch: whether its send was refused, the batch its destination received,
what it answered and how often the branch was counted. -/
structure Branch where
  stage : Stage
  completed : Bool
  refused : Bool
  received : Option EventBatch
  answer : Option Bool
  counted : ℕ
deriving DecidableEq

def Branch.new : Branch := ⟨.sending, false, false, none, none, 0⟩

/-- `notify` says whether the sender of the acknowledgement channel is still there. -/
structure AckState where
  remaining : ℕ
  delivered : Bool
  notify : Bool
deriving DecidableEq

inductive Phase
  | sending
  | cancelling (aborted : Bool)
  | awaiting
  | returned (result : Except SendError Unit)
  | aborted
deriving DecidableEq

/-- `notifications` lists the values sent through the acknowledgement channel. -/
structure State (n : ℕ) where
  batch : EventBatch
  ack : AckState
  branches : Fin n → Branch
  notifications : List Bool
  phase : Phase
deriving DecidableEq

inductive Action (n : ℕ)
  | enqueue (i : Fin n)
  | refuse (i : Fin n)
  | delivered (i : Fin n)
  | failed (i : Fin n)
  | drop (i : Fin n)
  | joinSends
  | cancel
  | abort
  | dropSend (i : Fin n)
  | endCancel
  | acknowledged
  | ackClosed
deriving DecidableEq, Repr

variable {n : ℕ}

namespace State

/-- `send` up to its first await; without destinations it returns at once. -/
def start (n : ℕ) (batch : EventBatch) : State n where
  batch := batch
  ack := ⟨n, true, true⟩
  branches := fun _ => Branch.new
  notifications := []
  phase := if n = 0 then .returned (.ok ()) else .sending

def modify (s : State n) (i : Fin n) (f : Branch → Branch) : State n :=
  { s with branches := Function.update s.branches i (f (s.branches i)) }

/-- `BranchAck::complete`: only the first call on a branch counts. Nobody but the holder of
the envelope looks at the flag, so setting it and counting under the lock are one step. -/
def complete (s : State n) (i : Fin n) (delivered : Bool) : State n :=
  if (s.branches i).completed then s
  else
    let remaining := wrappingSub s.ack.remaining 1
    let delivered := s.ack.delivered && delivered
    let counted : State n :=
      s.modify i (fun b => { b with completed := true, counted := b.counted + 1 })
    if remaining = 0 ∧ s.ack.notify = true then
      { counted with
        ack := ⟨remaining, delivered, false⟩
        notifications := s.notifications ++ [delivered] }
    else { counted with ack := ⟨remaining, delivered, s.ack.notify⟩ }

end State

/-- The destination takes the envelope into its queue. -/
def enqueue (s : State n) (i : Fin n) : Option (State n) :=
  if s.phase = .sending ∧ (s.branches i).stage = .sending then
    some (s.modify i (fun b => { b with stage := .held, received := some s.batch }))
  else none

/-- The destination is closed: its send fails and drops the envelope. -/
def refuse (s : State n) (i : Fin n) : Option (State n) :=
  if s.phase = .sending ∧ (s.branches i).stage = .sending then
    some ((s.modify i (fun b => { b with stage := .gone, refused := true })).complete i false)
  else none

/-- `SinkEnvelope::delivered` and `SinkEnvelope::failed`. -/
def answer (s : State n) (i : Fin n) (delivered : Bool) : Option (State n) :=
  if (s.branches i).stage = .held then
    some ((s.modify i
      (fun b => { b with stage := .answered, answer := some delivered })).complete i delivered)
  else none

/-- The holder drops the envelope, answered or not. -/
def drop (s : State n) (i : Fin n) : Option (State n) :=
  if (s.branches i).stage = .held ∨ (s.branches i).stage = .answered then
    some ((s.modify i (fun b => { b with stage := .gone })).complete i false)
  else none

/-- `try_join_all` resolves once every send has succeeded. -/
def joinSends (s : State n) : Option (State n) :=
  if s.phase = .sending ∧ ∀ i, (s.branches i).stage ≠ .sending ∧ (s.branches i).refused = false
  then some { s with phase := .awaiting }
  else none

/-- `try_join_all` sees a failed send and gives up the others. -/
def cancel (s : State n) : Option (State n) :=
  if s.phase = .sending ∧ ∃ i, (s.branches i).refused = true then
    some { s with phase := .cancelling false }
  else none

/-- The task that runs `send` is aborted at one of its awaits. -/
def abort (s : State n) : Option (State n) :=
  match s.phase with
  | .sending => some { s with phase := .cancelling true }
  | .awaiting => some { s with phase := .aborted }
  | _ => none

/-- A send that is given up drops its envelope. -/
def dropSend (s : State n) (i : Fin n) : Option (State n) :=
  match s.phase with
  | .cancelling _ =>
    if (s.branches i).stage = .sending then
      some ((s.modify i (fun b => { b with stage := .gone })).complete i false)
    else none
  | _ => none

def endCancel (s : State n) : Option (State n) :=
  match s.phase with
  | .cancelling aborted =>
    if ∀ i, (s.branches i).stage ≠ .sending then
      some { s with
        phase := if aborted then .aborted else .returned (.error .sinkStopped) }
    else none
  | _ => none

/-- `delivered.await` yields the value sent through the acknowledgement channel. -/
def acknowledged (s : State n) : Option (State n) :=
  match s.phase, s.notifications with
  | .awaiting, true :: _ => some { s with phase := .returned (.ok ()) }
  | .awaiting, false :: _ => some { s with phase := .returned (.error .rejected) }
  | _, _ => none

/-- `delivered.await` fails when the sender is gone without having sent. -/
def ackClosed (s : State n) : Option (State n) :=
  if s.phase = .awaiting ∧ s.notifications = [] ∧ s.ack.notify = false then
    some { s with phase := .returned (.error .ackChannelClosed) }
  else none

def step (s : State n) : Action n → Option (State n)
  | .enqueue i => enqueue s i
  | .refuse i => refuse s i
  | .delivered i => answer s i true
  | .failed i => answer s i false
  | .drop i => drop s i
  | .joinSends => joinSends s
  | .cancel => cancel s
  | .abort => abort s
  | .dropSend i => dropSend s i
  | .endCancel => endCancel s
  | .acknowledged => acknowledged s
  | .ackClosed => ackClosed s

def system (n : ℕ) (batch : EventBatch) : System (State n) (Action n) :=
  ⟨State.start n batch, step⟩

end Rustper.Fanout
