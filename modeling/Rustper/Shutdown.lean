import Rustper.Library.JoinSet
import Rustper.SinkAccounting
import Rustper.Source

/-!
How `topology::run` ends: `join_all` and `first_failure` over its task sets, and the
shutdown that drains the sinks. A sink task is a run of `sink::run`; a source task
may end with any result at any time.
-/
namespace Rustper.Shutdown

open TransitionSystem

/-- How a poll of one of the two loops below comes out. -/
inductive Turn (ι ε : Type)
  | pending
  | again (tasks : JoinSet ι ε)
  | returned (result : Except ε Unit) (tasks : JoinSet ι ε)

section join

variable {ι ε : Type}

/-- `joined??` returns from `join_all` on the first result that is not `Ok(Ok(()))`. -/
def joinAll (tasks : JoinSet ι ε) : Turn ι ε :=
  match tasks.joinNext with
  | .joined _ (.ok ()) rest => .again rest
  | .joined _ (.error e) rest => .returned (.error e) rest
  | .empty => .returned (.ok ()) tasks
  | .pending => .pending

def firstFailure (tasks : JoinSet ι ε) : Turn ι ε :=
  match tasks.joinNext with
  | .joined _ (.ok ()) rest => .again rest
  | .joined _ (.error e) rest => .returned (.error e) rest
  | .empty => .pending
  | .pending => .pending

end join

namespace JoinAll

/-- A call of `join_all`, then its history: the results of the tasks in the order of
their completion, and the tasks that were still running when it returned. -/
structure State (ι ε : Type) where
  tasks : JoinSet ι ε
  result : Option (Except ε Unit)
  ended : List (ι × Except ε Unit)
  left : List ι

inductive Action (ι ε : Type)
  | finish (i : ι) (result : Except ε Unit)
  | poll

variable {ι ε : Type} [DecidableEq ι]

def State.start (ids : List ι) : State ι ε := ⟨JoinSet.spawn ids, none, [], []⟩

def step (s : State ι ε) : Action ι ε → Option (State ι ε)
  | .finish i result =>
    (s.tasks.finish i result).map
      (fun tasks => { s with tasks := tasks, ended := s.ended ++ [(i, result)] })
  | .poll =>
    match s.result, joinAll s.tasks with
    | none, .again tasks => some { s with tasks := tasks }
    | none, .returned result tasks =>
      some { s with tasks := tasks, result := some result, left := tasks.running }
    | _, _ => none

def system (ids : List ι) : System (State ι ε) (Action ι ε) := ⟨State.start ids, step⟩

end JoinAll

inductive TaskError
  | source (e : Source.SourceError)
  | sink (e : Sink.WriteError)
  | panicked
deriving DecidableEq, Repr

/-- `outcome.and(drained)`. -/
def andThen (outcome drained : Except TaskError Unit) : Except TaskError Unit :=
  match outcome with
  | .ok () => drained
  | .error e => .error e

/-- Where `topology::run` stands: in its `select!`, in `source_tasks.shutdown()`, in
`join_all(&mut sink_tasks)`, in `observability.shutdown()`, or past its end. -/
inductive Phase
  | running
  | stopping (outcome : Except TaskError Unit)
  | draining (outcome : Except TaskError Unit)
  | closing (result : Except TaskError Unit)
  | returned (result : Except TaskError Unit)
deriving DecidableEq

/-- `shutdown.cancel()` follows the `select!`. -/
def Phase.cancelled : Phase → Bool
  | .running => false
  | _ => true

/-- The tasks of `run` with what its sinks are at, then the sink tasks that were running
when the drain returned and those that were aborted when `run` did. -/
structure State (n : ℕ) where
  phase : Phase
  sourceTasks : JoinSet ℕ TaskError
  sinkTasks : JoinSet (Fin n) TaskError
  sinks : Fin n → Sink.State
  left : List (Fin n)
  aborted : List (Fin n)

inductive Action (n : ℕ)
  | sink (i : Fin n) (action : Sink.Action)
  | source (k : ℕ) (result : Except TaskError Unit)
  | interrupt
  | joinSource
  | joinSink
  | stopped
  | joinDrain
  | finish

variable {n : ℕ}

def State.start (sources n now : ℕ) : State n where
  phase := .running
  sourceTasks := JoinSet.spawn (List.range sources)
  sinkTasks := JoinSet.spawn (List.finRange n)
  sinks := fun _ => Sink.State.start now
  left := []
  aborted := []

/-- A sink task ends when `sink::run` returns. -/
def endTask (i : Fin n) (sink sink' : Sink.State) (tasks : JoinSet (Fin n) TaskError) :
    Option (JoinSet (Fin n) TaskError) :=
  match sink.returned, sink'.phase with
  | false, .returned outcome => tasks.finish i (outcome.mapError .sink)
  | _, _ => some tasks

/-- A sink only sees its token cancelled once `run` has cancelled it. -/
def sinkStep (runtimes : Fin n → Sink.Runtime) (s : State n) (i : Fin n) (a : Sink.Action) :
    Option (State n) := do
  if a = .shutdown ∧ s.phase.cancelled = false then none
  else
    let sink ← Sink.step (runtimes i) (s.sinks i) a
    let tasks ← endTask i (s.sinks i) sink s.sinkTasks
    some { s with sinkTasks := tasks, sinks := Function.update s.sinks i sink }

def sourceEnds (s : State n) (k : ℕ) (result : Except TaskError Unit) : Option (State n) :=
  (s.sourceTasks.finish k result).map (fun tasks => { s with sourceTasks := tasks })

/-- `join_all(&mut source_tasks)` in the `select!`. -/
def joinSource (s : State n) : Option (State n) :=
  match s.phase, joinAll s.sourceTasks with
  | .running, .again tasks => some { s with sourceTasks := tasks }
  | .running, .returned result tasks =>
    some { s with sourceTasks := tasks, phase := .stopping result }
  | _, _ => none

/-- `first_failure(&mut sink_tasks)` in the `select!`. -/
def joinSink (s : State n) : Option (State n) :=
  match s.phase, firstFailure s.sinkTasks with
  | .running, .again tasks => some { s with sinkTasks := tasks }
  | .running, .returned result tasks =>
    some { s with sinkTasks := tasks, phase := .stopping result }
  | _, _ => none

def interrupt (s : State n) : Option (State n) :=
  match s.phase with
  | .running => some { s with phase := .stopping (.ok ()) }
  | _ => none

/-- `source_tasks.shutdown()` has aborted the sources and waited for them. -/
def stopped (s : State n) : Option (State n) :=
  match s.phase with
  | .stopping outcome =>
    some { s with phase := .draining outcome, sourceTasks := JoinSet.spawn [] }
  | _ => none

/-- `join_all(&mut sink_tasks)` after the shutdown. -/
def joinDrain (s : State n) : Option (State n) :=
  match s.phase, joinAll s.sinkTasks with
  | .draining _, .again tasks => some { s with sinkTasks := tasks }
  | .draining outcome, .returned drained tasks =>
    some { s with
      sinkTasks := tasks, phase := .closing (andThen outcome drained), left := tasks.running }
  | _, _ => none

/-- `run` returns and drops its join sets, which aborts what still runs. -/
def finish (s : State n) : Option (State n) :=
  match s.phase with
  | .closing result =>
    some { s with phase := .returned result, aborted := s.sinkTasks.running }
  | _ => none

def act (runtimes : Fin n → Sink.Runtime) (s : State n) : Action n → Option (State n)
  | .sink i action => sinkStep runtimes s i action
  | .source k result => sourceEnds s k result
  | .interrupt => interrupt s
  | .joinSource => joinSource s
  | .joinSink => joinSink s
  | .stopped => stopped s
  | .joinDrain => joinDrain s
  | .finish => finish s

/-- Nothing happens once `run` has returned. -/
def step (runtimes : Fin n → Sink.Runtime) (s : State n) (a : Action n) : Option (State n) :=
  match s.phase with
  | .returned _ => none
  | _ => act runtimes s a

def system (runtimes : Fin n → Sink.Runtime) (sources now : ℕ) : System (State n) (Action n) :=
  ⟨State.start sources n now, step runtimes⟩

end Rustper.Shutdown
