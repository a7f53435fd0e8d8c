import Rustper.RouterInvariant

/-!
A source and its Kafka cluster across restarts. Each partition is a log of records with
increasing offsets and a committed offset, which only the commits of the source change;
a commit is asynchronous, so it takes effect later, in any order, or is lost. A process
can crash at any time. When a partition is assigned to it, at the start or again later,
its position there is the committed offset, or the start of the log.
-/
namespace Rustper.Pipeline

open TransitionSystem Source

/-- The records of one partition; a structure, so that no other list can be one. -/
structure PartitionLog (p : TopicPartition) where
  records : List Record
  own : ∀ r ∈ records, r.topicPartition = p
  nonneg : ∀ r ∈ records, 0 ≤ r.offset
  increasing : (records.map Record.offset).Pairwise (· < ·)

def PartitionLog.empty (p : TopicPartition) : PartitionLog p :=
  ⟨[], by simp, by simp, List.Pairwise.nil⟩

/-- A record may be appended when its offset is beyond those of the log. -/
def PartitionLog.Fits {p : TopicPartition} (log : PartitionLog p) (r : Record) : Prop :=
  0 ≤ r.offset ∧ ∀ q ∈ log.records, q.offset < r.offset

instance {p : TopicPartition} (log : PartitionLog p) (r : Record) : Decidable (log.Fits r) :=
  inferInstanceAs (Decidable (_ ∧ _))

def PartitionLog.append (log : (p : TopicPartition) → PartitionLog p) (r : Record)
    (h : (log r.topicPartition).Fits r) : PartitionLog r.topicPartition where
  records := (log r.topicPartition).records ++ [r]
  own := by
    intro q hq
    rcases List.mem_append.mp hq with hq | hq
    · exact (log r.topicPartition).own q hq
    · rw [List.mem_singleton.mp hq]
  nonneg := by
    intro q hq
    rcases List.mem_append.mp hq with hq | hq
    · exact (log r.topicPartition).nonneg q hq
    · rw [List.mem_singleton.mp hq]
      exact h.1
  increasing := by
    rw [List.map_append, List.pairwise_append]
    refine ⟨(log r.topicPartition).increasing, by simp, ?_⟩
    intro x hx y hy
    obtain ⟨q, hq, rfl⟩ := List.mem_map.mp hx
    rw [List.map_singleton, List.mem_singleton] at hy
    rw [hy]
    exact h.2 q hq

inductive Position
  | unassigned
  | logStart
  | offset (next : ℤ)
deriving DecidableEq, Repr

/-- Whether `recv` may yield the record at this position. -/
def Position.admits (position : Position) (r : Record) : Bool :=
  match position with
  | .unassigned => false
  | .logStart => true
  | .offset next => decide (next ≤ r.offset)

/-- The record that `recv` yields. -/
def PartitionLog.next {p : TopicPartition} (log : PartitionLog p) (position : Position) :
    Option Record :=
  log.records.find? position.admits

/-- `past` keeps what the sinks wrote in earlier processes. -/
structure State (n : ℕ) where
  log : (p : TopicPartition) → PartitionLog p
  committed : TopicPartition → Option ℤ
  inTransit : List PartitionOffset
  position : TopicPartition → Position
  past : Fin n → List Event
  process : Option (Router.State n)

inductive Action (n : ℕ)
  | append (record : Record)
  | start (now : ℕ)
  | crash
  | assign (p : TopicPartition)
  | revoke (p : TopicPartition)
  | recv (p : TopicPartition)
  | router (action : Router.Action n)
  | applyCommit (k : ℕ)
  | loseCommit (k : ℕ)

variable {n : ℕ}

def State.start (n : ℕ) : State n where
  log := PartitionLog.empty
  committed := fun _ => none
  inTransit := []
  position := fun _ => .unassigned
  past := fun _ => []
  process := none

/-- The events that a sink has written, in this process or in an earlier one. -/
def State.written (s : State n) (i : Fin n) : List Event :=
  s.past i ++ s.process.elim [] (fun process => (process.sinks i).written)

def append (s : State n) (r : Record) : Option (State n) :=
  if h : (s.log r.topicPartition).Fits r then
    some { s with log := Function.update s.log r.topicPartition (PartitionLog.append s.log r h) }
  else none

def startProcess (s : State n) (now : ℕ) : Option (State n) :=
  match s.process with
  | none => some { s with
      position := fun _ => .unassigned
      process := some (Router.State.start n now) }
  | some _ => none

/-- The process is gone, by a crash or because it has ended. -/
def crash (s : State n) : Option (State n) :=
  match s.process with
  | none => none
  | some _ => some { s with past := s.written, process := none }

/-- Resume from the committed offset, or from the start of the log without one. -/
def assign (s : State n) (p : TopicPartition) : State n :=
  { s with
    position := Function.update s.position p ((s.committed p).elim .logStart .offset) }

def revoke (s : State n) (p : TopicPartition) : State n :=
  { s with position := Function.update s.position p .unassigned }

/-- The offset lists that the step has passed to `consumer.commit`. -/
def commits (process process' : Router.State n) : List PartitionOffset :=
  (process'.source.cursor.committed.drop process.source.cursor.committed.length).flatMap
    BatchCompletion.offsets

/-- The process takes a step and its commits are under way. -/
def runProcess (wiring : Router.Wiring n) (s : State n) (a : Router.Action n) :
    Option (State n) := do
  let process ← s.process
  let process' ← Router.step wiring process a
  some { s with
    inTransit := s.inTransit ++ commits process process'
    process := some process' }

def recv (wiring : Router.Wiring n) (s : State n) (p : TopicPartition) : Option (State n) := do
  let r ← (s.log p).next (s.position p)
  let s' ← runProcess wiring s (.source (.recv r))
  some { s' with position := Function.update s'.position p (.offset (r.offset + 1)) }

/-- The source receives records from the broker only. -/
def routerStep (wiring : Router.Wiring n) (s : State n) : Router.Action n → Option (State n)
  | .source (.recv _) => none
  | action => runProcess wiring s action

def applyCommit (s : State n) (k : ℕ) : Option (State n) := do
  let entry ← s.inTransit[k]?
  some { s with
    committed := Function.update s.committed entry.topicPartition (some entry.offset)
    inTransit := s.inTransit.eraseIdx k }

def loseCommit (s : State n) (k : ℕ) : Option (State n) := do
  let _ ← s.inTransit[k]?
  some { s with inTransit := s.inTransit.eraseIdx k }

def step (wiring : Router.Wiring n) (s : State n) : Action n → Option (State n)
  | .append r => append s r
  | .start now => startProcess s now
  | .crash => crash s
  | .assign p => some (assign s p)
  | .revoke p => some (revoke s p)
  | .recv p => recv wiring s p
  | .router action => routerStep wiring s action
  | .applyCommit k => applyCommit s k
  | .loseCommit k => loseCommit s k

def system (wiring : Router.Wiring n) : System (State n) (Action n) :=
  ⟨State.start n, step wiring⟩

end Rustper.Pipeline
