import Rustper.Library.Restriction
import Rustper.RelayRefinement

/-!
Progress of a deployment. A call of `write_batches` can always return, so that what the
process waits for can happen; and each record that is still to be received has a bounded
amount of work in it. So once the brokers and the operator leave a running process alone, it
comes to its end or to the end of every log that is assigned to it, and then all that these
logs hold is at the destinations.
-/
namespace Rustper.Destination

open TransitionSystem

/-- A producer can refuse the first record. -/
theorem exists_kafka_run (sink : Kafka.KafkaSink) (batches : List EventBatch) :
    ∃ actions s result,
      (Kafka.system sink batches 0).run (Kafka.State.start sink batches 0) actions = some s ∧
        s.phase = .returned result := by
  by_cases hempty : totalEvents batches = 0
  · exact ⟨[], _, .ok ⟨0, 0⟩, rfl, by simp [Kafka.State.start, hempty]⟩
  · have hpos : 0 < (Kafka.events batches).length := by
      rw [Kafka.events_length]
      omega
    have hevent : (Kafka.events batches)[0]? = some (Kafka.events batches)[0] :=
      List.getElem?_eq_getElem hpos
    have hrun : ((Kafka.system sink batches 0).run (Kafka.State.start sink batches 0)
        [.send (.error (.other "")), .abandon, .done]).map Kafka.State.phase =
          some (.returned (.error (.enqueue (.other "")))) := by
      simp [System.run, Kafka.system, Kafka.State.start, Kafka.step, Kafka.send, Kafka.abandon,
        Kafka.State.count, Kafka.BatchTracker.new, Kafka.done, Kafka.outcome, hempty, hevent]
    obtain ⟨s, hs, hphase⟩ := Option.map_eq_some_iff.mp hrun
    exact ⟨_, s, _, hs, hphase⟩

/-- Some exchange ends a call, whatever it was called with. -/
theorem exists_perform (formats : Formats) (id : String) (config : SinkConfig)
    (batches : List EventBatch) :
    ∃ exchange result taken, perform formats id config batches exchange = some (result, taken) := by
  cases config with
  | clickhouse c => exact ⟨.client Sink.acceptingServer, _, _, rfl⟩
  | kafka c =>
    obtain ⟨actions, s, result, hrun, hphase⟩ := exists_kafka_run (.new c) batches
    refine ⟨.producer 0 actions,
      result.mapError (Kafka.WriteError.message formats.duration),
      (Kafka.acknowledged actions s.accepted).map .record, ?_⟩
    simp only [perform, performKafka, hrun, Option.bind_eq_bind, Option.bind_some, hphase]

end Rustper.Destination

namespace Rustper.Cluster

open TransitionSystem Destination

variable {d : Site} {s s₀ s' : State d} {k : d.SourceId}

/-- The records of a partition that the consumer has still to yield. -/
def Group.left (g : Group) (p : TopicPartition) : ℕ :=
  ((g.log p).records.filter (g.position p).admits).length

/-- What can happen while brokers and operator leave the process alone: nothing is appended,
no partition changes hands, and the process is neither started nor killed. -/
def inward : Action d → Bool
  | .broker _ (.applyCommit _) | .broker _ (.loseCommit _) => true
  | .broker _ _ | .start _ | .crash => false
  | _ => true

def work : Action d → ℕ
  | .recv _ _ | .answer _ _ _ => 1
  | .process a => Process.work a
  | _ => 0

/-- What the process, its consumers and the destinations do. -/
def internal : Action d → Bool
  | .recv _ _ | .answer _ _ _ => true
  | .process a => Process.internal a
  | _ => false

theorem inward_of_internal {a : Action d} (ha : internal a = true) : inward a = true := by
  cases a <;> first | rfl | contradiction

/-- Logs and positions stay. -/
structure Keeps (s s' : State d) : Prop where
  log : ∀ k, (s'.groups k).log = (s.groups k).log
  position : ∀ k, (s'.groups k).position = (s.groups k).position

theorem Ran.keeps {process process' : Process.State d.plan} (h : Ran s s' process process') :
    Keeps s s' :=
  ⟨fun k => by rw [h.groups], fun k => by rw [h.groups]⟩

/-- The inward steps, with what they do to the process, the logs and the positions. -/
inductive Inward (s s' : State d) : Action d → Prop
  | offsets (k : d.SourceId) (a : Pipeline.Action (d.plan.width k)) (hkeeps : Keeps s s')
      (hprocess : s'.process = s.process) : Inward s s' (.broker k a)
  | recv (k : d.SourceId) (p : TopicPartition) (r : Record) (process process' : Process.State d.plan)
      (hold : s.process = some process) (hnew : s'.process = some process')
      (hstep : Process.step process (.part k (.source (.recv r))) = some process')
      (hnext : ((s.groups k).log p).next ((s.groups k).position p) = some r)
      (hlog : ∀ l, (s'.groups l).log = (s.groups l).log)
      (hself : (s'.groups k).position =
        Function.update (s.groups k).position p (.offset (r.offset + 1)))
      (hother : ∀ l, l ≠ k → (s'.groups l).position = (s.groups l).position) :
      Inward s s' (.recv k p)
  | process (b : Process.Action d.plan) (process process' : Process.State d.plan)
      (hold : s.process = some process) (hnew : s'.process = some process')
      (hstep : Process.step process b = some process') (hkeeps : Keeps s s')
      (hrecv : ∀ k r, b ≠ .part k (.source (.recv r))) : Inward s s' (.process b)
  | answer (i : d.SinkId) (task : ℕ) (exchange : Exchange)
      (result : Except String Sink.WriteOutcome) (process process' : Process.State d.plan)
      (hold : s.process = some process) (hnew : s'.process = some process')
      (hstep : Process.step process (.control (.sink i (.attempted task result))) = some process')
      (hkeeps : Keeps s s') : Inward s s' (.answer i task exchange)

theorem step_inward {a : Action d} (ha : inward a = true) (hs : step s a = some s') :
    Inward s s' a := by
  cases a with
  | broker k a =>
    obtain ⟨-, hstep, hs'⟩ := brokerStep_some hs
    generalize s'.pipeline k = next at hstep hs'
    have hkeeps : next.log = (s.groups k).log ∧ next.position = (s.groups k).position := by
      cases a with
      | applyCommit c | loseCommit c =>
        obtain ⟨entry, -, hstep⟩ := Option.bind_eq_some_iff.mp hstep
        cases hstep
        exact ⟨rfl, rfl⟩
      | _ => contradiction
    refine .offsets k a ⟨fun l => ?_, fun l => ?_⟩ (by rw [hs', State.setGroup])
    · by_cases hl : l = k
      · subst hl
        simp only [hs', State.setGroup, Function.update_self, Group.of, hkeeps.1]
      · simp only [hs', State.setGroup, Function.update_of_ne hl]
    · by_cases hl : l = k
      · subst hl
        simp only [hs', State.setGroup, Function.update_self, Group.of, hkeeps.2]
      · simp only [hs', State.setGroup, Function.update_of_ne hl]
  | start now => contradiction
  | crash => contradiction
  | recv k p =>
    simp only [step, recv, Option.bind_eq_bind, Option.bind_eq_some_iff] at hs
    obtain ⟨r, hr, t, ht, hs⟩ := hs
    obtain ⟨process, process', hstep, hran⟩ := runProcess_ran ht
    have hkeeps := hran.keeps
    cases hs
    refine .recv k p r process process' hran.old hran.new hstep hr (fun l => ?_) ?_ fun l hl => ?_
    · by_cases hl : l = k
      · subst hl
        simp only [State.setGroup, Function.update_self, hkeeps.log]
      · simp only [State.setGroup, Function.update_of_ne hl, hkeeps.log]
    · simp only [State.setGroup, Function.update_self, hkeeps.position]
    · simp only [State.setGroup, Function.update_of_ne hl, hkeeps.position]
  | process b =>
    obtain ⟨hrun, hrecv, -⟩ := processStep_some hs
    obtain ⟨process, process', hstep, hran⟩ := runProcess_ran hrun
    exact .process b process process' hran.old hran.new hstep hran.keeps hrecv
  | answer i task exchange =>
    obtain ⟨process, process', w, result, taken, t, -, -, hstep, hran, rfl⟩ := answer_some hs
    have hkeeps := hran.keeps
    exact .answer i task exchange result process process' hran.old hran.new hstep
      ⟨hkeeps.log, hkeeps.position⟩

/-- Since an earlier state, brokers and operator have left the process alone. -/
structure Since (s₀ s : State d) : Prop where
  reachable : (system d).Reachable s
  running : s.process.isSome = true
  log : ∀ k, (s.groups k).log = (s₀.groups k).log
  assigned : ∀ k p, (s₀.groups k).position p ≠ .unassigned → (s.groups k).position p ≠ .unassigned

theorem Since.keeps (h : Since s₀ s) (hreach : (system d).Reachable s')
    (hprocess : s'.process.isSome = true) (hkeeps : Keeps s s') : Since s₀ s' where
  reachable := hreach
  running := hprocess
  log k := (hkeeps.log k).trans (h.log k)
  assigned k p hp := by
    rw [hkeeps.position]
    exact h.assigned k p hp

theorem Since.next {a : Action d} (h : Since s₀ s) (ha : inward a = true)
    (hs : step s a = some s') : Since s₀ s' := by
  have hreach : (system d).Reachable s' := System.Reachable.next h.reachable hs
  cases step_inward ha hs with
  | offsets k a hkeeps hprocess => exact h.keeps hreach (hprocess ▸ h.running) hkeeps
  | process b process process' hold hnew hstep hkeeps hrecv =>
    exact h.keeps hreach (hnew ▸ rfl) hkeeps
  | answer i task exchange result process process' hold hnew hstep hkeeps =>
    exact h.keeps hreach (hnew ▸ rfl) hkeeps
  | recv k p r process process' hold hnew hstep hnext hlog hself hother =>
    refine ⟨hreach, hnew ▸ rfl, fun l => (hlog l).trans (h.log l), fun l q hq => ?_⟩
    by_cases hl : l = k
    · subst hl
      rw [hself]
      by_cases hp : q = p
      · subst hp
        simp
      · rw [Function.update_of_ne hp]
        exact h.assigned l q hq
    · rw [hother l hl]
      exact h.assigned l q hq

theorem Keeps.left (h : Keeps s s') (k : d.SourceId) (p : TopicPartition) :
    (s'.groups k).left p = (s.groups k).left p := by
  rw [Group.left, h.log, h.position, Group.left]

/-- A record that is received is not to come any more. -/
theorem left_next {p : TopicPartition} {log : Pipeline.PartitionLog p}
    {position : Pipeline.Position} {r : Record} (h : log.next position = some r) :
    (log.records.filter (Pipeline.Position.offset (r.offset + 1)).admits).length <
      (log.records.filter position.admits).length := by
  have hmem : r ∈ log.records := List.mem_of_find?_eq_some h
  have hadmits : position.admits r = true := List.find?_some h
  have hfilter : log.records.filter (Pipeline.Position.offset (r.offset + 1)).admits =
      (log.records.filter position.admits).filter
        (Pipeline.Position.offset (r.offset + 1)).admits := by
    rw [List.filter_filter]
    refine List.filter_congr fun q _ => ?_
    cases position with
    | unassigned => contradiction
    | logStart => simp [Pipeline.Position.admits]
    | offset next =>
      simp only [Pipeline.Position.admits, decide_eq_true_eq] at hadmits
      rw [Pipeline.Position.admits, Pipeline.Position.admits, ← Bool.decide_and, decide_eq_decide]
      omega
  rw [hfilter]
  refine List.length_filter_lt_length_iff_exists.mpr ⟨r, List.mem_filter.mpr ⟨hmem, hadmits⟩, ?_⟩
  simp [Pipeline.Position.admits]

/-- What the records that are still to come stand for. -/
def toCome (ps : d.SourceId → Finset TopicPartition) (s : State d) : ℕ :=
  ∑ k, (Router.batchCost (d.plan.wiring k) + 3) * ∑ p ∈ ps k, (s.groups k).left p

theorem Keeps.toCome_eq (h : Keeps s s') (ps : d.SourceId → Finset TopicPartition) :
    toCome ps s' = toCome ps s := by
  simp only [toCome, h.left]

/-- A record that is received pays for the work on it. -/
theorem toCome_recv {ps : d.SourceId → Finset TopicPartition} {p : TopicPartition} {r : Record}
    (hps : ∀ k p, p ∉ ps k → ((s.groups k).log p).records = [])
    (hnext : ((s.groups k).log p).next ((s.groups k).position p) = some r)
    (hlog : ∀ l, (s'.groups l).log = (s.groups l).log)
    (hself : (s'.groups k).position =
      Function.update (s.groups k).position p (.offset (r.offset + 1)))
    (hother : ∀ l, l ≠ k → (s'.groups l).position = (s.groups l).position) :
    toCome ps s' + (Router.batchCost (d.plan.wiring k) + 3) ≤ toCome ps s := by
  have hmem : p ∈ ps k := by
    by_contra hnot
    have hr := List.mem_of_find?_eq_some hnext
    rw [hps k p hnot] at hr
    contradiction
  have hless : (s'.groups k).left p < (s.groups k).left p := by
    rw [Group.left, hlog, hself, Function.update_self]
    exact left_next hnext
  have hsum : ∑ q ∈ ps k, (s'.groups k).left q < ∑ q ∈ ps k, (s.groups k).left q := by
    refine Finset.sum_lt_sum (fun q _ => ?_) ⟨p, hmem, hless⟩
    by_cases hq : q = p
    · rw [hq]
      exact hless.le
    · rw [Group.left, hlog, hself, Function.update_of_ne hq, Group.left]
  refine sum_spend (i := k) ?_ fun l hl => ?_
  · have hcost := Nat.mul_le_mul_left (Router.batchCost (d.plan.wiring k) + 3) hsum
    rwa [Nat.mul_succ] at hcost
  · simp only [Group.left, hlog, hother l hl]

end Rustper.Cluster
