import Rustper.DestinationCounters
import Rustper.Provenance
import Rustper.Topology

/-!
A source with its broker, its sinks and their destinations, across restarts. A call of
`write_batches` is an exchange with the destination of the sink, and the destinations keep
what they have acknowledged. Committed records are there, and nothing is that was not sent.
-/
namespace Rustper.Deployment

open TransitionSystem Destination

/-- A source, and for each of its sinks the identifier and the configuration. -/
structure Site (n : ℕ) where
  formats : Formats
  source : Source.KafkaSource
  sinks : Fin n → String × SinkConfig

variable {n : ℕ}

def Site.wiring (d : Site n) : Router.Wiring n where
  source := d.source
  runtimes := fun i => (Topology.sender (d.sinks i).1 (d.sinks i).2).runtime

structure State (n : ℕ) where
  pipeline : Pipeline.State n
  held : Fin n → List Item

inductive Action (n : ℕ)
  | pipeline (action : Pipeline.Action n)
  | answer (i : Fin n) (k : ℕ) (exchange : Exchange)

def State.start (n : ℕ) : State n := ⟨Pipeline.State.start n, fun _ => []⟩

/-- The write task that is `k`-th in the join set of the sink. -/
def writeOf (s : State n) (i : Fin n) (k : ℕ) : Option Sink.Write :=
  s.pipeline.process.bind (fun process => (process.sinks i).writes[k]?)

/-- A call of `write_batches` returns, and its destination has taken in what it has. -/
def answer (d : Site n) (s : State n) (i : Fin n) (k : ℕ) (exchange : Exchange) :
    Option (State n) := do
  let w ← writeOf s i k
  let returned ← perform d.formats (d.sinks i).1 (d.sinks i).2 (Sink.batches w.envelopes) exchange
  let pipeline ← Pipeline.step d.wiring s.pipeline (.router (.sink i (.attempted k returned.1)))
  some
    { pipeline := pipeline
      held := Function.update s.held i (s.held i ++ returned.2) }

/-- Everything else; a call returns through `answer` only. -/
def pipelineStep (d : Site n) (s : State n) : Pipeline.Action n → Option (State n)
  | .router (.sink _ (.attempted _ _)) => none
  | action =>
    (Pipeline.step d.wiring s.pipeline action).map (fun pipeline => { s with pipeline := pipeline })

def step (d : Site n) (s : State n) : Action n → Option (State n)
  | .pipeline action => pipelineStep d s action
  | .answer i k exchange => answer d s i k exchange

def system (d : Site n) : System (State n) (Action n) := ⟨State.start n, step d⟩

variable {d : Site n} {s s' : State n}

/-- The two kinds of steps, with what they do to the destinations. -/
inductive Move (d : Site n) (s s' : State n) : Prop
  | pipeline (action : Pipeline.Action n)
      (hnot : ∀ i k result, action ≠ .router (.sink i (.attempted k result)))
      (hstep : Pipeline.step d.wiring s.pipeline action = some s'.pipeline)
      (hheld : s'.held = s.held)
  | answer (i : Fin n) (k : ℕ) (exchange : Exchange) (process : Router.State n) (w : Sink.Write)
      (result : Except String Sink.WriteOutcome) (taken : List Item)
      (hprocess : s.pipeline.process = some process)
      (hw : (process.sinks i).writes[k]? = some w)
      (hperform : perform d.formats (d.sinks i).1 (d.sinks i).2 (Sink.batches w.envelopes) exchange =
        some (result, taken))
      (hstep : Pipeline.step d.wiring s.pipeline (.router (.sink i (.attempted k result))) =
        some s'.pipeline)
      (hheld : s'.held = Function.update s.held i (s.held i ++ taken))

theorem step_move {a : Action n} (hs : step d s a = some s') : Move d s s' := by
  cases a with
  | pipeline action =>
    have hs : pipelineStep d s action = some s' := hs
    unfold pipelineStep at hs
    split at hs
    · contradiction
    · rename_i hnot
      obtain ⟨pipeline, hstep, rfl⟩ := Option.map_eq_some_iff.mp hs
      exact .pipeline action hnot hstep rfl
  | answer i k exchange =>
    simp only [step, answer, writeOf, Option.bind_eq_bind, Option.bind_eq_some_iff] at hs
    obtain ⟨w, ⟨process, hprocess, hw⟩, ⟨result, taken⟩, hperform, pipeline, hstep, hs⟩ := hs
    cases hs
    exact .answer i k exchange process w result taken hprocess hw hperform hstep rfl

/-- What a sink counts as written its destination holds, unless it refuses it; and what a
destination holds is the item of a genuine event. -/
structure Inv (d : Site n) (s : State n) : Prop where
  pipeline : (Pipeline.system d.wiring).Reachable s.pipeline
  written : ∀ i, ∀ e ∈ s.pipeline.written i, ∀ item ∈ item? (d.sinks i).2 e, item ∈ s.held i
  genuine : ∀ i, ∀ item ∈ s.held i, ∃ e, item? (d.sinks i).2 e = some item ∧
    Pipeline.Genuine d.wiring s.pipeline e

theorem start_inv (d : Site n) : Inv d (State.start n) where
  pipeline := System.ReachableBy.start
  written := by simp [State.start, Pipeline.State.start, Pipeline.State.written]
  genuine := by simp [State.start]

theorem genuine_step {a : Pipeline.Action n} {e : Event}
    (hstep : Pipeline.step d.wiring s.pipeline a = some s'.pipeline)
    (h : Pipeline.Genuine d.wiring s.pipeline e) : Pipeline.Genuine d.wiring s'.pipeline e := by
  refine h.imp id ?_
  rintro ⟨r, hr, he⟩
  exact ⟨r, (Pipeline.step_cases hstep).2 _ r hr, he⟩

theorem mem_items {config : SinkConfig} {batches : List EventBatch} {item : Item} :
    item ∈ items config batches ↔
      ∃ e ∈ batches.flatMap EventBatch.events, item? config e = some item :=
  List.mem_filterMap

/-- A call can only return from a write that is running. -/
theorem live_of_step {i : Fin n} {k : ℕ} {result : Except String Sink.WriteOutcome}
    {process : Router.State n} {pipeline : Pipeline.State n} {w : Sink.Write}
    (hstep : Pipeline.step d.wiring s.pipeline (.router (.sink i (.attempted k result))) =
      some pipeline)
    (hprocess : s.pipeline.process = some process) (hw : (process.sinks i).writes[k]? = some w) :
    w.live = true := by
  obtain ⟨process', next, hp, hrouter, -⟩ := Pipeline.runProcess_some hstep
  obtain rfl := Option.some.inj (hprocess.symm.trans hp)
  cases Router.step_taken hrouter with
  | sink j b sink hb hnot => exact Sink.live_of_attempted hb hw

/-- What an exchange puts at a destination was handed to its sink. -/
theorem genuine_of_taken {i : Fin n} {process : Router.State n} {w : Sink.Write}
    {exchange : Exchange} {result : Except String Sink.WriteOutcome} {taken : List Item}
    (hreach : (Pipeline.system d.wiring).Reachable s.pipeline)
    (hprocess : s.pipeline.process = some process) (hw : w ∈ (process.sinks i).writes)
    (hlive : w.live = true)
    (hperform : perform d.formats (d.sinks i).1 (d.sinks i).2 (Sink.batches w.envelopes) exchange =
      some (result, taken)) :
    ∀ item ∈ taken, ∃ e, item? (d.sinks i).2 e = some item ∧
      Pipeline.Genuine d.wiring s.pipeline e := by
  intro item hitem
  obtain ⟨e, hevent, he⟩ := mem_items.mp ((perform_subperm hperform).subset hitem)
  rw [← Sink.events_eq] at hevent
  obtain ⟨x, hx, hevent⟩ := List.mem_flatMap.mp hevent
  obtain ⟨now, hrouter⟩ := Pipeline.reachable_running hreach process hprocess
  have harrived := ((Router.reachable_inv hrouter).sink i).arrived_of_live hw hlive hx
  exact ⟨e, he, Pipeline.genuine_of_arrived hreach hprocess harrived hevent⟩

theorem Inv.advance {a : Pipeline.Action n} (h : Inv d s)
    (hstep : Pipeline.step d.wiring s.pipeline a = some s'.pipeline)
    (hheld : ∀ i, s.held i ⊆ s'.held i)
    (hwritten : ∀ i, ∀ e ∈ s'.pipeline.written i, e ∈ s.pipeline.written i ∨
      ∀ item ∈ item? (d.sinks i).2 e, item ∈ s'.held i)
    (hgenuine : ∀ i, ∀ item ∈ s'.held i, item ∈ s.held i ∨
      ∃ e, item? (d.sinks i).2 e = some item ∧ Pipeline.Genuine d.wiring s.pipeline e) :
    Inv d s' := by
  refine ⟨h.pipeline.next hstep, ?_, ?_⟩
  · intro i e he
    rcases hwritten i e he with he | hnew
    · exact fun item hitem => hheld i (h.written i e he item hitem)
    · exact hnew
  · intro i item hitem
    obtain ⟨e, he, hgenuine⟩ : ∃ e, item? (d.sinks i).2 e = some item ∧
        Pipeline.Genuine d.wiring s.pipeline e :=
      (hgenuine i item hitem).elim (h.genuine i item) id
    exact ⟨e, he, genuine_step hstep hgenuine⟩

theorem Move.inv (hmove : Move d s s') (h : Inv d s) : Inv d s' := by
  cases hmove with
  | pipeline action hnot hstep hheld =>
    refine h.advance hstep (fun i => ?_) (fun i e he => ?_) (fun i item hitem => ?_)
    · rw [hheld]
      exact List.Subset.refl _
    · rcases Pipeline.step_written h.pipeline hstep he with he | ⟨k, outcome, _, _, ha, -⟩
      · exact Or.inl he
      · exact absurd ha (hnot i k (.ok outcome))
    · rw [hheld] at hitem
      exact Or.inl hitem
  | answer i k exchange process w result taken hprocess hw hperform hstep hheld =>
    have hself : s'.held i = s.held i ++ taken := by rw [hheld, Function.update_self]
    have hother : ∀ j, j ≠ i → s'.held j = s.held j := by
      intro j hj
      rw [hheld, Function.update_of_ne hj]
    refine h.advance hstep (fun j => ?_) (fun j e he => ?_) (fun j item hitem => ?_)
    · by_cases hj : j = i
      · rw [hj, hself]
        exact List.subset_append_left _ _
      · rw [hother j hj]
        exact List.Subset.refl _
    · refine (Pipeline.step_written h.pipeline hstep he).imp id ?_
      rintro ⟨k', outcome, p, w', ha, hp, hw', hevent⟩ item hitem
      obtain ⟨rfl, rfl, rfl⟩ : i = j ∧ k = k' ∧ result = .ok outcome := by simpa using ha
      obtain rfl := Option.some.inj (hprocess.symm.trans hp)
      obtain rfl := Option.some.inj (hw.symm.trans hw')
      rw [Sink.events_eq] at hevent
      rw [hself]
      apply List.mem_append_right
      rw [(perform_ok hperform).taken.mem_iff, mem_items]
      exact ⟨e, hevent, hitem⟩
    · by_cases hj : j = i
      · subst hj
        rw [hself] at hitem
        refine (List.mem_append.mp hitem).imp id fun hitem => ?_
        exact genuine_of_taken h.pipeline hprocess (List.mem_of_getElem? hw)
          (live_of_step hstep hprocess hw) hperform item hitem
      · rw [hother j hj] at hitem
        exact Or.inl hitem

theorem reachable_inv (h : (system d).Reachable s) : Inv d s := by
  apply System.Reachable.invariant (start_inv d) _ h
  intro t a t' hi hs
  exact (step_move hs).inv hi

end Rustper.Deployment
