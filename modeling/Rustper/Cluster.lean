import Rustper.Deployment
import Rustper.ProcessCounters

/-!
A deployment of a whole configuration across crashes and restarts: the brokers of each
source, a process with all of its sources and sinks while one runs, and the destinations of
the sinks. What a source sees of it is a deployment of this source alone.
-/
namespace Rustper.Cluster

open TransitionSystem Destination

/-- What is deployed, and what it uses of the libraries. -/
structure Site where
  formats : Formats
  client : Source.OffsetList
  config : Config

namespace Site

variable (d : Site)

abbrev SourceId : Type := Fin d.config.sources.entries.length

abbrev SinkId : Type := Fin d.config.sinks.entries.length

abbrev plan : Process.Plan d.config.sources.entries.length d.config.sinks.entries.length :=
  Topology.plan d.client d.config

def sourceId (k : d.SourceId) : String := (d.config.sources.entries.get k).1

def sink (i : d.SinkId) : String × SinkConfig :=
  ((d.config.sinks.entries.get i).1, (d.config.sinks.entries.get i).2)

/-- A source with the sinks that list it. -/
def site (k : d.SourceId) : Deployment.Site (d.plan.width k) where
  formats := d.formats
  source := d.plan.sources k
  sinks := fun j => d.sink (d.plan.target k j)

end Site

/-- A source at its brokers: the partitions, and where its consumer group is in them. -/
structure Group where
  log : (p : TopicPartition) → Pipeline.PartitionLog p
  committed : TopicPartition → Option ℤ
  inTransit : List Source.PartitionOffset
  position : TopicPartition → Pipeline.Position

def Group.start : Group where
  log := Pipeline.PartitionLog.empty
  committed := fun _ => none
  inTransit := []
  position := fun _ => .unassigned

def Group.of {w : ℕ} (s : Pipeline.State w) : Group :=
  ⟨s.log, s.committed, s.inTransit, s.position⟩

structure State (d : Site) where
  groups : d.SourceId → Group
  process : Option (Process.State d.plan)
  past : d.SinkId → List Event
  held : d.SinkId → List Item

inductive Action (d : Site)
  | broker (k : d.SourceId) (action : Pipeline.Action (d.plan.width k))
  | start (now : ℕ)
  | crash
  | recv (k : d.SourceId) (p : TopicPartition)
  | process (action : Process.Action d.plan)
  | answer (i : d.SinkId) (task : ℕ) (exchange : Exchange)

variable {d : Site}

def State.start (d : Site) : State d where
  groups := fun _ => Group.start
  process := none
  past := fun _ => []
  held := fun _ => []

namespace State

variable (s : State d)

def written (i : d.SinkId) : List Event :=
  s.past i ++ s.process.elim [] (fun process => (process.control.sinks i).written)

/-- What a source sees of the brokers and of the process. -/
def pipeline (k : d.SourceId) : Pipeline.State (d.plan.width k) where
  log := (s.groups k).log
  committed := (s.groups k).committed
  inTransit := (s.groups k).inTransit
  position := (s.groups k).position
  past := fun j => s.past (d.plan.target k j)
  process := s.process.map (fun process => process.view k)

def deployment (k : d.SourceId) : Deployment.State (d.plan.width k) :=
  ⟨s.pipeline k, fun j => s.held (d.plan.target k j)⟩

def setGroup (k : d.SourceId) (g : Group) : State d :=
  { s with groups := Function.update s.groups k g }

end State

/-- The steps of the brokers: a record is appended, a partition changes hands, a commit takes
effect or is lost. -/
def ofBrokers {w : ℕ} : Pipeline.Action w → Bool
  | .append _ | .assign _ | .revoke _ | .applyCommit _ | .loseCommit _ => true
  | _ => false

def brokerStep (s : State d) (k : d.SourceId) (action : Pipeline.Action (d.plan.width k)) :
    Option (State d) :=
  if ofBrokers action = true then
    (Pipeline.step (d.plan.wiring k) (s.pipeline k) action).map
      (fun pipeline => s.setGroup k (Group.of pipeline))
  else none

def startProcess (s : State d) (now : ℕ) : Option (State d) :=
  match s.process with
  | none => some { s with
      groups := fun k => { s.groups k with position := fun _ => .unassigned }
      process := some (Process.State.start d.plan now) }
  | some _ => none

/-- The process is gone, by a crash or because it has ended. -/
def crash (s : State d) : Option (State d) :=
  match s.process with
  | none => none
  | some _ => some { s with past := s.written, process := none }

/-- The process takes a step, and what its sources commit is under way. -/
def runProcess (s : State d) (action : Process.Action d.plan) : Option (State d) := do
  let process ← s.process
  let process' ← Process.step process action
  some { s with
    groups := fun k => { s.groups k with
      inTransit := (s.groups k).inTransit ++
        Pipeline.commits (process.view k) (process'.view k) }
    process := some process' }

def recv (s : State d) (k : d.SourceId) (p : TopicPartition) : Option (State d) := do
  let r ← ((s.groups k).log p).next ((s.groups k).position p)
  let s' ← runProcess s (.part k (.source (.recv r)))
  some (s'.setGroup k { s'.groups k with
    position := Function.update (s'.groups k).position p (.offset (r.offset + 1)) })

/-- Records come from the brokers, and a call of `write_batches` returns through `answer`. -/
def processStep (s : State d) : Process.Action d.plan → Option (State d)
  | .part _ (.source (.recv _)) => none
  | .control (.sink _ (.attempted _ _)) => none
  | action => runProcess s action

/-- A call of `write_batches` returns, and its destination has taken in what it has. -/
def answer (s : State d) (i : d.SinkId) (task : ℕ) (exchange : Exchange) : Option (State d) := do
  let process ← s.process
  let w ← (process.control.sinks i).writes[task]?
  let returned ← perform d.formats (d.sink i).1 (d.sink i).2 (Sink.batches w.envelopes) exchange
  let s' ← runProcess s (.control (.sink i (.attempted task returned.1)))
  some { s' with held := Function.update s'.held i (s'.held i ++ returned.2) }

def step (s : State d) : Action d → Option (State d)
  | .broker k action => brokerStep s k action
  | .start now => startProcess s now
  | .crash => crash s
  | .recv k p => recv s k p
  | .process action => processStep s action
  | .answer i task exchange => answer s i task exchange

def system (d : Site) : System (State d) (Action d) := ⟨State.start d, step⟩

variable {s s' : State d}

theorem pipeline_written (s : State d) (k : d.SourceId) :
    (s.pipeline k).written = fun j => s.written (d.plan.target k j) := by
  funext j
  cases hp : s.process with
  | none => simp only [Pipeline.State.written, State.pipeline, State.written, hp]; rfl
  | some process => simp only [Pipeline.State.written, State.pipeline, State.written, hp]; rfl

/-- The process takes a step, with what this does to the brokers. -/
structure Ran (s s' : State d) (process process' : Process.State d.plan) : Prop where
  old : s.process = some process
  new : s'.process = some process'
  groups : ∀ k, s'.groups k = { s.groups k with
    inTransit := (s.groups k).inTransit ++ Pipeline.commits (process.view k) (process'.view k) }
  past : s'.past = s.past
  held : s'.held = s.held

theorem runProcess_ran {a : Process.Action d.plan} (hs : runProcess s a = some s') :
    ∃ process process', Process.step process a = some process' ∧ Ran s s' process process' := by
  simp only [runProcess, Option.bind_eq_bind, Option.bind_eq_some_iff] at hs
  obtain ⟨process, hp, process', hstep, hs⟩ := hs
  cases hs
  exact ⟨process, process', hstep, hp, rfl, fun k => rfl, rfl, rfl⟩

theorem processStep_some {a : Process.Action d.plan} (hs : processStep s a = some s') :
    runProcess s a = some s' ∧ (∀ k r, a ≠ .part k (.source (.recv r))) ∧
      ∀ i task result, a ≠ .control (.sink i (.attempted task result)) := by
  unfold processStep at hs
  split at hs
  · contradiction
  · contradiction
  · rename_i hrecv hattempted
    exact ⟨hs, hrecv, hattempted⟩

section ran

variable {process process' : Process.State d.plan} {l : d.SourceId}

/-- A step that a source does not see commits nothing of it. -/
theorem Ran.pipeline_of_view (h : Ran s s' process process')
    (hview : process'.view l = process.view l) : s'.pipeline l = s.pipeline l := by
  have hcommits : Pipeline.commits (process.view l) (process.view l) = [] := by
    simp [Pipeline.commits]
  have hgroup := h.groups l
  rw [hview, hcommits, List.append_nil] at hgroup
  simp only [State.pipeline, h.old, h.new, hgroup, h.past, Option.map_some, hview]

/-- A step of the process that is one of the router to a source. -/
theorem Ran.pipeline_of_router {b : Router.Action (d.plan.width l)}
    (h : Ran s s' process process')
    (hstep : Router.step (d.plan.wiring l) (process.view l) b = some (process'.view l)) :
    Pipeline.runProcess (d.plan.wiring l) (s.pipeline l) b = some (s'.pipeline l) := by
  simp only [Pipeline.runProcess, State.pipeline, h.old, h.new, h.groups l, h.past,
    Option.map_some, Option.bind_eq_bind, Option.bind_some, hstep]

end ran

/-- What a source sees of a step is nothing or a step of its own deployment. -/
def Sees (s s' : State d) (l : d.SourceId) : Prop :=
  s'.deployment l = s.deployment l ∨
    ∃ a, Deployment.step (d.site l) (s.deployment l) a = some (s'.deployment l)

theorem sees_pipeline {l : d.SourceId} {a : Pipeline.Action (d.plan.width l)}
    (hnot : ∀ j task result, a ≠ .router (.sink j (.attempted task result)))
    (hstep : Pipeline.step (d.plan.wiring l) (s.pipeline l) a = some (s'.pipeline l))
    (hheld : s'.held = s.held) : Sees s s' l := by
  refine Or.inr ⟨.pipeline a, ?_⟩
  have hpipeline : Deployment.pipelineStep (d.site l) (s.deployment l) a =
      (Pipeline.step (d.plan.wiring l) (s.pipeline l) a).map
        (fun pipeline => { s.deployment l with pipeline := pipeline }) := by
    unfold Deployment.pipelineStep
    split
    · exact absurd rfl (hnot _ _ _)
    · rfl
  rw [Deployment.step, hpipeline, hstep]
  simp only [Option.map_some, State.deployment, hheld]

theorem sees_same {l : d.SourceId} (hpipeline : s'.pipeline l = s.pipeline l)
    (hheld : s'.held = s.held) : Sees s s' l := by
  left
  simp only [State.deployment, hpipeline, hheld]

/-- The steps of the brokers leave the process alone. -/
theorem ofBrokers_same {w : ℕ} {wiring : Router.Wiring w} {x y : Pipeline.State w}
    {a : Pipeline.Action w} (ha : ofBrokers a = true)
    (hs : Pipeline.step wiring x a = some y) : y.process = x.process ∧ y.past = x.past := by
  cases a with
  | append r =>
    simp only [Pipeline.step, Pipeline.append] at hs
    split at hs
    · cases hs
      exact ⟨rfl, rfl⟩
    · contradiction
  | assign p =>
    cases hs
    exact ⟨rfl, rfl⟩
  | revoke p =>
    cases hs
    exact ⟨rfl, rfl⟩
  | applyCommit c =>
    obtain ⟨entry, -, hs⟩ := Option.bind_eq_some_iff.mp hs
    cases hs
    exact ⟨rfl, rfl⟩
  | loseCommit c =>
    obtain ⟨entry, -, hs⟩ := Option.bind_eq_some_iff.mp hs
    cases hs
    exact ⟨rfl, rfl⟩
  | _ => contradiction

theorem brokerStep_some {k : d.SourceId} {a : Pipeline.Action (d.plan.width k)}
    (hs : brokerStep s k a = some s') :
    ofBrokers a = true ∧ Pipeline.step (d.plan.wiring k) (s.pipeline k) a = some (s'.pipeline k) ∧
      s' = s.setGroup k (Group.of (s'.pipeline k)) := by
  simp only [brokerStep, Option.ite_none_right_eq_some] at hs
  obtain ⟨ha, hs⟩ := hs
  obtain ⟨y, hy, rfl⟩ := Option.map_eq_some_iff.mp hs
  obtain ⟨hprocess, hpast⟩ := ofBrokers_same ha hy
  have hview : (s.setGroup k (Group.of y)).pipeline k = y := by
    simp only [State.pipeline, State.setGroup, Function.update_self, Group.of]
    rw [show (fun j => s.past (d.plan.target k j)) = y.past from hpast.symm,
      show s.process.map (fun process => process.view k) = y.process from hprocess.symm]
  rw [hview]
  exact ⟨ha, hy, rfl⟩

theorem sees_broker {k : d.SourceId} {a : Pipeline.Action (d.plan.width k)}
    (hs : brokerStep s k a = some s') (l : d.SourceId) : Sees s s' l := by
  obtain ⟨ha, hstep, hs'⟩ := brokerStep_some hs
  by_cases hl : l = k
  · subst hl
    refine sees_pipeline ?_ hstep (by rw [hs', State.setGroup])
    rintro j task result rfl
    contradiction
  · refine sees_same ?_ (by rw [hs', State.setGroup])
    rw [hs']
    simp only [State.pipeline, State.setGroup, Function.update_of_ne hl]

theorem sees_start {now : ℕ} (hs : startProcess s now = some s') (l : d.SourceId) :
    Sees s s' l := by
  unfold startProcess at hs
  split at hs
  · rename_i hnone
    cases hs
    refine sees_pipeline (a := .start now) (by simp) ?_ rfl
    simp only [Pipeline.step, Pipeline.startProcess, State.pipeline, hnone, Option.map_none,
      Option.map_some]
    rfl
  · contradiction

theorem sees_crash (hs : crash s = some s') (l : d.SourceId) : Sees s s' l := by
  unfold crash at hs
  split at hs
  · contradiction
  · rename_i process hp
    cases hs
    refine sees_pipeline (a := .crash) (by simp) ?_ rfl
    have hview : (s.pipeline l).process = some (process.view l) := by
      simp only [State.pipeline, hp, Option.map_some]
    simp only [Pipeline.step, Pipeline.crash, hview, pipeline_written]
    rfl

/-- A source receives a record, and no other source sees it. -/
theorem step_recv {process process' : Process.State d.plan} {k : d.SourceId} {r : Record}
    (hs : Process.step process (.part k (.source (.recv r))) = some process') :
    Router.step (d.plan.wiring k) (process.view k) (.source (.recv r)) =
        some (process'.view k) ∧
      ∀ l, l ≠ k → process'.view l = process.view l := by
  cases Process.step_move hs with
  | part k a next hstep hsinks hallows hrun =>
    rw [Process.view_setPart_self k next hsinks]
    exact ⟨hstep, fun l hl => Process.view_setPart_of_ne hl next⟩

theorem sees_recv {k : d.SourceId} {p : TopicPartition} (hs : recv s k p = some s')
    (l : d.SourceId) : Sees s s' l := by
  simp only [recv, Option.bind_eq_bind, Option.bind_eq_some_iff] at hs
  obtain ⟨r, hr, t, hrun, hs⟩ := hs
  obtain ⟨process, process', hstep, hran⟩ := runProcess_ran hrun
  obtain ⟨hself, hother⟩ := step_recv hstep
  cases hs
  by_cases hl : l = k
  · subst hl
    refine sees_pipeline (a := .recv p) (by simp) ?_ hran.held
    have hnext : ((s.pipeline l).log p).next ((s.pipeline l).position p) = some r := hr
    simp only [Pipeline.step, Pipeline.recv, hnext, Option.bind_eq_bind, Option.bind_some,
      hran.pipeline_of_router hself]
    simp only [State.pipeline, State.setGroup, Function.update_self]
  · refine sees_same ?_ hran.held
    rw [← hran.pipeline_of_view (hother l hl)]
    simp only [State.pipeline, State.setGroup, Function.update_of_ne hl]

theorem step_sink_alone {process process' : Process.State d.plan} {i : d.SinkId} {b : Sink.Action}
    (hs : Process.step process (.control (.sink i b)) = some process') :
    process'.parts = process.parts ∧ (∀ e, b ≠ .arrive e) ∧
      ∃ sink, Sink.step (d.plan.runtimes i) (process.control.sinks i) b = some sink ∧
        process'.control.sinks = Function.update process.control.sinks i sink := by
  cases Process.step_move hs with
  | control a control hcontrol hadmits =>
    rcases Process.control_sinks hcontrol with ⟨_, _, sink, ha, hsink, hsinks⟩ | ⟨hnot, -⟩
    · cases ha
      refine ⟨rfl, ?_, sink, hsink, hsinks⟩
      rintro e rfl
      contradiction
    · exact absurd rfl (hnot _ _)

/-- A sink alone takes a step; a source sees it if the sink is one of its own. -/
theorem step_control_sink {process process' : Process.State d.plan} {i : d.SinkId}
    {b : Sink.Action} (hs : Process.step process (.control (.sink i b)) = some process')
    (l : d.SourceId) :
    (process'.view l = process.view l ∧ ∀ j, d.plan.target l j ≠ i) ∨
      ∃ j, d.plan.target l j = i ∧
        Router.step (d.plan.wiring l) (process.view l) (.sink j b) = some (process'.view l) := by
  obtain ⟨hparts, hnot, sink, hsink, hsinks⟩ := step_sink_alone hs
  refine (Process.view_update (congrFun hparts l) hsinks).imp id ?_
  rintro ⟨j, rfl, hview⟩
  exact ⟨j, rfl, Process.step_view_sink hsink hnot hview⟩

theorem answer_some {i : d.SinkId} {task : ℕ} {exchange : Exchange}
    (hs : answer s i task exchange = some s') :
    ∃ process process' w result taken t, (process.control.sinks i).writes[task]? = some w ∧
      perform d.formats (d.sink i).1 (d.sink i).2 (Sink.batches w.envelopes) exchange =
        some (result, taken) ∧
      Process.step process (.control (.sink i (.attempted task result))) = some process' ∧
      Ran s t process process' ∧
      s' = { t with held := Function.update s.held i (s.held i ++ taken) } := by
  simp only [answer, Option.bind_eq_bind, Option.bind_eq_some_iff] at hs
  obtain ⟨process, hp, w, hw, ⟨result, taken⟩, hperform, t, hrun, hs⟩ := hs
  obtain ⟨old, process', hstep, hran⟩ := runProcess_ran hrun
  obtain rfl := Option.some.inj (hp.symm.trans hran.old)
  cases hs
  exact ⟨process, process', w, result, taken, t, hw, hperform, hstep, hran, by rw [hran.held]⟩

theorem sees_answer {i : d.SinkId} {task : ℕ} {exchange : Exchange}
    (hs : answer s i task exchange = some s') (l : d.SourceId) : Sees s s' l := by
  obtain ⟨process, process', w, result, taken, t, hw, hperform, hstep, hran, rfl⟩ := answer_some hs
  rcases step_control_sink hstep l with ⟨hview, hnot⟩ | ⟨j, rfl, hrouter⟩
  · left
    have hpipeline := hran.pipeline_of_view hview
    simp only [State.deployment, Deployment.State.mk.injEq]
    refine ⟨hpipeline, funext fun j => ?_⟩
    rw [Function.update_of_ne (hnot j)]
  · refine Or.inr ⟨.answer j task exchange, ?_⟩
    have hwrite : Deployment.writeOf (s.deployment l) j task = some w := by
      simp only [Deployment.writeOf, State.deployment, State.pipeline, hran.old, Option.map_some,
        Option.bind_some]
      exact hw
    have hperform' : perform (d.site l).formats ((d.site l).sinks j).1 ((d.site l).sinks j).2
        (Sink.batches w.envelopes) exchange = some (result, taken) := hperform
    have hpipeline : Pipeline.step (d.site l).wiring (s.deployment l).pipeline
        (.router (.sink j (.attempted task result))) = some (t.pipeline l) :=
      hran.pipeline_of_router hrouter
    have hheld := Function.update_comp_eq_of_injective s.held (d.plan.target_injective l) j
      (s.held (d.plan.target l j) ++ taken)
    simp only [Deployment.step, Deployment.answer, hwrite, hperform', hpipeline,
      Option.bind_eq_bind, Option.bind_some, Option.some.injEq]
    simp only [State.deployment, Deployment.State.mk.injEq]
    exact ⟨rfl, hheld.symm⟩

/-- What a source sees of a step that the process takes by itself. -/
theorem sees_process {a : Process.Action d.plan} (hs : processStep s a = some s')
    (hrunning : ∀ process, s.process = some process →
      ∀ k, Router.Inv (d.plan.wiring k) (process.view k))
    (l : d.SourceId) : Sees s s' l := by
  obtain ⟨hrun, hrecv, hattempted⟩ := processStep_some hs
  obtain ⟨process, process', hstep, hran⟩ := runProcess_ran hrun
  have hmove := Process.step_move hstep
  rcases hmove.sees (hrunning process hran.old) l with hview | ⟨b, hseen, hrouter⟩
  · exact sees_same (hran.pipeline_of_view hview) hran.held
  have hrecv' : ∀ r, b ≠ .source (.recv r) := by
    rintro r rfl
    cases hseen
    exact hrecv l r rfl
  refine sees_pipeline (a := .router b) ?_ ?_ hran.held
  · intro j task result hb
    cases hb
    cases hseen with
    | own =>
      cases hmove with
      | part _ _ r hs hsinks hallows hrun => contradiction
    | sink => exact hattempted _ task result rfl
  · have hrouterStep : Pipeline.routerStep (d.plan.wiring l) (s.pipeline l) b =
        Pipeline.runProcess (d.plan.wiring l) (s.pipeline l) b := by
      unfold Pipeline.routerStep
      split
      · exact absurd rfl (hrecv' _)
      · rfl
    rw [Pipeline.step, hrouterStep, hran.pipeline_of_router hrouter]

/-- The process is in a run of its own, and to each source the deployment is one of its own. -/
structure Inv (s : State d) : Prop where
  running : ∀ process, s.process = some process →
    ∃ now, (Process.system d.plan now).Reachable process
  deployment : ∀ k, (Deployment.system (d.site k)).Reachable (s.deployment k)

theorem step_sees {a : Action d} (h : Inv s) (hs : step s a = some s') (l : d.SourceId) :
    Sees s s' l := by
  cases a with
  | broker k action => exact sees_broker hs l
  | start now => exact sees_start hs l
  | crash => exact sees_crash hs l
  | recv k p => exact sees_recv hs l
  | process action =>
    refine sees_process hs (fun process hp k => ?_) l
    obtain ⟨now, hreach⟩ := h.running process hp
    exact Router.reachable_inv (Process.reachable_view hreach k)
  | answer i task exchange => exact sees_answer hs l

/-- What becomes of the process: nothing, it starts, it is gone, or it takes a step. -/
theorem step_process {a : Action d} (hs : step s a = some s') :
    s'.process = s.process ∨ s'.process = none ∨
      (∃ now, s'.process = some (Process.State.start d.plan now)) ∨
      ∃ b process process', s.process = some process ∧
        Process.step process b = some process' ∧ s'.process = some process' := by
  have hrun : ∀ {b : Process.Action d.plan} {t : State d}, runProcess s b = some t →
      ∃ b process process', s.process = some process ∧
        Process.step process b = some process' ∧ t.process = some process' := by
    intro b t ht
    obtain ⟨process, process', hstep, hran⟩ := runProcess_ran ht
    exact ⟨b, process, process', hran.old, hstep, hran.new⟩
  cases a with
  | broker k action =>
    obtain ⟨-, -, hs'⟩ := brokerStep_some hs
    exact Or.inl (by rw [hs', State.setGroup])
  | start now =>
    simp only [step, startProcess] at hs
    split at hs
    · cases hs
      exact Or.inr (Or.inr (Or.inl ⟨now, rfl⟩))
    · contradiction
  | crash =>
    simp only [step, crash] at hs
    split at hs
    · contradiction
    · cases hs
      exact Or.inr (Or.inl rfl)
  | recv k p =>
    simp only [step, recv, Option.bind_eq_bind, Option.bind_eq_some_iff] at hs
    obtain ⟨r, hr, t, ht, hs⟩ := hs
    cases hs
    obtain ⟨b, process, process', hp, hstep, hnext⟩ := hrun ht
    exact Or.inr (Or.inr (Or.inr ⟨b, process, process', hp, hstep, hnext⟩))
  | process action => exact Or.inr (Or.inr (Or.inr (hrun (processStep_some hs).1)))
  | answer i task exchange =>
    obtain ⟨process, process', w, result, taken, t, -, -, hstep, hran, rfl⟩ := answer_some hs
    exact Or.inr (Or.inr (Or.inr ⟨_, process, process', hran.old, hstep, hran.new⟩))

theorem step_inv {a : Action d} (h : Inv s) (hs : step s a = some s') : Inv s' := by
  refine ⟨fun process' hp' => ?_, fun k => ?_⟩
  · rcases step_process hs with hsame | hnone | ⟨now, hstart⟩ | ⟨b, process, next, hp, hb, hnext⟩
    · exact h.running process' (hsame ▸ hp')
    · rw [hnone] at hp'
      contradiction
    · obtain rfl := Option.some.inj (hstart.symm.trans hp')
      exact ⟨now, System.ReachableBy.start⟩
    · obtain rfl := Option.some.inj (hnext.symm.trans hp')
      obtain ⟨now, hreach⟩ := h.running process hp
      exact ⟨now, System.Reachable.next hreach hb⟩
  · rcases step_sees h hs k with hsame | ⟨b, hb⟩
    · exact hsame ▸ h.deployment k
    · exact System.Reachable.next (h.deployment k) hb

/-- In every run of a deployment each source is in a run of its own deployment. -/
theorem reachable_inv (h : (system d).Reachable s) : Inv s := by
  have hstart : Inv (State.start d) := by
    refine ⟨?_, fun k => System.ReachableBy.start⟩
    intro process hp
    contradiction
  apply System.Reachable.invariant hstart _ h
  intro t a t' hi hs
  exact step_inv hi hs

end Rustper.Cluster
