import Rustper.FanoutProgress
import Rustper.RouterLinks
import Rustper.TaskDrain
import Rustper.Topology

/-!
The whole process: `topology::run` with all of its sources, their fan-outs and the sinks
they share. A source and its fan-outs step as in the router, on what they see of the
process, and the sinks step with `run`; to a source the envelopes of the others are foreign
ones. So a run of the process is for each source a run of the router, and it is a run of
the shutdown model, with the results that the sources really have.
-/
namespace Rustper.Process

open TransitionSystem

/-- The tasks of a process: its sources and sinks, and the destinations of each fan-out. -/
structure Plan (m n : ℕ) where
  sources : Fin m → Source.KafkaSource
  runtimes : Fin n → Sink.Runtime
  outputs : Fin m → List (Fin n)
  ids : Function.Injective (fun k => (sources k).id)
  distinct : ∀ k, (outputs k).Nodup

variable {m n : ℕ}

namespace Plan

variable (plan : Plan m n)

abbrev width (k : Fin m) : ℕ := (plan.outputs k).length

def target (k : Fin m) (i : Fin (plan.width k)) : Fin n := (plan.outputs k).get i

/-- A source with the sinks it is wired to. -/
def wiring (k : Fin m) : Router.Wiring (plan.width k) where
  source := plan.sources k
  runtimes := fun i => plan.runtimes (plan.target k i)

theorem target_injective (k : Fin m) : Function.Injective (plan.target k) :=
  List.nodup_iff_injective_get.mp (plan.distinct k)

end Plan

/-- A source task and the fan-out tasks it has spawned. -/
structure Part (w : ℕ) where
  source : Source.State
  fanouts : List (Fanout.State w)

structure State (plan : Plan m n) where
  control : Shutdown.State n
  parts : (k : Fin m) → Part (plan.width k)

inductive Action (plan : Plan m n)
  | part (k : Fin m) (action : Router.Action (plan.width k))
  | sourceEnds (k : Fin m)
  | control (action : Shutdown.Action n)
  | idle

variable {plan : Plan m n}

def State.start (plan : Plan m n) (now : ℕ) : State plan where
  control := Shutdown.State.start m n now
  parts := fun _ => ⟨Source.State.start now, []⟩

namespace State

variable (s : State plan)

/-- What a source sees of the process. -/
def view (k : Fin m) : Router.State (plan.width k) where
  source := (s.parts k).source
  fanouts := (s.parts k).fanouts
  sinks := fun i => s.control.sinks (plan.target k i)

/-- The source has gone on. -/
def setPart (k : Fin m) (r : Router.State (plan.width k)) : State plan :=
  { s with parts := Function.update s.parts k ⟨r.source, r.fanouts⟩ }

/-- No sender of the source is left: it has ended, and so have its fan-outs. -/
def released (k : Fin m) : Bool :=
  (s.parts k).source.outcome.isSome && (s.parts k).fanouts.all (fun f => f.phase.over)

/-- The steps of a source and its fan-outs. The shutdown of a source is its token or its
abortion, and both come after `run` has cancelled the token. -/
def allows : {w : ℕ} → Router.Action w → Bool
  | _, .sink _ _ | _, .foreign _ _ => false
  | _, .source .shutdown => s.control.phase.cancelled
  | _, _ => true

/-- The steps of `run` and the sinks. An envelope arrives from a fan-out only, and the
channel of a sink is closed once no sender for it is left; `source_tasks.shutdown()` waits
for the sources. -/
def admits : Shutdown.Action n → Bool
  | .source _ _ | .sink _ (.arrive _) => false
  | .sink i .closeInput => decide (∀ k, i ∈ plan.outputs k → s.released k = true)
  | .stopped => decide (∀ k, (s.parts k).source.outcome.isSome = true)
  | _ => true

end State

/-- What a step of a source does to the channels. -/
def passOn (s : State plan) (k : Fin m) : Router.Action (plan.width k) →
    Option (Shutdown.State n)
  | .enqueue sequence i => do
    let f ← (s.parts k).fanouts[sequence]?
    Shutdown.step plan.runtimes s.control
      (.sink (plan.target k i) (.arrive (Router.envelopeOf (plan.wiring k) sequence f)))
  | _ => some s.control

def partStep (s : State plan) (k : Fin m) (action : Router.Action (plan.width k)) :
    Option (State plan) := do
  let r ← Router.step (plan.wiring k) (s.view k) action
  let control ← passOn s k action
  if s.allows action = true then some { s.setPart k r with control := control } else none

/-- The task of a source ends with what its `run` returns. -/
def sourceEnds (s : State plan) (k : Fin m) : Option (State plan) := do
  let result ← (s.parts k).source.outcome
  let control ← Shutdown.step plan.runtimes s.control (.source k (result.mapError .source))
  some { s with control := control }

def controlStep (s : State plan) (action : Shutdown.Action n) : Option (State plan) := do
  let control ← Shutdown.step plan.runtimes s.control action
  if s.admits action = true then some { s with control := control } else none

/-- The process exits when `run` returns. -/
def step (s : State plan) (action : Action plan) : Option (State plan) :=
  match s.control.phase, action with
  | _, .idle => some s
  | .returned _, _ => none
  | _, .part k action => partStep s k action
  | _, .sourceEnds k => sourceEnds s k
  | _, .control action => controlStep s action

def system (plan : Plan m n) (now : ℕ) : System (State plan) (Action plan) :=
  ⟨State.start plan now, step⟩

variable {s s' : State plan}

/-- What a step does to a source and to `run` with its sinks. -/
inductive Move (s : State plan) : Action plan → State plan → Prop
  | part (k : Fin m) (a : Router.Action (plan.width k)) (r : Router.State (plan.width k))
      (hs : Router.step (plan.wiring k) (s.view k) a = some r)
      (hsinks : r.sinks = (s.view k).sinks) (hallows : s.allows a = true)
      (hrun : ∀ result, s.control.phase ≠ .returned result) :
      Move s (.part k a) (s.setPart k r)
  | enqueue (k : Fin m) (sequence : ℕ) (i : Fin (plan.width k))
      (f f' : Fanout.State (plan.width k)) (control : Shutdown.State n)
      (hf : (s.parts k).fanouts[sequence]? = some f) (hs : Fanout.step f (.enqueue i) = some f')
      (hcontrol : Shutdown.step plan.runtimes s.control (.sink (plan.target k i)
        (.arrive (Router.envelopeOf (plan.wiring k) sequence f))) = some control) :
      Move s (.part k (.enqueue sequence i))
        { control := control
          parts := Function.update s.parts k
            ⟨(s.parts k).source, (s.parts k).fanouts.set sequence f'⟩ }
  | sourceEnds (k : Fin m) (result : Except Source.SourceError Unit)
      (control : Shutdown.State n) (hresult : (s.parts k).source.outcome = some result)
      (hcontrol : Shutdown.step plan.runtimes s.control
        (.source k (result.mapError .source)) = some control) :
      Move s (.sourceEnds k) { s with control := control }
  | control (a : Shutdown.Action n) (control : Shutdown.State n)
      (hcontrol : Shutdown.step plan.runtimes s.control a = some control)
      (hadmits : s.admits a = true) : Move s (.control a) { s with control := control }
  | idle : Move s .idle s

theorem partStep_move {k : Fin m} {a : Router.Action (plan.width k)}
    (hrun : ∀ result, s.control.phase ≠ .returned result) (hs : partStep s k a = some s') :
    Move s (.part k a) s' := by
  simp only [partStep, Option.bind_eq_bind, Option.bind_eq_some_iff,
    Option.ite_none_right_eq_some, Option.some.injEq] at hs
  obtain ⟨r, hr, control, hpass, hallows, rfl⟩ := hs
  cases Router.step_taken hr with
  | enqueue sequence i f f' sink hf hs harrive =>
    obtain ⟨g, hg, hcontrol⟩ := Option.bind_eq_some_iff.mp hpass
    obtain rfl := Option.some.inj (hg.symm.trans hf)
    exact .enqueue k sequence i g f' control hg hs hcontrol
  | sink i a sink hs hnot => contradiction
  | foreign i e sink hforeign hs => contradiction
  | _ =>
    obtain rfl := Option.some.inj hpass
    exact .part k _ _ hr rfl hallows hrun

theorem step_move {a : Action plan} (hs : step s a = some s') : Move s a s' := by
  unfold step at hs
  split at hs
  · obtain rfl := Option.some.inj hs
    exact .idle
  · contradiction
  · rename_i k a hrun
    exact partStep_move hrun hs
  · simp only [sourceEnds, Option.bind_eq_bind, Option.bind_eq_some_iff, Option.some.injEq] at hs
    obtain ⟨result, hresult, control, hcontrol, rfl⟩ := hs
    exact .sourceEnds _ result control hresult hcontrol
  · simp only [controlStep, Option.bind_eq_bind, Option.bind_eq_some_iff,
      Option.ite_none_right_eq_some, Option.some.injEq] at hs
    obtain ⟨control, hcontrol, hadmits, rfl⟩ := hs
    exact .control _ control hcontrol hadmits

section view

/-- Only a step of a sink changes the sinks. -/
theorem control_sinks {c c' : Shutdown.State n} {runtimes : Fin n → Sink.Runtime}
    {a : Shutdown.Action n} (hs : Shutdown.step runtimes c a = some c') :
    (∃ i b sink, a = .sink i b ∧ Sink.step (runtimes i) (c.sinks i) b = some sink ∧
      c'.sinks = Function.update c.sinks i sink) ∨
    ((∀ i b, a ≠ .sink i b) ∧ c'.sinks = c.sinks) := by
  have hmove := Shutdown.step_move hs
  cases a with
  | sink i b =>
    refine Or.inl ⟨i, b, ?_⟩
    unfold Shutdown.step at hs
    split at hs
    · contradiction
    · obtain ⟨sink, tasks, hsink, -, rfl⟩ := Shutdown.sinkStep_eq_some hs
      exact ⟨sink, rfl, hsink, rfl⟩
  | _ =>
    refine Or.inr ⟨by simp, ?_⟩
    cases hmove <;> rfl

/-- A sink steps; a source sees it if the sink is one of its own. -/
theorem view_update {l : Fin m} {i : Fin n} {sink : Sink.State} (hparts : s'.parts l = s.parts l)
    (hsinks : s'.control.sinks = Function.update s.control.sinks i sink) :
    (s'.view l = s.view l ∧ ∀ j, plan.target l j ≠ i) ∨ ∃ j, plan.target l j = i ∧
      s'.view l = { s.view l with sinks := Function.update (s.view l).sinks j sink } := by
  simp only [State.view, hparts, hsinks]
  by_cases hj : ∃ j, plan.target l j = i
  · obtain ⟨j, rfl⟩ := hj
    refine Or.inr ⟨j, rfl, ?_⟩
    have hcomp := Function.update_comp_eq_of_injective s.control.sinks
      (plan.target_injective l) j sink
    exact congrArg (Router.State.mk (s.parts l).source (s.parts l).fanouts) hcomp
  · push Not at hj
    have hcomp := Function.update_comp_eq_of_forall_ne s.control.sinks sink hj
    exact Or.inl ⟨congrArg (Router.State.mk (s.parts l).source (s.parts l).fanouts) hcomp, hj⟩

theorem view_setPart_self (k : Fin m) (r : Router.State (plan.width k))
    (hsinks : r.sinks = (s.view k).sinks) : (s.setPart k r).view k = r := by
  simp only [State.setPart, State.view, Function.update_self]
  rw [show (fun i => s.control.sinks (plan.target k i)) = r.sinks from hsinks.symm]

theorem view_setPart_of_ne {k l : Fin m} (hl : l ≠ k) (r : Router.State (plan.width k)) :
    (s.setPart k r).view l = s.view l := by
  simp only [State.setPart, State.view, Function.update_of_ne hl]

/-- What a step of the process is to a source: its own, one of a sink it feeds, or the arrival
of an envelope that another source has sent. -/
inductive Seen (l : Fin m) : Action plan → Router.Action (plan.width l) → Prop
  | own (a : Router.Action (plan.width l)) : Seen l (.part l a) a
  | sink (j : Fin (plan.width l)) (b : Sink.Action) :
      Seen l (.control (.sink (plan.target l j) b)) (.sink j b)
  | foreign (k : Fin m) (sequence : ℕ) (i : Fin (plan.width k)) (j : Fin (plan.width l))
      (e : Sink.SinkEnvelope) : Seen l (.part k (.enqueue sequence i)) (.foreign j e)

/-- What a source sees of a step is nothing or a step of the router. -/
def Sees (s s' : State plan) (a : Action plan) (l : Fin m) : Prop :=
  s'.view l = s.view l ∨
    ∃ b, Seen l a b ∧ Router.step (plan.wiring l) (s.view l) b = some (s'.view l)

/-- A sink of the source steps by itself. -/
theorem step_view_sink {l : Fin m} {j : Fin (plan.width l)} {b : Sink.Action} {sink : Sink.State}
    (hsink : Sink.step (plan.runtimes (plan.target l j)) (s.control.sinks (plan.target l j)) b =
      some sink) (hnot : ∀ e, b ≠ .arrive e)
    (hview : s'.view l = { s.view l with sinks := Function.update (s.view l).sinks j sink }) :
    Router.step (plan.wiring l) (s.view l) (.sink j b) = some (s'.view l) := by
  have hupdate : Router.updateSink (plan.wiring l) (s.view l) j b = some (s'.view l) := by
    rw [hview]
    exact Option.map_eq_some_iff.mpr ⟨sink, hsink, rfl⟩
  cases b with
  | arrive e => exact absurd rfl (hnot e)
  | _ => exact hupdate

theorem sees_sink {l : Fin m} {i : Fin n} {b : Sink.Action} {sink : Sink.State}
    (hsink : Sink.step (plan.runtimes i) (s.control.sinks i) b = some sink)
    (hnot : ∀ e, b ≠ .arrive e) (hparts : s'.parts l = s.parts l)
    (hsinks : s'.control.sinks = Function.update s.control.sinks i sink) :
    Sees s s' (.control (.sink i b)) l := by
  refine (view_update hparts hsinks).imp And.left ?_
  rintro ⟨j, rfl, hview⟩
  exact ⟨.sink j b, .sink j b, step_view_sink hsink hnot hview⟩

/-- An envelope that another source has sent. -/
theorem sees_arrive {k l : Fin m} {sequence : ℕ} {i : Fin (plan.width k)} {e : Sink.SinkEnvelope}
    {sink : Sink.State} (hsink : Sink.step (plan.runtimes (plan.target k i))
      (s.control.sinks (plan.target k i)) (.arrive e) = some sink)
    (hforeign : e.ack.source ≠ (plan.sources l).id)
    (hevents : ∀ x ∈ e.batch.events, x.source.componentId = e.ack.source)
    (hparts : s'.parts l = s.parts l)
    (hsinks : s'.control.sinks = Function.update s.control.sinks (plan.target k i) sink) :
    Sees s s' (.part k (.enqueue sequence i)) l := by
  refine (view_update hparts hsinks).imp And.left ?_
  rintro ⟨j, hj, hview⟩
  refine ⟨.foreign j e, .foreign k sequence i j e, ?_⟩
  rw [← hj] at hsink
  rw [Router.step, Router.foreign, if_pos ⟨hforeign, hevents⟩, hview]
  exact Option.map_eq_some_iff.mpr ⟨sink, hsink, rfl⟩

/-- The envelopes of a fan-out carry events of its source. -/
theorem envelope_events {k : Fin m} (h : Router.Inv (plan.wiring k) (s.view k)) {sequence : ℕ}
    {f : Fanout.State (plan.width k)} (hf : (s.parts k).fanouts[sequence]? = some f) :
    ∀ x ∈ f.batch.events, x.source.componentId = (plan.sources k).id := by
  obtain ⟨d, hd, hreach⟩ := h.fanouts sequence f hf
  intro x hx
  rw [Fanout.reachable_batch hreach,
    (h.source.dispatches d (List.mem_of_getElem? hd)).events] at hx
  obtain ⟨receipt, -, rfl⟩ := List.mem_map.mp hx
  rfl

theorem Move.sees {a : Action plan} (hmove : Move s a s')
    (h : ∀ k, Router.Inv (plan.wiring k) (s.view k)) (l : Fin m) : Sees s s' a l := by
  cases hmove with
  | part k a r hs hsinks hallows hrun =>
    by_cases hl : l = k
    · subst hl
      refine Or.inr ⟨a, .own a, ?_⟩
      rw [view_setPart_self l r hsinks, hs]
    · exact Or.inl (view_setPart_of_ne hl r)
  | enqueue k sequence i f f' control hf hs hcontrol =>
    rcases control_sinks hcontrol with ⟨_, _, sink, ha, hsink, hsinks⟩ | ⟨hnot, -⟩
    · cases ha
      by_cases hl : l = k
      · subst hl
        refine Or.inr ⟨.enqueue sequence i, .own _, ?_⟩
        have hcomp := Function.update_comp_eq_of_injective s.control.sinks
          (plan.target_injective l) i sink
        have hsink' : Sink.step ((plan.wiring l).runtimes i) ((s.view l).sinks i)
            (.arrive (Router.envelopeOf (plan.wiring l) sequence f)) = some sink := hsink
        have hf' : (s.view l).fanouts[sequence]? = some f := hf
        simp only [Router.step, Router.enqueue, Router.updateFanout, hf', hs, Option.bind_eq_bind,
          Option.bind_some, Router.updateSink, hsink', Option.map_some, Option.some.injEq]
        simp only [State.view, Function.update_self, hsinks]
        exact congrArg (Router.State.mk _ _) hcomp.symm
      · refine sees_arrive hsink ?_ (envelope_events (h k) hf) (Function.update_of_ne hl _ _) hsinks
        exact fun heq => hl (plan.ids heq).symm
    · exact absurd rfl (hnot _ _)
  | sourceEnds k result control hresult hcontrol =>
    rcases control_sinks hcontrol with ⟨_, _, _, ha, -⟩ | ⟨-, hsinks⟩
    · contradiction
    · exact Or.inl (by simp only [State.view, hsinks])
  | control a control hcontrol hadmits =>
    rcases control_sinks hcontrol with ⟨i, b, sink, rfl, hsink, hsinks⟩ | ⟨-, hsinks⟩
    · refine sees_sink hsink ?_ rfl hsinks
      rintro e rfl
      contradiction
    · exact Or.inl (by simp only [State.view, hsinks])
  | idle => exact Or.inl rfl

/-- To each source a run of the process is a run of the router. -/
theorem reachable_view {now : ℕ} (h : (system plan now).Reachable s) (k : Fin m) :
    (Router.system (plan.wiring k) now).Reachable (s.view k) := by
  have hall : ∀ k, (Router.system (plan.wiring k) now).Reachable (s.view k) := by
    have hstart : ∀ k, (Router.system (plan.wiring k) now).Reachable
        ((State.start plan now).view k) := fun k => System.ReachableBy.start
    apply System.Reachable.invariant
      (P := fun s => ∀ k, (Router.system (plan.wiring k) now).Reachable (s.view k)) hstart _ h
    intro t a t' ht hs l
    rcases (step_move hs).sees (fun k => Router.reachable_inv (ht k)) l with hsame | ⟨b, -, hb⟩
    · rw [hsame]
      exact ht l
    · exact (ht l).next hb
  exact hall k

end view

/-- To `run` a step of the process is one of its own or nothing. -/
theorem Move.control_step {a : Action plan} (hmove : Move s a s') :
    s'.control = s.control ∨
      ∃ b, Shutdown.step plan.runtimes s.control b = some s'.control ∧
        ∀ k result, b = .source k result → ∃ j : Fin m, j.val = k ∧
          ∃ outcome, (s.parts j).source.outcome = some outcome ∧
            result = outcome.mapError .source := by
  cases hmove with
  | part k a r hs hsinks hallows hrun => exact Or.inl rfl
  | enqueue k sequence i f f' control hf hs hcontrol =>
    exact Or.inr ⟨_, hcontrol, by simp⟩
  | sourceEnds k result control hresult hcontrol =>
    refine Or.inr ⟨_, hcontrol, fun j outcome ha => ?_⟩
    cases ha
    exact ⟨k, rfl, result, hresult, rfl⟩
  | control a control hcontrol hadmits =>
    refine Or.inr ⟨a, hcontrol, fun k result ha => ?_⟩
    rw [ha] at hadmits
    contradiction
  | idle => exact Or.inl rfl

theorem reachable_control {now : ℕ} (h : (system plan now).Reachable s) :
    (Shutdown.system plan.runtimes m now).Reachable s.control := by
  have hstart : (Shutdown.system plan.runtimes m now).Reachable (State.start plan now).control :=
    System.ReachableBy.start
  apply System.Reachable.invariant
    (P := fun s => (Shutdown.system plan.runtimes m now).Reachable s.control) hstart _ h
  intro t a t' ht hs
  rcases (step_move hs).control_step with hsame | ⟨b, hb, -⟩
  · rw [hsame]
    exact ht
  · exact System.Reachable.next ht hb

end Rustper.Process

namespace Rustper.Topology

variable {client : Source.OffsetList} {config : Config}

/-- The plan of the tasks that `run` spawns from a configuration. -/
def plan (client : Source.OffsetList) (config : Config) :
    Process.Plan config.sources.entries.length config.sinks.entries.length where
  sources := fun k => build client (config.sources.entries.get k).1 (config.sources.entries.get k).2
  runtimes := fun i =>
    (sender (config.sinks.entries.get i).1 (config.sinks.entries.get i).2).runtime
  outputs := fun k => (List.finRange config.sinks.entries.length).filter
    (fun i => lists (config.sinks.entries.get i).2 (config.sources.entries.get k).1)
  ids := by
    intro k l hkl
    simp only [build_id] at hkl
    have hentry := List.inj_on_of_nodup_map config.sources.nodupKeys
      (List.get_mem _ k) (List.get_mem _ l) hkl
    exact List.nodup_iff_injective_get.mp config.sources.nodupKeys.nodup hentry
  distinct := fun k => (List.nodup_finRange _).filter _

/-- The source tasks are those of the plan. -/
theorem wire_plan (client : Source.OffsetList) (config : Config) :
    wire client config = some (List.ofFn fun k =>
      { source := (plan client config).sources k
        destinations := ((plan client config).outputs k).map
          (fun i => sender (config.sinks.entries.get i).1 (config.sinks.entries.get i).2) }) := by
  have hsinks := List.map_get_finRange config.sinks.entries
  have hsources := List.ofFn_get config.sources.entries
  rw [wire_eq]
  conv_lhs => rw [← hsources, List.map_ofFn]
  refine congrArg (fun f => some (List.ofFn f)) (funext fun k => ?_)
  simp only [Function.comp_apply, sourceTask, plan, SourceTask.mk.injEq, true_and]
  conv_lhs => rw [← hsinks]
  rw [List.filter_map, List.map_map]
  rfl

end Rustper.Topology
