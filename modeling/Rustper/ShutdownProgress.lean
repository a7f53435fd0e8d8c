import Rustper.ExitStatus
import Rustper.SinkProgress

/-!
The shutdown comes to its end. A step of a sink does its share of what that sink has left
to do, a result that is joined leaves the set, and a phase of `topology::run` is not entered
twice; and once the token is cancelled the sink that the drain waits for can always go on.
-/
namespace Rustper.Shutdown

open TransitionSystem JoinSet

variable {n : ℕ} {runtimes : Fin n → Sink.Runtime} {s s' : State n}

/-- Steps left to `run` itself, but for the results it joins. -/
def phaseWork : Phase → ℕ
  | .running => 4
  | .stopping _ => 3
  | .draining _ => 2
  | .closing _ => 1
  | .returned _ => 0

/-- Tasks that are not joined yet. -/
def unjoined {ι ε : Type} (tasks : JoinSet ι ε) : ℕ :=
  tasks.running.length + tasks.finished.length

def State.remaining (runtimes : Fin n → Sink.Runtime) (s : State n) : ℕ :=
  phaseWork s.phase + unjoined s.sourceTasks + unjoined s.sinkTasks +
    ∑ i, (s.sinks i).remaining (runtimes i)

def work : Action n → ℕ
  | .sink _ a => Sink.work a
  | .source _ _ => 0
  | _ => 1

/-- An envelope that still comes in brings the work on it. -/
def pay (runtimes : Fin n → Sink.Runtime) : Action n → ℕ
  | .sink i a => Sink.pay (runtimes i) a
  | _ => 0

/-- Everything that can happen but the arrival of an envelope. -/
def Sending : Action n → Prop
  | .sink _ (.arrive _) => True
  | _ => False

section tasks

variable {ι ε : Type} {tasks rest : JoinSet ι ε}

theorem unjoined_finish [DecidableEq ι] {i : ι} {result : Except ε Unit}
    (h : tasks.finish i result = some rest) : unjoined rest = unjoined tasks := by
  obtain ⟨hmem, hrunning, hfinished⟩ := finish_eq_some h
  have hpos := List.length_pos_of_mem hmem
  rw [unjoined, hrunning, hfinished, List.length_append, List.length_erase_of_mem hmem,
    List.length_singleton, unjoined]
  omega

theorem unjoined_again (h : joinAll tasks = .again rest) : unjoined rest + 1 = unjoined tasks := by
  obtain ⟨i, hfinished, hrunning⟩ := joinAll_eq_again h
  rw [unjoined, unjoined, hfinished, hrunning, List.length_cons]
  omega

theorem unjoined_returned {result : Except ε Unit} (h : joinAll tasks = .returned result rest) :
    unjoined rest ≤ unjoined tasks := by
  unfold joinAll at h
  split at h
  · contradiction
  · rename_i i e tail hnext
    cases h
    obtain ⟨hfinished, hrunning⟩ := joinNext_eq_joined hnext
    rw [unjoined, unjoined, hfinished, hrunning, List.length_cons]
    omega
  · cases h
    exact Nat.le_refl _
  · contradiction

end tasks

theorem unjoined_endTask {i : Fin n} {sink sink' : Sink.State}
    {tasks tasks' : JoinSet (Fin n) TaskError} (h : endTask i sink sink' tasks = some tasks') :
    unjoined tasks' = unjoined tasks := by
  rcases endTask_cases h with rfl | ⟨outcome, -, hfinish⟩
  · rfl
  · exact unjoined_finish hfinish

theorem sink_remaining (h : Inv runtimes s) {i : Fin n} {a : Sink.Action} {sink : Sink.State}
    {tasks : JoinSet (Fin n) TaskError}
    (hsink : Sink.step (runtimes i) (s.sinks i) a = some sink)
    (htasks : endTask i (s.sinks i) sink s.sinkTasks = some tasks) :
    State.remaining runtimes
        { s with sinkTasks := tasks, sinks := Function.update s.sinks i sink } + Sink.work a ≤
      s.remaining runtimes + Sink.pay (runtimes i) a := by
  have hupdate := sum_update s.sinks (fun j sink => sink.remaining (runtimes j)) i sink
  have hless := Sink.step_remaining (h.sinks i) hsink
  have hsame := unjoined_endTask htasks
  simp only [State.remaining]
  omega

theorem joinSource_remaining (hs : joinSource s = some s') :
    s'.remaining runtimes + 1 ≤ s.remaining runtimes := by
  unfold Shutdown.joinSource at hs
  split at hs
  · rename_i tasks hphase hturn
    cases hs
    have hless := unjoined_again hturn
    simp only [State.remaining]
    omega
  · rename_i result tasks hphase hturn
    cases hs
    have hless := unjoined_returned hturn
    simp only [State.remaining, hphase, phaseWork]
    omega
  · contradiction

theorem joinSink_remaining (hs : joinSink s = some s') :
    s'.remaining runtimes + 1 ≤ s.remaining runtimes := by
  unfold Shutdown.joinSink at hs
  split at hs
  · rename_i tasks hphase hturn
    cases hs
    have hjoin : joinAll s.sinkTasks = .again tasks := by
      rw [joinAll_of_firstFailure (by rw [hturn]; simp), hturn]
    have hless := unjoined_again hjoin
    simp only [State.remaining]
    omega
  · rename_i result tasks hphase hturn
    cases hs
    have hjoin : joinAll s.sinkTasks = .returned result tasks := by
      rw [joinAll_of_firstFailure (by rw [hturn]; simp), hturn]
    have hless := unjoined_returned hjoin
    simp only [State.remaining, hphase, phaseWork]
    omega
  · contradiction

theorem joinDrain_remaining (hs : joinDrain s = some s') :
    s'.remaining runtimes + 1 ≤ s.remaining runtimes := by
  unfold Shutdown.joinDrain at hs
  split at hs
  · rename_i outcome tasks hphase hturn
    cases hs
    have hless := unjoined_again hturn
    simp only [State.remaining]
    omega
  · rename_i outcome drained tasks hphase hturn
    cases hs
    have hless := unjoined_returned hturn
    simp only [State.remaining, hphase, phaseWork]
    omega
  · contradiction

theorem step_remaining {a : Action n} (h : Inv runtimes s) (hs : step runtimes s a = some s') :
    s'.remaining runtimes + work a ≤ s.remaining runtimes + pay runtimes a := by
  unfold step at hs
  split at hs
  · contradiction
  · cases a with
    | sink i action =>
      obtain ⟨sink, tasks, hsink, htasks, rfl⟩ := sinkStep_eq_some hs
      exact sink_remaining h hsink htasks
    | source k result =>
      obtain ⟨tasks, hfinish, rfl⟩ := Option.map_eq_some_iff.mp hs
      have hsame := unjoined_finish hfinish
      simp only [State.remaining, work, pay]
      omega
    | interrupt =>
      simp only [act, interrupt] at hs
      split at hs
      · rename_i hphase
        cases hs
        simp only [State.remaining, hphase, phaseWork, work, pay]
        omega
      · contradiction
    | joinSource => exact joinSource_remaining hs
    | joinSink => exact joinSink_remaining hs
    | stopped =>
      simp only [act, stopped] at hs
      split at hs
      · rename_i outcome hphase
        cases hs
        have hnone : unjoined (JoinSet.spawn [] : JoinSet ℕ TaskError) = 0 := rfl
        simp only [State.remaining, hphase, phaseWork, work, pay, hnone]
        omega
      · contradiction
    | joinDrain => exact joinDrain_remaining hs
    | finish =>
      simp only [act, finish] at hs
      split at hs
      · rename_i result hphase
        cases hs
        simp only [State.remaining, hphase, phaseWork, work, pay]
        omega
      · contradiction

/-- What is left to do in all tasks is a potential of the topology. -/
def potential (runtimes : Fin n → Sink.Runtime) (sources now : ℕ) :
    Potential (system runtimes sources now) (Inv runtimes) work (pay runtimes) where
  value := State.remaining runtimes
  keeps := step_inv
  bound := step_remaining

/-- The tasks that are running are those whose sink has not returned. -/
structure Busy (s : State n) : Prop where
  nodup : s.sinkTasks.running.Nodup
  running : ∀ i ∈ s.sinkTasks.running, (s.sinks i).returned = false

theorem start_busy (sources n now : ℕ) : Busy (State.start sources n now) where
  nodup := List.nodup_finRange n
  running _ _ := rfl

theorem Busy.sink (h : Busy s) {i : Fin n} {sink : Sink.State}
    {tasks : JoinSet (Fin n) TaskError}
    (htasks : endTask i (s.sinks i) sink s.sinkTasks = some tasks) :
    Busy { s with sinkTasks := tasks, sinks := Function.update s.sinks i sink } := by
  unfold endTask at htasks
  split at htasks
  · obtain ⟨-, hrunning, -⟩ := finish_eq_some htasks
    refine ⟨hrunning ▸ h.nodup.erase i, ?_⟩
    intro j hj
    obtain ⟨hne, hmem⟩ := h.nodup.mem_erase_iff.mp (hrunning ▸ hj)
    simpa [hne] using h.running j hmem
  · rename_i hnot
    obtain rfl := Option.some.inj htasks
    refine ⟨h.nodup, ?_⟩
    intro j hj
    by_cases hji : j = i
    · subst hji
      cases hphase : sink.phase with
      | returned outcome => exact absurd hphase (hnot outcome (h.running j hj))
      | _ => simp [Sink.State.returned, hphase, Sink.Phase.isReturned]
    · simpa [hji] using h.running j hj

theorem step_busy {a : Action n} (h : Busy s) (hs : step runtimes s a = some s') : Busy s' := by
  cases step_move hs with
  | sink i a sink tasks hsink htasks => exact h.sink htasks
  | source k result tasks => exact ⟨h.nodup, h.running⟩
  | before _ phase sources tasks hbefore hphase hrunning _ =>
    exact ⟨hrunning ▸ h.nodup, fun i hi => h.running i (hrunning ▸ hi)⟩
  | drained result joined tasks hbefore hturn =>
    have hrunning := (joinAll_eq_returned hturn).1
    exact ⟨hrunning ▸ h.nodup, fun i hi => h.running i (hrunning ▸ hi)⟩
  | finish result hphase => exact ⟨h.nodup, h.running⟩

theorem reachable_busy {sources now : ℕ} (h : (system runtimes sources now).Reachable s) :
    Busy s := by
  apply System.Reachable.invariant (start_busy sources n now) _ h
  intro t a t' ht hs
  exact step_busy ht hs

/-- Until it returns, `run` keeps no sink from a step but the one that its token allows. -/
theorem sink_enabled (h : Inv runtimes s) (hrun : ∀ result, s.phase ≠ .returned result) {i : Fin n}
    {a : Sink.Action} (hcancelled : a = .shutdown → s.phase.cancelled = true) {sink : Sink.State}
    (hsink : Sink.step (runtimes i) (s.sinks i) a = some sink) :
    ∃ s', step runtimes s (.sink i a) = some s' ∧ s'.sinks = Function.update s.sinks i sink ∧
      s'.phase = s.phase := by
  obtain ⟨tasks, htasks⟩ : ∃ tasks, endTask i (s.sinks i) sink s.sinkTasks = some tasks := by
    unfold endTask
    split
    · rename_i hrun _
      rw [JoinSet.finish, if_pos (h.tasks i hrun)]
      exact ⟨_, rfl⟩
    · exact ⟨_, rfl⟩
  refine ⟨{ s with sinkTasks := tasks, sinks := Function.update s.sinks i sink }, ?_, rfl, rfl⟩
  have hallowed : ¬ (a = .shutdown ∧ s.phase.cancelled = false) := by
    rintro ⟨ha, hnot⟩
    rw [hcancelled ha] at hnot
    contradiction
  unfold step
  split
  · rename_i result hphase
    exact absurd hphase (hrun result)
  · simp only [act, sinkStep]
    rw [if_neg hallowed]
    simp [hsink, htasks]

/-- A result that is joined does not keep the drain, and it has nothing to wait for where
the sinks have nothing left to do: one that is running sees that it is cancelled. -/
theorem drain_enabled (hinv : Inv runtimes s) (hbusy : Busy s) {outcome : Except TaskError Unit}
    (hphase : s.phase = .draining outcome)
    (hcases : ∀ i, (s.sinks i).phase = .accepting ∨ (s.sinks i).returned = true) :
    (∃ s', step runtimes s .joinDrain = some s') ∨
      ∃ i s', step runtimes s (.sink i .shutdown) = some s' := by
  cases hfinished : s.sinkTasks.finished with
  | cons x rest =>
    obtain ⟨i, result⟩ := x
    refine Or.inl ?_
    cases result <;> simp [step, hphase, act, joinDrain, joinAll, joinNext, hfinished]
  | nil =>
    cases hrunning : s.sinkTasks.running with
    | nil =>
      refine Or.inl ?_
      simp [step, hphase, act, joinDrain, joinAll, joinNext, hfinished, hrunning]
    | cons i rest =>
      have hrun := hbusy.running i (hrunning ▸ List.mem_cons_self)
      have haccepting : (s.sinks i).phase = .accepting :=
        (hcases i).resolve_right (by rw [hrun]; simp)
      have hsink : Sink.step (runtimes i) (s.sinks i) .shutdown =
          some { s.sinks i with phase := .draining (.ok ()) } := by
        rw [Sink.step, Sink.shutdown, haccepting]
      obtain ⟨s', hs', -⟩ := sink_enabled hinv (by simp [hphase])
        (fun _ => by rw [hphase]; rfl) hsink
      exact Or.inr ⟨i, s', hs'⟩

section Quiet

variable {sources now : ℕ}
  (hquiet : (system runtimes sources now).Quiet work (fun a => ¬ Sending a) s)

include hquiet

theorem not_enabled {a : Action n} (hsending : ¬ Sending a) (hwork : work a = 1) :
    step runtimes s a = none := by
  cases hs : step runtimes s a with
  | none => rfl
  | some s' =>
    have hzero := hquiet.work_eq_zero (a := a) hsending hs
    omega

/-- While the drain waits, the sinks go on by themselves. -/
theorem quiet_sink (hinv : Inv runtimes s) {outcome : Except TaskError Unit}
    (hphase : s.phase = .draining outcome) (i : Fin n) :
    (Sink.system (runtimes i) now).Quiet Sink.work (fun a => Sink.internal a = true)
      (s.sinks i) := by
  refine hquiet.part_of (P := fun s => Inv runtimes s ∧ s.phase = .draining outcome)
    (Action.sink i) (fun s => s.sinks i) ?_ (fun b => rfl) ?_ ⟨hinv, hphase⟩
  · intro b hb hsending
    cases b <;> simp [Sending, Sink.internal] at hb hsending
  · intro t b sink ⟨hinv, hphase⟩ hb hsink
    obtain ⟨t', ht', hsinks, hsame⟩ := sink_enabled hinv (by simp [hphase])
      (fun _ => by rw [hphase]; rfl) hsink
    exact ⟨t', ht', by rw [hsinks, Function.update_self], step_inv hinv ht', hsame.trans hphase⟩

theorem quiet_draining (hinv : Inv runtimes s) (hbusy : Busy s) (outcome : Except TaskError Unit) :
    s.phase ≠ .draining outcome := by
  intro hphase
  have hcases : ∀ i, (s.sinks i).phase = .accepting ∨ (s.sinks i).returned = true := by
    intro i
    exact (Sink.quiet_cases (quiet_sink hquiet hinv hphase i)).imp And.left Sink.TornDown.returned
  rcases drain_enabled hinv hbusy hphase hcases with ⟨s', hs'⟩ | ⟨i, s', hs'⟩
  · rw [not_enabled hquiet (a := .joinDrain) id rfl] at hs'
    contradiction
  · rw [not_enabled hquiet (a := .sink i .shutdown) id rfl] at hs'
    contradiction

theorem quiet_returned (hinv : Inv runtimes s) (hbusy : Busy s)
    (hcancelled : s.phase.cancelled = true) : ∃ result, s.phase = .returned result := by
  cases hphase : s.phase with
  | running =>
    rw [hphase] at hcancelled
    contradiction
  | stopping outcome =>
    have hstopped := not_enabled hquiet (a := .stopped) id rfl
    simp [step, hphase, act, stopped] at hstopped
  | draining outcome => exact absurd hphase (quiet_draining hquiet hinv hbusy outcome)
  | closing result =>
    have hfinish := not_enabled hquiet (a := .finish) id rfl
    simp [step, hphase, act, finish] at hfinish
  | returned result => exact ⟨result, rfl⟩

end Quiet

/-- `run` does nothing more once it has returned. -/
theorem returned_quiet {sources now : ℕ} {result : Except TaskError Unit}
    (hphase : s.phase = .returned result) :
    (system runtimes sources now).Quiet work (fun a => ¬ Sending a) s := by
  apply System.Quiet.of_stable (P := fun s => s.phase = .returned result) _ hphase
  intro t a t' ht _ hs
  exact absurd ht (step_running hs result)

theorem step_cancelled {a : Action n} (hs : step runtimes s a = some s')
    (h : s.phase.cancelled = true) : s'.phase.cancelled = true := by
  have hrun : s.phase ≠ .running := by
    intro hphase
    rw [hphase] at h
    contradiction
  unfold step at hs
  split at hs
  · contradiction
  · cases a with
    | sink i action =>
      obtain ⟨sink, tasks, -, -, rfl⟩ := sinkStep_eq_some hs
      exact h
    | source k result =>
      obtain ⟨tasks, -, rfl⟩ := Option.map_eq_some_iff.mp hs
      exact h
    | joinDrain =>
      simp only [act, joinDrain] at hs
      split at hs
      · cases hs
        exact h
      · cases hs
        rfl
      · contradiction
    | stopped | finish =>
      simp only [act, stopped, finish] at hs
      split at hs
      · cases hs
        rfl
      · contradiction
    | interrupt =>
      simp only [act, interrupt] at hs
      contradiction
    | joinSource | joinSink =>
      simp only [act, joinSource, joinSink] at hs
      split at hs <;> contradiction

theorem run_cancelled {sources now : ℕ} {actions : List (Action n)}
    (hrun : (system runtimes sources now).run s actions = some s')
    (h : s.phase.cancelled = true) : s'.phase.cancelled = true := by
  induction actions generalizing s with
  | nil => exact Option.some.inj hrun ▸ h
  | cons a rest ih =>
    obtain ⟨t, ht, hrest⟩ := Option.bind_eq_some_iff.mp hrun
    exact ih hrest (step_cancelled ht h)

/-- The shutdown terminates. Once `run` has cancelled its token, whatever the sources, the
sinks, the clock and the destinations do: a run does no more work than was left and came in
with envelopes; it can go no further without a new envelope exactly when `topology::run` has
returned; and no state is without a way to that. -/
theorem shutdown_terminates {sources now : ℕ}
    (h : (system runtimes sources now).Reachable s) (hcancelled : s.phase.cancelled = true) :
    (∀ actions s', (system runtimes sources now).run s actions = some s' →
      (actions.map work).sum ≤ s.remaining runtimes + (actions.map (pay runtimes)).sum ∧
      ((system runtimes sources now).Quiet work (fun a => ¬ Sending a) s' ↔
        ∃ result, s'.phase = .returned result)) ∧
    ∃ actions s', (∀ a ∈ actions, ¬ Sending a) ∧
      (system runtimes sources now).run s actions = some s' ∧
      ∃ result, s'.phase = .returned result := by
  have hinv := reachable_inv h
  have hfree : ∀ a : Action n, ¬ Sending a → pay runtimes a = 0 := by
    intro a ha
    cases a with
    | sink i a =>
      cases a with
      | arrive e => exact absurd trivial ha
      | _ => rfl
    | _ => rfl
  have hquiet : ∀ {actions s'}, (system runtimes sources now).run s actions = some s' →
      (system runtimes sources now).Quiet work (fun a => ¬ Sending a) s' →
      ∃ result, s'.phase = .returned result := by
    intro actions s' hrun hq
    have hreach := System.Reachable.run h hrun
    exact quiet_returned hq (reachable_inv hreach) (reachable_busy hreach)
      (run_cancelled hrun hcancelled)
  refine ⟨fun actions s' hrun => ⟨?_, hquiet hrun, fun ⟨result, hphase⟩ => ?_⟩, ?_⟩
  · have hbound := (potential runtimes sources now).run_bound hinv hrun
    exact Nat.le_trans (Nat.le_add_left _ _) hbound
  · exact returned_quiet hphase
  · obtain ⟨actions, s', hall, hrun, hq, -⟩ :=
      (potential runtimes sources now).exists_quiet hfree hinv
    exact ⟨actions, s', hall, hrun, hquiet hrun hq⟩

/-- From an interruption with two writes under way. -/
theorem shutdown_terminates_interrupted : ∃ (s : State 2) (actions : List (Action 2))
    (s' : State 2), s.phase = .stopping (.ok ()) ∧ s.sinkTasks.running = [0, 1] ∧
    (system pair 0 0).run s actions = some s' ∧ (∃ result, s'.phase = .returned result) ∧
    (actions.map work).sum ≤ s.remaining pair + (actions.map (pay pair)).sum := by
  have hrun : ((system pair 0 0).run (State.start 0 2 0) ((interrupted 0 1).take 9)).map
      (fun s => (s.phase, s.sinkTasks.running)) = some (.stopping (.ok ()), [0, 1]) := by decide
  obtain ⟨s, hs, hview⟩ := Option.map_eq_some_iff.mp hrun
  obtain ⟨hphase, hrunning⟩ := Prod.mk.inj hview
  have hreach : (system pair 0 0).Reachable s :=
    System.Reachable.run System.ReachableBy.start hs
  obtain ⟨hbound, actions, s', -, hrest, hreturned⟩ :=
    shutdown_terminates hreach (by rw [hphase]; rfl)
  exact ⟨s, actions, s', hphase, hrunning, hrest, hreturned, (hbound actions s' hrest).1⟩

end Rustper.Shutdown
