import Rustper.SinkOutcome
import Rustper.TaskDrain

/-!
The exit status of the process, which is what `topology::run` returns. The result of a
sink task is joined by `first_failure` or by the drain, that of a source task by
`join_all`, and the first failure joined is the one returned: so a success means that
every sink has written every group it dispatched.
-/
namespace Rustper.Shutdown

open TransitionSystem JoinSet

section turns

variable {ι ε : Type} {tasks rest : JoinSet ι ε} {result : Except ε Unit}

/-- A poll of `first_failure` that yields anything is one of `join_all`. -/
theorem joinAll_of_firstFailure (h : firstFailure tasks ≠ .pending) :
    joinAll tasks = firstFailure tasks := by
  unfold firstFailure at h ⊢
  unfold joinAll
  split <;> simp_all

theorem joinAll_eq_error {e : ε} (h : joinAll tasks = .returned (.error e) rest) :
    ∃ i, tasks.finished = (i, .error e) :: rest.finished := by
  unfold joinAll at h
  split at h
  · contradiction
  · rename_i i e' tail hnext
    cases h
    exact ⟨i, (joinNext_eq_joined hnext).1⟩
  · simp at h
  · contradiction

theorem joinAll_eq_ok (h : joinAll tasks = .returned (.ok ()) rest) :
    rest = tasks ∧ tasks.running = [] ∧ tasks.finished = [] := by
  unfold joinAll at h
  split at h
  · contradiction
  · simp at h
  · rename_i hnext
    cases h
    exact ⟨rfl, (joinNext_eq_empty hnext).symm⟩
  · contradiction

theorem firstFailure_ne_ok : firstFailure tasks ≠ .returned (.ok ()) rest := by
  unfold firstFailure
  split <;> simp

end turns

variable {n : ℕ} {runtimes : Fin n → Sink.Runtime} {s s' : State n} {failures : TaskError → Prop}

/-- The failure that `run` is going to return. -/
def Phase.error? : Phase → Option TaskError
  | .running => none
  | .stopping outcome | .draining outcome | .closing outcome | .returned outcome =>
    match outcome with
    | .ok () => none
    | .error e => some e

/-- The failures the source tasks may end with. -/
def SourcesFail (failures : TaskError → Prop) (_ : State n) : Action n → Prop
  | .source _ (.error e) => failures e
  | _ => True

/-- A sink has returned the failure. -/
def State.OfSink (s : State n) (e : TaskError) : Prop :=
  ∃ i e', e = .sink e' ∧ (s.sinks i).phase = .returned (.error e')

/-- The results of the tasks on their way to the end of `run`. -/
structure Surfaced (failures : TaskError → Prop) (s : State n) : Prop where
  finished : ∀ x ∈ s.sinkTasks.finished, ∃ outcome,
    (s.sinks x.1).phase = .returned outcome ∧ x.2 = outcome.mapError .sink
  tasks : s.phase.error? = none → ∀ i, i ∈ s.sinkTasks.running ∨
    i ∈ s.sinkTasks.finished.map Prod.fst ∨ (s.sinks i).phase = .returned (.ok ())
  sources : ∀ x ∈ s.sourceTasks.finished, ∀ e, x.2 = .error e → failures e
  kept : ∀ e, s.phase.error? = some e → failures e ∨ s.OfSink e
  drained : s.phase.drained = true → s.phase.error? = none →
    s.sinkTasks.running = [] ∧ s.sinkTasks.finished = []

theorem start_surfaced (failures : TaskError → Prop) (sources now : ℕ) :
    Surfaced failures (State.start sources n now) where
  finished x hx := by contradiction
  tasks _ i := Or.inl (List.mem_finRange i)
  sources x hx := by contradiction
  kept e he := by contradiction
  drained hdrained := by contradiction

section joins

variable {phase : Phase}

/-- A success that is joined belongs to a sink that has returned `Ok`. -/
theorem Surfaced.join (h : Surfaced failures s) {tasks : JoinSet (Fin n) TaskError}
    (hturn : joinAll s.sinkTasks = .again tasks) (hbefore : s.phase.drained = false) :
    Surfaced failures { s with sinkTasks := tasks } := by
  obtain ⟨i, hfinished, hrunning⟩ := joinAll_eq_again hturn
  refine ⟨?_, ?_, h.sources, h.kept, ?_⟩
  · intro x hx
    exact h.finished x (hfinished ▸ List.mem_cons_of_mem _ hx)
  · intro hnone j
    show j ∈ tasks.running ∨ j ∈ tasks.finished.map Prod.fst ∨ _
    rw [hrunning]
    refine (h.tasks hnone j).imp_right ?_
    rw [hfinished, List.map_cons, List.mem_cons]
    rintro ((rfl | hmem) | hok)
    · obtain ⟨outcome, hphase, hresult⟩ :=
        h.finished (j, .ok ()) (hfinished ▸ List.mem_cons_self)
      cases outcome with
      | ok u => exact Or.inr hphase
      | error e => simp [Except.mapError] at hresult
    · exact Or.inl hmem
    · exact Or.inr hok
  · intro hdrained
    rw [show s.phase.drained = true from hdrained] at hbefore
    contradiction

/-- A failure of a sink is what `run` is going to return, unless it has one already. -/
theorem Surfaced.fail (h : Surfaced failures s) {tasks : JoinSet (Fin n) TaskError} {e : TaskError}
    {left : List (Fin n)} (hturn : joinAll s.sinkTasks = .returned (.error e) tasks)
    (hphase : ∃ e', phase.error? = some e' ∧ (s.phase.error? = some e' ∨ e' = e)) :
    Surfaced failures { s with sinkTasks := tasks, phase := phase, left := left } := by
  obtain ⟨i, hfinished⟩ := joinAll_eq_error hturn
  obtain ⟨e', herror, hfrom⟩ := hphase
  refine ⟨?_, ?_, h.sources, ?_, ?_⟩
  · intro x hx
    exact h.finished x (hfinished ▸ List.mem_cons_of_mem _ hx)
  · intro hnone
    rw [show phase.error? = none from hnone] at herror
    contradiction
  · intro e'' he
    obtain rfl := Option.some.inj (herror.symm.trans he)
    rcases hfrom with hkept | rfl
    · exact h.kept e' hkept
    · obtain ⟨outcome, hreturned, hresult⟩ :=
        h.finished (i, .error e') (hfinished ▸ List.mem_cons_self)
      cases outcome with
      | ok u => simp [Except.mapError] at hresult
      | error we => exact Or.inr ⟨i, we, Except.error.inj hresult, hreturned⟩
  · intro _ hnone
    rw [show phase.error? = none from hnone] at herror
    contradiction

/-- A change of phase that keeps the failure and does not end the drain. -/
theorem Surfaced.advance (h : Surfaced failures s) {sources : JoinSet ℕ TaskError}
    (hsources : ∀ x ∈ sources.finished, ∀ e, x.2 = .error e → failures e)
    (hphase : phase.error? = none → s.phase.error? = none)
    (hkept : ∀ e, phase.error? = some e → s.phase.error? = some e ∨ failures e)
    (hbefore : phase.drained = false) :
    Surfaced failures { s with phase := phase, sourceTasks := sources } := by
  refine ⟨h.finished, fun hnone => h.tasks (hphase hnone), hsources, ?_, ?_⟩
  · intro e he
    exact (hkept e he).elim (h.kept e) Or.inl
  · intro hdrained
    rw [show phase.drained = true from hdrained] at hbefore
    contradiction

end joins

/-- A sink that has returned goes on having returned the same. -/
theorem Inv.stays {i : Fin n} {a : Sink.Action} {sink : Sink.State} (h : Inv runtimes s)
    (hsink : Sink.step (runtimes i) (s.sinks i) a = some sink) {j : Fin n}
    {outcome : Except Sink.WriteError Unit} (hphase : (s.sinks j).phase = .returned outcome) :
    (Function.update s.sinks i sink j).phase = .returned outcome := by
  by_cases hj : j = i
  · subst hj
    simpa using Sink.step_outcome (h.sinks j) hsink hphase
  · simpa [hj] using hphase

theorem endTask_cases {i : Fin n} {sink sink' : Sink.State}
    {tasks tasks' : JoinSet (Fin n) TaskError}
    (h : endTask i sink sink' tasks = some tasks') :
    tasks' = tasks ∨ ∃ outcome, sink'.phase = .returned outcome ∧
      tasks.finish i (outcome.mapError .sink) = some tasks' := by
  unfold endTask at h
  split at h
  · rename_i outcome _ hphase
    exact Or.inr ⟨outcome, hphase, h⟩
  · exact Or.inl (Option.some.inj h).symm

theorem Surfaced.sink (h : Surfaced failures s) (hinv : Inv runtimes s) {i : Fin n}
    {a : Sink.Action} {sink : Sink.State} {tasks : JoinSet (Fin n) TaskError}
    (hsink : Sink.step (runtimes i) (s.sinks i) a = some sink)
    (htasks : endTask i (s.sinks i) sink s.sinkTasks = some tasks) :
    Surfaced failures { s with sinkTasks := tasks, sinks := Function.update s.sinks i sink } := by
  have hof : ∀ e, failures e ∨ s.OfSink e → failures e ∨
      State.OfSink { s with sinkTasks := tasks, sinks := Function.update s.sinks i sink } e := by
    rintro e (hfails | ⟨j, e', rfl, hphase⟩)
    · exact Or.inl hfails
    · exact Or.inr ⟨j, e', rfl, hinv.stays hsink hphase⟩
  have hfinished : ∀ x ∈ s.sinkTasks.finished, ∃ outcome,
      (Function.update s.sinks i sink x.1).phase = .returned outcome ∧
        x.2 = outcome.mapError .sink := by
    intro x hx
    obtain ⟨outcome, hphase, hresult⟩ := h.finished x hx
    exact ⟨outcome, hinv.stays hsink hphase, hresult⟩
  rcases endTask_cases htasks with rfl | ⟨outcome, hphase, hfinish⟩
  · refine ⟨hfinished, ?_, h.sources, fun e he => hof e (h.kept e he), h.drained⟩
    intro hnone j
    exact (h.tasks hnone j).imp_right (Or.imp_right (fun hok => hinv.stays hsink hok))
  · obtain ⟨hmem, hrunning, hended⟩ := finish_eq_some hfinish
    refine ⟨?_, ?_, h.sources, fun e he => hof e (h.kept e he), ?_⟩
    · intro x hx
      rw [hended] at hx
      rcases List.mem_append.mp hx with hx | hx
      · exact hfinished x hx
      · rw [List.mem_singleton.mp hx]
        exact ⟨outcome, by simpa using hphase, rfl⟩
    · intro hnone j
      show j ∈ tasks.running ∨ j ∈ tasks.finished.map Prod.fst ∨ _
      rw [hrunning, hended, List.map_append, List.mem_append]
      by_cases hj : j = i
      · exact Or.inr (Or.inl (Or.inr (hj ▸ List.mem_cons_self)))
      · refine (h.tasks hnone j).imp (List.mem_erase_of_ne hj).mpr ?_
        exact Or.imp Or.inl (fun hok => hinv.stays hsink hok)
    · intro hdrained hnone
      rw [(h.drained hdrained hnone).1] at hmem
      contradiction

theorem Surfaced.joinSource (h : Surfaced failures s) (hs : joinSource s = some s') :
    Surfaced failures s' := by
  unfold Shutdown.joinSource at hs
  split at hs
  · rename_i tasks hphase hturn
    cases hs
    obtain ⟨i, hfinished, -⟩ := joinAll_eq_again hturn
    have hrest : ∀ x ∈ tasks.finished, ∀ e, x.2 = .error e → failures e :=
      fun x hx => h.sources x (hfinished ▸ List.mem_cons_of_mem _ hx)
    exact ⟨h.finished, h.tasks, hrest, h.kept, h.drained⟩
  · rename_i result tasks hphase hturn
    cases hs
    cases result with
    | ok u =>
      refine h.advance ?_ (fun _ => by rw [hphase]; rfl) (fun e he => by contradiction) rfl
      obtain ⟨rfl, -, hfinished⟩ := joinAll_eq_ok hturn
      rw [hfinished]
      exact fun x hx => by contradiction
    | error e =>
      obtain ⟨i, hfinished⟩ := joinAll_eq_error hturn
      refine h.advance ?_ (fun hnone => by contradiction) ?_ rfl
      · intro x hx
        exact h.sources x (hfinished ▸ List.mem_cons_of_mem _ hx)
      · intro e' he
        obtain rfl := Option.some.inj he
        exact Or.inr (h.sources (i, .error e) (hfinished ▸ List.mem_cons_self) e rfl)
  · contradiction

theorem Surfaced.joinSink (h : Surfaced failures s) (hs : joinSink s = some s') :
    Surfaced failures s' := by
  unfold Shutdown.joinSink at hs
  split at hs
  · rename_i tasks hphase hturn
    cases hs
    refine h.join ?_ (by rw [hphase]; rfl)
    rw [joinAll_of_firstFailure (by rw [hturn]; simp), hturn]
  · rename_i result tasks hphase hturn
    cases hs
    cases result with
    | ok u => exact absurd hturn firstFailure_ne_ok
    | error e =>
      refine h.fail ?_ ⟨e, rfl, Or.inr rfl⟩
      rw [joinAll_of_firstFailure (by rw [hturn]; simp), hturn]
  · contradiction

/-- The drain returns `Ok` when no task is left and each was joined as a success. -/
theorem Surfaced.joinDrain (h : Surfaced failures s) (hs : joinDrain s = some s') :
    Surfaced failures s' := by
  unfold Shutdown.joinDrain at hs
  split at hs
  · rename_i outcome tasks hphase hturn
    cases hs
    exact h.join hturn (by rw [hphase]; rfl)
  · rename_i outcome drained tasks hphase hturn
    cases hs
    have hbefore : s.phase.error? = (Phase.closing outcome).error? := by rw [hphase]; rfl
    cases drained with
    | error e =>
      refine h.fail hturn ?_
      cases outcome with
      | ok u => exact ⟨e, rfl, Or.inr rfl⟩
      | error e' => exact ⟨e', rfl, Or.inl hbefore⟩
    | ok u =>
      obtain ⟨rfl, hempty⟩ := joinAll_eq_ok hturn
      have hafter : (Phase.closing (andThen outcome (.ok u))).error? = s.phase.error? := by
        rw [hbefore]
        cases outcome <;> rfl
      exact ⟨h.finished, fun hnone => h.tasks (hafter ▸ hnone), h.sources,
        fun e he => h.kept e (hafter ▸ he), fun _ _ => hempty⟩
  · contradiction

theorem step_surfaced {a : Action n} (h : Surfaced failures s) (hinv : Inv runtimes s)
    (hallowed : SourcesFail failures s a) (hs : step runtimes s a = some s') :
    Surfaced failures s' := by
  unfold step at hs
  split at hs
  · contradiction
  · cases a with
    | sink i action =>
      obtain ⟨sink, tasks, hsink, htasks, rfl⟩ := sinkStep_eq_some hs
      exact h.sink hinv hsink htasks
    | source k result =>
      obtain ⟨tasks, hfinish, rfl⟩ := Option.map_eq_some_iff.mp hs
      refine ⟨h.finished, h.tasks, ?_, h.kept, h.drained⟩
      intro x hx e he
      rw [(finish_eq_some hfinish).2.2] at hx
      rcases List.mem_append.mp hx with hx | hx
      · exact h.sources x hx e he
      · rw [List.mem_singleton.mp hx] at he
        obtain rfl : result = .error e := he
        exact hallowed
    | interrupt =>
      simp only [act, interrupt] at hs
      split at hs
      · rename_i hphase
        cases hs
        have hnone : s.phase.error? = none := by rw [hphase]; rfl
        exact ⟨h.finished, fun _ => h.tasks hnone, h.sources, fun e he => by contradiction,
          fun hdrained => by contradiction⟩
      · contradiction
    | joinSource => exact h.joinSource hs
    | joinSink => exact h.joinSink hs
    | stopped =>
      simp only [act, stopped] at hs
      split at hs
      · rename_i outcome hphase
        cases hs
        have hsame : (Phase.draining outcome).error? = s.phase.error? := by rw [hphase]; rfl
        exact h.advance (fun x hx => by contradiction) (fun hnone => hsame ▸ hnone)
          (fun e he => Or.inl (hsame ▸ he)) rfl
      · contradiction
    | joinDrain => exact h.joinDrain hs
    | finish =>
      simp only [act, finish] at hs
      split at hs
      · rename_i result hphase
        cases hs
        have hsame : (Phase.returned result).error? = s.phase.error? := by rw [hphase]; rfl
        exact ⟨h.finished, fun hnone => h.tasks (hsame ▸ hnone), h.sources,
          fun e he => h.kept e (hsame ▸ he),
          fun _ hnone => h.drained (by rw [hphase]; rfl) (hsame ▸ hnone)⟩
      · contradiction

theorem reachable_surfaced {sources now : ℕ}
    (h : (system runtimes sources now).ReachableBy (SourcesFail failures) s) :
    Surfaced failures s := by
  have hboth : Inv runtimes s ∧ Surfaced failures s := by
    have hstart : Inv runtimes (State.start sources n now) ∧
        Surfaced failures (State.start sources n now) :=
      ⟨start_inv runtimes sources now, start_surfaced failures sources now⟩
    apply System.ReachableBy.invariant hstart _ h
    rintro t a t' ⟨hinv, hsurfaced⟩ hallowed hs
    exact ⟨step_inv hinv hs, step_surfaced hsurfaced hinv hallowed hs⟩
  exact hboth.2

/-- Each sink of the topology is itself in a run of `sink::run`. -/
def SinksRun (runtimes : Fin n → Sink.Runtime) (now : ℕ) (s : State n) : Prop :=
  ∀ i, (Sink.system (runtimes i) now).Reachable (s.sinks i)

theorem reachable_sinksRun {sources now : ℕ} (h : (system runtimes sources now).Reachable s) :
    SinksRun runtimes now s := by
  have hstart : SinksRun runtimes now (State.start sources n now) :=
    fun i => System.ReachableBy.start
  apply System.Reachable.invariant hstart _ h
  intro t a t' ht hs
  cases step_move hs with
  | sink i action sink tasks hsink htasks =>
    intro j
    by_cases hj : j = i
    · subst hj
      simpa using System.Reachable.next (ht j) hsink
    · simpa [hj] using ht j
  | _ => exact ht

/-- The process exits with success only when every sink has returned `Ok` and so written
every group it dispatched, and none was aborted; a failure it exits with is one that a
source may end with, or that of a sink whose last call for some group failed with it. -/
theorem exit_status {sources now : ℕ} {result : Except TaskError Unit}
    (h : (system runtimes sources now).ReachableBy (SourcesFail failures) s)
    (hphase : s.phase = .returned result) :
    (result = .ok () → s.aborted = [] ∧ ∀ i, (s.sinks i).phase = .returned (.ok ()) ∧
      ∀ k < (s.sinks i).dispatched.length, k ∈ (s.sinks i).succeeded) ∧
    ∀ e, result = .error e → failures e ∨ ∃ i e', e = .sink e' ∧
      (s.sinks i).phase = .returned (.error e') ∧
      ∃ k < (s.sinks i).dispatched.length, Sink.FailedWith (runtimes i) (s.sinks i) k e' := by
  have hsurfaced := reachable_surfaced h
  have hinv := reachable_inv h.reachable
  have hruns := reachable_sinksRun h.reachable
  constructor
  · rintro rfl
    have hnone : s.phase.error? = none := by rw [hphase]; rfl
    obtain ⟨hrunning, hfinished⟩ := hsurfaced.drained (by rw [hphase]; rfl) hnone
    refine ⟨(hinv.aborted _ hphase).trans hrunning, fun i => ?_⟩
    have hok : (s.sinks i).phase = .returned (.ok ()) := by
      have htask := hsurfaced.tasks hnone i
      rw [hrunning, hfinished] at htask
      simpa using htask
    exact ⟨hok, (Sink.reachable_surfaced (hruns i)).written_of_ok hok⟩
  · rintro e rfl
    refine (hsurfaced.kept e (by rw [hphase]; rfl)).imp_right ?_
    rintro ⟨i, e', rfl, hreturned⟩
    exact ⟨i, e', rfl, hreturned, (Sink.reachable_surfaced (hruns i)).failed_of_error
      (Sink.reachable_inv (hruns i)).fates hreturned⟩

/-- The write of a sink succeeds during the drain, and its task ends with it. -/
def sinkWrites (i : Fin 2) : List (Action 2) :=
  [.sink i (.attempted 0 (.ok ⟨1, 0⟩)), .sink i (.reap 0), .sink i .finishDrain]

theorem sourcesFail_interrupted {rest : List (Action 2)}
    (hrest : ∀ a ∈ rest, ∀ t, SourcesFail (fun _ => False) t a) :
    ∀ a ∈ interrupted 0 1 ++ rest, ∀ t, SourcesFail (fun _ => False) t a := by
  have hfirst : ∀ a ∈ interrupted 0 1, ∀ t, SourcesFail (fun _ => False) t a := by
    simp [interrupted, SourcesFail]
  intro a ha t
  exact (List.mem_append.mp ha).elim (fun ha => hfirst a ha t) (fun ha => hrest a ha t)

/-- An interrupted process whose two sinks finish their writes exits with success, and it
exits with the failure of the second one if that cannot. -/
theorem exit_status_interrupted :
    (∃ s : State 2, s.phase = .returned (.ok ()) ∧ s.aborted = [] ∧
      ∀ i, (s.sinks i).phase = .returned (.ok ())) ∧
    ∃ (s : State 2) (i : Fin 2) (e : Sink.WriteError),
      s.phase = .returned (.error (.sink e)) ∧ (s.sinks i).phase = .returned (.error e) := by
  have hwritten : ((system pair 0 0).run (State.start 0 2 0) (interrupted 0 1 ++
      (sinkWrites 0 ++ sinkWrites 1 ++ [.joinDrain, .joinDrain, .joinDrain, .finish]))).map
        State.phase = some (.returned (.ok ())) := by decide
  have hlost : ((system pair 0 0).run (State.start 0 2 0) (interrupted 0 1 ++
      (sinkWrites 0 ++ sinkFails 1 ++ [.joinDrain, .joinDrain, .finish]))).map
        State.phase = some (.returned (.error (.sink (.write "broker down")))) := by decide
  obtain ⟨s, hs, hphase⟩ := Option.map_eq_some_iff.mp hwritten
  obtain ⟨t, ht, herror⟩ := Option.map_eq_some_iff.mp hlost
  have hreach := System.ReachableBy.run System.ReachableBy.start
    (sourcesFail_interrupted (by simp [sinkWrites, SourcesFail])) hs
  have hreached := System.ReachableBy.run System.ReachableBy.start
    (sourcesFail_interrupted (by simp [sinkWrites, sinkFails, SourcesFail])) ht
  obtain ⟨haborted, hok⟩ := (exit_status hreach hphase).1 rfl
  obtain ⟨i, e, hfrom, hreturned, -⟩ :=
    ((exit_status hreached herror).2 _ rfl).resolve_left not_false
  refine ⟨⟨s, hphase, haborted, fun i => (hok i).1⟩, t, i, e, ?_, hreturned⟩
  rw [herror, hfrom]

end Rustper.Shutdown
