import Rustper.Shutdown
import Rustper.SinkDrain

/-!
What `join_all` waits for. It returns on the first failure it joins, so it has waited
for every task exactly when only the last one to finish fails, and the drain of the
sinks aborts none of them in the runs where that is so.
-/
namespace Rustper.Shutdown

open TransitionSystem JoinSet

section turns

variable {ι ε : Type}

theorem joinAll_eq_again {tasks rest : JoinSet ι ε} (h : joinAll tasks = .again rest) :
    ∃ i, tasks.finished = (i, .ok ()) :: rest.finished ∧ rest.running = tasks.running := by
  unfold joinAll at h
  split at h
  · rename_i i tail hnext
    cases h
    exact ⟨i, joinNext_eq_joined hnext⟩
  · contradiction
  · contradiction
  · contradiction

theorem joinAll_eq_returned {tasks rest : JoinSet ι ε} {result : Except ε Unit}
    (h : joinAll tasks = .returned result rest) :
    rest.running = tasks.running ∧ firstError tasks.finished = result ∧
      (result = .ok () → tasks.running = []) := by
  unfold joinAll at h
  split at h
  · contradiction
  · rename_i i e tail hnext
    cases h
    obtain ⟨hfinished, hrunning⟩ := joinNext_eq_joined hnext
    refine ⟨hrunning, ?_, fun hok => by contradiction⟩
    rw [hfinished]
    rfl
  · rename_i hnext
    cases h
    obtain ⟨hfinished, hrunning⟩ := joinNext_eq_empty hnext
    refine ⟨rfl, ?_, fun _ => hrunning⟩
    rw [hfinished]
    rfl
  · contradiction

theorem firstFailure_eq_again {tasks rest : JoinSet ι ε} (h : firstFailure tasks = .again rest) :
    rest.running = tasks.running := by
  unfold firstFailure at h
  split at h
  · rename_i hnext
    cases h
    exact (joinNext_eq_joined hnext).2
  · contradiction
  · contradiction
  · contradiction

theorem firstFailure_eq_returned {tasks rest : JoinSet ι ε} {result : Except ε Unit}
    (h : firstFailure tasks = .returned result rest) : rest.running = tasks.running := by
  unfold firstFailure at h
  split at h
  · contradiction
  · rename_i hnext
    cases h
    exact (joinNext_eq_joined hnext).2
  · contradiction
  · contradiction

/-- The result that `join_all` is about to join. -/
def failureNext (tasks : JoinSet ι ε) : Bool :=
  match tasks.finished with
  | (_, .error _) :: _ => true
  | _ => false

theorem failureNext_of_error {tasks rest : JoinSet ι ε} {e : ε}
    (h : joinAll tasks = .returned (.error e) rest) : failureNext tasks = true := by
  unfold joinAll at h
  split at h
  · contradiction
  · rename_i hnext
    rw [failureNext, (joinNext_eq_joined hnext).1]
  · simp at h
  · contradiction

theorem failureNext_of_again {tasks rest : JoinSet ι ε} (h : joinAll tasks = .again rest) :
    failureNext tasks = false := by
  obtain ⟨i, hfinished, -⟩ := joinAll_eq_again h
  rw [failureNext, hfinished]

/-- A failure that is joined last leaves no task behind. -/
theorem running_eq_nil_of_returned {tasks rest : JoinSet ι ε} {result : Except ε Unit}
    (h : joinAll tasks = .returned result rest)
    (hlast : failureNext tasks = true → tasks.running = []) : rest.running = [] := by
  obtain ⟨hrunning, -, hok⟩ := joinAll_eq_returned h
  rw [hrunning]
  cases result with
  | ok u => exact hok rfl
  | error e => exact hlast (failureNext_of_error h)

end turns

namespace JoinAll

variable {ι ε : Type} {ids : List ι} {s s' : State ι ε}

/-- A failure is joined only once no task is running. -/
def JoinsLast (s : State ι ε) : Action ι ε → Prop
  | .poll => failureNext s.tasks = true → s.tasks.running = []
  | .finish _ _ => True

/-- Once the call has returned, every task had finished when it did, and its result is
the first failure in the order of completion. -/
def Waited (ids : List ι) (s : State ι ε) : Prop :=
  ∀ result, s.result = some result →
    s.left = [] ∧ (s.ended.map Prod.fst).Perm ids ∧ result = firstError s.ended

structure Inv (ids : List ι) (s : State ι ε) : Prop where
  tasks : ids.Perm (s.tasks.running ++ s.ended.map Prod.fst)
  waiting : s.result = none → firstError s.ended = firstError s.tasks.finished
  result : ∀ result, s.result = some result → firstError s.ended = result ∧
    (result = .ok () → s.tasks.running = []) ∧ s.tasks.running.Sublist s.left

theorem start_inv (ids : List ι) : Inv ids (State.start ids : State ι ε) where
  tasks := by simp [State.start, spawn]
  waiting _ := rfl
  result := by simp [State.start]

variable [DecidableEq ι]

/-- A task ends, a success is joined, or the call returns. -/
theorem step_cases {a : Action ι ε} (hs : step s a = some s') :
    (∃ i result tasks, a = .finish i result ∧ s.tasks.finish i result = some tasks ∧
      s' = { s with tasks := tasks, ended := s.ended ++ [(i, result)] }) ∨
    (∃ tasks, a = .poll ∧ s.result = none ∧ joinAll s.tasks = .again tasks ∧
      s' = { s with tasks := tasks }) ∨
    ∃ result tasks, a = .poll ∧ s.result = none ∧ joinAll s.tasks = .returned result tasks ∧
      s' = { s with tasks := tasks, result := some result, left := tasks.running } := by
  cases a with
  | finish i result =>
    obtain ⟨tasks, hfinish, rfl⟩ := Option.map_eq_some_iff.mp hs
    exact Or.inl ⟨i, result, tasks, rfl, hfinish, rfl⟩
  | poll =>
    simp only [step] at hs
    split at hs
    · rename_i tasks hnone hturn
      cases hs
      exact Or.inr (Or.inl ⟨tasks, rfl, hnone, hturn, rfl⟩)
    · rename_i result tasks hnone hturn
      cases hs
      exact Or.inr (Or.inr ⟨result, tasks, rfl, hnone, hturn, rfl⟩)
    · contradiction

theorem Inv.finish {i : ι} {result : Except ε Unit} {tasks : JoinSet ι ε} (h : Inv ids s)
    (hfinish : s.tasks.finish i result = some tasks) :
    Inv ids { s with tasks := tasks, ended := s.ended ++ [(i, result)] } := by
  obtain ⟨hmem, hrunning, hfinished⟩ := finish_eq_some hfinish
  refine ⟨?_, ?_, ?_⟩
  · show ids.Perm (tasks.running ++ (s.ended ++ [(i, result)]).map Prod.fst)
    rw [hrunning, List.map_append]
    exact perm_finish hmem h.tasks
  · intro hnone
    show firstError (s.ended ++ [(i, result)]) = firstError tasks.finished
    rw [hfinished]
    exact firstError_congr_append (h.waiting hnone) _
  · intro r hr
    obtain ⟨hfirst, hok, hleft⟩ := h.result r hr
    have hsub : tasks.running.Sublist s.tasks.running := hrunning ▸ List.erase_sublist
    refine ⟨?_, ?_, hsub.trans hleft⟩
    · cases r with
      | ok u =>
        rw [hok rfl] at hmem
        contradiction
      | error e => exact firstError_append_of_error hfirst _
    · intro hr'
      have hnil := hok hr'
      rw [hnil] at hmem
      contradiction

theorem step_inv {a : Action ι ε} (h : Inv ids s) (hs : step s a = some s') : Inv ids s' := by
  rcases step_cases hs with ⟨i, result, tasks, -, hfinish, rfl⟩ | ⟨tasks, -, hnone, hturn, rfl⟩ |
    ⟨result, tasks, -, hnone, hturn, rfl⟩
  · exact h.finish hfinish
  · obtain ⟨i, hfinished, hrunning⟩ := joinAll_eq_again hturn
    refine ⟨?_, ?_, ?_⟩
    · show ids.Perm (tasks.running ++ _)
      rw [hrunning]
      exact h.tasks
    · intro _
      show firstError s.ended = firstError tasks.finished
      rw [h.waiting hnone, hfinished]
      rfl
    · intro r hr
      rw [hnone] at hr
      contradiction
  · obtain ⟨hrunning, hfirst, hok⟩ := joinAll_eq_returned hturn
    refine ⟨?_, fun hsome => by contradiction, ?_⟩
    · show ids.Perm (tasks.running ++ _)
      rw [hrunning]
      exact h.tasks
    · intro r hr
      obtain rfl : result = r := Option.some.inj hr
      refine ⟨(h.waiting hnone).trans hfirst, fun hr' => ?_, List.Sublist.refl _⟩
      show tasks.running = []
      rw [hrunning]
      exact hok hr'

theorem reachable_inv (h : (system ids : System (State ι ε) _).Reachable s) : Inv ids s := by
  apply System.Reachable.invariant (start_inv ids) _ h
  intro t a t' ht hs
  exact step_inv ht hs

theorem left_of_joinsLast (h : (system ids : System (State ι ε) _).ReachableBy JoinsLast s) :
    s.left = [] := by
  apply System.ReachableBy.invariant _ _ h
  · rfl
  · intro t a t' hleft hlast hs
    rcases step_cases hs with ⟨i, result, tasks, rfl, -, rfl⟩ | ⟨tasks, rfl, -, -, rfl⟩ |
      ⟨result, tasks, rfl, -, hturn, rfl⟩
    · exact hleft
    · exact hleft
    · exact running_eq_nil_of_returned hturn hlast

/-- A run that joins a failure too early has returned without waiting, for good. -/
theorem joinsLast_or_left (h : (system ids : System (State ι ε) _).Reachable s) :
    (system ids : System (State ι ε) _).ReachableBy JoinsLast s ∨
      ∃ result, s.result = some result ∧ s.left ≠ [] := by
  induction h with
  | start => exact Or.inl System.ReachableBy.start
  | step _ _ hs ih =>
    rename_i t t' a _ _
    rcases ih with hlast | ⟨result, hresult, hleft⟩
    · by_cases hwait : JoinsLast t a
      · exact Or.inl (System.ReachableBy.step hlast hwait hs)
      · rcases step_cases hs with ⟨i, result, tasks, rfl, -, -⟩ | ⟨tasks, rfl, -, hturn, rfl⟩ |
          ⟨result, tasks, rfl, -, hturn, rfl⟩
        · exact absurd trivial hwait
        · refine absurd (fun hfailure => ?_) hwait
          rw [failureNext_of_again hturn] at hfailure
          contradiction
        · unfold JoinsLast at hwait
          push Not at hwait
          refine Or.inr ⟨result, rfl, ?_⟩
          show tasks.running ≠ []
          rw [(joinAll_eq_returned hturn).1]
          exact hwait.2
    · rcases step_cases hs with ⟨i, r, tasks, -, -, rfl⟩ | ⟨tasks, -, hnone, -, -⟩ |
        ⟨r, tasks, -, hnone, -, -⟩
      · exact Or.inr ⟨result, hresult, hleft⟩
      · rw [hresult] at hnone
        contradiction
      · rw [hresult] at hnone
        contradiction

/-- A call of `join_all` has waited for every task of its set, and returns their first
failure, exactly when in each step of the run a failure is joined only once no task is
running. -/
theorem waited_iff_joinsLast (h : (system ids : System (State ι ε) _).Reachable s) :
    Waited ids s ↔ (system ids : System (State ι ε) _).ReachableBy JoinsLast s := by
  constructor
  · intro hwaited
    refine (joinsLast_or_left h).resolve_right ?_
    rintro ⟨result, hresult, hleft⟩
    exact hleft (hwaited result hresult).1
  · intro hlast result hresult
    have hinv := reachable_inv h
    have hleft := left_of_joinsLast hlast
    obtain ⟨hfirst, -, hsub⟩ := hinv.result result hresult
    refine ⟨hleft, ?_, hfirst.symm⟩
    have hnil : s.tasks.running = [] := List.sublist_nil.mp (hleft ▸ hsub)
    have htasks := hinv.tasks
    rw [hnil, List.nil_append] at htasks
    exact htasks.symm

end JoinAll

variable {n : ℕ} {runtimes : Fin n → Sink.Runtime} {s s' : State n}

/-- The drain joins a failed sink only once no sink is running. -/
def DrainsLast (s : State n) : Action n → Prop
  | .joinDrain => failureNext s.sinkTasks = true → s.sinkTasks.running = []
  | _ => True

/-- The drain is over. -/
def Phase.drained : Phase → Bool
  | .closing _ => true
  | .returned _ => true
  | _ => false

/-- A sink whose task is over has returned, and from the drain on no task is new. -/
structure Inv (runtimes : Fin n → Sink.Runtime) (s : State n) : Prop where
  sinks : ∀ i, Sink.Inv (runtimes i) (s.sinks i)
  tasks : ∀ i, (s.sinks i).returned = false → i ∈ s.sinkTasks.running
  left : s.phase.drained = true → s.sinkTasks.running.Sublist s.left
  aborted : ∀ result, s.phase = .returned result → s.aborted = s.sinkTasks.running

theorem start_inv (runtimes : Fin n → Sink.Runtime) (sources now : ℕ) :
    Inv runtimes (State.start sources n now) where
  sinks i := Sink.start_inv (runtimes i) now
  tasks i _ := List.mem_finRange i
  left hdrained := by contradiction
  aborted result hphase := by contradiction

theorem endTask_running {i : Fin n} {sink sink' : Sink.State} {tasks : JoinSet (Fin n) TaskError}
    {tasks' : JoinSet (Fin n) TaskError} (h : endTask i sink sink' tasks = some tasks') :
    tasks'.running.Sublist tasks.running ∧
      ∀ j, (j = i → sink'.returned = false) → j ∈ tasks.running → j ∈ tasks'.running := by
  unfold endTask at h
  split at h
  · rename_i outcome hrun hphase
    obtain ⟨-, hrunning, -⟩ := finish_eq_some h
    rw [hrunning]
    refine ⟨List.erase_sublist, ?_⟩
    intro j hj hmem
    refine (List.mem_erase_of_ne ?_).mpr hmem
    intro heq
    have hreturned := hj heq
    rw [Sink.State.returned, hphase] at hreturned
    contradiction
  · cases h
    exact ⟨List.Sublist.refl _, fun _ _ hmem => hmem⟩

theorem sinkStep_eq_some {i : Fin n} {a : Sink.Action} (hs : sinkStep runtimes s i a = some s') :
    ∃ sink tasks, Sink.step (runtimes i) (s.sinks i) a = some sink ∧
      endTask i (s.sinks i) sink s.sinkTasks = some tasks ∧
      s' = { s with sinkTasks := tasks, sinks := Function.update s.sinks i sink } := by
  unfold sinkStep at hs
  split at hs
  · contradiction
  · simp only [Option.bind_eq_bind, Option.bind_eq_some_iff, Option.some.injEq] at hs
    obtain ⟨sink, hsink, tasks, htasks, rfl⟩ := hs
    exact ⟨sink, tasks, hsink, htasks, rfl⟩

/-- What a step does to the sinks and to their tasks. Up to the end of the drain the other
arms only change the phase and the tasks of the sources, or take a result out of a set. -/
inductive Move (runtimes : Fin n → Sink.Runtime) (s : State n) : Action n → State n → Prop
  | sink (i : Fin n) (a : Sink.Action) (sink : Sink.State) (tasks : JoinSet (Fin n) TaskError)
      (hsink : Sink.step (runtimes i) (s.sinks i) a = some sink)
      (htasks : endTask i (s.sinks i) sink s.sinkTasks = some tasks) :
      Move runtimes s (.sink i a)
        { s with sinkTasks := tasks, sinks := Function.update s.sinks i sink }
  | source (k : ℕ) (result : Except TaskError Unit) (tasks : JoinSet ℕ TaskError) :
      Move runtimes s (.source k result) { s with sourceTasks := tasks }
  | before (a : Action n) (phase : Phase) (sources : JoinSet ℕ TaskError)
      (tasks : JoinSet (Fin n) TaskError) (hbefore : s.phase.drained = false)
      (hphase : phase.drained = false) (hrunning : tasks.running = s.sinkTasks.running)
      (hallowed : DrainsLast s a) :
      Move runtimes s a { s with phase := phase, sourceTasks := sources, sinkTasks := tasks }
  | drained (result joined : Except TaskError Unit) (tasks : JoinSet (Fin n) TaskError)
      (hbefore : s.phase.drained = false)
      (hturn : joinAll s.sinkTasks = .returned joined tasks) :
      Move runtimes s .joinDrain
        { s with sinkTasks := tasks, phase := .closing result, left := tasks.running }
  | finish (result : Except TaskError Unit) (hphase : s.phase = .closing result) :
      Move runtimes s .finish
        { s with phase := .returned result, aborted := s.sinkTasks.running }

theorem step_move {a : Action n} (hs : step runtimes s a = some s') : Move runtimes s a s' := by
  unfold step at hs
  split at hs
  · contradiction
  · cases a with
    | sink i action =>
      obtain ⟨sink, tasks, hsink, htasks, rfl⟩ := sinkStep_eq_some hs
      exact .sink i action sink tasks hsink htasks
    | source k result =>
      obtain ⟨tasks, -, rfl⟩ := Option.map_eq_some_iff.mp hs
      exact .source k result tasks
    | interrupt =>
      simp only [act, interrupt] at hs
      split at hs
      · rename_i hphase
        cases hs
        exact .before _ _ s.sourceTasks s.sinkTasks (by rw [hphase]; rfl) rfl rfl trivial
      · contradiction
    | joinSource =>
      simp only [act, joinSource] at hs
      split at hs
      · rename_i tasks hphase _
        cases hs
        have hbefore : s.phase.drained = false := by rw [hphase]; rfl
        exact .before _ s.phase tasks s.sinkTasks hbefore hbefore rfl trivial
      · rename_i result tasks hphase _
        cases hs
        exact .before _ _ tasks s.sinkTasks (by rw [hphase]; rfl) rfl rfl trivial
      · contradiction
    | joinSink =>
      simp only [act, joinSink] at hs
      split at hs
      · rename_i tasks hphase hturn
        cases hs
        have hbefore : s.phase.drained = false := by rw [hphase]; rfl
        have hrunning := firstFailure_eq_again hturn
        exact .before _ s.phase s.sourceTasks tasks hbefore hbefore hrunning trivial
      · rename_i result tasks hphase hturn
        cases hs
        have hrunning := firstFailure_eq_returned hturn
        exact .before _ _ s.sourceTasks tasks (by rw [hphase]; rfl) rfl hrunning trivial
      · contradiction
    | stopped =>
      simp only [act, stopped] at hs
      split at hs
      · rename_i hphase
        cases hs
        exact .before _ _ _ s.sinkTasks (by rw [hphase]; rfl) rfl rfl trivial
      · contradiction
    | joinDrain =>
      simp only [act, joinDrain] at hs
      split at hs
      · rename_i outcome tasks hphase hturn
        cases hs
        have hbefore : s.phase.drained = false := by rw [hphase]; rfl
        obtain ⟨-, -, hrunning⟩ := joinAll_eq_again hturn
        refine .before _ s.phase s.sourceTasks tasks hbefore hbefore hrunning ?_
        intro hfailure
        rw [failureNext_of_again hturn] at hfailure
        contradiction
      · rename_i outcome drained tasks hphase hturn
        cases hs
        exact .drained _ drained tasks (by rw [hphase]; rfl) hturn
      · contradiction
    | finish =>
      simp only [act, finish] at hs
      split at hs
      · rename_i result hphase
        cases hs
        exact .finish result hphase
      · contradiction

theorem step_running {a : Action n} (hs : step runtimes s a = some s') :
    ∀ result, s.phase ≠ .returned result := by
  intro result hphase
  rw [step, hphase] at hs
  contradiction

theorem Inv.sink {i : Fin n} {a : Sink.Action} {sink : Sink.State}
    {tasks : JoinSet (Fin n) TaskError} (h : Inv runtimes s)
    (hrun : ∀ result, s.phase ≠ .returned result)
    (hsink : Sink.step (runtimes i) (s.sinks i) a = some sink)
    (htasks : endTask i (s.sinks i) sink s.sinkTasks = some tasks) :
    Inv runtimes { s with sinkTasks := tasks, sinks := Function.update s.sinks i sink } := by
  obtain ⟨hsub, hstay⟩ := endTask_running htasks
  have hsame := h.sinks i
  have hstays := (Sink.step_move hsame.ledger.orphans hsame.fates.stages hsink).aborted.2
  refine ⟨?_, ?_, ?_, fun result hphase => absurd hphase (hrun result)⟩
  · intro j
    by_cases hj : j = i
    · subst hj
      simpa using Sink.step_inv hsame hsink
    · simpa [hj] using h.sinks j
  · intro j hnot
    by_cases hj : j = i
    · subst hj
      have hafter : sink.returned = false := by simpa using hnot
      have hbefore : (s.sinks j).returned = false := by
        by_contra hreturned
        rw [hstays (by simpa using hreturned)] at hafter
        contradiction
      exact hstay j (fun _ => hafter) (h.tasks j hbefore)
    · exact hstay j (fun heq => absurd heq hj) (h.tasks j (by simpa [hj] using hnot))
  · exact fun hdrained => hsub.trans (h.left hdrained)

theorem step_inv {a : Action n} (h : Inv runtimes s) (hs : step runtimes s a = some s') :
    Inv runtimes s' := by
  have hrun := step_running hs
  cases step_move hs with
  | sink i a sink tasks hsink htasks => exact h.sink hrun hsink htasks
  | source k result tasks => exact ⟨h.sinks, h.tasks, h.left, h.aborted⟩
  | before _ phase sources tasks hbefore hphase hrunning _ =>
    refine ⟨h.sinks, fun i hi => hrunning ▸ h.tasks i hi, ?_, ?_⟩
    · intro hdrained
      rw [show phase.drained = true from hdrained] at hphase
      contradiction
    · intro result hreturned
      rw [show phase = .returned result from hreturned] at hphase
      contradiction
  | drained result joined tasks hbefore hturn =>
    have hrunning := (joinAll_eq_returned hturn).1
    exact ⟨h.sinks, fun i hi => hrunning ▸ h.tasks i hi, fun _ => List.Sublist.refl _,
      fun r hr => by contradiction⟩
  | finish result hphase =>
    exact ⟨h.sinks, h.tasks, fun _ => h.left (by rw [hphase]; rfl), fun _ _ => rfl⟩

theorem reachable_inv {sources now : ℕ} (h : (system runtimes sources now).Reachable s) :
    Inv runtimes s := by
  apply System.Reachable.invariant (start_inv runtimes sources now) _ h
  intro t a t' ht hs
  exact step_inv ht hs

/-- Only the end of the drain says which tasks it leaves running. -/
theorem step_left {a : Action n} (hs : step runtimes s a = some s') :
    (DrainsLast s a ∧ s'.left = s.left ∧ (s.phase.drained = true → s'.phase.drained = true)) ∨
      (a = .joinDrain ∧ s.phase.drained = false ∧ s'.phase.drained = true ∧
        ∃ result tasks, joinAll s.sinkTasks = .returned result tasks ∧
          s'.left = tasks.running) := by
  cases step_move hs with
  | sink i a sink tasks hsink htasks => exact Or.inl ⟨trivial, rfl, id⟩
  | source k result tasks => exact Or.inl ⟨trivial, rfl, id⟩
  | before _ phase sources tasks hbefore hphase hrunning hallowed =>
    refine Or.inl ⟨hallowed, rfl, fun hdrained => ?_⟩
    rw [hbefore] at hdrained
    contradiction
  | drained result joined tasks hbefore hturn =>
    exact Or.inr ⟨rfl, hbefore, rfl, joined, tasks, hturn, rfl⟩
  | finish result hphase => exact Or.inl ⟨trivial, rfl, fun _ => rfl⟩

theorem left_of_drainsLast {sources now : ℕ}
    (h : (system runtimes sources now).ReachableBy DrainsLast s) : s.left = [] := by
  apply System.ReachableBy.invariant _ _ h
  · rfl
  · intro t a t' hleft hlast hs
    rcases step_left hs with ⟨-, hsame, -⟩ | ⟨rfl, -, -, result, tasks, hturn, hrest⟩
    · exact hsame.trans hleft
    · rw [hrest]
      exact running_eq_nil_of_returned hturn hlast

theorem drainsLast_or_left {sources now : ℕ} (h : (system runtimes sources now).Reachable s) :
    (system runtimes sources now).ReachableBy DrainsLast s ∨
      (s.phase.drained = true ∧ s.left ≠ []) := by
  induction h with
  | start => exact Or.inl System.ReachableBy.start
  | step _ _ hs ih =>
    rename_i t t' a _ _
    rcases ih with hlast | ⟨hdrained, hleft⟩
    · by_cases hwait : DrainsLast t a
      · exact Or.inl (System.ReachableBy.step hlast hwait hs)
      · rcases step_left hs with ⟨hallowed, -⟩ | ⟨rfl, -, hdrained, result, tasks, hturn, hleft⟩
        · exact absurd hallowed hwait
        · unfold DrainsLast at hwait
          push Not at hwait
          refine Or.inr ⟨hdrained, ?_⟩
          rw [hleft, (joinAll_eq_returned hturn).1]
          exact hwait.2
    · rcases step_left hs with ⟨-, hsame, hstays⟩ | ⟨-, hnot, -⟩
      · exact Or.inr ⟨hstays hdrained, hsame ▸ hleft⟩
      · rw [hdrained] at hnot
        contradiction

/-- A drain that left no sink running aborts none. -/
theorem Inv.aborted_eq_nil (h : Inv runtimes s) (hleft : s.left = [])
    {result : Except TaskError Unit} (hphase : s.phase = .returned result) :
    s.aborted = [] ∧ ∀ i, (s.sinks i).returned = true := by
  have hrunning : s.sinkTasks.running = [] :=
    List.sublist_nil.mp (hleft ▸ h.left (by rw [hphase]; rfl))
  refine ⟨(h.aborted result hphase).trans hrunning, ?_⟩
  intro i
  by_contra hnot
  have hmem := h.tasks i (by simpa using hnot)
  rw [hrunning] at hmem
  contradiction

/-- `join_all` waits for every task and returns their first failure in exactly the runs
where a failure is joined only once no task is running. For the drain of the sinks it is
the same, and in those runs `topology::run` aborts no sink: every one has returned. -/
theorem drain_waits_iff (ι ε : Type) [DecidableEq ι] (ids : List ι)
    (runtimes : Fin n → Sink.Runtime) (sources now : ℕ) :
    (∀ t : JoinAll.State ι ε, (JoinAll.system ids).Reachable t →
      (JoinAll.Waited ids t ↔ (JoinAll.system ids).ReachableBy JoinAll.JoinsLast t)) ∧
      ∀ s : State n, (system runtimes sources now).Reachable s →
        (s.left = [] ↔ (system runtimes sources now).ReachableBy DrainsLast s) ∧
          (s.left = [] → ∀ result, s.phase = .returned result →
            s.aborted = [] ∧ ∀ i, (s.sinks i).returned = true) := by
  refine ⟨fun t ht => JoinAll.waited_iff_joinsLast ht, fun s hs => ⟨⟨?_, left_of_drainsLast⟩, ?_⟩⟩
  · intro hleft
    refine (drainsLast_or_left hs).resolve_right ?_
    rintro ⟨-, hnot⟩
    exact hnot hleft
  · intro hleft result hphase
    exact (reachable_inv hs).aborted_eq_nil hleft hphase

/-- Two sinks with one attempt a write. -/
def pair : Fin 2 → Sink.Runtime := fun _ =>
  { capacity := 4
    batching := ⟨1, 1024, 5⟩
    settings := deliverySettings 1 1 1 2 }

/-- Two sinks are writing when the process is interrupted. -/
def interrupted (i j : Fin 2) : List (Action 2) :=
  [.sink i (.arrive (Sink.envelope 0)), .sink j (.arrive (Sink.envelope 0)), .sink i .recv,
    .sink j .recv, .sink i .dispatch, .sink j .dispatch, .sink i (.begin 0),
    .sink j (.begin 0), .interrupt, .stopped, .sink i .shutdown, .sink j .shutdown]

/-- The write of a sink fails during the drain, and so does its task. -/
def sinkFails (i : Fin 2) : List (Action 2) :=
  [.sink i (.attempted 0 (.error "broker down")), .sink i (.reap 0), .sink i .finishDrain]

/-- The failure of one sink ends the drain, and the other one is aborted with its write
under way. -/
theorem firstSinkFails_aborts : ∃ s : State 2, (system pair 0 0).Reachable s ∧
    s.phase = .returned (.error (.sink (.write "broker down"))) ∧ s.aborted = [1] ∧
    (s.sinks 1).live ≠ [] ∧ s.left ≠ [] := by
  have hrun : ((system pair 0 0).run (State.start 0 2 0)
      (interrupted 0 1 ++ sinkFails 0 ++ [.joinDrain, .finish])).map
        (fun s => (s.phase, s.aborted, (s.sinks 1).liveIds, s.left)) =
          some (.returned (.error (.sink (.write "broker down"))), [1], [0], [1]) := by decide
  obtain ⟨s, hs, hview⟩ := Option.map_eq_some_iff.mp hrun
  simp only [Prod.mk.injEq] at hview
  obtain ⟨hphase, haborted, hlive, hleft⟩ := hview
  refine ⟨s, System.Reachable.run System.ReachableBy.start hs, hphase, haborted, ?_, ?_⟩
  · intro hnil
    rw [Sink.State.liveIds, hnil] at hlive
    contradiction
  · rw [hleft]
    exact List.cons_ne_nil _ _

/-- The same failure harms nobody when the other sink is done before it is joined, and a
call of `join_all` waits for a task that panics last. -/
theorem drain_waits_iff_firstSinkFails :
    (∃ t : JoinAll.State ℕ TaskError, t.result = some (.error .panicked) ∧
      JoinAll.Waited [0, 1] t ∧ (JoinAll.system [0, 1]).ReachableBy JoinAll.JoinsLast t) ∧
    ∃ s : State 2, s.phase = .returned (.error (.sink (.write "broker down"))) ∧ s.aborted = [] ∧
      (system pair 0 0).ReachableBy DrainsLast s := by
  have hjoin : ((JoinAll.system [0, 1]).run (JoinAll.State.start [0, 1])
      [.finish 1 (.ok ()), .finish 0 (.error TaskError.panicked), .poll, .poll]).map
        (fun t => (t.result, t.left, t.ended)) =
          some (some (.error .panicked), [], [(1, .ok ()), (0, .error .panicked)]) := by decide
  obtain ⟨t, ht, hview⟩ := Option.map_eq_some_iff.mp hjoin
  simp only [Prod.mk.injEq] at hview
  obtain ⟨hresult, hleft, hended⟩ := hview
  have hdrain : ((system pair 0 0).run (State.start 0 2 0)
      (interrupted 0 1 ++ sinkFails 0 ++ [.sink 1 (.attempted 0 (.ok ⟨1, 0⟩)), .sink 1 (.reap 0),
        .sink 1 .finishDrain, .joinDrain, .finish])).map (fun s => (s.phase, s.left)) =
          some (.returned (.error (.sink (.write "broker down"))), []) := by decide
  obtain ⟨s, hs, hview⟩ := Option.map_eq_some_iff.mp hdrain
  obtain ⟨hphase, hempty⟩ := Prod.mk.inj hview
  have hreached : (JoinAll.system [0, 1]).Reachable t :=
    System.Reachable.run System.ReachableBy.start ht
  have hreach : (system pair 0 0).Reachable s :=
    System.Reachable.run System.ReachableBy.start hs
  obtain ⟨hwaits, hdrains⟩ := drain_waits_iff ℕ TaskError [0, 1] pair 0 0
  obtain ⟨hiff, hreturned⟩ := hdrains s hreach
  have hwaited : JoinAll.Waited [0, 1] t := by
    intro result hsome
    rw [hresult] at hsome
    obtain rfl := Option.some.inj hsome
    rw [hleft, hended]
    exact ⟨rfl, by decide, rfl⟩
  exact ⟨⟨t, hresult, hwaited, (hwaits t hreached).mp hwaited⟩,
    s, hphase, (hreturned hempty _ hphase).1, hiff.mp hempty⟩

end Rustper.Shutdown
