import Mathlib.Data.List.Perm.Basic

/-!
A set of tasks whose results are joined in the order in which they finish; dropping it
aborts those that are still running.
-/
/-- The tasks still running, and the results that wait to be joined. -/
structure JoinSet (ι ε : Type) where
  running : List ι
  finished : List (ι × Except ε Unit)

/-- What `joinNext` yields: nothing yet, nothing ever again, or a result. -/
inductive JoinSet.Poll (ι ε : Type)
  | pending
  | empty
  | joined (i : ι) (result : Except ε Unit) (rest : JoinSet ι ε)

namespace JoinSet

variable {ι ε : Type}

def spawn (ids : List ι) : JoinSet ι ε := ⟨ids, []⟩

/-- A task ends. -/
def finish [DecidableEq ι] (tasks : JoinSet ι ε) (i : ι) (result : Except ε Unit) :
    Option (JoinSet ι ε) :=
  if i ∈ tasks.running then
    some ⟨tasks.running.erase i, tasks.finished ++ [(i, result)]⟩
  else none

def joinNext (tasks : JoinSet ι ε) : Poll ι ε :=
  match tasks.finished, tasks.running with
  | (i, result) :: rest, running => .joined i result ⟨running, rest⟩
  | [], [] => .empty
  | [], _ :: _ => .pending

/-- The first failure in the order of completion. -/
def firstError : List (ι × Except ε Unit) → Except ε Unit
  | [] => .ok ()
  | (_, .ok ()) :: rest => firstError rest
  | (_, .error e) :: _ => .error e

theorem firstError_append_of_error {ended : List (ι × Except ε Unit)} {e : ε}
    (h : firstError ended = .error e) (more : List (ι × Except ε Unit)) :
    firstError (ended ++ more) = .error e := by
  induction ended with
  | nil => contradiction
  | cons x ended ih =>
    obtain ⟨i, result⟩ := x
    cases result with
    | ok u => exact ih h
    | error e' => exact h

theorem firstError_append_of_ok {ended : List (ι × Except ε Unit)}
    (h : firstError ended = .ok ()) (more : List (ι × Except ε Unit)) :
    firstError (ended ++ more) = firstError more := by
  induction ended with
  | nil => rfl
  | cons x ended ih =>
    obtain ⟨i, result⟩ := x
    cases result with
    | ok u => exact ih h
    | error e' => contradiction

theorem firstError_congr_append {ended waiting : List (ι × Except ε Unit)}
    (h : firstError ended = firstError waiting) (more : List (ι × Except ε Unit)) :
    firstError (ended ++ more) = firstError (waiting ++ more) := by
  cases hwaiting : firstError waiting with
  | ok u =>
    rw [firstError_append_of_ok (h.trans hwaiting), firstError_append_of_ok hwaiting]
  | error e =>
    rw [firstError_append_of_error (h.trans hwaiting), firstError_append_of_error hwaiting]

theorem joinNext_eq_joined {tasks rest : JoinSet ι ε} {i : ι} {result : Except ε Unit}
    (h : tasks.joinNext = .joined i result rest) :
    tasks.finished = (i, result) :: rest.finished ∧ rest.running = tasks.running := by
  unfold joinNext at h
  split at h
  · rename_i hfinished
    cases h
    exact ⟨hfinished, rfl⟩
  · contradiction
  · contradiction

theorem joinNext_eq_empty {tasks : JoinSet ι ε} (h : tasks.joinNext = .empty) :
    tasks.finished = [] ∧ tasks.running = [] := by
  unfold joinNext at h
  split at h
  · contradiction
  · exact ⟨‹_›, ‹_›⟩
  · contradiction

theorem finish_eq_some [DecidableEq ι] {tasks tasks' : JoinSet ι ε} {i : ι}
    {result : Except ε Unit} (h : tasks.finish i result = some tasks') :
    i ∈ tasks.running ∧ tasks'.running = tasks.running.erase i ∧
      tasks'.finished = tasks.finished ++ [(i, result)] := by
  simp only [finish, Option.ite_none_right_eq_some, Option.some.injEq] at h
  obtain ⟨hmem, rfl⟩ := h
  exact ⟨hmem, rfl, rfl⟩

/-- A task that ends moves from those running to those that have ended. -/
theorem perm_finish [DecidableEq ι] {running ended ids : List ι} {i : ι} (hmem : i ∈ running)
    (h : ids.Perm (running ++ ended)) : ids.Perm (running.erase i ++ (ended ++ [i])) := by
  refine h.trans (((List.perm_cons_erase hmem).append_right ended).trans ?_)
  rw [← List.append_assoc]
  exact (List.perm_append_singleton i _).symm

end JoinSet
