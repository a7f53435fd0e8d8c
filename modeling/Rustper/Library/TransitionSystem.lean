import Mathlib.Logic.Relation

/-!
Transition systems whose step is a partial function of a state and an action.
`ReachableBy allowed` restricts a run to steps that meet a condition on the state
before the step and the action taken, so that a theorem about all runs and a
theorem about the runs of one kind have the same shape.
-/
namespace TransitionSystem

/-- One initial state and a partial step; `none` means the action is not enabled. -/
structure System (State Action : Type*) where
  start : State
  step : State → Action → Option State

variable {State Action : Type*}

namespace System

/-- States reached by runs all of whose steps are allowed. -/
inductive ReachableBy (T : System State Action) (allowed : State → Action → Prop) :
    State → Prop
  | start : ReachableBy T allowed T.start
  | step {s s' : State} {a : Action} : ReachableBy T allowed s → allowed s a →
      T.step s a = some s' → ReachableBy T allowed s'

def Reachable (T : System State Action) : State → Prop :=
  T.ReachableBy (fun _ _ => True)

/-- A condition that holds at the start and that every allowed step preserves. -/
theorem ReachableBy.invariant {T : System State Action} {allowed : State → Action → Prop}
    {P : State → Prop} (hstart : P T.start)
    (hstep : ∀ s a s', P s → allowed s a → T.step s a = some s' → P s')
    {s : State} (h : T.ReachableBy allowed s) : P s := by
  induction h with
  | start => exact hstart
  | step _ hallowed hs ih => exact hstep _ _ _ ih hallowed hs

theorem Reachable.invariant {T : System State Action} {P : State → Prop}
    (hstart : P T.start) (hstep : ∀ s a s', P s → T.step s a = some s' → P s')
    {s : State} (h : T.Reachable s) : P s :=
  ReachableBy.invariant hstart (fun s a s' hs _ hs' => hstep s a s' hs hs') h

theorem ReachableBy.mono {T : System State Action} {p q : State → Action → Prop}
    (hpq : ∀ s a, p s a → q s a) {s : State} (h : T.ReachableBy p s) :
    T.ReachableBy q s := by
  induction h with
  | start => exact ReachableBy.start
  | step _ hp hs ih => exact ReachableBy.step ih (hpq _ _ hp) hs

theorem ReachableBy.reachable {T : System State Action} {p : State → Action → Prop}
    {s : State} (h : T.ReachableBy p s) : T.Reachable s :=
  h.mono (fun _ _ _ => trivial)

theorem Reachable.next {T : System State Action} {s s' : State} {a : Action}
    (h : T.Reachable s) (hs : T.step s a = some s') : T.Reachable s' :=
  ReachableBy.step h trivial hs

/-- Apply an action where it is enabled and stay in place where it is not. -/
def attempt (T : System State Action) (s : State) (a : Action) : State :=
  (T.step s a).getD s

theorem Reachable.attempt {T : System State Action} {s : State}
    (h : T.Reachable s) (a : Action) : T.Reachable (T.attempt s a) := by
  unfold System.attempt
  cases hs : T.step s a with
  | none => exact h
  | some s' => exact h.next hs

/-- Run a list of actions, failing at the first one that is not enabled. -/
def run (T : System State Action) : State → List Action → Option State
  | s, [] => some s
  | s, a :: rest => (T.step s a).bind (fun s' => T.run s' rest)

theorem Reachable.run {T : System State Action} {s s' : State} {actions : List Action}
    (h : T.Reachable s) (hrun : T.run s actions = some s') : T.Reachable s' := by
  induction actions generalizing s with
  | nil => exact Option.some.inj hrun ▸ h
  | cons a rest ih =>
    obtain ⟨t, ht, hrest⟩ := Option.bind_eq_some_iff.mp hrun
    exact ih (h.next ht) hrest

/-- A run of actions that are allowed in every state. -/
theorem ReachableBy.run {T : System State Action} {allowed : State → Action → Prop}
    {s s' : State} {actions : List Action} (h : T.ReachableBy allowed s)
    (hall : ∀ a ∈ actions, ∀ t, allowed t a) (hrun : T.run s actions = some s') :
    T.ReachableBy allowed s' := by
  induction actions generalizing s with
  | nil => exact Option.some.inj hrun ▸ h
  | cons a rest ih =>
    rw [List.forall_mem_cons] at hall
    obtain ⟨t, ht, hrest⟩ := Option.bind_eq_some_iff.mp hrun
    exact ih (ReachableBy.step h (hall.1 s) ht) hall.2 hrest

theorem run_append {T : System State Action} {s t u : State} {as bs : List Action}
    (has : T.run s as = some t) (hbs : T.run t bs = some u) : T.run s (as ++ bs) = some u := by
  induction as generalizing s with
  | nil =>
    obtain rfl := Option.some.inj has
    exact hbs
  | cons a rest ih =>
    obtain ⟨s', hs', hrest⟩ := Option.bind_eq_some_iff.mp has
    exact Option.bind_eq_some_iff.mpr ⟨s', hs', ih hrest⟩

/-- Run a list of actions, failing also at the first one that is not allowed. -/
def runBy (T : System State Action) (allowed : State → Action → Prop)
    [∀ s a, Decidable (allowed s a)] : State → List Action → Option State
  | s, [] => some s
  | s, a :: rest =>
    if allowed s a then (T.step s a).bind (fun s' => T.runBy allowed s' rest) else none

theorem ReachableBy.runBy {T : System State Action} {allowed : State → Action → Prop}
    [∀ s a, Decidable (allowed s a)] {s s' : State} {actions : List Action}
    (h : T.ReachableBy allowed s) (hrun : T.runBy allowed s actions = some s') :
    T.ReachableBy allowed s' := by
  induction actions generalizing s with
  | nil => exact Option.some.inj hrun ▸ h
  | cons a rest ih =>
    simp only [System.runBy, Option.ite_none_right_eq_some] at hrun
    obtain ⟨hallowed, hrun⟩ := hrun
    obtain ⟨t, ht, hrest⟩ := Option.bind_eq_some_iff.mp hrun
    exact ih (ReachableBy.step h hallowed ht) hrest

end System

end TransitionSystem
