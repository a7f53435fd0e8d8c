import Rustper.Library.TransitionSystem

/-!
Refinement of a step relation by a transition system. Each step of the system is, seen
through a function of its states, nothing or one step of the relation, so that what the
relation preserves holds of everything the system reaches.
-/
namespace TransitionSystem

variable {State Action Abstract : Type*}

/-- `view` takes the reachable states of `T` to those of the step relation. -/
structure Refines (T : System State Action) (start : Abstract)
    (Step : Abstract → Abstract → Prop) (view : State → Abstract) : Prop where
  start : view T.start = start
  step : ∀ s a s', T.Reachable s → T.step s a = some s' →
    Relation.ReflGen Step (view s) (view s')

namespace Refines

variable {T : System State Action} {start : Abstract} {Step : Abstract → Abstract → Prop}
  {view : State → Abstract} {s : State}

/-- What holds at the start and what the relation preserves. -/
theorem invariant (h : Refines T start Step view) {P : Abstract → Prop} (hstart : P start)
    (hstep : ∀ x y, P x → Step x y → P y) (hs : T.Reachable s) : P (view s) := by
  apply System.ReachableBy.invariant (P := fun s => T.Reachable s ∧ P (view s)) _ _ hs |>.2
  · exact ⟨System.ReachableBy.start, h.start ▸ hstart⟩
  · rintro t a t' ⟨ht, hP⟩ - hs
    refine ⟨ht.next hs, ?_⟩
    rcases Relation.reflGen_iff _ _ _ |>.mp (h.step t a t' ht hs) with hsame | hstepped
    · exact hsame ▸ hP
    · exact hstep _ _ hP hstepped

end Refines

end TransitionSystem
