import Rustper.FanoutAgreement

/-!
What one step of a fan-out can change: the batch never, the phase not once `send` has
returned, a branch only away from `sending`, and an answer `delivered` only by the
destination that gives it.
-/
namespace Rustper.Fanout

open TransitionSystem

variable {n : ℕ} {batch : EventBatch}

structure Evolves (a : Action n) (s s' : State n) : Prop where
  batch : s'.batch = s.batch
  returned : ∀ result, s.phase = .returned result → s'.phase = .returned result
  phase : s'.phase = .sending → s.phase = .sending
  stage : ∀ i, (s'.branches i).stage = .sending → (s.branches i).stage = .sending
  answer : ∀ i, (s'.branches i).answer = some true →
    (s.branches i).answer = some true ∨ a = .delivered i

/-- A step of the future alone moves to a phase that `send` can still reach. -/
theorem Evolves.set_phase {a : Action n} {s : State n} {phase : Phase}
    (hreturned : ∀ result, s.phase = .returned result → phase = .returned result)
    (hphase : phase = .sending → s.phase = .sending) :
    Evolves a s { s with phase := phase } :=
  ⟨rfl, hreturned, hphase, fun _ => id, fun _ => Or.inl⟩

/-- A step that changes one branch and perhaps counts it. -/
theorem Evolves.modify {a : Action n} {s t : State n} {i : Fin n} {b : Branch}
    (hbatch : t.batch = s.batch) (hphase : t.phase = s.phase)
    (hbranches : t.branches = Function.update s.branches i b) (hstage : b.stage ≠ .sending)
    (hanswer : b.answer = some true → (s.branches i).answer = some true ∨ a = .delivered i) :
    Evolves a s t := by
  refine ⟨hbatch, fun result hr => hphase.trans hr, fun hs => hphase ▸ hs, ?_, ?_⟩
  · intro j hj
    rw [hbranches] at hj
    by_cases hji : j = i
    · subst j
      rw [Function.update_self] at hj
      exact absurd hj hstage
    · rwa [Function.update_of_ne hji] at hj
  · intro j hj
    rw [hbranches] at hj
    by_cases hji : j = i
    · subst j
      rw [Function.update_self] at hj
      exact hanswer hj
    · rw [Function.update_of_ne hji] at hj
      exact Or.inl hj

theorem modify_complete_branches (s : State n) (i : Fin n) (f : Branch → Branch) (d : Bool) :
    ((s.modify i f).complete i d).branches =
      Function.update s.branches i (f (s.branches i)).complete := by
  rw [complete_branches, State.modify_branches, Function.update_self, Function.update_idem]

/-- A step that settles the branch it is about. -/
theorem Evolves.complete {a : Action n} {s : State n} {i : Fin n} {f : Branch → Branch} (d : Bool)
    (hstage : (f (s.branches i)).stage ≠ .sending)
    (hanswer : (f (s.branches i)).answer = some true →
      (s.branches i).answer = some true ∨ a = .delivered i) :
    Evolves a s ((s.modify i f).complete i d) := by
  apply Evolves.modify (i := i) _ _ (modify_complete_branches s i f d)
  · rwa [Branch.complete_stage]
  · rwa [Branch.complete_answer]
  · rw [State.complete_batch, State.modify_batch]
  · rw [State.complete_phase, State.modify_phase]

theorem step_evolves {s s' : State n} {a : Action n} (hs : step s a = some s') :
    Evolves a s s' := by
  cases a with
  | enqueue i =>
    simp only [step, enqueue, Option.ite_none_right_eq_some, Option.some.injEq] at hs
    obtain ⟨-, rfl⟩ := hs
    exact .modify rfl rfl (State.modify_branches s i _) (by simp) Or.inl
  | refuse i =>
    simp only [step, refuse, Option.ite_none_right_eq_some, Option.some.injEq] at hs
    obtain ⟨-, rfl⟩ := hs
    exact .complete false (by simp) Or.inl
  | delivered i =>
    simp only [step, answer, Option.ite_none_right_eq_some, Option.some.injEq] at hs
    obtain ⟨-, rfl⟩ := hs
    exact .complete true (by simp) (fun _ => Or.inr rfl)
  | failed i =>
    simp only [step, answer, Option.ite_none_right_eq_some, Option.some.injEq] at hs
    obtain ⟨-, rfl⟩ := hs
    exact .complete false (by simp) (by simp)
  | drop i =>
    simp only [step, drop, Option.ite_none_right_eq_some, Option.some.injEq] at hs
    obtain ⟨-, rfl⟩ := hs
    exact .complete false (by simp) Or.inl
  | joinSends =>
    simp only [step, joinSends, Option.ite_none_right_eq_some, Option.some.injEq] at hs
    obtain ⟨⟨hphase, -⟩, rfl⟩ := hs
    exact .set_phase (by simp [hphase]) (by simp)
  | cancel =>
    simp only [step, cancel, Option.ite_none_right_eq_some, Option.some.injEq] at hs
    obtain ⟨⟨hphase, -⟩, rfl⟩ := hs
    exact .set_phase (by simp [hphase]) (by simp)
  | abort =>
    simp only [step, abort] at hs
    split at hs
    · rename_i hphase
      cases hs
      exact .set_phase (by simp [hphase]) (by simp)
    · rename_i hphase
      cases hs
      exact .set_phase (by simp [hphase]) (by simp)
    · contradiction
  | dropSend i =>
    simp only [step, dropSend] at hs
    split at hs
    · simp only [Option.ite_none_right_eq_some, Option.some.injEq] at hs
      obtain ⟨-, rfl⟩ := hs
      exact .complete false (by simp) Or.inl
    · contradiction
  | endCancel =>
    simp only [step, endCancel] at hs
    split at hs
    · rename_i aborted hphase
      simp only [Option.ite_none_right_eq_some, Option.some.injEq] at hs
      obtain ⟨-, rfl⟩ := hs
      exact .set_phase (by simp [hphase]) (by cases aborted <;> simp)
    · contradiction
  | acknowledged =>
    simp only [step, acknowledged] at hs
    split at hs
    · rename_i hphase _
      cases hs
      exact .set_phase (by simp [hphase]) (by simp)
    · rename_i hphase _
      cases hs
      exact .set_phase (by simp [hphase]) (by simp)
    · contradiction
  | ackClosed =>
    simp only [step, ackClosed, Option.ite_none_right_eq_some, Option.some.injEq] at hs
    obtain ⟨⟨hphase, -⟩, rfl⟩ := hs
    exact .set_phase (by simp [hphase]) (by simp)

theorem reachable_batch {s : State n} (h : (system n batch).Reachable s) : s.batch = batch := by
  have hstart : (State.start n batch).batch = batch := rfl
  apply System.Reachable.invariant hstart _ h
  intro t a t' ht hs
  exact (step_evolves hs).batch.trans ht

/-- When `send` has returned `Ok`, every destination there is has answered. -/
theorem answered_of_returned {s : State n} (h : (system n batch).Reachable s)
    (hphase : s.phase = .returned (.ok ())) (i : Fin n) :
    (s.branches i).answer = some true :=
  (((reachable_inv i.pos h).returned_iff hphase).mp rfl i).2

end Rustper.Fanout
