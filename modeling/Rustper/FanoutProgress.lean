import Rustper.FanoutHistory
import Rustper.Library.Potential
import Mathlib.Algebra.Group.Action.Defs

/-!
Progress of one `Fanout::send`. Every step takes an envelope or the future itself
further, so no interleaving goes on for ever; and an interleaving that cannot go on has
come to its end, with the future over and every envelope dropped. `cost` is what an
envelope that is queued still has to go through elsewhere.
-/
namespace Rustper.Fanout

open TransitionSystem

variable {n : ℕ} {batch : EventBatch} {s s' : State n}

/-- Steps left to the owner of an envelope. -/
def stageWork (cost : ℕ) : Stage → ℕ
  | .sending => cost + 3
  | .held => 2
  | .answered => 1
  | .gone => 0

/-- Steps left to the future. -/
def phaseWork : Phase → ℕ
  | .sending => 2
  | .cancelling _ | .awaiting => 1
  | .returned _ | .aborted => 0

def State.remaining (cost : Fin n → ℕ) (s : State n) : ℕ :=
  ∑ i, stageWork (cost i) (s.branches i).stage + phaseWork s.phase

/-- Queueing an envelope passes its cost on. -/
def passed (cost : Fin n → ℕ) : Action n → ℕ
  | .enqueue i => cost i
  | _ => 0

/-- What the future does by itself. -/
def Action.own : Action n → Bool
  | .joinSends | .cancel | .dropSend _ | .endCancel | .acknowledged | .ackClosed => true
  | _ => false

def Phase.over : Phase → Bool
  | .returned _ | .aborted => true
  | _ => false

/-- A step that takes the envelope of one branch further. -/
theorem remaining_branch {cost : Fin n → ℕ} {i : Fin n} {b : Branch} {less : ℕ}
    (hbranches : s'.branches = Function.update s.branches i b) (hphase : s'.phase = s.phase)
    (hless : stageWork (cost i) b.stage + less ≤ stageWork (cost i) (s.branches i).stage) :
    s'.remaining cost + less ≤ s.remaining cost := by
  have hsum := sum_update s.branches (fun j b => stageWork (cost j) b.stage) i b
  simp only [State.remaining, hbranches, hphase]
  omega

theorem remaining_complete {cost : Fin n → ℕ} {i : Fin n} {f : Branch → Branch} {d : Bool}
    (hless : stageWork (cost i) (f (s.branches i)).stage + 1 ≤
      stageWork (cost i) (s.branches i).stage) :
    ((s.modify i f).complete i d).remaining cost + 1 ≤ s.remaining cost := by
  apply remaining_branch (modify_complete_branches s i f d)
  · rw [State.complete_phase, State.modify_phase]
  · rwa [Branch.complete_stage]

theorem remaining_phase {cost : Fin n → ℕ} {phase : Phase}
    (hless : phaseWork phase + 1 ≤ phaseWork s.phase) :
    State.remaining cost { s with phase := phase } + 1 ≤ s.remaining cost := by
  simp only [State.remaining]
  omega

theorem step_remaining (cost : Fin n → ℕ) {a : Action n} (hs : step s a = some s') :
    s'.remaining cost + passed cost a + 1 ≤ s.remaining cost := by
  cases a with
  | enqueue i =>
    simp only [step, enqueue, Option.ite_none_right_eq_some, Option.some.injEq] at hs
    obtain ⟨⟨-, hstage⟩, rfl⟩ := hs
    rw [Nat.add_assoc]
    refine remaining_branch (State.modify_branches s i _) rfl ?_
    simp only [hstage, stageWork, passed]
    omega
  | refuse i =>
    simp only [step, refuse, Option.ite_none_right_eq_some, Option.some.injEq] at hs
    obtain ⟨⟨-, hstage⟩, rfl⟩ := hs
    exact remaining_complete (by simp [hstage, stageWork])
  | delivered i | failed i =>
    simp only [step, answer, Option.ite_none_right_eq_some, Option.some.injEq] at hs
    obtain ⟨hstage, rfl⟩ := hs
    exact remaining_complete (by simp [hstage, stageWork])
  | drop i =>
    simp only [step, drop, Option.ite_none_right_eq_some, Option.some.injEq] at hs
    obtain ⟨hstage, rfl⟩ := hs
    refine remaining_complete ?_
    rcases hstage with hstage | hstage <;> simp [hstage, stageWork]
  | joinSends =>
    simp only [step, joinSends, Option.ite_none_right_eq_some, Option.some.injEq] at hs
    obtain ⟨⟨hphase, -⟩, rfl⟩ := hs
    exact remaining_phase (by simp [hphase, phaseWork])
  | cancel =>
    simp only [step, cancel, Option.ite_none_right_eq_some, Option.some.injEq] at hs
    obtain ⟨⟨hphase, -⟩, rfl⟩ := hs
    exact remaining_phase (by simp [hphase, phaseWork])
  | abort =>
    simp only [step, abort] at hs
    split at hs
    · rename_i hphase
      cases hs
      exact remaining_phase (by simp [hphase, phaseWork])
    · rename_i hphase
      cases hs
      exact remaining_phase (by simp [hphase, phaseWork])
    · contradiction
  | dropSend i =>
    simp only [step, dropSend] at hs
    split at hs
    · simp only [Option.ite_none_right_eq_some, Option.some.injEq] at hs
      obtain ⟨hstage, rfl⟩ := hs
      exact remaining_complete (by simp [hstage, stageWork])
    · contradiction
  | endCancel =>
    simp only [step, endCancel] at hs
    split at hs
    · rename_i aborted hphase
      simp only [Option.ite_none_right_eq_some, Option.some.injEq] at hs
      obtain ⟨-, rfl⟩ := hs
      exact remaining_phase (by cases aborted <;> simp [hphase, phaseWork])
    · contradiction
  | acknowledged =>
    simp only [step, acknowledged] at hs
    split at hs
    · rename_i hphase _
      cases hs
      exact remaining_phase (by simp [hphase, phaseWork])
    · rename_i hphase _
      cases hs
      exact remaining_phase (by simp [hphase, phaseWork])
    · contradiction
  | ackClosed =>
    simp only [step, ackClosed, Option.ite_none_right_eq_some, Option.some.injEq] at hs
    obtain ⟨⟨hphase, -⟩, rfl⟩ := hs
    exact remaining_phase (by simp [hphase, phaseWork])

/-- Every step is work, and none is paid for. -/
def potential (n : ℕ) (batch : EventBatch) :
    Potential (system n batch) (fun _ => True) (fun _ => 1) (fun _ => 0) where
  value := State.remaining (fun _ => 0)
  keeps _ _ := trivial
  bound _ hs := by
    have hless := step_remaining (fun _ => 0) hs
    omega

theorem remaining_start (cost : Fin n → ℕ) (batch : EventBatch) :
    (State.start n batch).remaining cost ≤ ∑ i, (cost i + 3) + 2 := by
  have hphase : phaseWork (State.start n batch).phase ≤ 2 := by
    simp only [State.start]
    split <;> simp [phaseWork]
  exact Nat.add_le_add_left hphase _

/-- Without destinations `send` returns at once. -/
theorem pos_of_awaiting (h : (system n batch).Reachable s) (hphase : s.phase = .awaiting) :
    0 < n := by
  rcases Nat.eq_zero_or_pos n with hn | hn
  · have hstart : (State.start n batch).phase = .returned (.ok ()) := by
      simp [State.start, hn]
    have hreturned : s.phase = .returned (.ok ()) := by
      apply System.Reachable.invariant hstart _ h
      intro t a t' ht hs
      exact (step_evolves hs).returned _ ht
    rw [hphase] at hreturned
    contradiction
  · exact hn

/-- A future that awaits the answers is told them once no branch is held any more. -/
theorem held_of_awaiting (h : (system n batch).Reachable s) (hphase : s.phase = .awaiting)
    (hnone : step s .acknowledged = none) : ∃ i, (s.branches i).stage = .held := by
  have hinv := reachable_inv (pos_of_awaiting h hphase) h
  have hempty : s.notifications = [] := by
    cases hsent : s.notifications with
    | nil => rfl
    | cons b rest =>
      cases b <;> simp [step, acknowledged, hphase, hsent] at hnone
  have hopen : ∃ i, (s.branches i).completed ≠ true := by
    by_contra hall
    push Not at hall
    have huniv : s.completed = Finset.univ := by
      ext i
      simp [State.mem_completed, hall i]
    have hfired : s.notifications.length = if s.completed.card = n then 1 else 0 :=
      hinv.agrees.latch.fired
    rw [hempty, huniv, Finset.card_fin] at hfired
    simp at hfired
  obtain ⟨i, hi⟩ := hopen
  have hok := hinv.phase
  rw [hphase] at hok
  have hbranch := hinv.branch i
  refine ⟨i, ?_⟩
  unfold BranchOk at hbranch
  cases hstage : (s.branches i).stage with
  | sending => exact absurd hstage (hok i).1
  | held => rfl
  | answered =>
    rw [hstage] at hbranch
    exact absurd hbranch.1 hi
  | gone =>
    rw [hstage] at hbranch
    exact absurd hbranch.1 hi

/-- Before it is over, a future that can do nothing by itself waits for a destination: for
room in its channel or for its answer. -/
theorem waits_of_stuck (h : (system n batch).Reachable s) (hover : s.phase.over = false)
    (hstuck : ∀ a : Action n, a.own = true → step s a = none) :
    (s.phase = .sending ∧ ∃ i, (s.branches i).stage = .sending) ∨
      (s.phase = .awaiting ∧ ∃ i, (s.branches i).stage = .held) := by
  cases hphase : s.phase with
  | sending =>
    refine Or.inl ⟨rfl, ?_⟩
    have hjoin := hstuck .joinSends rfl
    have hcancel := hstuck .cancel rfl
    simp only [step, joinSends, hphase, true_and, ite_eq_right_iff] at hjoin
    simp only [step, cancel, hphase, true_and, ite_eq_right_iff] at hcancel
    by_contra hnone
    push Not at hnone
    by_cases hrefused : ∃ i, (s.branches i).refused = true
    · exact Option.some_ne_none _ (hcancel hrefused)
    · push Not at hrefused
      refine Option.some_ne_none _ (hjoin fun i => ⟨hnone i, ?_⟩)
      simpa using hrefused i
  | cancelling aborted =>
    have hend := hstuck .endCancel rfl
    simp only [step, endCancel, hphase, ite_eq_right_iff] at hend
    have hsending : ∃ i, (s.branches i).stage = .sending := by
      by_contra hnone
      push Not at hnone
      exact Option.some_ne_none _ (hend hnone)
    obtain ⟨i, hi⟩ := hsending
    have hdrop := hstuck (.dropSend i) rfl
    simp [step, dropSend, hphase, hi] at hdrop
  | awaiting => exact Or.inr ⟨rfl, held_of_awaiting h hphase (hstuck .acknowledged rfl)⟩
  | returned result => simp [hphase, Phase.over] at hover
  | aborted => simp [hphase, Phase.over] at hover

/-- The sends are over: joined, or given up. -/
def Phase.gathered : Phase → Bool
  | .sending | .cancelling _ => false
  | _ => true

theorem step_gathered {a : Action n} (hs : step s a = some s')
    (hgathered : s'.phase.gathered = true) :
    s.phase.gathered = true ∨ ∀ i, (s'.branches i).stage ≠ .sending := by
  cases a with
  | joinSends =>
    simp only [step, joinSends, Option.ite_none_right_eq_some, Option.some.injEq] at hs
    obtain ⟨⟨-, hall⟩, rfl⟩ := hs
    exact Or.inr fun i => (hall i).1
  | endCancel =>
    simp only [step, endCancel] at hs
    split at hs
    · simp only [Option.ite_none_right_eq_some, Option.some.injEq] at hs
      obtain ⟨hall, rfl⟩ := hs
      exact Or.inr hall
    · contradiction
  | cancel =>
    simp only [step, cancel, Option.ite_none_right_eq_some, Option.some.injEq] at hs
    obtain ⟨-, rfl⟩ := hs
    contradiction
  | enqueue i | refuse i | delivered i | failed i | drop i | abort | dropSend i | acknowledged
    | ackClosed =>
    simp only [step, enqueue, refuse, answer, drop, abort, dropSend, acknowledged, ackClosed] at hs
    grind [Phase.gathered, State.modify_phase, State.complete_phase]

/-- Once the sends are over, no envelope is being sent any more. -/
theorem stage_of_gathered (h : (system n batch).Reachable s) :
    s.phase.gathered = true → ∀ i, (s.branches i).stage ≠ .sending := by
  have hstart : (State.start n batch).phase.gathered = true →
      ∀ i, ((State.start n batch).branches i).stage ≠ .sending := by
    intro hgathered i
    simp [State.start, Nat.ne_of_gt i.pos, Phase.gathered] at hgathered
  apply System.Reachable.invariant hstart _ h
  intro t a t' ht hs hgathered
  rcases step_gathered hs hgathered with hbefore | hnow
  · exact fun i hi => ht hbefore i ((step_evolves hs).stage i hi)
  · exact hnow

theorem reachable_remaining (h : (system n batch).Reachable s) :
    s.remaining (fun _ => 0) ≤ 3 * n + 2 := by
  have hstart : (State.start n batch).remaining (fun _ => 0) ≤ 3 * n + 2 := by
    have hle := remaining_start (fun _ : Fin n => 0) batch
    simp only [Nat.zero_add, Finset.sum_const, Finset.card_univ, Fintype.card_fin,
      smul_eq_mul] at hle
    omega
  apply System.Reachable.invariant hstart _ h
  intro t a t' ht hs
  have hless := step_remaining (fun _ => 0) hs
  omega

/-- No interleaving of a fan-out takes more than three steps a destination and two of the
future, and none is stuck half-way: where no step is possible, the future has returned or
was aborted and every envelope is gone. -/
theorem send_terminates (h : (system n batch).Reachable s) :
    (∀ actions s', (system n batch).run s actions = some s' → actions.length ≤ 3 * n + 2) ∧
    ((∀ a, step s a = none) ↔
      s.phase.over = true ∧ ∀ i, (s.branches i).stage = .gone) := by
  refine ⟨?_, ?_, ?_⟩
  · intro actions s' hrun
    have hbound := (potential n batch).run_bound trivial hrun
    have hle : (potential n batch).value s ≤ 3 * n + 2 := reachable_remaining h
    simp only [List.map_const', List.sum_replicate, smul_eq_mul, mul_one,
      mul_zero] at hbound
    omega
  · intro hstuck
    have hanswered : ∀ i, (s.branches i).stage ≠ .held ∧ (s.branches i).stage ≠ .answered := by
      intro i
      have hdrop := hstuck (.drop i)
      simpa [step, drop] using hdrop
    have hover : s.phase.over = true := by
      by_contra hnot
      rcases waits_of_stuck h (by simpa using hnot) (fun a _ => hstuck a) with
        ⟨hphase, i, hi⟩ | ⟨hphase, i, hi⟩
      · have henqueue := hstuck (.enqueue i)
        simp [step, enqueue, hphase, hi] at henqueue
      · exact (hanswered i).1 hi
    refine ⟨hover, fun i => ?_⟩
    cases hstage : (s.branches i).stage with
    | sending =>
      refine absurd hstage (stage_of_gathered h ?_ i)
      cases hphase : s.phase <;> simp [hphase, Phase.over] at hover <;> rfl
    | held => exact absurd hstage (hanswered i).1
    | answered => exact absurd hstage (hanswered i).2
    | gone => rfl
  · rintro ⟨hover, hgone⟩ a
    cases hphase : s.phase with
    | returned result =>
      cases a <;> simp [step, enqueue, refuse, answer, drop, joinSends, cancel, abort, dropSend,
        endCancel, acknowledged, ackClosed, hphase, hgone]
    | aborted =>
      cases a <;> simp [step, enqueue, refuse, answer, drop, joinSends, cancel, abort, dropSend,
        endCancel, acknowledged, ackClosed, hphase, hgone]
    | _ => simp [hphase, Phase.over] at hover

/-- The bound is attained: both destinations deliver, and then nothing is left to do. -/
theorem send_terminates_bothDeliver : ∃ s : State 2,
    (system 2 (EventBatch.new [])).run (State.start 2 (EventBatch.new [])) bothDeliver = some s ∧
    (∀ a, step s a = none) ∧ bothDeliver.length = 3 * 2 + 2 := by
  have hrun : ((system 2 (EventBatch.new [])).run (State.start 2 (EventBatch.new []))
      bothDeliver).map (fun s => (s.phase.over, (s.branches 0).stage, (s.branches 1).stage)) =
        some (true, .gone, .gone) := by decide
  obtain ⟨s, hs, hview⟩ := Option.map_eq_some_iff.mp hrun
  simp only [Prod.mk.injEq] at hview
  have hreach : (system 2 (EventBatch.new [])).Reachable s :=
    System.Reachable.run System.ReachableBy.start hs
  exact ⟨s, hs, (send_terminates hreach).2.mpr ⟨hview.1, Fin.forall_fin_two.mpr hview.2⟩, rfl⟩

end Rustper.Fanout
