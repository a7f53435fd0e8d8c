import Rustper.Fanout
import Mathlib.Data.Finset.Card

/-!
The invariant of one `Fanout::send`. The shared counter agrees with the branches
that have been counted, each branch obeys the life cycle of its envelope, and the
phase of the future says what its branches have done. FanoutAgreement shows that
every step preserves it and reads the result of `send` off the phase.
-/
namespace Rustper.Fanout

open TransitionSystem Countdown MachineInt

variable {n : ℕ} {batch : EventBatch}

namespace State

/-- The acknowledgement state seen as a countdown latch. -/
def latch (s : State n) : Latch := ⟨s.ack.remaining, s.ack.notify, s.notifications.length⟩

def completed (s : State n) : Finset (Fin n) :=
  Finset.univ.filter (fun i => (s.branches i).completed = true)

theorem mem_completed (s : State n) (i : Fin n) :
    i ∈ s.completed ↔ (s.branches i).completed = true := by
  simp [completed]

@[simp] theorem modify_batch (s : State n) (i : Fin n) (f : Branch → Branch) :
    (s.modify i f).batch = s.batch := rfl

@[simp] theorem modify_ack (s : State n) (i : Fin n) (f : Branch → Branch) :
    (s.modify i f).ack = s.ack := rfl

@[simp] theorem modify_notifications (s : State n) (i : Fin n) (f : Branch → Branch) :
    (s.modify i f).notifications = s.notifications := rfl

@[simp] theorem modify_phase (s : State n) (i : Fin n) (f : Branch → Branch) :
    (s.modify i f).phase = s.phase := rfl

theorem modify_branches (s : State n) (i : Fin n) (f : Branch → Branch) :
    (s.modify i f).branches = Function.update s.branches i (f (s.branches i)) := rfl

@[simp] theorem complete_batch (s : State n) (i : Fin n) (d : Bool) :
    (s.complete i d).batch = s.batch := by
  unfold complete
  split
  · rfl
  · dsimp only
    split <;> rfl

@[simp] theorem complete_phase (s : State n) (i : Fin n) (d : Bool) :
    (s.complete i d).phase = s.phase := by
  unfold complete
  split
  · rfl
  · dsimp only
    split <;> rfl

end State

/-- What counting a branch does to the branch itself. -/
def Branch.complete (b : Branch) : Branch :=
  if b.completed then b else { b with completed := true, counted := b.counted + 1 }

@[simp] theorem Branch.complete_completed (b : Branch) : b.complete.completed = true := by
  unfold Branch.complete
  split <;> simp_all

@[simp] theorem Branch.complete_stage (b : Branch) : b.complete.stage = b.stage := by
  unfold Branch.complete
  split <;> rfl

@[simp] theorem Branch.complete_refused (b : Branch) : b.complete.refused = b.refused := by
  unfold Branch.complete
  split <;> rfl

@[simp] theorem Branch.complete_received (b : Branch) : b.complete.received = b.received := by
  unfold Branch.complete
  split <;> rfl

@[simp] theorem Branch.complete_answer (b : Branch) : b.complete.answer = b.answer := by
  unfold Branch.complete
  split <;> rfl

theorem complete_branches (s : State n) (i : Fin n) (d : Bool) :
    (s.complete i d).branches = Function.update s.branches i (s.branches i).complete := by
  unfold State.complete Branch.complete
  split
  · exact (Function.update_eq_self i s.branches).symm
  · dsimp only
    split <;> rfl

/-- The shared counter agrees with the branches counted so far, and `delivered`
with their answers. -/
structure Agrees (s : State n) : Prop where
  latch : s.latch.Tracks n s.completed.card
  counted : ∀ i, (s.branches i).counted = if (s.branches i).completed then 1 else 0
  delivered : s.ack.delivered = true ↔
    ∀ i, (s.branches i).completed = true → (s.branches i).answer = some true
  notified : ∀ b ∈ s.notifications, s.ack.remaining = 0 ∧ b = s.ack.delivered

theorem start_agrees (hn : 0 < n) (batch : EventBatch) : Agrees (State.start n batch) where
  latch := by
    have hempty : (State.start n batch).completed = ∅ := by
      simp [State.completed, State.start, Branch.new]
    rw [hempty]
    exact Latch.tracks_new hn
  counted := by simp [State.start, Branch.new]
  delivered := by simp [State.start, Branch.new]
  notified := by simp [State.start]

/-- Changing the stage or history of a branch leaves the counter in agreement. -/
theorem Agrees.modify {s : State n} (h : Agrees s) (i : Fin n) {f : Branch → Branch}
    (hcompleted : (f (s.branches i)).completed = (s.branches i).completed)
    (hcounted : (f (s.branches i)).counted = (s.branches i).counted)
    (hanswer : (s.branches i).completed = true →
      (f (s.branches i)).answer = (s.branches i).answer) : Agrees (s.modify i f) := by
  have hset : (s.modify i f).completed = s.completed := by
    ext j
    rw [State.mem_completed, State.mem_completed, State.modify_branches]
    by_cases hj : j = i
    · subst j
      rw [Function.update_self, hcompleted]
    · rw [Function.update_of_ne hj]
  refine ⟨?_, ?_, ?_, h.notified⟩
  · rw [hset]
    exact h.latch
  · intro j
    rw [State.modify_branches]
    by_cases hj : j = i
    · subst j
      rw [Function.update_self, hcompleted, hcounted]
      exact h.counted _
    · rw [Function.update_of_ne hj]
      exact h.counted j
  · rw [State.modify_ack, h.delivered, State.modify_branches]
    apply forall_congr'
    intro j
    by_cases hj : j = i
    · subst j
      rw [Function.update_self, hcompleted]
      exact imp_congr_right (fun hc => by rw [hanswer hc])
    · rw [Function.update_of_ne hj]

theorem completed_complete {s : State n} {i : Fin n} {d : Bool}
    (hi : (s.branches i).completed = false) :
    (s.complete i d).completed = insert i s.completed := by
  ext j
  rw [State.mem_completed, complete_branches, Finset.mem_insert, State.mem_completed]
  by_cases hj : j = i
  · subst j
    simp [Branch.complete, hi]
  · simp [hj]

theorem Agrees.card_lt {s : State n} {i : Fin n} (hi : (s.branches i).completed = false) :
    s.completed.card + 1 ≤ n := by
  have hnot : i ∉ s.completed := by simp [State.mem_completed, hi]
  have hcard := Finset.card_le_univ (insert i s.completed)
  rw [Finset.card_insert_of_notMem hnot, Fintype.card_fin] at hcard
  exact hcard

/-- An uncounted branch takes exactly one unit off the latch. -/
theorem complete_latch {s : State n} (h : Agrees s) {i : Fin n} {d : Bool}
    (hi : (s.branches i).completed = false) :
    (s.complete i d).latch = s.latch.release 1 := by
  have hpos : 1 ≤ s.ack.remaining := by
    have hcard := Agrees.card_lt hi
    have hsum : s.ack.remaining + s.completed.card = n := h.latch.sum
    omega
  have hzero : s.ack.remaining - 1 = 0 ↔ s.ack.remaining = 1 := by omega
  simp only [State.complete, hi, Bool.false_eq_true, if_false, Latch.release, State.latch,
    wrappingSub_of_le hpos, hzero]
  split
  · rename_i hfire
    simp [hfire]
  · rename_i hfire
    simp [hfire]

/-- Completing a branch keeps the agreement, provided that an uncounted branch is
counted as delivered exactly when its destination answered so. -/
theorem Agrees.complete {s : State n} (h : Agrees s) (i : Fin n) {d : Bool}
    (hd : (s.branches i).completed = false → (d = true ↔ (s.branches i).answer = some true)) :
    Agrees (s.complete i d) := by
  by_cases hi : (s.branches i).completed = true
  · have hsame : s.complete i d = s := by simp [State.complete, hi]
    rw [hsame]
    exact h
  have hi' : (s.branches i).completed = false := by simpa using hi
  have hnot : i ∉ s.completed := by simp [State.mem_completed, hi']
  have htracks : (s.complete i d).latch.Tracks n (s.complete i d).completed.card := by
    rw [complete_latch h hi', completed_complete hi', Finset.card_insert_of_notMem hnot]
    exact h.latch.release Nat.one_pos (Agrees.card_lt hi')
  have hdelivered : (s.complete i d).ack.delivered = (s.ack.delivered && d) := by
    simp only [State.complete, hi', Bool.false_eq_true, if_false]
    split <;> rfl
  refine ⟨htracks, ?_, ?_, ?_⟩
  · intro j
    rw [complete_branches]
    by_cases hj : j = i
    · subst j
      have hcount := h.counted i
      rw [hi'] at hcount
      simpa [Branch.complete, hi'] using hcount
    · rw [Function.update_of_ne hj]
      exact h.counted j
  · rw [hdelivered, Bool.and_eq_true, h.delivered, hd hi', complete_branches]
    constructor
    · rintro ⟨hall, hans⟩ j hj
      by_cases hji : j = i
      · subst j
        simpa using hans
      · rw [Function.update_of_ne hji] at hj ⊢
        exact hall j hj
    · intro hall
      refine ⟨fun j hj => ?_, ?_⟩
      · have hji : j ≠ i := by
          rintro rfl
          exact hi hj
        have := hall j (by rwa [Function.update_of_ne hji])
        rwa [Function.update_of_ne hji] at this
      · have := hall i (by simp)
        simpa using this
  · intro b hb
    have hold : s.notifications = [] := by
      have hfired : s.notifications.length = 0 := by
        have hcard := Agrees.card_lt hi'
        have := h.latch.fired
        rwa [if_neg (by omega)] at this
      exact List.length_eq_zero_iff.mp hfired
    rw [hdelivered]
    simp only [State.complete, hi', Bool.false_eq_true, if_false] at hb ⊢
    split at hb
    · rename_i hfire
      simp only [hold, List.nil_append, List.mem_singleton] at hb
      simp only [hfire, and_self, if_true]
      exact ⟨trivial, hb⟩
    · simp [hold] at hb

/-- The life cycle of one envelope. -/
def BranchOk (batch : EventBatch) (b : Branch) : Prop :=
  match b.stage with
  | .sending => b.completed = false ∧ b.refused = false ∧ b.answer = none
  | .held => b.completed = false ∧ b.refused = false ∧ b.received = some batch ∧ b.answer = none
  | .answered => b.completed = true ∧ b.refused = false ∧ b.received = some batch
  | .gone => b.completed = true ∧ (b.refused = true → b.answer = none) ∧
      (b.answer ≠ none → b.received = some batch)

/-- What the phase of the send future says about its branches. -/
def PhaseOk (batch : EventBatch) (phase : Phase) (branches : Fin n → Branch) : Prop :=
  match phase with
  | .cancelling false => ∃ i, (branches i).refused = true
  | .awaiting => ∀ i, (branches i).stage ≠ .sending ∧ (branches i).refused = false
  | .returned (.ok ()) => ∀ i, (branches i).received = some batch ∧ (branches i).answer = some true
  | .returned (.error _) => ∃ i, (branches i).completed = true ∧ (branches i).answer ≠ some true
  | _ => True

structure Inv (batch : EventBatch) (s : State n) : Prop where
  batch_eq : s.batch = batch
  agrees : Agrees s
  branch : ∀ i, BranchOk batch (s.branches i)
  phase : PhaseOk batch s.phase s.branches

theorem start_inv (hn : 0 < n) (batch : EventBatch) : Inv batch (State.start n batch) where
  batch_eq := rfl
  agrees := start_agrees hn batch
  branch := by simp [State.start, Branch.new, BranchOk]
  phase := by simp [State.start, Nat.ne_of_gt hn, PhaseOk]

/-- A branch that a destination or the send future still owns may move on without
contradicting the phase, if it keeps its answer once counted and its refusal. -/
theorem PhaseOk.update {phase : Phase} {branches : Fin n → Branch} {i : Fin n} {b : Branch}
    (h : PhaseOk batch phase branches)
    (hrefused : (branches i).refused = true → b.refused = true)
    (hawaiting : phase = .awaiting → b.stage ≠ .sending ∧ b.refused = false)
    (hcompleted : (branches i).completed = true → b.completed = true ∧
      b.answer = (branches i).answer)
    (hanswer : (branches i).answer = some true → b.answer = some true ∧
      b.received = (branches i).received) :
    PhaseOk batch phase (Function.update branches i b) := by
  match phase, h with
  | .sending, _ => trivial
  | .cancelling true, _ => trivial
  | .aborted, _ => trivial
  | .cancelling false, ⟨j, hj⟩ =>
    refine ⟨j, ?_⟩
    by_cases hji : j = i
    · subst j
      simpa using hrefused hj
    · rwa [Function.update_of_ne hji]
  | .awaiting, hall =>
    intro j
    by_cases hji : j = i
    · subst j
      simpa using hawaiting rfl
    · rw [Function.update_of_ne hji]
      exact hall j
  | .returned (.ok ()), hall =>
    intro j
    by_cases hji : j = i
    · subst j
      have hkept := hanswer (hall i).2
      rw [Function.update_self, hkept.2]
      exact ⟨(hall i).1, hkept.1⟩
    · rw [Function.update_of_ne hji]
      exact hall j
  | .returned (.error _), ⟨j, hj⟩ =>
    refine ⟨j, ?_⟩
    by_cases hji : j = i
    · subst j
      have hkept := hcompleted hj.1
      rw [Function.update_self, hkept.2]
      exact ⟨hkept.1, hj.2⟩
    · rwa [Function.update_of_ne hji]

/-- A step that changes one branch and then counts it keeps the invariant. -/
theorem Inv.modify_complete {s : State n} (h : Inv batch s) {i : Fin n} {f : Branch → Branch}
    {d : Bool} (hcompleted : (f (s.branches i)).completed = (s.branches i).completed)
    (hcounted : (f (s.branches i)).counted = (s.branches i).counted)
    (hanswer : (s.branches i).completed = true →
      (f (s.branches i)).answer = (s.branches i).answer)
    (hd : (s.branches i).completed = false →
      (d = true ↔ (f (s.branches i)).answer = some true))
    (hok : BranchOk batch (f (s.branches i)).complete)
    (hphase : PhaseOk batch s.phase
      (Function.update s.branches i (f (s.branches i)).complete)) :
    Inv batch ((s.modify i f).complete i d) where
  batch_eq := by rw [State.complete_batch, State.modify_batch, h.batch_eq]
  agrees := by
    apply (h.agrees.modify i hcompleted hcounted hanswer).complete
    rw [State.modify_branches, Function.update_self, hcompleted]
    exact hd
  branch := by
    intro j
    rw [complete_branches, State.modify_branches]
    by_cases hj : j = i
    · subst j
      simpa using hok
    · rw [Function.update_of_ne hj, Function.update_of_ne hj]
      exact h.branch j
  phase := by
    rw [State.complete_phase, State.modify_phase, complete_branches, State.modify_branches,
      Function.update_self, Function.update_idem]
    exact hphase

end Rustper.Fanout
