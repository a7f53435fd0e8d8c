import Rustper.FanoutInvariant

/-!
Every step of a fan-out preserves its invariant, so the result of `send` is the
conjunction of its destinations' answers in every interleaving.
-/
namespace Rustper.Fanout

open TransitionSystem Countdown MachineInt

variable {n : ℕ} {batch : EventBatch}

theorem enqueue_inv {s s' : State n} {i : Fin n} (h : Inv batch s)
    (hs : enqueue s i = some s') : Inv batch s' := by
  simp only [enqueue, Option.ite_none_right_eq_some, Option.some.injEq] at hs
  obtain ⟨⟨hphase, hstage⟩, rfl⟩ := hs
  have hbranch := h.branch i
  simp only [BranchOk, hstage] at hbranch
  refine ⟨h.batch_eq, h.agrees.modify i rfl rfl (fun _ => rfl), ?_, ?_⟩
  · intro j
    rw [State.modify_branches]
    by_cases hj : j = i
    · subst j
      rw [Function.update_self]
      exact ⟨hbranch.1, hbranch.2.1, by rw [h.batch_eq], hbranch.2.2⟩
    · rw [Function.update_of_ne hj]
      exact h.branch j
  · rw [State.modify_phase, hphase]
    trivial

theorem refuse_inv {s s' : State n} {i : Fin n} (h : Inv batch s)
    (hs : refuse s i = some s') : Inv batch s' := by
  simp only [refuse, Option.ite_none_right_eq_some, Option.some.injEq] at hs
  obtain ⟨⟨hphase, hstage⟩, rfl⟩ := hs
  have hbranch := h.branch i
  simp only [BranchOk, hstage] at hbranch
  apply h.modify_complete
  · rfl
  · rfl
  · intro _
    rfl
  · intro _
    simp [hbranch.2.2]
  · simp [BranchOk, hbranch.2.2]
  · rw [hphase]
    trivial

theorem answer_inv {s s' : State n} {i : Fin n} {d : Bool} (h : Inv batch s)
    (hs : answer s i d = some s') : Inv batch s' := by
  simp only [answer, Option.ite_none_right_eq_some, Option.some.injEq] at hs
  obtain ⟨hstage, rfl⟩ := hs
  have hbranch := h.branch i
  simp only [BranchOk, hstage] at hbranch
  obtain ⟨hcompleted, hrefused, hreceived, hanswer⟩ := hbranch
  apply h.modify_complete
  · rfl
  · rfl
  · intro hc
    rw [hcompleted] at hc
    exact absurd hc Bool.false_ne_true
  · intro _
    simp
  · simp [BranchOk, hrefused, hreceived]
  · apply h.phase.update
    · simp [hrefused]
    · simp [hrefused]
    · simp [hcompleted]
    · simp [hanswer]

theorem drop_inv {s s' : State n} {i : Fin n} (h : Inv batch s)
    (hs : drop s i = some s') : Inv batch s' := by
  simp only [drop, Option.ite_none_right_eq_some, Option.some.injEq] at hs
  obtain ⟨hstage, rfl⟩ := hs
  have hbranch := h.branch i
  have hrefused : (s.branches i).refused = false := by
    rcases hstage with hstage | hstage <;> simp only [BranchOk, hstage] at hbranch
    · exact hbranch.2.1
    · exact hbranch.2.1
  have hreceived : (s.branches i).received = some batch := by
    rcases hstage with hstage | hstage <;> simp only [BranchOk, hstage] at hbranch
    · exact hbranch.2.2.1
    · exact hbranch.2.2
  have hfalse : (s.branches i).completed = false → (s.branches i).answer = none := by
    intro hc
    rcases hstage with hstage | hstage <;> simp only [BranchOk, hstage] at hbranch
    · exact hbranch.2.2.2
    · rw [hbranch.1] at hc
      exact absurd hc.symm Bool.false_ne_true
  apply h.modify_complete
  · rfl
  · rfl
  · intro _
    rfl
  · intro hc
    simp [hfalse hc]
  · simp [BranchOk, hrefused, hreceived]
  · apply h.phase.update
    · simp
    · simp [hrefused]
    · simp
    · simp

theorem dropSend_inv {s s' : State n} {i : Fin n} (h : Inv batch s)
    (hs : dropSend s i = some s') : Inv batch s' := by
  unfold dropSend at hs
  split at hs
  · rename_i aborted hphase
    simp only [Option.ite_none_right_eq_some, Option.some.injEq] at hs
    obtain ⟨hstage, rfl⟩ := hs
    have hbranch := h.branch i
    simp only [BranchOk, hstage] at hbranch
    obtain ⟨hcompleted, hrefused, hanswer⟩ := hbranch
    apply h.modify_complete
    · rfl
    · rfl
    · intro _
      rfl
    · intro _
      simp [hanswer]
    · simp [BranchOk, hanswer]
    · apply h.phase.update
      · simp [hrefused]
      · simp [hphase]
      · simp [hcompleted]
      · simp [hanswer]
  · contradiction

/-- A step of the future alone changes nothing but its phase. -/
theorem Inv.set_phase {s : State n} (h : Inv batch s) {phase : Phase}
    (hphase : PhaseOk batch phase s.branches) : Inv batch { s with phase := phase } :=
  ⟨h.batch_eq, ⟨h.agrees.latch, h.agrees.counted, h.agrees.delivered, h.agrees.notified⟩,
    h.branch, hphase⟩

theorem joinSends_inv {s s' : State n} (h : Inv batch s) (hs : joinSends s = some s') :
    Inv batch s' := by
  simp only [joinSends, Option.ite_none_right_eq_some, Option.some.injEq] at hs
  obtain ⟨⟨-, hall⟩, rfl⟩ := hs
  exact h.set_phase hall

theorem cancel_inv {s s' : State n} (h : Inv batch s) (hs : cancel s = some s') :
    Inv batch s' := by
  simp only [cancel, Option.ite_none_right_eq_some, Option.some.injEq] at hs
  obtain ⟨⟨-, hex⟩, rfl⟩ := hs
  exact h.set_phase hex

theorem abort_inv {s s' : State n} (h : Inv batch s) (hs : abort s = some s') :
    Inv batch s' := by
  unfold abort at hs
  split at hs
  · cases hs
    exact h.set_phase trivial
  · cases hs
    exact h.set_phase trivial
  · contradiction

theorem endCancel_inv {s s' : State n} (h : Inv batch s) (hs : endCancel s = some s') :
    Inv batch s' := by
  unfold endCancel at hs
  split at hs
  · rename_i aborted hphase
    simp only [Option.ite_none_right_eq_some, Option.some.injEq] at hs
    obtain ⟨hall, rfl⟩ := hs
    apply h.set_phase
    cases aborted with
    | true => trivial
    | false =>
      have hcancel := h.phase
      rw [hphase] at hcancel
      obtain ⟨i, hi⟩ := hcancel
      -- Only an envelope that is gone can have been refused, and nobody answered it.
      have hbranch := h.branch i
      refine ⟨i, ?_⟩
      unfold BranchOk at hbranch
      split at hbranch <;> simp_all
  · contradiction

/-- The value sent through the acknowledgement channel is the conjunction of the answers. -/
theorem Inv.notified_iff {s : State n} (h : Inv batch s) {b : Bool} {rest : List Bool}
    (hsent : s.notifications = b :: rest) :
    b = true ↔ ∀ i, (s.branches i).received = some batch ∧ (s.branches i).answer = some true := by
  obtain ⟨hzero, hb⟩ := h.agrees.notified b (by simp [hsent])
  have hall : ∀ i, (s.branches i).completed = true := by
    have hsum : s.ack.remaining + s.completed.card = n := h.agrees.latch.sum
    have huniv : s.completed = Finset.univ := by
      apply Finset.eq_univ_of_card
      rw [Fintype.card_fin]
      omega
    intro i
    exact (s.mem_completed i).mp (huniv ▸ Finset.mem_univ i)
  rw [hb, h.agrees.delivered]
  constructor
  · intro hans i
    have hi := hans i (hall i)
    have hbranch := h.branch i
    refine ⟨?_, hi⟩
    unfold BranchOk at hbranch
    split at hbranch <;> simp_all
  · intro hans i _
    exact (hans i).2

theorem acknowledged_inv {s s' : State n} (h : Inv batch s) (hs : acknowledged s = some s') :
    Inv batch s' := by
  unfold acknowledged at hs
  split at hs
  · rename_i hsent
    cases hs
    exact h.set_phase ((h.notified_iff hsent).mp rfl)
  · rename_i hsent
    cases hs
    have hnot := mt (h.notified_iff hsent).mpr Bool.false_ne_true
    obtain ⟨hzero, hb⟩ := h.agrees.notified false (by simp [hsent])
    have hdelivered := mt h.agrees.delivered.mpr (by simp [← hb])
    push Not at hdelivered
    obtain ⟨i, hi, hans⟩ := hdelivered
    exact h.set_phase ⟨i, hi, hans⟩
  · contradiction

/-- The acknowledgement channel is never closed without a value. -/
theorem Inv.ackClosed_none {s : State n} (h : Inv batch s) : ackClosed s = none := by
  unfold ackClosed
  rw [if_neg]
  rintro ⟨-, hsent, hnotify⟩
  have hfired : s.notifications.length = if s.completed.card = n then 1 else 0 :=
    h.agrees.latch.fired
  have harmed : s.ack.notify = true ↔ s.completed.card < n := h.agrees.latch.armed
  have hsum : s.ack.remaining + s.completed.card = n := h.agrees.latch.sum
  rw [hsent, List.length_nil] at hfired
  rw [hnotify] at harmed
  split at hfired
  · omega
  · have : s.completed.card < n := by omega
    exact Bool.false_ne_true (harmed.mpr this)

theorem step_inv {s s' : State n} {a : Action n} (h : Inv batch s) (hs : step s a = some s') :
    Inv batch s' := by
  cases a with
  | enqueue i => exact enqueue_inv h hs
  | refuse i => exact refuse_inv h hs
  | delivered i => exact answer_inv h hs
  | failed i => exact answer_inv h hs
  | drop i => exact drop_inv h hs
  | joinSends => exact joinSends_inv h hs
  | cancel => exact cancel_inv h hs
  | abort => exact abort_inv h hs
  | dropSend i => exact dropSend_inv h hs
  | endCancel => exact endCancel_inv h hs
  | acknowledged => exact acknowledged_inv h hs
  | ackClosed =>
    have hnone : step s .ackClosed = none := h.ackClosed_none
    rw [hnone] at hs
    contradiction

theorem reachable_inv (hn : 0 < n) {s : State n} (h : (system n batch).Reachable s) :
    Inv batch s := by
  apply System.Reachable.invariant (start_inv hn batch) _ h
  intro t a t' hi hs
  exact step_inv hi hs

/-- A fan-out that returned `Ok` was delivered by every destination. -/
theorem Inv.returned_iff {s : State n} (h : Inv batch s) {result : Except SendError Unit}
    (hphase : s.phase = .returned result) :
    result = .ok () ↔
      ∀ i, (s.branches i).received = some batch ∧ (s.branches i).answer = some true := by
  have hok := h.phase
  rw [hphase] at hok
  match result, hok with
  | .ok (), hok => exact ⟨fun _ => hok, fun _ => rfl⟩
  | .error e, hok =>
    obtain ⟨i, -, hi⟩ := hok
    exact ⟨fun he => by contradiction, fun hall => absurd (hall i).2 hi⟩

theorem Inv.remaining_eq {s : State n} (h : Inv batch s) :
    s.ack.remaining =
      (Finset.univ.filter (fun i => (s.branches i).completed = false)).card := by
  have hsum : s.ack.remaining + s.completed.card = n := h.agrees.latch.sum
  have hsplit := Finset.card_filter_add_card_filter_not (s := (Finset.univ : Finset (Fin n)))
    (fun i => (s.branches i).completed = true)
  simp only [Bool.not_eq_true, Finset.card_univ, Fintype.card_fin] at hsplit
  unfold State.completed at hsum
  omega

/-- A branch is counted when its envelope is answered or dropped, and never again. -/
theorem Inv.counted_eq {s : State n} (h : Inv batch s) (i : Fin n) :
    (s.branches i).counted =
      if (s.branches i).stage = .answered ∨ (s.branches i).stage = .gone then 1 else 0 := by
  have hbranch := h.branch i
  rw [h.agrees.counted i]
  unfold BranchOk at hbranch
  split at hbranch <;> simp_all

/-- In every interleaving of a fan-out with at least one destination: a branch is
counted once, when its envelope is answered or dropped; the counter is the number
of branches not yet completed; the notification is sent at most once, by the step
that brings the counter to zero; and `send` returns `Ok` exactly when every
destination received the batch and answered `delivered`. -/
theorem send_agreement (hn : 0 < n) {s : State n} (h : (system n batch).Reachable s) :
    (∀ i, (s.branches i).counted =
      if (s.branches i).stage = .answered ∨ (s.branches i).stage = .gone then 1 else 0) ∧
    s.ack.remaining =
      (Finset.univ.filter (fun i => (s.branches i).completed = false)).card ∧
    s.notifications.length ≤ 1 ∧
    (s.notifications ≠ [] ↔ s.ack.remaining = 0) ∧
    ∀ result, s.phase = .returned result →
      ((∀ i, (s.branches i).received = some batch ∧ (s.branches i).answer = some true) →
        result = .ok ()) ∧
      ((¬ ∀ i, (s.branches i).received = some batch ∧ (s.branches i).answer = some true) →
        ∃ e, result = .error e) := by
  have hinv := reachable_inv hn h
  have hle : s.notifications.length ≤ 1 := hinv.agrees.latch.fired_le_one
  have hiff : s.notifications.length = 1 ↔ s.ack.remaining = 0 := hinv.agrees.latch.fired_iff
  refine ⟨hinv.counted_eq, hinv.remaining_eq, hle, ?_, ?_⟩
  · rw [← hiff, ← List.length_pos_iff_ne_nil]
    omega
  · intro result hphase
    have hreturned := hinv.returned_iff hphase
    refine ⟨hreturned.mpr, fun hnot => ?_⟩
    match result, hreturned with
    | .ok (), hreturned => exact absurd (hreturned.mp rfl) hnot
    | .error e, _ => exact ⟨e, rfl⟩

/-- Two destinations; the second answers first and its envelope is dropped late. -/
def bothDeliver : List (Action 2) :=
  [.enqueue 0, .enqueue 1, .delivered 1, .joinSends, .delivered 0, .drop 0, .drop 1,
    .acknowledged]

theorem send_agreement_bothDeliver : ∃ s : State 2,
    s.phase = .returned (.ok ()) ∧ s.notifications.length ≤ 1 ∧ s.ack.remaining = 0 := by
  have hrun : ((system 2 (EventBatch.new [])).run (State.start 2 (EventBatch.new []))
      bothDeliver).map (fun s => (s.phase, s.notifications)) =
        some (.returned (.ok ()), [true]) := by decide
  obtain ⟨s, hs, hview⟩ := Option.map_eq_some_iff.mp hrun
  obtain ⟨hphase, hsent⟩ := Prod.mk.inj hview
  have hreach : (system 2 (EventBatch.new [])).Reachable s :=
    System.Reachable.run System.ReachableBy.start hs
  obtain ⟨-, -, hle, hzero, -⟩ := send_agreement (by decide) hreach
  exact ⟨s, hphase, hle, hzero.mp (by simp [hsent])⟩

end Rustper.Fanout
