import Rustper.SourceInvariant

/-!
How one step of the source loop changes its history: batches are only added, and only
a task that was joined with success can lead to commits.
-/
namespace Rustper.Source

open TransitionSystem

variable {source : KafkaSource} {s s' : State}

/-- The step joined the task of batch `k` and committed what that released. -/
structure Commits (source : KafkaSource) (s s' : State) (k : ℕ)
    (commit : BatchCompletion → Bool) (released : List BatchCompletion) : Prop where
  committed : s'.cursor.committed = s.cursor.committed ++ released
  accepted : ∀ c ∈ released, commit c = true
  inOrder : s'.cursor.committed.map BatchCompletion.sequence = List.range s'.cursor.nextSequence
  fed : ∀ c, c ∈ s'.cursor.committed ∨ c ∈ s'.joined →
    c ∈ s.joined ∨ (c.sequence = k ∧ Carries source s c)
  dispatched : s'.dispatched = s.dispatched

/-- The commits issued so far are those of the first batches, in order. -/
structure Committed (source : KafkaSource) (s : State) : Prop where
  inOrder : s.cursor.committed.map BatchCompletion.sequence = List.range s.cursor.nextSequence
  carries : ∀ c ∈ s.cursor.committed, Carries source s c

theorem dispatch_dispatched (s : State) :
    ∃ new, (dispatch source s).dispatched = s.dispatched ++ new ∧ new.length ≤ 1 := by
  unfold dispatch
  split
  · exact ⟨[], (List.append_nil _).symm, Nat.zero_le _⟩
  · exact ⟨_, rfl, Nat.le_refl _⟩

variable (source) in
theorem dispatch_cursor (s : State) :
    (dispatch source s).cursor = s.cursor ∧ (dispatch source s).joined = s.joined ∧
      (dispatch source s).received = s.received := by
  unfold dispatch
  split <;> exact ⟨rfl, rfl, rfl⟩

theorem complete_commits {task : Task} (commit : BatchCompletion → Bool) (h : Inv source s)
    (hnone : s.outcome = none) (htask : task ∈ s.inFlight) (inFlight : List Task) :
    ∃ released,
      Commits source s (complete s inFlight task commit) task.sequence commit released := by
  have hrun := h.running hnone
  have hdrained := commitContiguous_spec commit hrun.exact (hrun.completion_new htask)
  have hfed : ∀ c ∈ s.joined ++ [task.completion],
      c ∈ s.joined ∨ (c.sequence = task.sequence ∧ Carries source s c) := by
    intro c hc
    refine (List.mem_append.mp hc).imp_right ?_
    intro hc
    rw [List.mem_singleton.mp hc]
    exact ⟨rfl, (h.tasks task htask).1⟩
  unfold complete
  generalize commitContiguous commit s.cursor task.completion = r at hdrained ⊢
  cases hdrained with
  | error released hcommitted haccepted hstopped =>
    refine ⟨released, hcommitted, haccepted, hstopped.inOrder, ?_, rfl⟩
    rintro c (hc | hc)
    · exact hfed c (hstopped.committed_fed c hc)
    · exact Or.inl hc
  | ok released hcommitted haccepted hexact =>
    refine ⟨released, hcommitted, haccepted, hexact.inOrder, ?_, rfl⟩
    rintro c (hc | hc)
    · exact hfed c (hexact.committed_fed c hc)
    · exact hfed c hc

/-- A step adds at most one batch, at most one receipt, and commits only when it joins
a task that succeeded. -/
theorem step_history {a : Action} (h : Inv source s) (hs : step source s a = some s') :
    (∃ new, s'.dispatched = s.dispatched ++ new ∧ new.length ≤ 1) ∧
    (s'.received = s.received ∨ ∃ m, a = .recv m ∧ s'.received = s.received ++ [⟨m, s.now⟩]) ∧
    ((s'.cursor = s.cursor ∧ s'.joined = s.joined) ∨ ∃ k commit released,
      a = .join k .ok commit ∧ Commits source s s' k commit released) := by
  have hrefl : ∃ new, s.dispatched = s.dispatched ++ new ∧ new.length ≤ 1 :=
    ⟨[], (List.append_nil _).symm, Nat.zero_le _⟩
  simp only [step, Option.ite_none_right_eq_some] at hs
  obtain ⟨hnone, hs⟩ := hs
  cases a with
  | elapse duration =>
    cases hs
    exact ⟨hrefl, Or.inl rfl, Or.inl ⟨rfl, rfl⟩⟩
  | shutdown =>
    cases hs
    exact ⟨hrefl, Or.inl rfl, Or.inl ⟨rfl, rfl⟩⟩
  | join k result commit =>
    dsimp only at hs
    unfold join at hs
    cases hfind : s.inFlight.find? (fun t => t.sequence = k) with
    | none => simp [hfind] at hs
    | some task =>
      obtain ⟨hmem, hk, -⟩ := find_sequence (h.running hnone).inFlight_nodup hfind
      simp only [hfind] at hs
      cases result with
      | ok =>
        cases hs
        obtain ⟨released, hcommits⟩ := complete_commits commit h hnone hmem
          (s.inFlight.filter (fun t => t.sequence ≠ k))
        rw [hk] at hcommits
        have hreceived : (complete s (s.inFlight.filter (fun t => t.sequence ≠ k)) task
            commit).received = s.received := by
          unfold complete
          dsimp only
          split <;> rfl
        exact ⟨hcommits.dispatched ▸ hrefl, Or.inl hreceived,
          Or.inr ⟨k, commit, released, rfl, hcommits⟩⟩
      | error e =>
        cases hs
        exact ⟨hrefl, Or.inl rfl, Or.inl ⟨rfl, rfl⟩⟩
      | panicked =>
        cases hs
        exact ⟨hrefl, Or.inl rfl, Or.inl ⟨rfl, rfl⟩⟩
  | lingerElapsed =>
    simp only [lingerElapsed, Option.ite_none_right_eq_some, Option.some.injEq] at hs
    obtain ⟨-, rfl⟩ := hs
    obtain ⟨hcursor, hjoined, hreceived⟩ := dispatch_cursor source s
    exact ⟨dispatch_dispatched s, Or.inl hreceived, Or.inl ⟨hcursor, hjoined⟩⟩
  | recv m =>
    simp only [recv, Option.ite_none_right_eq_some, Option.some.injEq] at hs
    obtain ⟨-, rfl⟩ := hs
    split
    · obtain ⟨hcursor, hjoined, hreceived⟩ := dispatch_cursor source (push source s m)
      exact ⟨dispatch_dispatched (push source s m), Or.inr ⟨m, rfl, hreceived⟩,
        Or.inl ⟨hcursor, hjoined⟩⟩
    · exact ⟨hrefl, Or.inr ⟨m, rfl, rfl⟩, Or.inl ⟨rfl, rfl⟩⟩
  | recvFailed =>
    simp only [recvFailed, Option.ite_none_right_eq_some, Option.some.injEq] at hs
    obtain ⟨-, rfl⟩ := hs
    exact ⟨hrefl, Or.inl rfl, Or.inl ⟨rfl, rfl⟩⟩

/-- `recv` always adds its record to the receipts. -/
theorem step_recv {m : Record} (hs : step source s (.recv m) = some s') :
    s'.received = s.received ++ [⟨m, s.now⟩] := by
  simp only [step, Option.ite_none_right_eq_some, recv, Option.some.injEq] at hs
  obtain ⟨-, -, rfl⟩ := hs
  split
  · exact (dispatch_cursor source (push source s m)).2.2
  · rfl

theorem Carries.mono {c : BatchCompletion} {new : List Dispatch} (h : Carries source s c)
    (hs : s'.dispatched = s.dispatched ++ new) : Carries source s' c := by
  obtain ⟨d, hd, hrest⟩ := h
  refine ⟨d, ?_, hrest⟩
  rw [hs, List.getElem?_append_left (List.getElem?_eq_some_iff.mp hd).1, hd]

theorem start_committed (now : ℕ) : Committed source (State.start now) :=
  ⟨rfl, by simp [State.start, Cursor.start]⟩

theorem Committed.step {a : Action} (hinv : Inv source s) (h : Committed source s)
    (hjoined : ∀ c ∈ s.joined, Carries source s c)
    (hs : step source s a = some s') : Committed source s' := by
  obtain ⟨⟨new, hnew, -⟩, -, hcursor⟩ := step_history hinv hs
  rcases hcursor with ⟨hcursor, -⟩ | ⟨k, commit, released, -, hcommits⟩
  · refine ⟨by rw [hcursor]; exact h.inOrder, ?_⟩
    rw [hcursor]
    exact fun c hc => (h.carries c hc).mono hnew
  · refine ⟨hcommits.inOrder, fun c hc => ?_⟩
    rcases hcommits.fed c (Or.inl hc) with hc | ⟨-, hc⟩
    · exact (hjoined c hc).mono hnew
    · exact hc.mono hnew

end Rustper.Source
