import Rustper.SourceConservation

/-!
The commits of the source are exact and do not depend on the order in which batches
complete. A failed commit ends the session at the batch whose turn it was.
-/
namespace Rustper.Source

open TransitionSystem

variable {source : KafkaSource} {commit : BatchCompletion → Bool}

/-- While every commit succeeds, the drain never stops early. -/
theorem commitAll_exact {fed : List BatchCompletion}
    (hnodup : (fed.map BatchCompletion.sequence).Nodup) (hcommit : ∀ x ∈ fed, commit x = true) :
    ∃ cursor, Exact fed cursor ∧
      commitAll commit Cursor.start fed ⟨0, 0⟩ =
        (cursor, .ok ⟨eventSum cursor.committed, byteSum cursor.committed⟩) := by
  have hspec := commitAll_spec commit fed ⟨0, 0⟩ start_exact (by simpa using hnodup)
  rw [List.nil_append] at hspec
  generalize commitAll commit Cursor.start fed ⟨0, 0⟩ = r at hspec ⊢
  cases hspec with
  | @ok cursor released hcommitted haccepted hexact =>
    have hreleased : cursor.committed = released := by simpa [Cursor.start] using hcommitted
    refine ⟨cursor, hexact, ?_⟩
    rw [hreleased, Nat.zero_add, Nat.zero_add]
  | error released hcommitted haccepted hstopped =>
    obtain ⟨x, hx, -, hfail⟩ := hstopped.failed
    rw [hcommit x hx] at hfail
    contradiction

/-- A failed drain of the whole feed stopped at the first batch that was refused. -/
theorem commitAll_error {fed : List BatchCompletion} {e : SourceError}
    (hnodup : (fed.map BatchCompletion.sequence).Nodup)
    (herror : (commitAll commit Cursor.start fed ⟨0, 0⟩).2 = .error e) :
    Stopped commit fed (commitAll commit Cursor.start fed ⟨0, 0⟩).1 ∧
      ∀ x ∈ (commitAll commit Cursor.start fed ⟨0, 0⟩).1.committed, commit x = true := by
  have hspec := commitAll_spec commit fed ⟨0, 0⟩ start_exact (by simpa using hnodup)
  rw [List.nil_append] at hspec
  generalize commitAll commit Cursor.start fed ⟨0, 0⟩ = r at hspec herror ⊢
  cases hspec with
  | ok released hcommitted haccepted hexact => contradiction
  | @error cursor released hcommitted haccepted hstopped =>
    have hreleased : cursor.committed = released := by simpa [Cursor.start] using hcommitted
    refine ⟨hstopped, ?_⟩
    rw [hreleased]
    exact haccepted

/-- A commit that fails inside the loop returns from `run` at once. -/
theorem join_commit_failed {s s' : State} {k : ℕ} {result : TaskResult} (h : Inv source s)
    (hs : step source s (.join k result commit) = some s')
    (hfailed : s'.outcome = some (.error .commit)) :
    Stopped commit (s.joined ++ (s.inFlight.map Task.completion)) s'.cursor := by
  simp only [step, Option.ite_none_right_eq_some] at hs
  obtain ⟨hnone, hs⟩ := hs
  have hrun := h.running hnone
  unfold join at hs
  cases hfind : s.inFlight.find? (fun t => t.sequence = k) with
  | none => simp [hfind] at hs
  | some task =>
    obtain ⟨hmem, -, -⟩ := find_sequence hrun.inFlight_nodup hfind
    simp only [hfind] at hs
    cases result with
    | error e =>
      cases hs
      simp at hfailed
    | panicked =>
      cases hs
      simp at hfailed
    | ok =>
      cases hs
      have hdrained :=
        commitContiguous_spec commit hrun.exact (hrun.completion_new hmem)
      unfold complete at hfailed ⊢
      generalize commitContiguous commit s.cursor task.completion = r at hdrained hfailed ⊢
      cases hdrained with
      | ok released hcommitted haccepted hexact => simp [hnone] at hfailed
      | error released hcommitted haccepted hstopped =>
        apply hstopped.mono
        intro x hx
        rcases List.mem_append.mp hx with hx | hx
        · exact List.mem_append_left _ hx
        · rw [List.mem_singleton.mp hx]
          exact List.mem_append_right _ (List.mem_map.mpr ⟨task, hmem, rfl⟩)

/-- The completions of distinct batches fed in any order. While the commits succeed,
with `m` the least sequence not fed: exactly the batches below `m` are committed, in
order; the cursor is `m`; the map holds the fed sequences above it; the returned
totals are those of the committed batches; and another order of the same completions
commits the same list. When the commit of a batch fails, the batches below it are
the ones committed, and no action of the source is enabled any more. -/
theorem commitContiguous_exact (fed : List BatchCompletion)
    (hnodup : (fed.map BatchCompletion.sequence).Nodup) :
    (∀ commit : BatchCompletion → Bool, (∀ x ∈ fed, commit x = true) →
      (∀ m, IsLeast {k | k ∉ fed.map BatchCompletion.sequence} m →
        ∃ cursor, commitAll commit Cursor.start fed ⟨0, 0⟩ =
            (cursor, .ok ⟨eventSum (fed.filter (fun x => x.sequence < m)),
              byteSum (fed.filter (fun x => x.sequence < m))⟩) ∧
          cursor.committed.map BatchCompletion.sequence = List.range m ∧
          cursor.committed.Perm (fed.filter (fun x => x.sequence < m)) ∧
          cursor.nextSequence = m ∧
          ∀ k, k ∈ cursor.completed ↔ k ∈ fed.map BatchCompletion.sequence ∧ m < k) ∧
      ∀ fed', fed.Perm fed' → (commitAll commit Cursor.start fed' ⟨0, 0⟩).1.committed =
        (commitAll commit Cursor.start fed ⟨0, 0⟩).1.committed) ∧
    (∀ (commit : BatchCompletion → Bool) (e : SourceError),
      (commitAll commit Cursor.start fed ⟨0, 0⟩).2 = .error e →
      ∃ x ∈ fed, commit x = false ∧
        (commitAll commit Cursor.start fed ⟨0, 0⟩).1.committed.map BatchCompletion.sequence =
          List.range x.sequence ∧
        ∀ y ∈ (commitAll commit Cursor.start fed ⟨0, 0⟩).1.committed, commit y = true) ∧
    ∀ (source : KafkaSource) (now : ℕ) (s s' : State) (k : ℕ) (result : TaskResult)
      (commit : BatchCompletion → Bool), (system source now).Reachable s →
      step source s (.join k result commit) = some s' → s'.outcome = some (.error .commit) →
      ∃ x ∈ s.joined ++ s.inFlight.map Task.completion, commit x = false ∧
        s'.cursor.committed.map BatchCompletion.sequence = List.range x.sequence ∧
        ∀ action, step source s' action = none := by
  refine ⟨fun commit hcommit => ⟨fun m hm => ?_, fun fed' hperm => ?_⟩, ?_, ?_⟩
  · obtain ⟨cursor, hexact, hall⟩ := commitAll_exact hnodup hcommit
    have hnext : cursor.nextSequence = m := hexact.next_isLeast.unique hm
    have hcommitted := hexact.committed_perm hnodup
    rw [hnext] at hcommitted
    refine ⟨cursor, ?_, by rw [hexact.inOrder, hnext], hcommitted, hnext, ?_⟩
    · have hevents : eventSum cursor.committed = eventSum (fed.filter (fun x => x.sequence < m)) :=
        (hcommitted.map BatchCompletion.events).sum_eq
      have hbytes : byteSum cursor.committed = byteSum (fed.filter (fun x => x.sequence < m)) :=
        (hcommitted.map BatchCompletion.bytes).sum_eq
      rw [hall, hevents, hbytes]
    · intro k
      rw [hexact.mem_completed, hnext]
  · obtain ⟨cursor, hexact, hall⟩ := commitAll_exact hnodup hcommit
    have hnodup' := (hperm.map BatchCompletion.sequence).nodup_iff.mp hnodup
    obtain ⟨cursor', hexact', hall'⟩ :=
      commitAll_exact hnodup' (fun x hx => hcommit x (hperm.mem_iff.mpr hx))
    rw [hall, hall']
    exact (hexact.committed_unique hexact' hperm hnodup).symm
  · intro commit e herror
    obtain ⟨hstopped, haccepted⟩ := commitAll_error hnodup herror
    obtain ⟨x, hx, hseq, hfail⟩ := hstopped.failed
    exact ⟨x, hx, hfail, by rw [hstopped.inOrder, hseq], haccepted⟩
  · intro source now s s' k result commit hreach hs hfailed
    obtain ⟨x, hx, hseq, hfail⟩ := (join_commit_failed (reachable_inv hreach) hs hfailed).failed
    refine ⟨x, hx, hfail, ?_, ?_⟩
    · rw [(join_commit_failed (reachable_inv hreach) hs hfailed).inOrder, hseq]
    · intro action
      simp [step, hfailed]

theorem commitContiguous_exact_swapped :
    (commitAll (fun _ => true) Cursor.start [⟨1, [], 3, 30⟩, ⟨0, [], 2, 20⟩] ⟨0, 0⟩).1.committed =
      (commitAll (fun _ => true) Cursor.start
        [⟨0, [], 2, 20⟩, ⟨1, [], 3, 30⟩] ⟨0, 0⟩).1.committed :=
  ((commitContiguous_exact [⟨0, [], 2, 20⟩, ⟨1, [], 3, 30⟩] (by decide)).1 (fun _ => true)
    (by simp)).2 _ (List.Perm.swap _ _ _)

end Rustper.Source
