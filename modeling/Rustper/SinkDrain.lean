import Rustper.SinkAccounting

/-!
When `sink::run` returns with writes still running. The drain waits for all of them,
but a failure that is reaped before it ends `run` at once and aborts the others.
-/
namespace Rustper.Sink

open TransitionSystem

variable {runtime : Runtime} {s s' : State}

/-- A failed write is reaped before the drain only when no other write is running. -/
def ReapsAlone (s : State) : Action → Prop
  | .reap k => s.phase.isDraining = true ∨ (∀ w ∈ s.writes[k]?, w.failed = false) ∨ s.live = []
  | _ => True

instance (s : State) (a : Action) : Decidable (ReapsAlone s a) := by
  unfold ReapsAlone
  split
  · infer_instance
  · infer_instance

/-- What the drain is there for: `run` returns when every write it spawned is over, so
an envelope handed to a write is lost only by a failure of that write. -/
structure Drained (runtime : Runtime) (s : State) : Prop where
  finished : s.returned = true → s.live = [] ∧ s.aborted = []
  own : ∀ x ∈ s.settled, ∀ k, x.write = some k → x.settlement ≠ .delivered →
    k ∈ s.exhausted runtime.settings ∨ k ∈ s.panicked

/-- Whether writes were aborted, and by what, as far as one step can tell. -/
theorem Move.aborted {a : Action} (hmove : Move runtime s a s') :
    (s'.aborted = s.aborted ∨ (s'.aborted = s.aborted ++ s.liveIds ∧ ∃ k, a = .reap k ∧
      s.phase.isDraining = false ∧ s'.returned = true ∧
      ∃ w ∈ s.writes[k]?, w.failed = true)) ∧ (s.returned = true → s'.returned = true) := by
  cases hmove with
  | shuffle _ _ hsame => exact ⟨Or.inl (hsame.aborted.trans (List.append_nil _)), hsame.stays⟩
  | exit k _ w hsame hk hfailed hphase hreturned =>
    exact ⟨Or.inr ⟨hsame.aborted, k, rfl, hphase, hreturned, w, hk, hfailed⟩, hsame.stays⟩
  | dispatch envelopes hphase =>
    refine ⟨Or.inl rfl, fun hret => ?_⟩
    rw [State.returned, hphase] at hret
    contradiction
  | _ => exact ⟨Or.inl rfl, id⟩

/-- A step that reaps alone aborts nothing. -/
theorem Move.aborted_of_reapsAlone {a : Action} (hmove : Move runtime s a s')
    (halone : ReapsAlone s a) : s'.aborted = s.aborted := by
  rcases hmove.aborted.1 with hsame | ⟨haborted, k, rfl, hphase, -, w, hk, hfailed⟩
  · exact hsame
  · rcases halone with hdraining | hok | hlive
    · rw [hphase] at hdraining
      contradiction
    · rw [hok w hk] at hfailed
      contradiction
    · rw [haborted, State.liveIds, hlive]
      exact List.append_nil _

/-- Any other step ends `run` and aborts a write. -/
theorem aborts_of_not_reapsAlone {a : Action} (hs : step runtime s a = some s')
    (halone : ¬ ReapsAlone s a) : s'.returned = true ∧ s'.aborted ≠ [] := by
  unfold ReapsAlone at halone
  split at halone
  · rename_i k
    push Not at halone
    obtain ⟨hphase, ⟨w, hw, hfailed⟩, hlive⟩ := halone
    simp only [step, reap] at hs
    split at hs
    · rename_i id envelopes result hk
      simp only [Option.ite_none_right_eq_some, Option.some.injEq] at hs
      obtain ⟨hreaps, rfl⟩ := hs
      obtain ⟨pre, post, hwrites, -, herase⟩ := Slots.exists_split hk
      obtain rfl : w = ⟨id, envelopes, .done result⟩ := Option.some.inj (hw.symm.trans hk)
      have hleft : (pre ++ post).filter Write.live ≠ [] := by
        intro hnil
        apply hlive
        simpa [State.live, hwrites, Write.live] using hnil
      cases result with
      | ok u => simp [Write.failed] at hfailed
      | error e =>
        rw [herase]
        cases hs : s.phase with
        | draining outcome => simp [hs, Phase.isDraining] at hphase
        | returned outcome => simp [reaps, hs] at hreaps
        | _ =>
          simp only [propagate]
          refine ⟨rfl, fun hnil => hleft ?_⟩
          exact List.map_eq_nil_iff.mp (List.append_eq_nil_iff.mp hnil).2
    · contradiction
  · exact absurd trivial halone

theorem Inv.drained (h : Inv runtime s) (haborted : s.aborted = []) : Drained runtime s := by
  refine ⟨fun hrun => ⟨?_, haborted⟩, ?_⟩
  · rw [List.eq_nil_iff_forall_not_mem]
    intro w hw
    have hmem := h.fates.aborted hrun w.id (List.mem_map_of_mem hw)
    rw [haborted] at hmem
    contradiction
  · intro x hx k hk hnot
    obtain ⟨g, hend⟩ := h.fates.ended_of_settled hx hk
    cases hhow : x.settlement with
    | delivered => exact absurd hhow hnot
    | failed => exact Or.inl (hend.exhausted.mpr hhow)
    | dropped =>
      rcases hend.dropped hhow with hpanicked | hmem
      · exact Or.inr hpanicked
      · rw [haborted] at hmem
        contradiction

theorem aborted_of_reapsAlone {now : ℕ} (h : (system runtime now).ReachableBy ReapsAlone s) :
    s.aborted = [] := by
  have hboth : Inv runtime s ∧ s.aborted = [] := by
    have hstart : Inv runtime (State.start now) ∧ (State.start now).aborted = [] :=
      ⟨start_inv runtime now, rfl⟩
    apply System.ReachableBy.invariant hstart _ h
    intro t a t' hi hreap hs
    have hmove := step_move hi.1.ledger.orphans hi.1.fates.stages hs
    exact ⟨step_inv hi.1 hs, (hmove.aborted_of_reapsAlone hreap).trans hi.2⟩
  exact hboth.2

/-- Once a step has not reaped alone, `run` has returned and stays the one that aborted. -/
theorem reapsAlone_or_aborted {now : ℕ} (h : (system runtime now).Reachable s) :
    (system runtime now).ReachableBy ReapsAlone s ∨ (s.returned = true ∧ s.aborted ≠ []) := by
  have hboth : Inv runtime s ∧ ((system runtime now).ReachableBy ReapsAlone s ∨
      (s.returned = true ∧ s.aborted ≠ [])) := by
    have hstart : Inv runtime (State.start now) ∧
        ((system runtime now).ReachableBy ReapsAlone (State.start now) ∨
          ((State.start now).returned = true ∧ (State.start now).aborted ≠ [])) :=
      ⟨start_inv runtime now, Or.inl System.ReachableBy.start⟩
    apply System.Reachable.invariant hstart _ h
    rintro t a t' ⟨hi, hrun⟩ hs
    refine ⟨step_inv hi hs, ?_⟩
    rcases hrun with hrun | ⟨hreturned, haborted⟩
    · by_cases halone : ReapsAlone t a
      · exact Or.inl (hrun.step halone hs)
      · exact Or.inr (aborts_of_not_reapsAlone hs halone)
    · have hmove := step_move hi.ledger.orphans hi.fates.stages hs
      refine Or.inr ⟨hmove.aborted.2 hreturned, ?_⟩
      rcases hmove.aborted.1 with hsame | ⟨hsame, -⟩ <;> rw [hsame]
      · exact haborted
      · exact List.append_ne_nil_of_left_ne_nil haborted _
  exact hboth.2

/-- A run of `sink::run` leaves no write behind, and loses an envelope handed to a write
only to a failure of that write, exactly when in each of its steps a failed write is
reaped before the drain only while no other write is running. -/
theorem drained_iff_reapsAlone {now : ℕ} (h : (system runtime now).Reachable s) :
    Drained runtime s ↔ (system runtime now).ReachableBy ReapsAlone s := by
  constructor
  · intro hdrained
    refine (reapsAlone_or_aborted h).resolve_right ?_
    rintro ⟨hreturned, haborted⟩
    exact haborted (hdrained.finished hreturned).2
  · intro halone
    exact (reachable_inv h).drained (aborted_of_reapsAlone halone)

/-- Two writes at a time, one event a group and one attempt. -/
def concurrent : Runtime where
  capacity := 4
  batching := ⟨1, 1024, 5⟩
  settings := ⟨2, 1, 1, 2, Nat.zero_lt_two, Nat.one_pos⟩

/-- The first write fails while the second is still under way. -/
def firstFails : List Action :=
  [.arrive (envelope 0), .arrive (envelope 1), .recv, .dispatch, .recv, .dispatch, .begin 0,
    .begin 1, .attempted 0 (.error "broker down"), .reap 0, .dropWrite 0]

/-- The failure of the first write aborts the second, whose envelope is settled as
dropped although its write never failed. -/
theorem firstFails_aborts : ∃ s : State, (system concurrent 0).Reachable s ∧
    s.returned = true ∧ s.aborted = [1] ∧ ⟨envelope 1, some 1, .dropped⟩ ∈ s.settled ∧
    1 ∉ s.exhausted concurrent.settings ∧ 1 ∉ s.panicked ∧ ¬ Drained concurrent s := by
  have hrun : ((system concurrent 0).run (State.start 0) firstFails).map
      (fun s => (s.returned, s.aborted, decide (⟨envelope 1, some 1, .dropped⟩ ∈ s.settled),
        s.exhausted concurrent.settings, s.panicked)) =
          some (true, [1], true, [0], []) := by decide
  obtain ⟨s, hs, hview⟩ := Option.map_eq_some_iff.mp hrun
  simp only [Prod.mk.injEq, decide_eq_true_eq] at hview
  obtain ⟨hreturned, haborted, hsettled, hexhausted, hpanicked⟩ := hview
  have hreach : (system concurrent 0).Reachable s :=
    System.Reachable.run System.ReachableBy.start hs
  refine ⟨s, hreach, hreturned, haborted, hsettled, by simp [hexhausted], by simp [hpanicked], ?_⟩
  intro hdrained
  have hnil := (hdrained.finished hreturned).2
  rw [haborted] at hnil
  contradiction

/-- The same failure harms nobody when the second write is over before it is reaped. -/
theorem drained_iff_reapsAlone_firstFails : ∃ s : State, s.returned = true ∧
    (Drained concurrent s ↔ (system concurrent 0).ReachableBy ReapsAlone s) ∧
    s.delivered = [envelope 1] := by
  have hrun : ((system concurrent 0).run (State.start 0)
      [.arrive (envelope 0), .arrive (envelope 1), .recv, .dispatch, .recv, .dispatch, .begin 0,
        .begin 1, .attempted 0 (.error "broker down"), .attempted 1 (.ok ⟨1, 0⟩),
        .reap 0]).map (fun s => (s.returned, s.delivered)) =
          some (true, [envelope 1]) := by decide
  obtain ⟨s, hs, hview⟩ := Option.map_eq_some_iff.mp hrun
  obtain ⟨hreturned, hdelivered⟩ := Prod.mk.inj hview
  have hreach : (system concurrent 0).Reachable s :=
    System.Reachable.run System.ReachableBy.start hs
  exact ⟨s, hreturned, drained_iff_reapsAlone hreach, hdelivered⟩

end Rustper.Sink
