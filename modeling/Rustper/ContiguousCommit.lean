import Rustper.Commit
import Mathlib.Order.Bounds.Basic
import Mathlib.Data.List.Nodup

/-!
The drain commits exactly the batches below the least sequence not yet completed.
`Holds` is the loop invariant: the committed batches are the first ones in order,
and the map holds every other completion fed so far. `Exact` adds that the drain
has nothing left to release.
-/
namespace Rustper.Source

variable {commit : BatchCompletion → Bool}

/-- The fed completions are split between the committed prefix and the map. -/
structure Holds (fed : List BatchCompletion) (cursor : Cursor) : Prop where
  inOrder : cursor.committed.map BatchCompletion.sequence = List.range cursor.nextSequence
  committed_fed : ∀ x ∈ cursor.committed, x ∈ fed
  held : ∀ k x, cursor.completed.lookup k = some x ↔
    x ∈ fed ∧ x.sequence = k ∧ cursor.nextSequence ≤ k

/-- Nothing more can be released. -/
structure Exact (fed : List BatchCompletion) (cursor : Cursor) : Prop extends
    Holds fed cursor where
  stuck : cursor.completed.lookup cursor.nextSequence = none

/-- The commit of the batch at the cursor failed: it is gone from the map, and no
later batch has been committed. -/
structure Stopped (commit : BatchCompletion → Bool) (fed : List BatchCompletion)
    (cursor : Cursor) : Prop where
  inOrder : cursor.committed.map BatchCompletion.sequence = List.range cursor.nextSequence
  committed_fed : ∀ x ∈ cursor.committed, x ∈ fed
  failed : ∃ x ∈ fed, x.sequence = cursor.nextSequence ∧ commit x = false

theorem start_exact : Exact [] Cursor.start where
  inOrder := rfl
  committed_fed := by simp [Cursor.start]
  held := by simp [Cursor.start]
  stuck := by simp [Cursor.start]

def eventSum (l : List BatchCompletion) : ℕ := (l.map BatchCompletion.events).sum

def byteSum (l : List BatchCompletion) : ℕ := (l.map BatchCompletion.bytes).sum

/-- Releasing the batch at the cursor keeps the split. -/
theorem Holds.release {fed : List BatchCompletion} {cursor : Cursor} {x : BatchCompletion}
    (h : Holds fed cursor) (hx : cursor.completed.lookup cursor.nextSequence = some x) :
    Holds fed ⟨cursor.completed.erase cursor.nextSequence, cursor.nextSequence + 1,
      cursor.committed ++ [x]⟩ := by
  obtain ⟨hfed, hseq, -⟩ := (h.held _ _).mp hx
  refine ⟨?_, ?_, ?_⟩
  · simp only [List.map_append, List.map_cons, List.map_nil, h.inOrder, hseq]
    exact List.range_succ.symm
  · intro y hy
    rcases List.mem_append.mp hy with hy | hy
    · exact h.committed_fed y hy
    · rw [List.mem_singleton.mp hy]
      exact hfed
  · intro k y
    dsimp only
    by_cases hk : k = cursor.nextSequence
    · rw [hk, Finmap.lookup_erase]
      simp
    · rw [Finmap.lookup_erase_ne hk, h.held]
      constructor
      · rintro ⟨hy, hyk, hle⟩
        exact ⟨hy, hyk, by omega⟩
      · rintro ⟨hy, hyk, hle⟩
        exact ⟨hy, hyk, by omega⟩

/-- What a drain from the cursor `before` may return: it has committed a run of batches,
and either nothing is left to release or the next commit failed. -/
inductive Drained (commit : BatchCompletion → Bool) (fed : List BatchCompletion)
    (before : Cursor) (totals : Totals) : Cursor × Except SourceError Totals → Prop
  | ok {after : Cursor} (released : List BatchCompletion)
      (hcommitted : after.committed = before.committed ++ released)
      (haccepted : ∀ x ∈ released, commit x = true) (hexact : Exact fed after) :
      Drained commit fed before totals
        (after, .ok ⟨totals.events + eventSum released, totals.bytes + byteSum released⟩)
  | error {after : Cursor} (released : List BatchCompletion)
      (hcommitted : after.committed = before.committed ++ released)
      (haccepted : ∀ x ∈ released, commit x = true) (hstopped : Stopped commit fed after) :
      Drained commit fed before totals (after, .error .commit)

/-- A drain that commits `x` first releases `x` as well. -/
theorem Drained.cons {fed : List BatchCompletion} {before next : Cursor} {totals : Totals}
    {x : BatchCompletion} {r : Cursor × Except SourceError Totals}
    (h : Drained commit fed next (totals.add x) r)
    (hnext : next.committed = before.committed ++ [x]) (hx : commit x = true) :
    Drained commit fed before totals r := by
  have haccept : ∀ released : List BatchCompletion, (∀ y ∈ released, commit y = true) →
      ∀ y ∈ x :: released, commit y = true := by
    intro released haccepted y hy
    rcases List.mem_cons.mp hy with rfl | hy
    · exact hx
    · exact haccepted y hy
  cases h with
  | ok released hcommitted haccepted hexact =>
    have htotals : totals.events + eventSum (x :: released) =
        (totals.add x).events + eventSum released ∧
        totals.bytes + byteSum (x :: released) = (totals.add x).bytes + byteSum released := by
      simp [Totals.add, eventSum, byteSum, Nat.add_assoc]
    rw [← htotals.1, ← htotals.2]
    exact .ok (x :: released) (by simp [hcommitted, hnext]) (haccept _ haccepted) hexact
  | error released hcommitted haccepted hstopped =>
    exact .error (x :: released) (by simp [hcommitted, hnext]) (haccept _ haccepted) hstopped

variable (commit) in
/-- The drain loop from a split state with enough fuel. -/
theorem drain_spec {fed : List BatchCompletion} (fuel : ℕ) (cursor : Cursor) (totals : Totals)
    (h : Holds fed cursor) (hfuel : cursor.completed.keys.card ≤ fuel) :
    Drained commit fed cursor totals (drain commit fuel cursor totals) := by
  induction fuel generalizing cursor totals with
  | zero =>
    have hempty : cursor.completed.keys = ∅ := Finset.card_eq_zero.mp (by omega)
    have hstuck : cursor.completed.lookup cursor.nextSequence = none := by
      rw [Finmap.lookup_eq_none, ← Finmap.mem_keys, hempty]
      exact Finset.notMem_empty _
    exact .ok [] (List.append_nil _).symm (by simp) ⟨h, hstuck⟩
  | succ fuel ih =>
    cases hlookup : cursor.completed.lookup cursor.nextSequence with
    | none =>
      simp only [drain, hlookup]
      exact .ok [] (List.append_nil _).symm (by simp) ⟨h, hlookup⟩
    | some x =>
      by_cases hx : commit x = true
      · have hcard : (cursor.completed.erase cursor.nextSequence).keys.card ≤ fuel := by
          rw [Finmap.keys_erase, Finset.card_erase_of_mem
            (Finmap.mem_keys.mpr (Finmap.mem_of_lookup_eq_some hlookup))]
          omega
        simp only [drain, hlookup, hx, if_true]
        exact (ih _ (totals.add x) (h.release hlookup) hcard).cons rfl hx
      · obtain ⟨hfed, hseq, -⟩ := (h.held _ _).mp hlookup
        simp only [drain, hlookup, hx, Bool.false_eq_true, if_false]
        exact .error [] (List.append_nil _).symm (by simp)
          ⟨h.inOrder, h.committed_fed, x, hfed, hseq, by simpa using hx⟩

/-- A completion that was not fed before belongs at or after the cursor. -/
theorem Holds.next_le {fed : List BatchCompletion} {cursor : Cursor} {x : BatchCompletion}
    (h : Holds fed cursor) (hnew : x.sequence ∉ fed.map BatchCompletion.sequence) :
    cursor.nextSequence ≤ x.sequence := by
  by_contra hlt
  have hmem : x.sequence ∈ cursor.committed.map BatchCompletion.sequence := by
    rw [h.inOrder]
    exact List.mem_range.mpr (by omega)
  obtain ⟨y, hy, hyx⟩ := List.mem_map.mp hmem
  exact hnew (List.mem_map.mpr ⟨y, h.committed_fed y hy, hyx⟩)

theorem Holds.insert {fed : List BatchCompletion} {cursor : Cursor} {x : BatchCompletion}
    (h : Holds fed cursor) (hnew : x.sequence ∉ fed.map BatchCompletion.sequence) :
    Holds (fed ++ [x]) { cursor with completed := cursor.completed.insert x.sequence x } := by
  have hle := h.next_le hnew
  refine ⟨h.inOrder, fun y hy => List.mem_append_left _ (h.committed_fed y hy), ?_⟩
  intro k y
  dsimp only
  by_cases hk : k = x.sequence
  · rw [hk, Finmap.lookup_insert]
    constructor
    · intro hy
      rw [← Option.some.inj hy]
      exact ⟨by simp, rfl, hle⟩
    · rintro ⟨hy, hyk, -⟩
      rcases List.mem_append.mp hy with hy | hy
      · exact absurd (List.mem_map.mpr ⟨y, hy, hyk⟩) hnew
      · rw [List.mem_singleton.mp hy]
  · rw [Finmap.lookup_insert_of_ne _ hk, h.held]
    constructor
    · rintro ⟨hy, hyk, hnext⟩
      exact ⟨List.mem_append_left _ hy, hyk, hnext⟩
    · rintro ⟨hy, hyk, hnext⟩
      rcases List.mem_append.mp hy with hy | hy
      · exact ⟨hy, hyk, hnext⟩
      · rw [List.mem_singleton.mp hy] at hyk
        exact absurd hyk.symm hk

variable (commit) in
/-- One call of `commitContiguous` on a completion not fed before. -/
theorem commitContiguous_spec {fed : List BatchCompletion} {cursor : Cursor}
    {x : BatchCompletion} (h : Exact fed cursor)
    (hnew : x.sequence ∉ fed.map BatchCompletion.sequence) :
    Drained commit (fed ++ [x]) cursor ⟨0, 0⟩ (commitContiguous commit cursor x) := by
  have hdrain := drain_spec commit _ _ ⟨0, 0⟩ (h.toHolds.insert hnew) (Nat.le_refl _)
  unfold commitContiguous
  generalize drain commit _ _ _ = r at hdrain ⊢
  cases hdrain with
  | ok released hcommitted haccepted hexact => exact .ok released hcommitted haccepted hexact
  | error released hcommitted haccepted hstopped =>
    exact .error released hcommitted haccepted hstopped

theorem Stopped.mono {fed fed' : List BatchCompletion} {cursor : Cursor}
    (h : Stopped commit fed cursor) (hsub : ∀ x ∈ fed, x ∈ fed') :
    Stopped commit fed' cursor := by
  obtain ⟨x, hx, hseq, hfail⟩ := h.failed
  exact ⟨h.inOrder, fun y hy => hsub y (h.committed_fed y hy), x, hsub x hx, hseq, hfail⟩

variable (commit) in
/-- Feeding a list of new completions one by one, in any order. -/
theorem commitAll_spec {fed : List BatchCompletion} {cursor : Cursor}
    (new : List BatchCompletion) (totals : Totals) (h : Exact fed cursor)
    (hnodup : ((fed ++ new).map BatchCompletion.sequence).Nodup) :
    Drained commit (fed ++ new) cursor totals (commitAll commit cursor new totals) := by
  induction new generalizing fed cursor totals with
  | nil =>
    rw [List.append_nil]
    exact .ok [] (List.append_nil _).symm (by simp) h
  | cons x rest ih =>
    have hsplit : fed ++ x :: rest = (fed ++ [x]) ++ rest := by simp
    have hnew : x.sequence ∉ fed.map BatchCompletion.sequence := by
      intro hmem
      rw [List.map_append, List.map_cons] at hnodup
      exact List.disjoint_of_nodup_append hnodup hmem List.mem_cons_self
    have hone := commitContiguous_spec commit h hnew
    rw [hsplit] at hnodup ⊢
    unfold commitAll
    generalize commitContiguous commit cursor x = r at hone ⊢
    cases hone with
    | error released hcommitted haccepted hstopped =>
      exact .error released hcommitted haccepted
        (hstopped.mono (fun y hy => List.mem_append_left _ hy))
    | @ok after released hcommitted haccepted hexact =>
      have hrest := ih ⟨totals.events + (0 + eventSum released),
        totals.bytes + (0 + byteSum released)⟩ hexact hnodup
      dsimp only
      generalize commitAll commit after rest _ = q at hrest ⊢
      have happend : ∀ later : List BatchCompletion, (∀ y ∈ later, commit y = true) →
          ∀ y ∈ released ++ later, commit y = true := by
        intro later hlater y hy
        rcases List.mem_append.mp hy with hy | hy
        · exact haccepted y hy
        · exact hlater y hy
      cases hrest with
      | ok later hcommitted' haccepted' hexact' =>
        have hevents : totals.events + (0 + eventSum released) + eventSum later =
            totals.events + eventSum (released ++ later) := by
          simp [eventSum, Nat.add_assoc]
        have hbytes : totals.bytes + (0 + byteSum released) + byteSum later =
            totals.bytes + byteSum (released ++ later) := by
          simp [byteSum, Nat.add_assoc]
        rw [hevents, hbytes]
        exact .ok (released ++ later) (by simp [hcommitted', hcommitted])
          (happend later haccepted') hexact'
      | error later hcommitted' haccepted' hstopped' =>
        exact .error (released ++ later) (by simp [hcommitted', hcommitted])
          (happend later haccepted') hstopped'

/-- The cursor stands at the least sequence not fed. -/
theorem Exact.next_isLeast {fed : List BatchCompletion} {cursor : Cursor}
    (h : Exact fed cursor) :
    IsLeast {k | k ∉ fed.map BatchCompletion.sequence} cursor.nextSequence := by
  constructor
  · intro hmem
    obtain ⟨x, hx, hseq⟩ := List.mem_map.mp hmem
    have hheld := (h.held cursor.nextSequence x).mpr ⟨hx, hseq, Nat.le_refl _⟩
    rw [h.stuck] at hheld
    contradiction
  · intro k hk
    by_contra hlt
    have hmem : k ∈ cursor.committed.map BatchCompletion.sequence := by
      rw [h.inOrder]
      exact List.mem_range.mpr (by omega)
    obtain ⟨x, hx, hseq⟩ := List.mem_map.mp hmem
    exact hk (List.mem_map.mpr ⟨x, h.committed_fed x hx, hseq⟩)

theorem Exact.mem_completed {fed : List BatchCompletion} {cursor : Cursor}
    (h : Exact fed cursor) (k : ℕ) :
    k ∈ cursor.completed ↔
      k ∈ fed.map BatchCompletion.sequence ∧ cursor.nextSequence < k := by
  rw [Finmap.mem_iff]
  constructor
  · rintro ⟨x, hx⟩
    obtain ⟨hfed, hseq, hle⟩ := (h.held k x).mp hx
    refine ⟨List.mem_map.mpr ⟨x, hfed, hseq⟩, Nat.lt_of_le_of_ne hle ?_⟩
    rintro rfl
    rw [h.stuck] at hx
    contradiction
  · rintro ⟨hmem, hlt⟩
    obtain ⟨x, hx, hseq⟩ := List.mem_map.mp hmem
    exact ⟨x, (h.held k x).mpr ⟨hx, hseq, Nat.le_of_lt hlt⟩⟩

/-- Sequences identify the completions fed. -/
theorem eq_of_sequence_eq {fed : List BatchCompletion}
    (hnodup : (fed.map BatchCompletion.sequence).Nodup) {x y : BatchCompletion}
    (hx : x ∈ fed) (hy : y ∈ fed) (hxy : x.sequence = y.sequence) : x = y :=
  List.inj_on_of_nodup_map hnodup hx hy hxy

/-- The committed batches are the fed ones below the cursor, up to their order. -/
theorem Exact.committed_perm {fed : List BatchCompletion} {cursor : Cursor}
    (h : Exact fed cursor) (hnodup : (fed.map BatchCompletion.sequence).Nodup) :
    cursor.committed.Perm (fed.filter (fun x => x.sequence < cursor.nextSequence)) := by
  have hcommitted : (cursor.committed.map BatchCompletion.sequence).Nodup := by
    rw [h.inOrder]
    exact List.nodup_range
  rw [List.perm_ext_iff_of_nodup (List.Nodup.of_map _ hcommitted)
    ((List.Nodup.of_map _ hnodup).filter _)]
  intro x
  rw [List.mem_filter, decide_eq_true_eq]
  constructor
  · intro hx
    have hmem : x.sequence ∈ List.range cursor.nextSequence := by
      rw [← h.inOrder]
      exact List.mem_map_of_mem hx
    exact ⟨h.committed_fed x hx, List.mem_range.mp hmem⟩
  · rintro ⟨hx, hlt⟩
    have hmem : x.sequence ∈ cursor.committed.map BatchCompletion.sequence := by
      rw [h.inOrder]
      exact List.mem_range.mpr hlt
    obtain ⟨y, hy, hyx⟩ := List.mem_map.mp hmem
    rwa [← eq_of_sequence_eq hnodup (h.committed_fed y hy) hx hyx]

/-- The committed batches depend on the set of completions alone. -/
theorem Exact.committed_unique {fed fed' : List BatchCompletion} {cursor cursor' : Cursor}
    (h : Exact fed cursor) (h' : Exact fed' cursor') (hperm : fed.Perm fed')
    (hnodup : (fed.map BatchCompletion.sequence).Nodup) :
    cursor.committed = cursor'.committed := by
  have hnext : cursor.nextSequence = cursor'.nextSequence := by
    apply h.next_isLeast.unique
    have hleast := h'.next_isLeast
    have hset : {k | k ∉ fed.map BatchCompletion.sequence} =
        {k | k ∉ fed'.map BatchCompletion.sequence} := by
      ext k
      exact not_congr (hperm.map _).mem_iff
    rwa [hset]
  have hseq : cursor.committed.map BatchCompletion.sequence =
      cursor'.committed.map BatchCompletion.sequence := by
    rw [h.inOrder, h'.inOrder, hnext]
  have hlen : cursor.committed.length = cursor'.committed.length := by
    simpa using congrArg List.length hseq
  apply List.ext_getElem hlen
  intro i hi hi'
  have hfed := h.committed_fed _ (List.getElem_mem hi)
  have hfed' := hperm.mem_iff.mpr (h'.committed_fed _ (List.getElem_mem hi'))
  apply eq_of_sequence_eq hnodup hfed hfed'
  have hget := congrArg (fun l => l[i]?) hseq
  simpa [List.getElem?_eq_getElem hi, List.getElem?_eq_getElem hi'] using hget

end Rustper.Source
