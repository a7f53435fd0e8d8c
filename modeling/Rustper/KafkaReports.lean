import Rustper.KafkaCompletion

/-!
The records of a Kafka write that the broker has confirmed: those with a delivery report
that is no error. A record is reported on once at most, so a write that returns `Ok` has
every one of its records confirmed once.
-/
namespace Rustper.Kafka

open TransitionSystem
open Sink (WriteOutcome)

/-- The record a step reports on, by its place among the accepted ones, and how. -/
def Action.reported : Action → Option (ℕ × Option KafkaError)
  | .report k result => some (k, result)
  | _ => none

/-- The records that the reports of a run confirm, in the order of the reports. -/
def acknowledged (actions : List Action) (accepted : List BaseRecord) : List BaseRecord :=
  ((actions.filterMap Action.reported).filter (fun report => report.2.isNone)).filterMap
    (fun report => accepted[report.1]?)

variable {sink : KafkaSink} {batches : List EventBatch} {s s' : State}
  {seen : List (ℕ × Option KafkaError)}

/-- The reports so far: their results, each on a record of its own that has been reported on. -/
structure Reported (seen : List (ℕ × Option KafkaError)) (s : State) : Prop where
  results : s.results = seen.map Prod.snd
  once : (seen.map Prod.fst).Nodup
  noted : ∀ k ∈ seen.map Prod.fst, ∃ x, s.reports[k]? = some x ∧ x ≠ .outstanding

theorem Reported.same (h : Reported seen s) (hresults : s'.results = s.results)
    (hreports : s'.reports = s.reports) : Reported seen s' :=
  ⟨hresults.trans h.results, h.once, by rw [hreports]; exact h.noted⟩

theorem Reported.send {result : Except KafkaError Unit} (h : Reported seen s)
    (hs : send sink batches s result = some s') : Reported seen s' := by
  unfold Kafka.send at hs
  split at hs
  · split at hs
    · cases hs
      refine ⟨h.results, h.once, ?_⟩
      intro k hk
      obtain ⟨x, hx, hne⟩ := h.noted k hk
      have hlt : k < s.reports.length := (List.getElem?_eq_some_iff.mp hx).1
      exact ⟨x, (List.getElem?_append_left hlt).trans hx, hne⟩
    · split at hs
      · cases hs
        exact h.same rfl rfl
      · cases hs
        exact h.same rfl rfl
    · cases hs
      exact h.same rfl rfl
  · contradiction

theorem Reported.report {k : ℕ} {result : Option KafkaError} (h : Reported seen s)
    (hs : report s k result = some s') : Reported (seen ++ [(k, result)]) s' := by
  unfold Kafka.report at hs
  split at hs
  · rename_i hk
    cases hs
    have hlt : k < s.reports.length := (List.getElem?_eq_some_iff.mp hk).1
    have hfresh : k ∉ seen.map Prod.fst := by
      intro hmem
      obtain ⟨x, hx, hne⟩ := h.noted k hmem
      rw [hk] at hx
      exact hne (Option.some.inj hx).symm
    refine ⟨?_, ?_, ?_⟩
    · rw [List.map_append, h.results]
      rfl
    · rw [List.map_append, List.nodup_append]
      refine ⟨h.once, List.nodup_singleton _, ?_⟩
      intro a ha b hb heq
      rw [List.map_singleton, List.mem_singleton] at hb
      rw [heq, hb] at ha
      exact hfresh ha
    · intro j hj
      rw [List.map_append, List.mem_append] at hj
      by_cases hjk : j = k
      · subst hjk
        exact ⟨.noted, List.getElem?_set_self hlt, by simp⟩
      · have hold : j ∈ seen.map Prod.fst := by
          refine hj.resolve_right fun hmem => hjk ?_
          exact List.mem_singleton.mp hmem
        dsimp only
        rw [List.getElem?_set_ne (Ne.symm hjk)]
        exact h.noted j hold
  · contradiction

theorem Reported.settle {k : ℕ} (h : Reported seen s) (hs : settle s k = some s') :
    Reported seen s' := by
  unfold Kafka.settle at hs
  split at hs
  · rename_i hk
    cases hs
    have hlt : k < s.reports.length := (List.getElem?_eq_some_iff.mp hk).1
    refine ⟨by simpa using h.results, h.once, ?_⟩
    intro j hj
    rw [State.count_reports]
    by_cases hjk : j = k
    · subst hjk
      exact ⟨.settled, List.getElem?_set_self hlt, by simp⟩
    · rw [List.getElem?_set_ne (Ne.symm hjk)]
      exact h.noted j hj
  · contradiction

theorem Reported.abandon (h : Reported seen s) (hs : abandon batches s = some s') :
    Reported seen s' := by
  unfold Kafka.abandon at hs
  split at hs
  · cases hs
    refine h.same ?_ ?_
    · dsimp only
      split
      · rfl
      · exact State.count_results _ _
    · dsimp only
      split
      · rfl
      · exact State.count_reports _ _
  · contradiction

theorem step_reported {a : Action} (h : Reported seen s)
    (hs : step sink batches s a = some s') : Reported (seen ++ a.reported.toList) s' := by
  cases a with
  | report k result => exact h.report hs
  | send result => exact (List.append_nil seen).symm ▸ h.send hs
  | settle k => exact (List.append_nil seen).symm ▸ h.settle hs
  | abandon => exact (List.append_nil seen).symm ▸ h.abandon hs
  | elapse duration =>
    cases hs
    exact (List.append_nil seen).symm ▸ h.same rfl rfl
  | wake =>
    simp only [step, wake] at hs
    split at hs
    · simp only [Option.ite_none_right_eq_some, Option.some.injEq] at hs
      obtain ⟨-, rfl⟩ := hs
      exact (List.append_nil seen).symm ▸ h.same rfl rfl
    · contradiction
  | done =>
    simp only [step, done, Option.ite_none_right_eq_some, Option.some.injEq] at hs
    obtain ⟨-, rfl⟩ := hs
    exact (List.append_nil seen).symm ▸ h.same rfl rfl
  | doneClosed =>
    simp only [step, doneClosed, Option.ite_none_right_eq_some, Option.some.injEq] at hs
    obtain ⟨-, rfl⟩ := hs
    exact (List.append_nil seen).symm ▸ h.same rfl rfl

theorem run_reported {now : ℕ} {actions : List Action} (h : Reported seen s)
    (hrun : (system sink batches now).run s actions = some s') :
    Reported (seen ++ actions.filterMap Action.reported) s' := by
  induction actions generalizing s seen with
  | nil =>
    obtain rfl := Option.some.inj hrun
    exact (List.append_nil seen).symm ▸ h
  | cons a rest ih =>
    obtain ⟨t, ht, hrest⟩ := Option.bind_eq_some_iff.mp hrun
    have hnext := ih (step_reported h ht) hrest
    rw [List.append_assoc] at hnext
    have hcons : (a :: rest).filterMap Action.reported =
        a.reported.toList ++ rest.filterMap Action.reported := by
      rw [List.filterMap_cons]
      cases a.reported <;> rfl
    rw [hcons]
    exact hnext

section run

variable {now : ℕ} {actions : List Action}

theorem reported_of_run
    (hrun : (system sink batches now).run (State.start sink batches now) actions = some s) :
    Reported (actions.filterMap Action.reported) s := by
  have hstart : Reported [] (State.start sink batches now) := ⟨rfl, List.nodup_nil, by simp⟩
  exact run_reported hstart hrun

theorem accepted_eq (h : (system sink batches now).Reachable s) :
    s.accepted = ((events batches).take s.enqueued).map (toRecord sink) := by
  by_cases hzero : totalEvents batches = 0
  · obtain ⟨t, rfl⟩ := reachable_empty hzero h
    rfl
  · exact (reachable_inv (Nat.pos_of_ne_zero hzero) h).accepted

/-- A report is about an accepted record. -/
theorem reported_lt
    (hrun : (system sink batches now).run (State.start sink batches now) actions = some s) :
    ∀ k ∈ (actions.filterMap Action.reported).map Prod.fst, k < s.accepted.length := by
  have hreach : (system sink batches now).Reachable s :=
    System.Reachable.run System.ReachableBy.start hrun
  intro k hk
  obtain ⟨x, hx, -⟩ := (reported_of_run hrun).noted k hk
  have hlt : k < s.reports.length := (List.getElem?_eq_some_iff.mp hx).1
  by_cases hzero : totalEvents batches = 0
  · obtain ⟨t, rfl⟩ := reachable_empty hzero hreach
    exact absurd hlt (Nat.not_lt_zero k)
  · have hinv := reachable_inv (Nat.pos_of_ne_zero hzero) hreach
    have hle : s.enqueued ≤ (events batches).length := by
      rw [events_length]
      exact hinv.phase.enqueued_le
    rwa [hinv.accepted, List.length_map, List.length_take_of_le hle, ← hinv.reports]

theorem acknowledged_eq (actions : List Action) (accepted : List BaseRecord) :
    acknowledged actions accepted =
      (((actions.filterMap Action.reported).filter (fun report => report.2.isNone)).map
        Prod.fst).filterMap (fun k => accepted[k]?) := by
  rw [acknowledged, List.filterMap_map]
  rfl

/-- The broker confirms a record of a write once at most, and only accepted ones. -/
theorem acknowledged_subperm
    (hrun : (system sink batches now).run (State.start sink batches now) actions = some s) :
    (acknowledged actions s.accepted).Subperm s.accepted := by
  rw [acknowledged_eq]
  have hsublist : (((actions.filterMap Action.reported).filter
      (fun report => report.2.isNone)).map Prod.fst).Sublist
        ((actions.filterMap Action.reported).map Prod.fst) := List.filter_sublist.map _
  apply Slots.filterMap_getElem?_subperm (hsublist.nodup (reported_of_run hrun).once)
  intro k hk
  exact reported_lt hrun k (hsublist.subset hk)

theorem outcome_eq_ok {written : WriteOutcome} (h : outcome batches s = .ok written) :
    written = ⟨totalEvents batches, 0⟩ := by
  unfold outcome at h
  split at h
  · contradiction
  · split at h
    · contradiction
    · exact (Except.ok.inj h).symm

/-- A write that returns `Ok` has had the record of every one of its events confirmed, each
once. -/
theorem acknowledged_of_ok {written : WriteOutcome}
    (hrun : (system sink batches now).run (State.start sink batches now) actions = some s)
    (hphase : s.phase = .returned (.ok written)) :
    written = ⟨totalEvents batches, 0⟩ ∧
      (acknowledged actions s.accepted).Perm ((events batches).map (toRecord sink)) := by
  have hreach : (system sink batches now).Reachable s :=
    System.Reachable.run System.ReachableBy.start hrun
  by_cases hzero : totalEvents batches = 0
  · obtain ⟨t, rfl⟩ := reachable_empty hzero hreach
    have hstart : (State.start sink batches now).phase = .returned (.ok ⟨0, 0⟩) := if_pos hzero
    have hevents : events batches = [] := by
      rw [← List.length_eq_zero_iff, events_length, hzero]
    have hnone := List.subperm_nil.mp (acknowledged_subperm hrun)
    refine ⟨?_, ?_⟩
    · have hwritten := Phase.returned.inj (hstart.symm.trans hphase)
      rw [← Except.ok.inj hwritten, hzero]
    · rw [hnone, hevents]
      exact List.Perm.refl _
  · have hinv := reachable_inv (Nat.pos_of_ne_zero hzero) hreach
    have hok := hinv.phase
    rw [PhaseOk, hphase] at hok
    obtain ⟨-, -, hremaining, hout⟩ := hok
    have hwritten := outcome_eq_ok hout.symm
    refine ⟨hwritten, ?_⟩
    obtain ⟨henqueued, hclean⟩ := (hinv.returned hphase).1.mp (by rw [hwritten])
    have haccepted : s.accepted = (events batches).map (toRecord sink) := by
      rw [hinv.accepted, henqueued, ← events_length, List.take_length]
    -- Every report has been made and none is an error, so each record is among them.
    have hreported := reported_of_run hrun
    have hnone : ∀ report ∈ actions.filterMap Action.reported, report.2.isNone = true := by
      intro report hmem
      rw [hclean report.2 (hreported.results ▸ List.mem_map_of_mem hmem)]
      rfl
    have hlength : ((actions.filterMap Action.reported).map Prod.fst).length =
        s.accepted.length := by
      have houtstanding : s.reports.count .outstanding = 0 := by
        refine List.count_eq_zero_of_not_mem fun hmem => ?_
        have := hinv.settled_of_zero hremaining _ hmem
        contradiction
      have hresults := hinv.results
      rw [houtstanding, hreported.results, henqueued, List.length_map] at hresults
      rw [haccepted, List.length_map, List.length_map, events_length]
      omega
    rw [acknowledged_eq, List.filter_eq_self.mpr hnone, ← haccepted]
    exact Slots.filterMap_getElem?_perm hreported.once (reported_lt hrun) hlength.ge

end run

end Rustper.Kafka
