import Rustper.SinkAccounting

/-!
The history of a sink only grows, and what it settles as delivered has been written:
the events of an envelope settled so are among those of the groups whose write
returned `Ok`.
-/
namespace Rustper.Sink

open TransitionSystem

variable {runtime : Runtime} {s s' : State} {a : Action}

def events (envelopes : List SinkEnvelope) : List Event :=
  envelopes.flatMap (fun e => e.batch.events)

/-- The events of the groups whose `write_batches` returned `Ok`. -/
def State.written (s : State) : List Event :=
  s.succeeded.flatMap (fun k => events ((s.dispatched[k]?).getD []))

/-- The later state has all the history of the earlier one. -/
structure Extends (a : Action) (s s' : State) : Prop where
  settled : ∃ new, s'.settled = s.settled ++ new
  attempts : ∃ new, s'.attempts = s.attempts ++ new
  dispatched : ∃ new, s'.dispatched = s.dispatched ++ new
  arrived : s'.arrived = s.arrived ∨ ∃ e, a = .arrive e ∧ s'.arrived = s.arrived ++ [e]

theorem Shuffle.extends {lost : List ℕ} (h : Shuffle lost s s') : Extends a s s' where
  settled := ⟨[], by rw [h.settled, List.append_nil]⟩
  attempts := ⟨[], by rw [h.attempts, List.append_nil]⟩
  dispatched := ⟨[], by rw [h.dispatched, List.append_nil]⟩
  arrived := Or.inl h.arrived

theorem Move.extends (hmove : Move runtime s a s') : Extends a s s' := by
  have hnil : ∀ {α : Type} (l : List α), ∃ new, l = l ++ new :=
    fun l => ⟨[], (List.append_nil l).symm⟩
  cases hmove with
  | shuffle _ _ hsame => exact hsame.extends
  | exit k _ w hsame => exact hsame.extends
  | arrive e hrun => exact ⟨hnil _, hnil _, hnil _, Or.inr ⟨e, rfl, rfl⟩⟩
  | dispatch envelopes hphase => exact ⟨hnil _, hnil _, ⟨_, rfl⟩, Or.inl rfl⟩
  | call _ pre post w number backoff hwrites hlive hnumber =>
    exact ⟨hnil _, hnil _, hnil _, Or.inl rfl⟩
  | retry _ pre post w attempt backoff e hwrites hstage hretry =>
    exact ⟨hnil _, ⟨_, rfl⟩, hnil _, Or.inl rfl⟩
  | finish k _ pre post w attempt backoff result ending hk hwrites hstage hlast hok =>
    exact ⟨⟨_, rfl⟩, ⟨_, rfl⟩, hnil _, Or.inl rfl⟩
  | dropRest _ e queue orphans hrun hrest => exact ⟨⟨_, rfl⟩, hnil _, hnil _, Or.inl rfl⟩
  | dropWrite _ pre post w hrun hwrites hlive => exact ⟨⟨_, rfl⟩, hnil _, hnil _, Or.inl rfl⟩

theorem step_extends (h : Inv runtime s) (hs : step runtime s a = some s') : Extends a s s' :=
  (step_move h.ledger.orphans h.fates.stages hs).extends

theorem Fates.succeeded_lt (h : Fates runtime s) {k : ℕ} (hk : k ∈ s.succeeded) :
    k < s.dispatched.length := by
  by_contra hle
  exact (h.unknown k (by omega)).not_mem (fun a ha => (Attempt.retried_excludes ha).1) hk

theorem Extends.written (hext : Extends a s s') (h : Fates runtime s) {e : Event}
    (he : e ∈ s.written) : e ∈ s'.written := by
  obtain ⟨k, hk, he⟩ := List.mem_flatMap.mp he
  obtain ⟨attempts, hattempts⟩ := hext.attempts
  obtain ⟨groups, hgroups⟩ := hext.dispatched
  refine List.mem_flatMap.mpr ⟨k, ?_, ?_⟩
  · rw [State.succeeded, State.groupsWith, hattempts, List.filter_append, List.map_append]
    exact List.mem_append_left _ hk
  · rw [hgroups, List.getElem?_append_left (h.succeeded_lt hk)]
    exact he

theorem Extends.mem_settled (hext : Extends a s s') {x : Settled} (hx : x ∈ s.settled) :
    x ∈ s'.settled := by
  obtain ⟨new, hnew⟩ := hext.settled
  rw [hnew]
  exact List.mem_append_left _ hx

/-- A group is written as a whole. -/
theorem Inv.written_of_delivered (h : Inv runtime s) {x : Settled} (hx : x ∈ s.settled)
    (hdelivered : x.settlement = .delivered) {e : Event} (he : e ∈ x.envelope.batch.events) :
    e ∈ s.written := by
  obtain ⟨k, hk, hsucceeded⟩ := (h.fates.delivered_iff hx).mp hdelivered
  have hlt := h.fates.succeeded_lt hsucceeded
  have hentry : x ∈ s.entries k := List.mem_filter.mpr ⟨hx, by simp [hk]⟩
  rcases h.fates.ended k _ (List.getElem?_eq_getElem hlt) with hlive | ⟨how, hend⟩
  · rw [(h.fates.pending k hlive).entries] at hentry
    contradiction
  · rw [hend.entries] at hentry
    obtain ⟨envelope, henvelope, rfl⟩ := List.mem_map.mp hentry
    refine List.mem_flatMap.mpr ⟨k, hsucceeded, ?_⟩
    rw [List.getElem?_eq_getElem hlt]
    exact List.mem_flatMap.mpr ⟨envelope, henvelope, he⟩

theorem Inv.settled_arrived (h : Inv runtime s) {x : Settled} (hx : x ∈ s.settled) :
    x.envelope ∈ s.arrived :=
  h.ledger.perm.mem_iff.mpr (List.mem_append_left _ (List.mem_map_of_mem hx))

end Rustper.Sink
