import Rustper.AtLeastOnce
import Rustper.RouterLinks

/-!
Where the events of a write come from. What a sink counts as written grows by the events of
a group whose call has returned `Ok`; these were sent to it by the source, which made them
of records it has received from the broker, or by another source.
-/
namespace Rustper.Sink

open TransitionSystem

variable {runtime : Runtime} {s s' : State}

theorem written_append (s : State) {t : State} (attempt : Attempt) {e : Event}
    (he : e ∈ t.written) (hattempts : t.attempts = s.attempts ++ [attempt])
    (hdispatched : t.dispatched = s.dispatched) : e ∈ s.written ∨ (attempt.succeeded = true ∧
      e ∈ events ((s.dispatched[attempt.write]?).getD [])) := by
  rw [State.written, hdispatched, State.succeeded, State.groupsWith, hattempts,
    List.filter_append, List.map_append, List.flatMap_append, List.mem_append] at he
  refine he.imp id fun hnew => ?_
  obtain ⟨k, hk, hevent⟩ := List.mem_flatMap.mp hnew
  obtain ⟨a, ha, rfl⟩ := List.mem_map.mp hk
  obtain ⟨hmem, hsucceeded⟩ := List.mem_filter.mp ha
  obtain rfl := List.mem_singleton.mp hmem
  exact ⟨hsucceeded, hevent⟩

/-- Only a call that returns `Ok` adds to what is written: the events of its group. -/
theorem Move.written_cases {a : Action} {e : Event} (hmove : Move runtime s a s')
    (h : Fates runtime s) (he : e ∈ s'.written) :
    e ∈ s.written ∨ ∃ k outcome w, a = .attempted k (.ok outcome) ∧ s.writes[k]? = some w ∧
      e ∈ Sink.events w.envelopes := by
  cases hmove with
  | shuffle _ _ hsame =>
    rw [State.written, State.succeeded, State.groupsWith, hsame.attempts, hsame.dispatched] at he
    exact Or.inl he
  | exit k _ w hsame =>
    rw [State.written, State.succeeded, State.groupsWith, hsame.attempts, hsame.dispatched] at he
    exact Or.inl he
  | arrive e hrun => exact Or.inl he
  | dispatch envelopes hphase =>
    obtain ⟨k, hk, he⟩ := List.mem_flatMap.mp he
    have hlt : k < s.dispatched.length := h.succeeded_lt hk
    dsimp only at he
    rw [List.getElem?_append_left hlt] at he
    exact Or.inl (List.mem_flatMap.mpr ⟨k, hk, he⟩)
  | call _ pre post w number backoff hwrites hlive hnumber => exact Or.inl he
  | retry _ pre post w attempt backoff error hwrites hstage hretry =>
    refine (written_append s ⟨w.id, attempt, .error (.write error)⟩ he rfl rfl).imp id fun hnew => ?_
    exact absurd hnew.1 Bool.false_ne_true
  | finish k _ pre post w attempt backoff result ending hk hwrites hstage hlast hok =>
    refine (written_append s ⟨w.id, attempt, result⟩ he rfl rfl).imp id fun hnew => ?_
    obtain ⟨hsucceeded, hevent⟩ := hnew
    cases result with
    | ok outcome =>
      have hgroup := h.groups w (List.mem_of_getElem? hk)
      dsimp only at hevent
      rw [hgroup] at hevent
      exact ⟨k, outcome, w, hok outcome rfl, hk, hevent⟩
    | error e => contradiction
  | dropRest _ e queue orphans hrun hrest => exact Or.inl he
  | dropWrite _ pre post w hrun hwrites hlive => exact Or.inl he

theorem step_written {a : Action} {e : Event} (h : Inv runtime s)
    (hs : step runtime s a = some s') (he : e ∈ s'.written) :
    e ∈ s.written ∨ ∃ k outcome w, a = .attempted k (.ok outcome) ∧ s.writes[k]? = some w ∧
      e ∈ Sink.events w.envelopes :=
  (step_move h.ledger.orphans h.fates.stages hs).written_cases h.fates he

theorem live_of_attempted {k : ℕ} {result : Except String WriteOutcome} {w : Write}
    (hs : step runtime s (.attempted k result) = some s') (hw : s.writes[k]? = some w) :
    w.live = true := by
  simp only [step, attempted, hw] at hs
  split at hs
  · rename_i id envelopes attempt backoff hsome
    obtain rfl := Option.some.inj hsome
    rfl
  · contradiction

/-- A running write holds envelopes that were put into the channel. -/
theorem Inv.arrived_of_live {w : Write} {x : SinkEnvelope} (h : Inv runtime s)
    (hw : w ∈ s.writes) (hlive : w.live = true) (hx : x ∈ w.envelopes) : x ∈ s.arrived := by
  have hmem : w ∈ s.live := List.mem_filter.mpr ⟨hw, hlive⟩
  have hheld : x ∈ s.held := by
    have hflat : x ∈ s.live.flatMap Write.envelopes := List.mem_flatMap.mpr ⟨w, hmem, hx⟩
    simp only [State.held, List.mem_append]
    tauto
  exact h.ledger.perm.mem_iff.mpr (List.mem_append_right _ hheld)

end Rustper.Sink

namespace Rustper.Router

open TransitionSystem

variable {n : ℕ} {wiring : Wiring n} {s s' : State n}

theorem step_written {a : Action n} {i : Fin n} {e : Event} (h : Inv wiring s)
    (hs : step wiring s a = some s') (he : e ∈ (s'.sinks i).written) :
    e ∈ (s.sinks i).written ∨ ∃ k outcome w, a = .sink i (.attempted k (.ok outcome)) ∧
      (s.sinks i).writes[k]? = some w ∧ e ∈ Sink.events w.envelopes := by
  have hsink : ∀ {j : Fin n} {b : Sink.Action} {sink : Sink.State},
      Sink.step (wiring.runtimes j) (s.sinks j) b = some sink →
      e ∈ (Function.update s.sinks j sink i).written → e ∈ (s.sinks i).written ∨
        (j = i ∧ ∃ k outcome w, b = .attempted k (.ok outcome) ∧
          (s.sinks i).writes[k]? = some w ∧ e ∈ Sink.events w.envelopes) := by
    intro j b sink hb he
    by_cases hj : j = i
    · subst hj
      rw [Function.update_self] at he
      exact (Sink.step_written (h.sink j) hb he).imp id fun hnew => ⟨rfl, hnew⟩
    · rw [Function.update_of_ne (Ne.symm hj)] at he
      exact Or.inl he
  cases step_taken hs with
  | sink j b sink hb hnot =>
    refine (hsink hb he).imp id ?_
    rintro ⟨rfl, k, outcome, w, rfl, hw, hevent⟩
    exact ⟨k, outcome, w, rfl, hw, hevent⟩
  | enqueue k j f f' sink hf hfan harrive =>
    refine Or.inl ((hsink harrive he).resolve_right ?_)
    rintro ⟨-, k, outcome, w, hne, -⟩
    contradiction
  | foreign j x sink hforeign hb =>
    refine Or.inl ((hsink hb he).resolve_right ?_)
    rintro ⟨-, k, outcome, w, hne, -⟩
    contradiction
  | _ => exact Or.inl he

/-- The events of a foreign envelope carry the name of its source. -/
def ForeignNamed (wiring : Wiring n) (s : State n) : Prop :=
  ∀ i, ∀ x ∈ (s.sinks i).arrived, x.ack.source ≠ wiring.source.id →
    ∀ e ∈ x.batch.events, e.source.componentId = x.ack.source

theorem ForeignNamed.setSink {i : Fin n} {a : Sink.Action} {sink : Sink.State}
    (hnamed : ForeignNamed wiring s) (h : Inv wiring s)
    (hs : Sink.step (wiring.runtimes i) (s.sinks i) a = some sink)
    (harrive : ∀ x, a = .arrive x → x.ack.source ≠ wiring.source.id →
      ∀ e ∈ x.batch.events, e.source.componentId = x.ack.source) :
    ForeignNamed wiring { s with sinks := Function.update s.sinks i sink } := by
  intro j x hx
  dsimp only at hx
  by_cases hj : j = i
  · subst hj
    rw [Function.update_self] at hx
    rcases (Sink.step_extends (h.sink j) hs).arrived with hsame | ⟨y, ha, happend⟩
    · exact hnamed j x (hsame ▸ hx)
    · rw [happend] at hx
      rcases List.mem_append.mp hx with hx | hx
      · exact hnamed j x hx
      · rw [List.mem_singleton.mp hx]
        exact harrive y ha
  · rw [Function.update_of_ne hj] at hx
    exact hnamed j x hx

theorem Move.foreignNamed {a : Action n} (hmove : Move wiring s a s') (h : Inv wiring s)
    (hnamed : ForeignNamed wiring s) : ForeignNamed wiring s' := by
  cases hmove with
  | source a a' source hs hjoin hrecv => exact hnamed
  | fanout a k a' f f' hf hs hdelivered => exact hnamed
  | enqueue k i f f' sink hf hs harrive =>
    refine hnamed.setSink h harrive ?_
    intro x hx hforeign
    cases hx
    exact absurd rfl hforeign
  | sink a i a' sink hs hforeign => exact hnamed.setSink h hs fun x hx _ => (hforeign x hx).2

theorem reachable_foreignNamed {now : ℕ} (h : (system wiring now).Reachable s) :
    ForeignNamed wiring s := by
  have hboth : Inv wiring s ∧ ForeignNamed wiring s := by
    have hstart : Inv wiring (State.start n now) ∧ ForeignNamed wiring (State.start n now) :=
      ⟨start_inv wiring now, by simp [ForeignNamed, State.start, Sink.State.start]⟩
    apply System.Reachable.invariant hstart _ h
    intro t a t' hi hs
    exact ⟨step_inv hi.1 hs, (step_move hs).foreignNamed hi.1 hi.2⟩
  exact hboth.2

/-- What the source has sent to a sink was made of records it received. -/
theorem Inv.event_of_own (h : Inv wiring s) {i : Fin n} {x : Sink.SinkEnvelope}
    (hx : x ∈ (s.sinks i).arrived) (hown : x.ack.source = wiring.source.id) {e : Event}
    (he : e ∈ x.batch.events) :
    ∃ r ∈ s.source.received, e = toEvent wiring.source.id r.record := by
  obtain ⟨f, hf, hbatch⟩ := h.envelopes i x hx hown
  obtain ⟨d, hd, hreach⟩ := h.fanouts _ f hf
  rw [← hbatch, Fanout.reachable_batch hreach] at he
  have hmem := List.mem_of_getElem? hd
  rw [(h.source.dispatches d hmem).events] at he
  obtain ⟨r, hr, rfl⟩ := List.mem_map.mp he
  refine ⟨r, ?_, rfl⟩
  rw [h.source.received_eq]
  exact List.mem_append_left _ (List.mem_flatMap.mpr ⟨d, hmem, hr⟩)

/-- An event that has arrived at a sink was made of a record the source received, or comes
from another source. -/
theorem event_of_arrived {now : ℕ} (h : (system wiring now).Reachable s) {i : Fin n}
    {x : Sink.SinkEnvelope} (hx : x ∈ (s.sinks i).arrived) {e : Event}
    (he : e ∈ x.batch.events) :
    e.source.componentId ≠ wiring.source.id ∨
      ∃ r ∈ s.source.received, e = toEvent wiring.source.id r.record := by
  by_cases hown : x.ack.source = wiring.source.id
  · exact Or.inr ((reachable_inv h).event_of_own hx hown he)
  · left
    rw [reachable_foreignNamed h i x hx hown e he]
    exact hown

end Rustper.Router

namespace Rustper.Pipeline

open TransitionSystem Source

variable {n : ℕ} {wiring : Router.Wiring n} {s s' : State n}

/-- What becomes of the process in a step: nothing, it starts, it is gone, or it takes a step
of its own. -/
inductive Turn (wiring : Router.Wiring n) (s s' : State n) (a : Action n) : Prop
  | idle (hprocess : s'.process = s.process) (hpast : s'.past = s.past)
  | start (now : ℕ) (hnone : s.process = none)
      (hprocess : s'.process = some (Router.State.start n now)) (hpast : s'.past = s.past)
  | crash (hnone : s'.process = none) (hpast : s'.past = s.written)
  | run (b : Router.Action n) (process process' : Router.State n)
      (hold : s.process = some process) (hstep : Router.step wiring process b = some process')
      (hprocess : s'.process = some process') (hpast : s'.past = s.past)
      (haction : (∃ r, b = .source (.recv r)) ∨ a = .router b)

/-- Logs only grow. -/
def Grows (s s' : State n) : Prop :=
  ∀ p, ∀ r ∈ (s.log p).records, r ∈ (s'.log p).records

theorem Grows.refl (s : State n) : Grows s s := fun _ _ => id

theorem step_cases {a : Action n} (hs : step wiring s a = some s') :
    Turn wiring s s' a ∧ Grows s s' := by
  cases a with
  | append r =>
    simp only [step, append] at hs
    split at hs
    · rename_i hfits
      cases hs
      exact ⟨.idle rfl rfl, (append_advances hfits).kept⟩
    · contradiction
  | start now =>
    simp only [step, startProcess] at hs
    split at hs
    · rename_i hnone
      cases hs
      exact ⟨.start now hnone rfl rfl, Grows.refl s⟩
    · contradiction
  | crash =>
    simp only [step, crash] at hs
    split at hs
    · contradiction
    · cases hs
      exact ⟨.crash rfl rfl, Grows.refl s⟩
  | assign p =>
    cases hs
    exact ⟨.idle rfl rfl, Grows.refl s⟩
  | revoke p =>
    cases hs
    exact ⟨.idle rfl rfl, Grows.refl s⟩
  | recv p =>
    simp only [step, recv, Option.bind_eq_bind, Option.bind_eq_some_iff] at hs
    obtain ⟨r, hr, t, hrun, hs⟩ := hs
    obtain ⟨process, process', hp, hstep, rfl⟩ := runProcess_some hrun
    cases hs
    exact ⟨.run _ process process' hp hstep rfl rfl (Or.inl ⟨r, rfl⟩), Grows.refl s⟩
  | router b =>
    have hrun : runProcess wiring s b = some s' := by
      simp only [step, routerStep] at hs
      split at hs
      · contradiction
      · exact hs
    obtain ⟨process, process', hp, hstep, rfl⟩ := runProcess_some hrun
    exact ⟨.run b process process' hp hstep rfl rfl (Or.inr rfl), Grows.refl s⟩
  | applyCommit k =>
    simp only [step, applyCommit, Option.bind_eq_bind, Option.bind_eq_some_iff] at hs
    obtain ⟨entry, hentry, hs⟩ := hs
    cases hs
    exact ⟨.idle rfl rfl, Grows.refl s⟩
  | loseCommit k =>
    simp only [step, loseCommit, Option.bind_eq_bind, Option.bind_eq_some_iff] at hs
    obtain ⟨entry, hentry, hs⟩ := hs
    cases hs
    exact ⟨.idle rfl rfl, Grows.refl s⟩

/-- The process has run as a process of its own since it was started. -/
def Running (wiring : Router.Wiring n) (s : State n) : Prop :=
  ∀ process, s.process = some process → ∃ now, (Router.system wiring now).Reachable process

theorem step_running {a : Action n} (h : Running wiring s) (hs : step wiring s a = some s') :
    Running wiring s' := by
  intro process' hp'
  cases (step_cases hs).1 with
  | idle hprocess hpast => exact h process' (hprocess ▸ hp')
  | start now hnone hprocess hpast =>
    obtain rfl := Option.some.inj (hprocess.symm.trans hp')
    exact ⟨now, System.ReachableBy.start⟩
  | crash hnone hpast =>
    rw [hnone] at hp'
    contradiction
  | run b process next hold hstep hprocess hpast haction =>
    obtain rfl := Option.some.inj (hprocess.symm.trans hp')
    obtain ⟨now, hreach⟩ := h process hold
    exact ⟨now, hreach.next hstep⟩

theorem reachable_running (h : (system wiring).Reachable s) : Running wiring s := by
  have hstart : Running wiring (State.start n) := by
    intro process hp
    contradiction
  apply System.Reachable.invariant hstart _ h
  intro t a t' hi hs
  exact step_running hi hs

/-- What the sinks have written over all processes grows by the events of a group whose call
has returned `Ok`. -/
theorem step_written {a : Action n} {i : Fin n} {e : Event} (h : (system wiring).Reachable s)
    (hs : step wiring s a = some s') (he : e ∈ s'.written i) :
    e ∈ s.written i ∨ ∃ k outcome process w,
      a = .router (.sink i (.attempted k (.ok outcome))) ∧ s.process = some process ∧
        (process.sinks i).writes[k]? = some w ∧ e ∈ Sink.events w.envelopes := by
  rw [State.written] at he
  cases (step_cases hs).1 with
  | idle hprocess hpast =>
    rw [hprocess, hpast] at he
    exact Or.inl he
  | start now hnone hprocess hpast =>
    rw [hprocess, hpast] at he
    rw [State.written, hnone]
    exact Or.inl he
  | crash hnone hpast =>
    rw [hnone, hpast] at he
    exact Or.inl (by simpa using he)
  | run b process process' hold hstep hprocess hpast haction =>
    rw [hprocess, hpast] at he
    rw [State.written, hold]
    rcases List.mem_append.mp he with he | he
    · exact Or.inl (List.mem_append_left _ he)
    obtain ⟨now, hreach⟩ := reachable_running h process hold
    rcases Router.step_written (Router.reachable_inv hreach) hstep he with he | hnew
    · exact Or.inl (List.mem_append_right _ he)
    · obtain ⟨k, outcome, w, rfl, hw, hevent⟩ := hnew
      rcases haction with ⟨r, hr⟩ | rfl
      · contradiction
      · exact Or.inr ⟨k, outcome, process, w, rfl, rfl, hw, hevent⟩

/-- The event of a record of the broker, or one of another source. -/
def Genuine (wiring : Router.Wiring n) (s : State n) (e : Event) : Prop :=
  e.source.componentId ≠ wiring.source.id ∨
    ∃ r ∈ (s.log e.topicPartition).records, e = toEvent wiring.source.id r

/-- A record that the process has received is one of the broker. -/
theorem received_genuine (h : (system wiring).Reachable s) {process : Router.State n}
    (hp : s.process = some process) {r : Receipt} (hr : r ∈ process.source.received) :
    r.record ∈ (s.log r.record.topicPartition).records := by
  have hmem : r.record ∈ receivedRecords process := List.mem_map_of_mem hr
  obtain ⟨pre, post, hsplit⟩ := List.append_of_mem hmem
  exact (((reachable_inv h).process process hp).received pre _ post hsplit).1

/-- A sink is only handed genuine events. -/
theorem genuine_of_arrived (h : (system wiring).Reachable s) {process : Router.State n}
    (hp : s.process = some process) {i : Fin n} {x : Sink.SinkEnvelope}
    (hx : x ∈ (process.sinks i).arrived) {e : Event} (he : e ∈ x.batch.events) :
    Genuine wiring s e := by
  obtain ⟨now, hreach⟩ := reachable_running h process hp
  refine (Router.event_of_arrived hreach hx he).imp id ?_
  rintro ⟨r, hr, rfl⟩
  exact ⟨r.record, received_genuine h hp hr, rfl⟩

end Rustper.Pipeline
