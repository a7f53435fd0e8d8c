import Rustper.FanoutProgress
import Rustper.RouterLinks
import Rustper.SinkProgress
import Rustper.SourceProgress

/-!
Progress of one process: the source loop, its fan-outs and the sinks together do not
deadlock. What one part waits for another one can always do, down to the calls of
`write_batches`; and what is left to do of all parts together shrinks with every step
that is not an input. So a source to which no record comes any more commits what it has
received, unless it ends, and a source that has ended leaves no fan-out behind.
-/
namespace Rustper.Router

open TransitionSystem

variable {n : ℕ} {wiring : Wiring n} {s s' : State n}

/-- What an envelope costs its sink. -/
def envelopeCost (wiring : Wiring n) (i : Fin n) : ℕ :=
  Sink.envelopeWork (wiring.runtimes i).settings

/-- What a batch costs its fan-out and the sinks. -/
def batchCost (wiring : Wiring n) : ℕ := ∑ i, (envelopeCost wiring i + 3) + 2

def State.remaining (wiring : Wiring n) (s : State n) : ℕ :=
  s.source.remaining (batchCost wiring) +
    (s.fanouts.map (Fanout.State.remaining (envelopeCost wiring))).sum +
    ∑ i, (s.sinks i).remaining (wiring.runtimes i)

def work : Action n → ℕ
  | .source a => Source.work a
  | .sink _ a => Sink.work a
  | .foreign _ _ => 0
  | _ => 1

/-- The inputs: records, and envelopes of other sources. -/
def pay (wiring : Wiring n) : Action n → ℕ
  | .source a => Source.pay (batchCost wiring) a
  | .foreign i _ => envelopeCost wiring i
  | _ => 0

/-- What happens without the consumer, the supervisor and the other sources. -/
def internal : Action n → Bool
  | .source (.elapse _) | .source .lingerElapsed => true
  | .source _ | .foreign _ _ => false
  | .sink _ a => Sink.internal a
  | _ => true

theorem fanouts_set (cost : Fin n → ℕ) {fanouts : List (Fanout.State n)} {k : ℕ}
    {f : Fanout.State n} (hf : fanouts[k]? = some f) (f' : Fanout.State n) :
    ((fanouts.set k f').map (Fanout.State.remaining cost)).sum + f.remaining cost =
      (fanouts.map (Fanout.State.remaining cost)).sum + f'.remaining cost := by
  obtain ⟨pre, post, hsplit, hset, -⟩ := Slots.exists_split hf
  rw [hset, hsplit]
  simp only [List.map_append, List.map_cons, List.sum_append, List.sum_cons]
  omega

theorem sinks_update (wiring : Wiring n) (s : State n) (i : Fin n) (sink : Sink.State) :
    ∑ j, (Function.update s.sinks i sink j).remaining (wiring.runtimes j) +
        (s.sinks i).remaining (wiring.runtimes i) =
      ∑ j, (s.sinks j).remaining (wiring.runtimes j) + sink.remaining (wiring.runtimes i) :=
  sum_update s.sinks (fun j sink => sink.remaining (wiring.runtimes j)) i sink

/-- A new fan-out costs no more than was set aside for its batch. -/
theorem starts_remaining (wiring : Wiring n) (dispatches : List Source.Dispatch) :
    ((dispatches.map (fun d => Fanout.State.start n d.batch)).map
      (Fanout.State.remaining (envelopeCost wiring))).sum ≤
        batchCost wiring * dispatches.length := by
  induction dispatches with
  | nil => simp
  | cons d rest ih =>
    have hstart := Fanout.remaining_start (envelopeCost wiring) d.batch
    simp only [List.map_cons, List.sum_cons, List.length_cons, Nat.mul_succ] at ih ⊢
    unfold batchCost at ih ⊢
    omega

theorem spawn_remaining {source : Source.State} {a : Source.Action}
    (hs : Source.step wiring.source s.source a = some source) :
    (spawn s source).remaining wiring + Source.work a ≤
      s.remaining wiring + Source.pay (batchCost wiring) a := by
  have hsource := Source.step_remaining (batchCost wiring) hs
  have hstarts := starts_remaining wiring
    (source.dispatched.drop s.source.dispatched.length)
  rw [List.length_drop] at hstarts
  simp only [State.remaining, spawn, List.map_append, List.sum_append]
  omega

variable (wiring) in
theorem fanout_remaining {k : ℕ} {f f' : Fanout.State n} {a : Fanout.Action n}
    (hf : s.fanouts[k]? = some f) (hs : Fanout.step f a = some f') :
    State.remaining wiring { s with fanouts := s.fanouts.set k f' } +
      Fanout.passed (envelopeCost wiring) a + 1 ≤ s.remaining wiring := by
  have hset := fanouts_set (envelopeCost wiring) hf f'
  have hless := Fanout.step_remaining (envelopeCost wiring) hs
  simp only [State.remaining]
  omega

theorem sink_remaining {i : Fin n} {a : Sink.Action} {sink : Sink.State}
    (h : Sink.Inv (wiring.runtimes i) (s.sinks i))
    (hs : Sink.step (wiring.runtimes i) (s.sinks i) a = some sink) :
    State.remaining wiring { s with sinks := Function.update s.sinks i sink } + Sink.work a ≤
      s.remaining wiring + Sink.pay (wiring.runtimes i) a := by
  have hupdate := sinks_update wiring s i sink
  have hless := Sink.step_remaining h hs
  simp only [State.remaining]
  omega

theorem Taken.remaining {a : Action n} (htaken : Taken wiring s a s') (h : Inv wiring s) :
    s'.remaining wiring + work a ≤ s.remaining wiring + pay wiring a := by
  cases htaken with
  | source a source hs hnot => exact spawn_remaining hs
  | join k commit f result source hf hresult hs => exact spawn_remaining hs
  | fanout k a f f' hf hown hs =>
    have hless := fanout_remaining wiring hf hs
    simp only [work, pay]
    omega
  | refuse k i f f' hf hreturned hs =>
    have hless := fanout_remaining wiring hf hs
    simp only [work, pay]
    omega
  | settle i x f f' hx hown hf hs =>
    have hless := fanout_remaining wiring hf hs
    simp only [work, pay]
    omega
  | enqueue k i f f' sink hf hs harrive =>
    -- The cost of the envelope goes from its fan-out to its sink.
    have hless := fanout_remaining wiring hf hs
    have hpaid := sink_remaining
      (s := { s with fanouts := s.fanouts.set k f' }) (h.sink i) harrive
    simp only [work, pay, Fanout.passed, envelopeCost, Sink.work, Sink.pay] at hless hpaid ⊢
    omega
  | sink i a sink hs hnot =>
    have hless := sink_remaining (h.sink i) hs
    have hfree : Sink.pay (wiring.runtimes i) a = 0 := by
      cases a with
      | arrive e => exact absurd rfl (hnot e)
      | _ => rfl
    simp only [work, pay]
    omega
  | foreign i e sink hforeign hs => exact sink_remaining (h.sink i) hs

/-- What is left to do in all parts is a potential of the process. -/
def potential (wiring : Wiring n) (now : ℕ) :
    Potential (system wiring now) (Inv wiring) work (pay wiring) where
  value := State.remaining wiring
  keeps := step_inv
  bound h hs := (step_taken hs).remaining h

/-- While the source runs, nobody aborts a fan-out, and its byte counter is covered. -/
structure Alive (s : State n) : Prop where
  fanouts : s.source.outcome = none → ∀ f ∈ s.fanouts,
    f.phase ≠ .aborted ∧ f.phase ≠ .cancelling true
  bytes : s.source.outcome = none → s.source.inFlightBytes ≤ Source.inFlightSum s.source

theorem start_alive (n now : ℕ) : Alive (State.start n now) where
  fanouts _ f hf := by contradiction
  bytes _ := Nat.zero_le _

theorem step_unaborted {f f' : Fanout.State n} {a : Fanout.Action n}
    (hs : Fanout.step f a = some f') (hnot : a ≠ .abort)
    (h : f.phase ≠ .aborted ∧ f.phase ≠ .cancelling true) :
    f'.phase ≠ .aborted ∧ f'.phase ≠ .cancelling true := by
  cases a with
  | abort => exact absurd rfl hnot
  | endCancel =>
    simp only [Fanout.step, Fanout.endCancel] at hs
    split at hs
    · rename_i aborted hphase
      simp only [Option.ite_none_right_eq_some, Option.some.injEq] at hs
      obtain ⟨-, rfl⟩ := hs
      cases aborted with
      | false => simp
      | true => exact absurd hphase h.2
    · contradiction
  | enqueue i | refuse i | delivered i | failed i | drop i | dropSend i | joinSends | cancel
    | acknowledged | ackClosed =>
    simp only [Fanout.step, Fanout.enqueue, Fanout.refuse, Fanout.answer, Fanout.drop,
      Fanout.dropSend, Fanout.joinSends, Fanout.cancel, Fanout.acknowledged,
      Fanout.ackClosed, Option.ite_none_right_eq_some, Option.some.injEq] at hs
    grind [Fanout.State.modify_phase, Fanout.State.complete_phase]

theorem Alive.setFanout (h : Alive s) {k : ℕ} {f f' : Fanout.State n} {a : Fanout.Action n}
    (hf : s.fanouts[k]? = some f) (hs : Fanout.step f a = some f')
    (hnot : s.source.outcome = none → a ≠ .abort) (sinks : Fin n → Sink.State) :
    Alive { s with fanouts := s.fanouts.set k f', sinks := sinks } where
  fanouts hnone g hg := by
    rcases List.mem_or_eq_of_mem_set hg with hg | rfl
    · exact h.fanouts hnone g hg
    · exact step_unaborted hs (hnot hnone) (h.fanouts hnone f (List.mem_of_getElem? hf))
  bytes := h.bytes

theorem Alive.spawn (h : Alive s) (hinv : Inv wiring s) {source : Source.State}
    {a : Source.Action} (hs : Source.step wiring.source s.source a = some source) :
    Alive (spawn s source) where
  fanouts _ f hf := by
    have hnone := Source.outcome_of_step hs
    rcases List.mem_append.mp hf with hf | hf
    · exact h.fanouts hnone f hf
    · obtain ⟨d, -, rfl⟩ := List.mem_map.mp hf
      simp only [Fanout.State.start]
      split <;> simp
  bytes hnone' :=
    Source.step_bytes_le hinv.source hs (h.bytes (Source.outcome_of_step hs)) hnone'

theorem Taken.alive {a : Action n} (htaken : Taken wiring s a s') (hinv : Inv wiring s)
    (h : Alive s) : Alive s' := by
  cases htaken with
  | source a source hs hnot => exact h.spawn hinv hs
  | join k commit f result source hf hresult hs => exact h.spawn hinv hs
  | fanout k a f f' hf hown hs =>
    refine h.setFanout hf hs ?_ s.sinks
    rintro hnone rfl
    simp [ownAction, hnone] at hown
  | enqueue k i f f' sink hf hs harrive => exact h.setFanout hf hs (fun _ => by simp) _
  | refuse k i f f' hf hreturned hs => exact h.setFanout hf hs (fun _ => by simp) s.sinks
  | settle i x f f' hx hown hf hs =>
    refine h.setFanout hf hs (fun _ => ?_) s.sinks
    cases x.settlement <;> simp [settlementAction]
  | sink i a sink hs hnot => exact ⟨h.fanouts, h.bytes⟩
  | foreign i e sink hforeign hs => exact ⟨h.fanouts, h.bytes⟩

theorem reachable_alive {now : ℕ} (h : (system wiring now).Reachable s) : Alive s := by
  have hboth : Inv wiring s ∧ Alive s := by
    have hstart : Inv wiring (State.start n now) ∧ Alive (State.start n now) :=
      ⟨start_inv wiring now, start_alive n now⟩
    apply System.Reachable.invariant hstart _ h
    intro t a t' ht hs
    exact ⟨step_inv ht.1 hs, (step_taken hs).alive ht.1 ht.2⟩
  exact hboth.2

/-- What `Config::validate` asks of the bounds: a channel has room for an envelope, and
an idle source for a batch. -/
structure Bounded (wiring : Wiring n) : Prop where
  capacity : ∀ i, 0 < (wiring.runtimes i).capacity
  batches : 0 < wiring.source.config.maxInFlightBatches
  bytes : 0 < wiring.source.config.maxInFlightBytes

section Quiet

variable {now : ℕ} (hquiet : (system wiring now).Quiet work (fun a => internal a = true) s)
include hquiet

theorem not_enabled {a : Action n} (hinternal : internal a = true) (hwork : work a = 1) :
    step wiring s a = none := by
  cases hs : step wiring s a with
  | none => rfl
  | some s' =>
    have hzero := hquiet.work_eq_zero (a := a) hinternal hs
    omega

theorem quiet_sink (i : Fin n) (now' : ℕ) :
    (Sink.system (wiring.runtimes i) now').Quiet Sink.work (fun a => Sink.internal a = true)
      (s.sinks i) := by
  refine hquiet.part (Action.sink i) (fun s => s.sinks i) (fun b hb => hb) (fun b => rfl) ?_
  intro t b c hb hc
  have hnot : ∀ e, b ≠ .arrive e := by
    rintro e rfl
    contradiction
  have hstep : step wiring t (.sink i b) = updateSink wiring t i b := by
    cases b with
    | arrive e => exact absurd rfl (hnot e)
    | _ => rfl
  have hc : Sink.step (wiring.runtimes i) (t.sinks i) b = some c := hc
  refine ⟨{ t with sinks := Function.update t.sinks i c }, ?_, by simp⟩
  show step wiring t (.sink i b) = _
  rw [hstep, updateSink, hc]
  rfl

/-- A future that is not over waits for a destination. -/
theorem quiet_own {k : ℕ} {f : Fanout.State n} (hf : s.fanouts[k]? = some f)
    {a : Fanout.Action n} (hown : a.own = true) : Fanout.step f a = none := by
  have hnone := not_enabled hquiet (a := .fanout k a) rfl rfl
  have hown' : ownAction s f a = true := by
    cases a <;> first | rfl | contradiction
  rw [Option.eq_none_iff_forall_ne_some]
  simpa [step, fanoutStep, updateFanout, hf, hown'] using hnone

/-- No destination can keep an envelope that is sent to it waiting: a sink that runs has
room for it, and one that has returned refuses it. -/
theorem quiet_sending (hbounded : Bounded wiring) {k : ℕ} {f : Fanout.State n}
    (hf : s.fanouts[k]? = some f) (hphase : f.phase = .sending) (i : Fin n) :
    (f.branches i).stage ≠ .sending := by
  intro hstage
  rcases Sink.quiet_cases (quiet_sink hquiet i 0) with ⟨haccepting, hempty, -, hopen⟩ | hdown
  · have hnone := not_enabled hquiet (a := .enqueue k i) rfl rfl
    have hrun : (s.sinks i).returned = false := by
      rw [Sink.State.returned, haccepting]
      rfl
    have hroom := hbounded.capacity i
    simp [step, enqueue, updateFanout, updateSink, hf, Fanout.step, Fanout.enqueue, hphase, hstage,
      Sink.step, Sink.arrive, hrun, hopen, hempty, hroom] at hnone
  · have hnone := not_enabled hquiet (a := .refuse k i) rfl rfl
    simp [step, refuse, updateFanout, hf, Fanout.step, Fanout.refuse, hphase, hstage,
      hdown.returned] at hnone

/-- Nor can it leave an envelope unanswered: what has arrived is settled. -/
theorem quiet_held (h : Inv wiring s) {k : ℕ} {f : Fanout.State n} (hf : s.fanouts[k]? = some f)
    {i : Fin n} (hlinked : Linked wiring s i) : (f.branches i).stage ≠ .held := by
  intro hstage
  have hsettled := (Sink.quiet_settled (quiet_sink hquiet i 0) (h.sink i)).mem_iff.mp
    (hlinked.held k f hf hstage)
  obtain ⟨x, hx, henvelope⟩ := List.mem_map.mp hsettled
  have hnone := not_enabled hquiet (a := .settle i x) rfl rfl
  have hack : x.envelope.ack = ⟨wiring.source.id, k⟩ := by rw [henvelope]; rfl
  cases hhow : x.settlement <;>
    simp [step, settle, updateFanout, hx, hack, hf, hhow, settlementAction, Fanout.step,
      Fanout.answer, Fanout.drop, hstage] at hnone

/-- Every fan-out is over, whatever has become of its source. -/
theorem quiet_over (hbounded : Bounded wiring) (h : Inv wiring s)
    (hlinked : ∀ i, Linked wiring s i) {k : ℕ} {f : Fanout.State n}
    (hf : s.fanouts[k]? = some f) : f.phase.over = true := by
  obtain ⟨d, -, hreach⟩ := h.fanouts k f hf
  by_contra hnot
  rcases Fanout.waits_of_stuck hreach (by simpa using hnot) (fun a ha => quiet_own hquiet hf ha)
    with ⟨hphase, i, hi⟩ | ⟨-, i, hi⟩
  · exact quiet_sending hquiet hbounded hf hphase i hi
  · exact quiet_held hquiet h hf (hlinked i) hi

theorem quiet_inFlight (hbounded : Bounded wiring) (h : Inv wiring s)
    (hlinked : ∀ i, Linked wiring s i) (halive : Alive s) (hnone : s.source.outcome = none) :
    s.source.inFlight = [] := by
  rw [List.eq_nil_iff_forall_not_mem]
  intro task htask
  have hlt : task.sequence < s.fanouts.length := by
    obtain ⟨d, hd, -⟩ := (h.source.tasks task htask).1
    rw [h.length_eq]
    exact (List.getElem?_eq_some_iff.mp hd).1
  obtain ⟨f, hf⟩ : ∃ f, s.fanouts[task.sequence]? = some f := ⟨_, List.getElem?_eq_getElem hlt⟩
  have hover := quiet_over hquiet hbounded h hlinked hf
  have hunaborted := halive.fanouts hnone f (List.mem_of_getElem? hf)
  obtain ⟨result, hresult⟩ : ∃ result, taskResult f = some result := by
    cases hphase : f.phase with
    | returned result =>
      cases result with
      | ok u => exact ⟨.ok, by simp only [taskResult, hphase]⟩
      | error e => exact ⟨.error e, by simp only [taskResult, hphase]⟩
    | aborted => exact absurd hphase hunaborted.1
    | _ => simp [hphase, Fanout.Phase.over] at hover
  have hjoin := not_enabled hquiet (a := .join task.sequence (fun _ => true)) rfl rfl
  have hfind : (s.source.inFlight.find? (fun t => t.sequence = task.sequence)).isSome = true :=
    List.find?_isSome.mpr ⟨task, htask, by simp⟩
  obtain ⟨task', hfind⟩ := Option.isSome_iff_exists.mp hfind
  cases result <;>
    simp [step, join, hf, hresult, Source.step, Source.join, hnone, hfind] at hjoin

theorem quiet_pending (hbounded : Bounded wiring) (halive : Alive s)
    (hnone : s.source.outcome = none) (hinFlight : s.source.inFlight = []) :
    s.source.pending = [] := by
  by_contra hne
  let later : Source.State := { s.source with now := s.source.now + s.source.deadline }
  have helapse : (system wiring now).step s (.source (.elapse s.source.deadline)) =
      some (spawn s later) := by
    simp [system, step, sourceStep, Source.step, hnone, later]
  have hlinger := not_enabled (hquiet.next rfl helapse) (a := .source .lingerElapsed) rfl rfl
  have hadmits : Source.admitsBatch wiring.source.config later = true :=
    Source.admitsBatch_of_idle hbounded.batches hbounded.bytes (halive.bytes hnone) hinFlight
  have hdue : later.deadline ≤ later.now := Nat.le_add_left _ _
  have hstep : Source.step wiring.source later .lingerElapsed =
      some (Source.dispatch wiring.source later) := by
    simp only [Source.step, Source.lingerElapsed]
    rw [if_pos hnone, if_pos ⟨hne, hadmits, hdue⟩]
  have hnot : (Source.step wiring.source later .lingerElapsed).map (spawn (spawn s later)) =
      none := hlinger
  rw [hstep] at hnot
  contradiction

end Quiet

/-- Nothing is left to do: a source that still runs has committed all it has received and
every sink has written it, and the fan-outs of one that has ended are over. -/
structure Drained (wiring : Wiring n) (s : State n) : Prop where
  caught : s.source.outcome = none → Source.Caught wiring.source s.source
  written : s.source.outcome = none → ∀ r ∈ s.source.received, ∀ i,
    toEvent wiring.source.id r.record ∈ (s.sinks i).written
  fanouts : ∀ f ∈ s.fanouts, f.phase.over = true
  sinks : ∀ i, (s.sinks i).arrived.Perm (s.sinks i).settledEnvelopes

theorem quiet_drained {now : ℕ} (hbounded : Bounded wiring)
    (hreach : (system wiring now).Reachable s)
    (hquiet : (system wiring now).Quiet work (fun a => internal a = true) s) :
    Drained wiring s := by
  have h := reachable_inv hreach
  have hlinked := reachable_linked hreach
  have halive := reachable_alive hreach
  have hcaught : s.source.outcome = none → Source.Caught wiring.source s.source := by
    intro hnone
    have hinFlight := quiet_inFlight hquiet hbounded h hlinked halive hnone
    exact h.source.caught hnone (quiet_pending hquiet hbounded halive hnone hinFlight) hinFlight
  refine ⟨hcaught, ?_, ?_, fun i => Sink.quiet_settled (quiet_sink hquiet i 0) (h.sink i)⟩
  · intro hnone r hr i
    have hmem : toEvent wiring.source.id r.record ∈
        Source.receiptEvents wiring.source s.source.received :=
      List.mem_map_of_mem hr
    rw [(hcaught hnone).received] at hmem
    obtain ⟨d, hd, he⟩ := List.mem_flatMap.mp hmem
    obtain ⟨k, hk⟩ := List.mem_iff_getElem?.mp hd
    have hlt := (List.getElem?_eq_some_iff.mp hk).1
    refine h.delivered_of_lt (k := k) ?_ hk he i
    have horder := h.committed.inOrder
    rw [(hcaught hnone).committed] at horder
    have hlength := congrArg List.length horder
    rw [List.length_range, List.length_range] at hlength
    omega
  · intro f hf
    obtain ⟨k, hk⟩ := List.mem_iff_getElem?.mp hf
    exact quiet_over hquiet hbounded h hlinked hk

/-- In every fair execution of the process in which no record and no foreign envelope
comes in any more, everything is done after at most as many steps as were left: a source
that has not ended has committed every record it has received, which all of its sinks have
written; every fan-out is over and every sink has settled what it was sent. -/
theorem eventually_drained {now : ℕ} (hbounded : Bounded wiring)
    (e : (system wiring now).Execution) {i : ℕ}
    (hreach : (system wiring now).Reachable (e.state i))
    (hfair : e.Fair work (fun a => internal a = true))
    (hlast : ∀ j, i ≤ j → (∀ r, e.action j ≠ .source (.recv r)) ∧
      ∀ k x, e.action j ≠ .foreign k x) :
    ∃ j, i ≤ j ∧ Drained wiring (e.state j) ∧
      ∑ k ∈ Finset.Ico i j, work (e.action k) ≤ (e.state i).remaining wiring := by
  have hinv := reachable_inv hreach
  have hfree : ∀ j, i ≤ j → pay wiring (e.action j) = 0 := by
    intro j hij
    obtain ⟨hrecv, hforeign⟩ := hlast j hij
    cases haction : e.action j with
    | source a =>
      cases a with
      | recv r => exact absurd haction (hrecv r)
      | _ => rfl
    | foreign k x => exact absurd haction (hforeign k x)
    | _ => rfl
  obtain ⟨j, hij, hquiet⟩ := (potential wiring now).eventually_quiet e hinv hfair hfree
  have hreach' : (system wiring now).Reachable (e.state j) :=
    e.invariant (fun h hs => h.next hs) hij hreach
  refine ⟨j, hij, quiet_drained hbounded hreach' hquiet, ?_⟩
  exact Nat.le_trans (Nat.le_add_left _ _) ((potential wiring now).work_le e hij hinv hfree)

theorem internal_free {a : Action n} (ha : internal a = true) : pay wiring a = 0 := by
  cases a with
  | source a => cases a <;> first | rfl | contradiction
  | foreign i e => contradiction
  | _ => rfl

/-- One sink, and a source with room for two batches. -/
def loneWiring : Wiring 1 where
  source := Source.pairSource
  runtimes _ := Sink.sequential

/-- A single record that has just been received makes its way by itself. -/
theorem eventually_drained_lone : ∃ (e : (system loneWiring 0).Execution) (j : ℕ),
    (e.state 0).source.received.length = 1 ∧ Drained loneWiring (e.state j) := by
  have hrun : ((system loneWiring 0).run (State.start 1 0)
      [.source (.recv (Source.message 7))]).map (fun s => s.source.received.length) =
        some 1 := by decide
  obtain ⟨s, hs, hreceived⟩ := Option.map_eq_some_iff.mp hrun
  have hreach : (system loneWiring 0).Reachable s :=
    System.Reachable.run System.ReachableBy.start hs
  have hidle : ∀ s : State 1, (system loneWiring 0).step s (.sink 0 (.elapse 0)) = some s := by
    intro s
    have hsame : Function.update s.sinks 0 { s.sinks 0 with now := (s.sinks 0).now + 0 } =
        s.sinks := Function.update_eq_self 0 s.sinks
    simp only [system, step, sinkStep, updateSink, Sink.step, Option.map_some, hsame]
  have hfree : ∀ a : Action 1, internal a = true → pay loneWiring a = 0 :=
    fun a ha => internal_free ha
  obtain ⟨e, hfirst, hfair, hinternal⟩ :=
    (potential loneWiring 0).exists_fair hfree (fun s _ => hidle s) rfl (reachable_inv hreach)
  have hbounded : Bounded loneWiring :=
    ⟨fun _ => Nat.succ_pos 3, Nat.succ_pos 1, Nat.succ_pos 1023⟩
  have hlast : ∀ j, 0 ≤ j → (∀ r, e.action j ≠ .source (.recv r)) ∧
      ∀ k x, e.action j ≠ .foreign k x := by
    refine fun j _ => ⟨fun r hr => ?_, fun k x hx => ?_⟩
    · have := hinternal j
      rw [hr] at this
      contradiction
    · have := hinternal j
      rw [hx] at this
      contradiction
  obtain ⟨j, -, hdrained, -⟩ := eventually_drained hbounded e (hfirst ▸ hreach) hfair hlast
  exact ⟨e, j, by rw [hfirst, hreceived], hdrained⟩

end Rustper.Router
