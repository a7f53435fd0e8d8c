import Rustper.Library.Potential
import Rustper.SinkAccounting

/-!
Progress of the sink runtime. Every step but the passing of time, an arrival and the
end of the input uses up a share of what is left to do: an envelope has a bounded way
through its group and the attempts of its write, and a phase a bounded way to the end.
So a sink to which nothing is sent any more settles all it was sent, and one whose
input is closed returns.
-/
namespace Rustper.Sink

open TransitionSystem

variable {runtime : Runtime} {s s' : State}

/-- Steps left to a write until it is reaped. -/
def stageWork (settings : DeliverySettings) : WriteStage → ℕ
  | .spawned => 2 * settings.retryMaxAttempts + 1
  | .writing attempt _ => 2 * (settings.retryMaxAttempts - attempt) + 2
  | .sleeping attempt _ _ => 2 * (settings.retryMaxAttempts - attempt) + 1
  | .done _ => 1

/-- Steps left to an envelope of the channel, were it a group of its own. -/
def envelopeWork (settings : DeliverySettings) : ℕ := 2 * settings.retryMaxAttempts + 5

/-- A group that is given up is dropped envelope by envelope. -/
def phaseWork (settings : DeliverySettings) : Phase → ℕ
  | .accepting => 2
  | .coalescing envelopes _ _ => 2 * settings.retryMaxAttempts + 5 + envelopes.length
  | .freeing envelopes => 2 * settings.retryMaxAttempts + 4 + envelopes.length
  | .draining _ => 1
  | .returned _ => 0

def writesWork (settings : DeliverySettings) (writes : List Write) : ℕ :=
  (writes.map (fun w => stageWork settings w.stage)).sum

def State.remaining (runtime : Runtime) (s : State) : ℕ :=
  envelopeWork runtime.settings * s.queue.length + phaseWork runtime.settings s.phase +
    s.orphans.length + writesWork runtime.settings s.writes

/-- The clock, the senders and the end of the input do no work of the sink. -/
def work : Action → ℕ
  | .elapse _ | .arrive _ | .closeInput => 0
  | _ => 1

/-- An arrival brings the work on its envelope with it. -/
def pay (runtime : Runtime) : Action → ℕ
  | .arrive _ => envelopeWork runtime.settings
  | _ => 0

/-- What happens without a sender or the supervisor. -/
def internal : Action → Bool
  | .arrive _ | .closeInput | .shutdown => false
  | _ => true

theorem writesWork_split (settings : DeliverySettings) (pre post : List Write) (w : Write) :
    writesWork settings (pre ++ w :: post) =
      stageWork settings w.stage + writesWork settings (pre ++ post) := by
  simp only [writesWork, List.map_append, List.map_cons, List.sum_append, List.sum_cons]
  omega

theorem stageWork_pos (settings : DeliverySettings) (stage : WriteStage) :
    0 < stageWork settings stage := by
  cases stage <;> simp [stageWork]

/-- A write that goes on to a stage with less to do. -/
theorem writesWork_set (settings : DeliverySettings) {writes : List Write} {k : ℕ} {w w' : Write}
    (hk : writes[k]? = some w) (hless : stageWork settings w'.stage < stageWork settings w.stage) :
    writesWork settings (writes.set k w') + 1 ≤ writesWork settings writes := by
  obtain ⟨pre, post, hwrites, hset, -⟩ := Slots.exists_split hk
  rw [hset w', hwrites, writesWork_split, writesWork_split]
  omega

theorem writesWork_eraseIdx (settings : DeliverySettings) {writes : List Write} {k : ℕ}
    {w : Write} (hk : writes[k]? = some w) :
    writesWork settings (writes.eraseIdx k) + 1 ≤ writesWork settings writes := by
  obtain ⟨pre, post, hwrites, -, herase⟩ := Slots.exists_split hk
  have hpos := stageWork_pos settings w.stage
  rw [herase, hwrites, writesWork_split]
  omega

theorem phaseWork_close (settings : DeliverySettings) (envelopes : List SinkEnvelope)
    (eventCount byteCount : ℕ) : phaseWork settings (.freeing envelopes) + 1 ≤
      phaseWork settings (.coalescing envelopes eventCount byteCount) := by
  simp only [phaseWork]
  omega

/-- Whether or not the group is complete, its envelopes are what is left to do. -/
theorem coalesce_remaining (s : State) (envelopes : List SinkEnvelope)
    (eventCount byteCount : ℕ) :
    (s.coalesce runtime.batching envelopes eventCount byteCount).remaining runtime ≤
      envelopeWork runtime.settings * s.queue.length +
        phaseWork runtime.settings (.coalescing envelopes eventCount byteCount) +
        s.orphans.length + writesWork runtime.settings s.writes := by
  unfold State.coalesce
  split
  · exact Nat.le_refl _
  · have hclose := phaseWork_close runtime.settings envelopes eventCount byteCount
    simp only [State.remaining, State.close]
    omega

theorem recv_remaining (hs : recv runtime s = some s') :
    s'.remaining runtime + 1 ≤ s.remaining runtime := by
  unfold recv at hs
  split at hs
  · rename_i e rest hphase hqueue
    cases hs
    refine Nat.le_trans (Nat.add_le_add_right (coalesce_remaining _ _ _ _) 1) ?_
    simp only [State.remaining, hphase, hqueue, phaseWork, envelopeWork, List.length_cons,
      List.length_nil, Nat.mul_add]
    omega
  · rename_i envelopes eventCount byteCount e rest hphase hqueue
    cases hs
    refine Nat.le_trans (Nat.add_le_add_right (coalesce_remaining _ _ _ _) 1) ?_
    simp only [State.remaining, hphase, hqueue, phaseWork, envelopeWork, List.length_cons,
      List.length_append, List.length_nil, Nat.mul_add]
    omega
  · contradiction

theorem inputEnd_remaining (hs : inputEnd s = some s') :
    s'.remaining runtime + 1 ≤ s.remaining runtime := by
  simp only [inputEnd, Option.ite_none_right_eq_some] at hs
  obtain ⟨-, hs⟩ := hs
  split at hs
  · rename_i hphase
    cases hs
    simp only [State.remaining, hphase, phaseWork]
    omega
  · rename_i envelopes eventCount byteCount hphase
    cases hs
    have hclose := phaseWork_close runtime.settings envelopes eventCount byteCount
    simp only [State.remaining, hphase, State.close]
    omega
  · contradiction

theorem linger_remaining (hs : linger s = some s') :
    s'.remaining runtime + 1 ≤ s.remaining runtime := by
  unfold linger at hs
  split at hs
  · rename_i envelopes eventCount byteCount hphase
    simp only [Option.ite_none_right_eq_some, Option.some.injEq] at hs
    obtain ⟨-, rfl⟩ := hs
    have hclose := phaseWork_close runtime.settings envelopes eventCount byteCount
    simp only [State.remaining, hphase, State.close]
    omega
  · contradiction

theorem group_length_le (settings : DeliverySettings) (phase : Phase) :
    phase.group.length ≤ phaseWork settings phase := by
  cases phase <;> simp [Phase.group, phaseWork]

theorem propagate_remaining {t : State} (horphans : t.returned = false → t.orphans = [])
    (hrun : t.returned = false) (result : Except WriteError Unit) :
    (propagate t result).remaining runtime ≤ t.remaining runtime := by
  have hgroup := group_length_le runtime.settings t.phase
  cases hphase : t.phase with
  | draining outcome =>
    cases outcome with
    | ok u => simp [propagate, hphase, State.remaining, phaseWork]
    | error e => simp [propagate, hphase]
  | _ =>
    cases result with
    | ok u => simp [propagate, hphase]
    | error e =>
      simp only [propagate, hphase, State.remaining, State.exit, horphans hrun,
        List.length_nil] at hgroup ⊢
      simp only [phaseWork] at hgroup ⊢
      omega

theorem reap_remaining {k : ℕ} (horphans : s.returned = false → s.orphans = [])
    (hs : reap runtime s k = some s') : s'.remaining runtime + 1 ≤ s.remaining runtime := by
  unfold reap at hs
  split at hs
  · rename_i id envelopes result hk
    simp only [Option.ite_none_right_eq_some, Option.some.injEq] at hs
    obtain ⟨hreaps, rfl⟩ := hs
    have hrun : s.returned = false := by
      cases hphase : s.phase <;> simp [reaps, hphase] at hreaps <;>
        simp [State.returned, hphase, Phase.isReturned]
    have herase := writesWork_eraseIdx runtime.settings hk
    have hafter : (propagate { s with writes := s.writes.eraseIdx k } result).remaining runtime ≤
        State.remaining runtime { s with writes := s.writes.eraseIdx k } :=
      propagate_remaining (t := { s with writes := s.writes.eraseIdx k }) horphans hrun result
    simp only [State.remaining] at hafter ⊢
    omega
  · contradiction

theorem dispatch_remaining (hs : dispatch runtime s = some s') :
    s'.remaining runtime + 1 ≤ s.remaining runtime := by
  unfold dispatch at hs
  split at hs
  · rename_i envelopes hphase
    simp only [Option.ite_none_right_eq_some, Option.some.injEq] at hs
    obtain ⟨-, rfl⟩ := hs
    simp only [State.remaining, hphase, phaseWork, writesWork_split, List.append_nil, stageWork]
    omega
  · contradiction

/-- The steps of a write task. -/
theorem task_remaining {a : Action} {k : ℕ} (hstages : ∀ w ∈ s.writes, StageOk runtime w.stage)
    (ha : a = .begin k ∨ (∃ result, a = .attempted k result) ∨ a = .panicked k ∨ a = .wake k)
    (hs : step runtime s a = some s') : s'.remaining runtime + 1 ≤ s.remaining runtime := by
  have hone := runtime.settings.one_le_attempts
  have hset : ∀ {w w' : Write}, s.writes[k]? = some w →
      stageWork runtime.settings w'.stage < stageWork runtime.settings w.stage →
      s'.queue = s.queue → s'.phase = s.phase → s'.orphans = s.orphans →
      s'.writes = s.writes.set k w' → s'.remaining runtime + 1 ≤ s.remaining runtime := by
    intro w w' hk hless hqueue hphase horphans hwrites
    have hwork := writesWork_set runtime.settings hk hless
    simp only [State.remaining, hqueue, hphase, horphans, hwrites]
    omega
  rcases ha with rfl | ⟨result, rfl⟩ | rfl | rfl
  · simp only [step, begin] at hs
    split at hs
    · rename_i id envelopes hk
      cases hs
      refine hset hk ?_ rfl rfl rfl rfl
      simp only [stageWork]
      omega
    · contradiction
  · simp only [step, attempted] at hs
    split at hs
    · rename_i id envelopes attempt backoff hk
      cases result with
      | ok outcome =>
        cases hs
        exact hset hk (by simp [stageWork]) rfl rfl rfl rfl
      | error e =>
        dsimp only at hs
        split at hs
        · cases hs
          exact hset hk (by simp [stageWork]) rfl rfl rfl rfl
        · cases hs
          exact hset hk (by simp [stageWork]) rfl rfl rfl rfl
    · contradiction
  · simp only [step, panicked] at hs
    split at hs
    · rename_i id envelopes attempt backoff hk
      cases hs
      exact hset hk (by simp [stageWork]) rfl rfl rfl rfl
    · contradiction
  · simp only [step, wake] at hs
    split at hs
    · rename_i id envelopes attempt backoff wakeAt hk
      simp only [Option.ite_none_right_eq_some, Option.some.injEq] at hs
      obtain ⟨-, rfl⟩ := hs
      have hattempt : attempt < runtime.settings.retryMaxAttempts :=
        hstages _ (List.mem_of_getElem? hk)
      refine hset hk ?_ rfl rfl rfl rfl
      simp only [stageWork]
      omega
    · contradiction

theorem drop_remaining {a : Action} (ha : a = .dropOrphan ∨ a = .dropQueued ∨ ∃ k, a = .dropWrite k)
    (hs : step runtime s a = some s') : s'.remaining runtime + 1 ≤ s.remaining runtime := by
  rcases ha with rfl | rfl | ⟨k, rfl⟩
  · simp only [step, dropOrphan] at hs
    split at hs
    · rename_i e rest hrun horphans
      cases hs
      simp only [State.remaining, State.settle, horphans, List.length_cons]
      omega
    · contradiction
  · simp only [step, dropQueued] at hs
    split at hs
    · rename_i e rest hrun hqueue
      cases hs
      simp only [State.remaining, State.settle, hqueue, List.length_cons, envelopeWork,
        Nat.mul_add]
      omega
    · contradiction
  · simp only [step, dropWrite] at hs
    split at hs
    · rename_i w hrun hk
      simp only [Option.ite_none_right_eq_some, Option.some.injEq] at hs
      obtain ⟨-, rfl⟩ := hs
      have herase := writesWork_eraseIdx runtime.settings hk
      simp only [State.remaining, State.settle]
      omega
    · contradiction

theorem step_remaining {a : Action} (h : Inv runtime s) (hs : step runtime s a = some s') :
    s'.remaining runtime + work a ≤ s.remaining runtime + pay runtime a := by
  cases a with
  | elapse duration =>
    cases hs
    exact Nat.le_refl _
  | arrive e =>
    simp only [step, arrive, Option.ite_none_right_eq_some, Option.some.injEq] at hs
    obtain ⟨-, rfl⟩ := hs
    simp only [State.remaining, work, pay, List.length_append, List.length_singleton, Nat.mul_add]
    omega
  | closeInput =>
    cases hs
    exact Nat.le_refl _
  | shutdown =>
    simp only [step, shutdown] at hs
    split at hs
    · rename_i hphase
      cases hs
      simp only [State.remaining, hphase, phaseWork, work, pay]
      omega
    · contradiction
  | recv => exact recv_remaining hs
  | inputEnd => exact inputEnd_remaining hs
  | linger => exact linger_remaining hs
  | reap k => exact reap_remaining h.ledger.orphans hs
  | dispatch => exact dispatch_remaining hs
  | finishDrain =>
    simp only [step, finishDrain] at hs
    split at hs
    · rename_i outcome hphase
      simp only [Option.ite_none_right_eq_some, Option.some.injEq] at hs
      obtain ⟨-, rfl⟩ := hs
      simp only [State.remaining, hphase, phaseWork, work, pay]
      omega
    · contradiction
  | begin k => exact task_remaining (k := k) h.fates.stages (Or.inl rfl) hs
  | attempted k result =>
    exact task_remaining (k := k) h.fates.stages (Or.inr (Or.inl ⟨result, rfl⟩)) hs
  | panicked k => exact task_remaining (k := k) h.fates.stages (Or.inr (Or.inr (Or.inl rfl))) hs
  | wake k => exact task_remaining (k := k) h.fates.stages (Or.inr (Or.inr (Or.inr rfl))) hs
  | dropOrphan => exact drop_remaining (Or.inl rfl) hs
  | dropQueued => exact drop_remaining (Or.inr (Or.inl rfl)) hs
  | dropWrite k => exact drop_remaining (Or.inr (Or.inr ⟨k, rfl⟩)) hs

/-- What is left to do is a potential of the sink runtime. -/
def potential (runtime : Runtime) (now : ℕ) :
    Potential (system runtime now) (Inv runtime) work (pay runtime) where
  value := State.remaining runtime
  keeps := step_inv
  bound := step_remaining

section Quiet

variable {now : ℕ} (hquiet : (system runtime now).Quiet work (fun a => internal a = true) s)
include hquiet

theorem not_enabled {a : Action} (hinternal : internal a = true) (hwork : work a = 1) :
    step runtime s a = none := by
  cases hs : step runtime s a with
  | none => rfl
  | some s' =>
    have hzero := hquiet.work_eq_zero (a := a) hinternal hs
    omega

/-- Waiting does not help either. -/
theorem not_enabled_later (duration : ℕ) {a : Action} (hinternal : internal a = true)
    (hwork : work a = 1) : step runtime { s with now := s.now + duration } a = none := by
  have hlater : (system runtime now).Quiet work (fun a => internal a = true)
      { s with now := s.now + duration } :=
    hquiet.next (a := .elapse duration) rfl rfl
  exact not_enabled hlater hinternal hwork

theorem quiet_live : s.live = [] := by
  rw [List.eq_nil_iff_forall_not_mem]
  intro w hw
  obtain ⟨hw, hlive⟩ := List.mem_filter.mp hw
  obtain ⟨k, hk⟩ := List.mem_iff_getElem?.mp hw
  obtain ⟨id, envelopes, stage⟩ := w
  cases stage with
  | spawned =>
    have hbegin := not_enabled hquiet (a := .begin k) rfl rfl
    simp [step, begin, hk] at hbegin
  | writing attempt backoff =>
    have hpanicked := not_enabled hquiet (a := .panicked k) rfl rfl
    simp [step, panicked, hk] at hpanicked
  | sleeping attempt backoff wakeAt =>
    have hwake := not_enabled_later hquiet wakeAt (a := .wake k) rfl rfl
    simp [step, wake, hk] at hwake
  | done result => contradiction

/-- A finished write stays in the join set only where `run` does not join. -/
theorem quiet_writes (hreaps : reaps runtime s = true) : s.writes = [] := by
  cases hwrites : s.writes with
  | nil => rfl
  | cons w rest =>
    have hk : s.writes[0]? = some w := by rw [hwrites, List.getElem?_cons_zero]
    have hreap := not_enabled hquiet (a := .reap 0) rfl rfl
    obtain ⟨id, envelopes, stage⟩ := w
    cases stage with
    | done result => simp [step, reap, hk, hreaps] at hreap
    | _ =>
      have hmem : (⟨id, envelopes, _⟩ : Write) ∈ s.live :=
        List.mem_filter.mpr ⟨List.mem_of_getElem? hk, rfl⟩
      rw [quiet_live hquiet] at hmem
      contradiction

/-- `run` waits for an envelope or has returned and left nothing behind. -/
theorem quiet_cases : (s.phase = .accepting ∧ s.queue = [] ∧ s.writes = [] ∧
    s.inputClosed = false) ∨ TornDown s := by
  have hlive := quiet_live hquiet
  cases hphase : s.phase with
  | accepting =>
    refine Or.inl ⟨rfl, ?_, quiet_writes hquiet (by simp [reaps, hphase]), ?_⟩
    · have hrecv := not_enabled hquiet (a := .recv) rfl rfl
      cases hqueue : s.queue with
      | nil => rfl
      | cons e rest => simp [step, recv, hphase, hqueue] at hrecv
    · have hrecv := not_enabled hquiet (a := .recv) rfl rfl
      have hend := not_enabled hquiet (a := .inputEnd) rfl rfl
      cases hqueue : s.queue with
      | nil => simpa [step, inputEnd, hphase, hqueue] using hend
      | cons e rest => simp [step, recv, hphase, hqueue] at hrecv
  | coalescing envelopes eventCount byteCount =>
    have hlinger := not_enabled_later hquiet s.deadline (a := .linger) rfl rfl
    simp [step, linger, hphase] at hlinger
  | freeing envelopes =>
    have hdispatch := not_enabled hquiet (a := .dispatch) rfl rfl
    have hfull : runtime.settings.maxConcurrentWrites ≤ s.writes.length := by
      simpa [step, dispatch, hphase] using hdispatch
    have hnil := quiet_writes hquiet (by simp [reaps, hphase, hfull])
    have hone := runtime.settings.one_le_writes
    rw [hnil, List.length_nil] at hfull
    omega
  | draining outcome =>
    have hnil := quiet_writes hquiet (by simp [reaps, hphase])
    have hfinish := not_enabled hquiet (a := .finishDrain) rfl rfl
    simp [step, finishDrain, hphase, hnil] at hfinish
  | returned outcome =>
    have hrun : s.returned = true := by rw [State.returned, hphase]; rfl
    refine Or.inr ⟨hrun, ?_, ?_, hlive⟩
    · have hdrop := not_enabled hquiet (a := .dropQueued) rfl rfl
      cases hqueue : s.queue with
      | nil => rfl
      | cons e rest => simp [step, dropQueued, hrun, hqueue] at hdrop
    · have hdrop := not_enabled hquiet (a := .dropOrphan) rfl rfl
      cases horphans : s.orphans with
      | nil => rfl
      | cons e rest => simp [step, dropOrphan, hrun, horphans] at hdrop

theorem quiet_settled (h : Inv runtime s) : s.arrived.Perm s.settledEnvelopes := by
  rcases quiet_cases hquiet with ⟨hphase, hqueue, hwrites, -⟩ | hdown
  · have hperm := h.ledger.perm
    have horphans := h.ledger.orphans (by rw [State.returned, hphase]; rfl)
    simpa [State.held, hqueue, hphase, Phase.group, horphans, State.live, hwrites] using hperm
  · exact h.settled_once hdown

end Quiet

@[simp] theorem coalesce_inputClosed (s : State) (batching : BatchSettings)
    (envelopes : List SinkEnvelope) (eventCount byteCount : ℕ) :
    (s.coalesce batching envelopes eventCount byteCount).inputClosed = s.inputClosed := by
  unfold State.coalesce
  split <;> rfl

@[simp] theorem propagate_inputClosed (s : State) (result : Except WriteError Unit) :
    (propagate s result).inputClosed = s.inputClosed := by
  unfold propagate
  split <;> rfl

/-- A closed channel stays closed. -/
theorem step_inputClosed {a : Action} (hs : step runtime s a = some s')
    (h : s.inputClosed = true) : s'.inputClosed = true := by
  cases a with
  | elapse duration | closeInput =>
    cases hs
    first | exact h | rfl
  | arrive e | dropQueued | dropOrphan | dispatch | finishDrain | linger | shutdown | recv
    | inputEnd | begin k | panicked k | wake k | dropWrite k | reap k | attempted k result =>
    simp only [step, arrive, dropQueued, dropOrphan, dispatch, finishDrain, linger, shutdown,
      recv, inputEnd, begin, panicked, wake, dropWrite, reap, attempted] at hs
    grind [State.settle, State.close, call, finish, State.record, coalesce_inputClosed,
      propagate_inputClosed]

/-- A sink to which nothing is sent any more settles every envelope it was sent, within
the work that was left to do: either `run` waits for its next envelope, or it has
returned and left nothing behind. One whose input is closed returns. The schedule, the
clock and the results of the calls are arbitrary, as long as the sink does not stand
still for ever while there is something to do. -/
theorem eventually_settled {now : ℕ} (e : (system runtime now).Execution) {i : ℕ}
    (hreach : (system runtime now).Reachable (e.state i))
    (hfair : e.Fair work (fun a => internal a = true))
    (hlast : (e.state i).inputClosed = true ∨ ∀ j, i ≤ j → ∀ x, e.action j ≠ .arrive x) :
    ∃ j, i ≤ j ∧ (e.state j).arrived.Perm (e.state j).settledEnvelopes ∧
      (TornDown (e.state j) ∨ ((e.state i).inputClosed = false ∧ (e.state j).phase = .accepting ∧
        (e.state j).queue = [] ∧ (e.state j).writes = [])) ∧
      ∑ k ∈ Finset.Ico i j, work (e.action k) ≤ (e.state i).remaining runtime := by
  have hinv := reachable_inv hreach
  have hclosed : ∀ j, i ≤ j → (e.state i).inputClosed = true → (e.state j).inputClosed = true :=
    fun j hij h => e.invariant (fun h hs => step_inputClosed hs h) hij h
  have hfree : ∀ j, i ≤ j → pay runtime (e.action j) = 0 := by
    intro j hij
    cases haction : e.action j with
    | arrive x =>
      have hs := e.next j
      rcases hlast with hshut | hlast
      · rw [haction] at hs
        simp [system, step, arrive, hclosed j hij hshut] at hs
      · exact absurd haction (hlast j hij x)
    | _ => rfl
  obtain ⟨j, hij, hquiet⟩ := (potential runtime now).eventually_quiet e hinv hfair hfree
  have hinv' : Inv runtime (e.state j) := e.invariant step_inv hij hinv
  refine ⟨j, hij, quiet_settled hquiet hinv', ?_, ?_⟩
  · rcases quiet_cases hquiet with ⟨hphase, hqueue, hwrites, hopen⟩ | hdown
    · refine Or.inr ⟨?_, hphase, hqueue, hwrites⟩
      cases hinput : (e.state i).inputClosed with
      | false => rfl
      | true => rw [hclosed j hij hinput] at hopen; contradiction
    · exact Or.inl hdown
  · exact Nat.le_trans (Nat.le_add_left _ _) ((potential runtime now).work_le e hij hinv hfree)

/-- Nothing happens any more to a sink that is torn down. -/
theorem TornDown.quiet {now : ℕ} (h : TornDown s) :
    (system runtime now).Quiet work (fun a => internal a = true) s := by
  refine System.Quiet.of_stable ?_ h
  intro s a s' hdown hinternal hs
  obtain ⟨hrun, hqueue, horphans, hlive⟩ := hdown
  have hdone : ∀ {k : ℕ} {w : Write}, s.writes[k]? = some w → w.live = false := by
    intro k w hk
    by_contra hnot
    have hmem : w ∈ s.live := List.mem_filter.mpr ⟨List.mem_of_getElem? hk, by simpa using hnot⟩
    rw [hlive] at hmem
    contradiction
  cases hphase : s.phase with
  | returned outcome =>
    cases a with
    | elapse duration =>
      cases hs
      exact ⟨rfl, hrun, hqueue, horphans, hlive⟩
    | arrive e | closeInput | shutdown => contradiction
    | recv | inputEnd | linger | dispatch | finishDrain | dropOrphan | dropQueued =>
      simp [system, step, recv, inputEnd, linger, dispatch, finishDrain, dropOrphan, dropQueued,
        hphase, hqueue, horphans] at hs
    | reap k | begin k | attempted k result | panicked k | wake k | dropWrite k =>
      cases hk : s.writes[k]? with
      | none =>
        simp [system, step, reap, begin, attempted, panicked, wake, dropWrite, hk] at hs
      | some w =>
        have hnot := hdone hk
        obtain ⟨id, envelopes, stage⟩ := w
        cases stage with
        | done ending =>
          simp [system, step, reap, reaps, begin, attempted, panicked, wake, dropWrite, hk, hrun,
            hphase, Write.live] at hs
        | _ => contradiction
  | _ =>
    rw [State.returned, hphase] at hrun
    contradiction

/-- After three arrivals the failed second write ends `run` without a word from outside. -/
theorem eventually_settled_oneOfThree : ∃ (e : (system sequential 0).Execution) (j : ℕ),
    (e.state 3).arrived = [envelope 0, envelope 1, envelope 2] ∧
    (e.state j).arrived.Perm (e.state j).settledEnvelopes ∧
    ∑ k ∈ Finset.Ico 3 j, work (e.action k) ≤ 29 := by
  have hrun : ((system sequential 0).run (State.start 0) oneOfThree).map
      (fun s => s.returned && s.queue.isEmpty && s.orphans.isEmpty && s.live.isEmpty) =
        some true := by decide
  obtain ⟨s, hs, hview⟩ := Option.map_eq_some_iff.mp hrun
  simp only [Bool.and_eq_true, List.isEmpty_iff] at hview
  obtain ⟨⟨⟨hreturned, hqueue⟩, horphans⟩, hlive⟩ := hview
  have hquiet : (system sequential 0).Quiet work (fun a => internal a = true) s :=
    TornDown.quiet ⟨hreturned, hqueue, horphans, hlive⟩
  have hidle : (system sequential 0).step s (.elapse 0) = some s := rfl
  let e := System.Execution.ofRun hs hidle
  have hfair : e.Fair work (fun a => internal a = true) :=
    System.Execution.ofRun_fair hs hidle hquiet (by simp [oneOfThree, work])
  have hlast : ∀ j, 3 ≤ j → ∀ x, e.action j ≠ .arrive x := by
    intro j hj
    obtain ⟨k, rfl⟩ := Nat.exists_eq_add_of_le hj
    have hmem : e.action (3 + k) ∈ .elapse 0 :: oneOfThree.drop 3 := by
      show oneOfThree.getD (3 + k) _ ∈ _
      rw [List.getD_eq_getElem?_getD, ← List.getElem?_drop]
      cases hk : (oneOfThree.drop 3)[k]? with
      | none => exact List.mem_cons_self
      | some a => exact List.mem_cons_of_mem _ (List.mem_of_getElem? hk)
    intro x hx
    rw [hx] at hmem
    simp [oneOfThree] at hmem
  obtain ⟨j, -, hsettled, -, hwork⟩ :=
    eventually_settled e (e.reachable System.ReachableBy.start 3) hfair (Or.inr hlast)
  exact ⟨e, j, rfl, hsettled, hwork.trans (Nat.le_of_eq rfl)⟩

end Rustper.Sink
