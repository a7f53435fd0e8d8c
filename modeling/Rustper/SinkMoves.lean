import Rustper.Library.Slots
import Rustper.Sink
import Mathlib.Data.List.Perm.Basic

/-!
What a step of the sink runtime can do. `Move` has one constructor for each effect on
the writes and the envelopes; where `run` stands in its loops only matters to
`Shuffle`, the steps that settle and attempt nothing.
-/
namespace Rustper.Sink

open TransitionSystem

variable {runtime : Runtime}

namespace State

def live (s : State) : List Write := s.writes.filter Write.live

def liveIds (s : State) : List ℕ := s.live.map Write.id

/-- Envelopes that have not been settled. -/
def held (s : State) : List SinkEnvelope :=
  s.queue ++ s.phase.group ++ s.orphans ++ s.live.flatMap Write.envelopes

def settledEnvelopes (s : State) : List SinkEnvelope := s.settled.map Settled.envelope

/-- Settlements by the write of group `k`. -/
def entries (s : State) (k : ℕ) : List Settled := s.settled.filter (fun x => x.write = some k)

def attemptsOf (s : State) (k : ℕ) : List Attempt := s.attempts.filter (fun a => a.write = k)

/-- The groups with an attempt of a kind, as often as they have one. -/
def groupsWith (p : Attempt → Bool) (s : State) : List ℕ := (s.attempts.filter p).map Attempt.write

def succeeded (s : State) : List ℕ := s.groupsWith Attempt.succeeded

def panicked (s : State) : List ℕ := s.groupsWith Attempt.panicked

/-- Groups whose last allowed attempt failed. -/
def exhausted (settings : DeliverySettings) (s : State) : List ℕ :=
  s.groupsWith (Attempt.exhausts settings)

def delivered (s : State) : List SinkEnvelope :=
  (s.settled.filter (fun x => x.settlement = .delivered)).map Settled.envelope

end State

section settlements

variable (write : Option ℕ) (how : Settlement) (envelopes : List SinkEnvelope)

@[simp] theorem settlements_envelope :
    (settlements write how envelopes).map Settled.envelope = envelopes := by
  simp [settlements, Function.comp_def]

@[simp] theorem settlements_write_self (k : ℕ) :
    (settlements (some k) how envelopes).filter (fun x => x.write = some k) =
      settlements (some k) how envelopes := by
  simp [settlements]

theorem mem_settlements {x : Settled} (h : x ∈ settlements write how envelopes) :
    x.write = write ∧ x.settlement = how := by
  obtain ⟨e, -, rfl⟩ := List.mem_map.mp h
  exact ⟨rfl, rfl⟩

end settlements

/-- Nothing is attempted, counted or settled, no group is dispatched, and the join set
loses at most finished writes; the writes of `lost` are aborted. -/
structure Shuffle (lost : List ℕ) (s s' : State) : Prop where
  arrived : s'.arrived = s.arrived
  settled : s'.settled = s.settled
  dispatched : s'.dispatched = s.dispatched
  calls : s'.calls = s.calls
  attempts : s'.attempts = s.attempts
  metrics : s'.metrics = s.metrics
  live : s'.live = s.live
  writes : s'.writes.Sublist s.writes
  held : s'.held.Perm s.held
  inOrder : s'.returned = false → s'.phase.group ++ s'.queue = s.phase.group ++ s.queue
  orphans : s'.returned = false → s'.orphans = []
  aborted : s'.aborted = s.aborted ++ lost
  returned : s'.returned = true → s.returned = true ∨ ∀ w ∈ s'.live, w.id ∈ lost
  stays : s.returned = true → s'.returned = true

/-- What the last call of a write does to the counters and to its envelopes. -/
def concluded (metrics : SinkMetrics) : Except WriteError WriteOutcome → SinkMetrics × Settlement
  | .ok outcome =>
    ({ metrics with
        eventsOut := metrics.eventsOut + outcome.written
        eventsDropped := metrics.eventsDropped + outcome.dropped
        batchesWritten := metrics.batchesWritten + 1 }, .delivered)
  | .error (.write _) => ({ metrics with writeErrors := metrics.writeErrors + 1 }, .failed)
  | .error .panicked => (metrics, .dropped)

/-- What a step does to the writes and the envelopes, whatever the loop of `run` it is
taken in. The write a step is about is singled out in the join set. -/
inductive Move (runtime : Runtime) (s : State) : Action → State → Prop
  | shuffle (a : Action) (s' : State) (hsame : Shuffle [] s s') : Move runtime s a s'
  | exit (k : ℕ) (s' : State) (w : Write) (hsame : Shuffle s.liveIds s s')
      (hk : s.writes[k]? = some w) (hfailed : w.failed = true)
      (hphase : s.phase.isDraining = false) (hreturned : s'.returned = true) :
      Move runtime s (.reap k) s'
  | arrive (e : SinkEnvelope) (hrun : s.returned = false) :
      Move runtime s (.arrive e)
        { s with queue := s.queue ++ [e], arrived := s.arrived ++ [e] }
  | dispatch (envelopes : List SinkEnvelope) (hphase : s.phase = .freeing envelopes)
      (hroom : s.writes.length < runtime.settings.maxConcurrentWrites) :
      Move runtime s .dispatch
        { s with
          phase := .accepting
          writes := s.writes ++ [⟨s.dispatched.length, envelopes, .spawned⟩]
          metrics := { s.metrics with queueDepth := s.queue.length }
          dispatched := s.dispatched ++ [envelopes] }
  | call (a : Action) (pre post : List Write) (w : Write) (number backoff : ℕ)
      (hwrites : s.writes = pre ++ w :: post) (hlive : w.live = true)
      (hnumber : number ≤ runtime.settings.retryMaxAttempts)
      (hnext : (w.stage = .spawned ∧ number = 1) ∨ ∃ attempt pause wakeAt,
        w.stage = .sleeping attempt pause wakeAt ∧ number = attempt + 1) :
      Move runtime s a
        { s with
          writes := pre ++ { w with stage := .writing number backoff } :: post
          calls := s.calls ++ [⟨w.id, number, batches w.envelopes⟩] }
  | retry (a : Action) (pre post : List Write) (w : Write) (attempt backoff : ℕ) (e : String)
      (hwrites : s.writes = pre ++ w :: post) (hstage : w.stage = .writing attempt backoff)
      (hretry : attempt < runtime.settings.retryMaxAttempts) :
      Move runtime s a
        { s.record { s.metrics with retries := s.metrics.retries + 1 }
            ⟨w.id, attempt, .error (.write e)⟩ with
          writes := pre ++ { w with stage := .sleeping attempt backoff (s.now + backoff) } :: post }
  | finish (k : ℕ) (a : Action) (pre post : List Write) (w : Write) (attempt backoff : ℕ)
      (result : Except WriteError WriteOutcome) (ending : Except WriteError Unit)
      (hk : s.writes[k]? = some w) (hwrites : s.writes = pre ++ w :: post)
      (hstage : w.stage = .writing attempt backoff)
      (hlast : ∀ e, result = .error (.write e) →
        runtime.settings.retryMaxAttempts ≤ attempt)
      (hok : ∀ outcome, result = .ok outcome → a = .attempted k (.ok outcome)) :
      Move runtime s a
        (State.settle { s.record (concluded s.metrics result).1 ⟨w.id, attempt, result⟩ with
            writes := pre ++ { w with stage := .done ending } :: post } (some w.id) w.envelopes
          (concluded s.metrics result).2)
  | dropRest (a : Action) (e : SinkEnvelope) (queue orphans : List SinkEnvelope)
      (hrun : s.returned = true)
      (hrest : (s.queue ++ s.orphans).Perm (e :: (queue ++ orphans))) :
      Move runtime s a
        (State.settle { s with queue := queue, orphans := orphans } none [e] .dropped)
  | dropWrite (a : Action) (pre post : List Write) (w : Write) (hrun : s.returned = true)
      (hwrites : s.writes = pre ++ w :: post) (hlive : w.live = true) :
      Move runtime s a
        (State.settle { s with writes := pre ++ post } (some w.id) w.envelopes .dropped)

/-- The number a write is at never exceeds the attempts it is allowed. -/
def StageOk (runtime : Runtime) : WriteStage → Prop
  | .writing attempt _ => attempt ≤ runtime.settings.retryMaxAttempts
  | .sleeping attempt _ _ => attempt < runtime.settings.retryMaxAttempts
  | _ => True

section step_move

variable {s s' : State}

/-- A step of the loops of `run`, which leaves its tasks and their history alone and
moves envelopes only from the channel into the group. -/
theorem Shuffle.of_loop {now deadline : ℕ} {queue : List SinkEnvelope} {inputClosed : Bool}
    {phase : Phase} {assembling : List Receipt} {groups : List Group}
    (hinOrder : phase.group ++ queue = s.phase.group ++ s.queue)
    (horphans : phase.isReturned = false → s.orphans = [])
    (hreturned : phase.isReturned = true → s.returned = true ∨ s.writes = [])
    (hstays : s.returned = true → phase.isReturned = true) :
    Shuffle [] s { s with
      now := now, deadline := deadline, queue := queue, inputClosed := inputClosed
      phase := phase, assembling := assembling, groups := groups } := by
  have hheld : (queue ++ phase.group).Perm (s.queue ++ s.phase.group) :=
    List.perm_append_comm.trans (hinOrder ▸ List.perm_append_comm)
  refine ⟨rfl, rfl, rfl, rfl, rfl, rfl, rfl, List.Sublist.refl _,
    (hheld.append_right _).append_right _, fun _ => hinOrder, horphans,
    (List.append_nil _).symm, ?_, hstays⟩
  intro hrun
  refine (hreturned hrun).imp_right ?_
  intro hnil w hw
  have hmem : w ∈ s.writes := List.mem_of_mem_filter hw
  rw [hnil] at hmem
  contradiction

theorem coalesce_shuffle {batching : BatchSettings} {envelopes queue : List SinkEnvelope}
    {eventCount byteCount deadline : ℕ} {assembling : List Receipt}
    (horphans : s.returned = false → s.orphans = []) (hrun : s.returned = false)
    (hinOrder : envelopes ++ queue = s.phase.group ++ s.queue) :
    Shuffle [] s (State.coalesce { s with
      queue := queue, deadline := deadline, assembling := assembling } batching envelopes
        eventCount byteCount) := by
  have hstays : ∀ {p : Prop}, s.returned = true → p := by
    intro p hret
    rw [hrun] at hret
    contradiction
  unfold State.coalesce
  split
  · exact Shuffle.of_loop hinOrder (fun _ => horphans hrun) (fun hret => by contradiction) hstays
  · exact Shuffle.of_loop hinOrder (fun _ => horphans hrun) (fun hret => by contradiction) hstays

theorem recv_shuffle (horphans : s.returned = false → s.orphans = [])
    (hs : recv runtime s = some s') : Shuffle [] s s' := by
  unfold recv at hs
  split at hs
  · rename_i e rest hphase hqueue
    cases hs
    apply coalesce_shuffle horphans (by rw [State.returned, hphase]; rfl)
    rw [hphase, hqueue]
    rfl
  · rename_i envelopes eventCount byteCount e rest hphase hqueue
    cases hs
    apply coalesce_shuffle horphans (by rw [State.returned, hphase]; rfl)
    rw [hphase, hqueue, Phase.group, List.append_assoc, List.singleton_append]
  · contradiction

/-- A step to a phase with the same group that is not the end of `run`. -/
theorem setPhase_shuffle {phase : Phase} {assembling : List Receipt} {groups : List Group}
    (horphans : s.returned = false → s.orphans = []) (hrun : s.returned = false)
    (hgroup : phase.group = s.phase.group)
    (hreturned : phase.isReturned = true → s.writes = []) :
    Shuffle [] s { s with phase := phase, assembling := assembling, groups := groups } := by
  apply Shuffle.of_loop
  · rw [hgroup]
  · intro _
    exact horphans hrun
  · intro hphase
    exact Or.inr (hreturned hphase)
  · intro hret
    rw [hrun] at hret
    contradiction

theorem inputEnd_shuffle (horphans : s.returned = false → s.orphans = [])
    (hs : inputEnd s = some s') : Shuffle [] s s' := by
  simp only [inputEnd, Option.ite_none_right_eq_some] at hs
  obtain ⟨-, hs⟩ := hs
  split at hs
  · rename_i hphase
    cases hs
    exact setPhase_shuffle horphans (by rw [State.returned, hphase]; rfl) (by rw [hphase]; rfl)
      (fun hrun => by contradiction)
  · rename_i hphase
    cases hs
    exact setPhase_shuffle horphans (by rw [State.returned, hphase]; rfl) (by rw [hphase]; rfl)
      (fun hrun => by contradiction)
  · contradiction

theorem shutdown_shuffle (horphans : s.returned = false → s.orphans = [])
    (hs : shutdown s = some s') : Shuffle [] s s' := by
  unfold shutdown at hs
  split at hs
  · rename_i hphase
    cases hs
    exact setPhase_shuffle horphans (by rw [State.returned, hphase]; rfl) (by rw [hphase]; rfl)
      (fun hrun => by contradiction)
  · contradiction

theorem linger_shuffle (horphans : s.returned = false → s.orphans = [])
    (hs : linger s = some s') : Shuffle [] s s' := by
  unfold linger at hs
  split at hs
  · rename_i hphase
    simp only [Option.ite_none_right_eq_some, Option.some.injEq] at hs
    obtain ⟨-, rfl⟩ := hs
    exact setPhase_shuffle horphans (by rw [State.returned, hphase]; rfl) (by rw [hphase]; rfl)
      (fun hrun => by contradiction)
  · contradiction

theorem finishDrain_shuffle (horphans : s.returned = false → s.orphans = [])
    (hs : finishDrain s = some s') : Shuffle [] s s' := by
  unfold finishDrain at hs
  split at hs
  · rename_i hphase
    simp only [Option.ite_none_right_eq_some, Option.some.injEq] at hs
    obtain ⟨hwrites, rfl⟩ := hs
    exact setPhase_shuffle horphans (by rw [State.returned, hphase]; rfl) (by rw [hphase]; rfl)
      (fun _ => hwrites)
  · contradiction

/-- A failure propagated out of `run` turns its group into orphans. -/
theorem exit_shuffle (t : State) (horphans : t.orphans = []) (e : WriteError) :
    Shuffle t.liveIds t (t.exit e) := by
  refine ⟨rfl, rfl, rfl, rfl, rfl, rfl, rfl, List.Sublist.refl _, ?_,
    fun hrun => by contradiction, fun hrun => by contradiction, rfl, fun _ => Or.inr ?_,
    fun _ => rfl⟩
  · show (t.queue ++ [] ++ t.phase.group ++ _).Perm (t.queue ++ t.phase.group ++ t.orphans ++ _)
    rw [horphans, List.append_nil, List.append_nil]
    rfl
  · intro w hw
    exact List.mem_map_of_mem hw

theorem propagate_cases (t : State) (horphans : t.returned = false → t.orphans = [])
    (hrun : t.returned = false) (result : Except WriteError Unit) :
    Shuffle [] t (propagate t result) ∨
      ∃ e, result = .error e ∧ t.phase.isDraining = false ∧ propagate t result = t.exit e := by
  have hrefl : Shuffle [] t t :=
    Shuffle.of_loop rfl (fun _ => horphans hrun) Or.inl id
  cases hphase : t.phase with
  | draining outcome =>
    refine Or.inl ?_
    cases outcome with
    | ok u =>
      simp only [propagate, hphase]
      exact setPhase_shuffle horphans hrun (by rw [hphase]; rfl) (fun hret => by contradiction)
    | error e =>
      simp only [propagate, hphase]
      exact hrefl
  | _ =>
    cases result with
    | ok u =>
      refine Or.inl ?_
      simp only [propagate, hphase]
      exact hrefl
    | error e => exact Or.inr ⟨e, rfl, rfl, by simp only [propagate, hphase]⟩

/-- A finished write holds no envelope, so nobody misses it. -/
theorem removeDone_shuffle {lost : List ℕ} {pre post : List Write} {w : Write}
    (hwrites : s.writes = pre ++ w :: post) (hlive : w.live = false)
    (h : Shuffle lost { s with writes := pre ++ post } s') : Shuffle lost s s' := by
  have heq : State.live { s with writes := pre ++ post } = s.live := by
    simp [State.live, hwrites, hlive]
  have hheld : State.held { s with writes := pre ++ post } = s.held := by
    rw [State.held, State.held, heq]
  have hsub : (pre ++ post).Sublist s.writes := by
    rw [hwrites]
    exact (List.sublist_cons_self w post).append_left pre
  exact ⟨h.arrived, h.settled, h.dispatched, h.calls, h.attempts, h.metrics, h.live.trans heq,
    h.writes.trans hsub, hheld ▸ h.held, h.inOrder, h.orphans, h.aborted, h.returned, h.stays⟩

theorem reap_move {k : ℕ} (horphans : s.returned = false → s.orphans = [])
    (hs : reap runtime s k = some s') : Move runtime s (.reap k) s' := by
  unfold reap at hs
  split at hs
  · rename_i id envelopes result hk
    simp only [Option.ite_none_right_eq_some, Option.some.injEq] at hs
    obtain ⟨hreaps, rfl⟩ := hs
    have hrun : s.returned = false := by
      cases hphase : s.phase with
      | returned outcome =>
        rw [reaps, hphase] at hreaps
        contradiction
      | _ => rw [State.returned, hphase]; rfl
    obtain ⟨pre, post, hwrites, -, herase⟩ := Slots.exists_split hk
    rw [herase]
    rcases propagate_cases { s with writes := pre ++ post } horphans hrun result with
      hsame | ⟨e, rfl, hphase, hexit⟩
    · exact .shuffle _ _ (removeDone_shuffle hwrites rfl hsame)
    · rw [hexit]
      have hlive : State.liveIds { s with writes := pre ++ post } = s.liveIds := by
        simp [State.liveIds, State.live, hwrites, Write.live]
      have hsame := exit_shuffle { s with writes := pre ++ post } (horphans hrun) e
      rw [hlive] at hsame
      exact .exit k _ _ (removeDone_shuffle hwrites rfl hsame) hk rfl hphase rfl
  · contradiction

theorem dispatch_move (hs : dispatch runtime s = some s') : Move runtime s .dispatch s' := by
  unfold dispatch at hs
  split at hs
  · rename_i envelopes hphase
    simp only [Option.ite_none_right_eq_some, Option.some.injEq] at hs
    obtain ⟨hroom, rfl⟩ := hs
    exact .dispatch envelopes hphase hroom
  · contradiction

section write

variable {a : Action} {k id attempt backoff : ℕ} {envelopes : List SinkEnvelope}

theorem call_move {stage : WriteStage} {number : ℕ}
    (hk : s.writes[k]? = some ⟨id, envelopes, stage⟩)
    (hlive : Write.live ⟨id, envelopes, stage⟩ = true)
    (hnumber : number ≤ runtime.settings.retryMaxAttempts)
    (hnext : (stage = .spawned ∧ number = 1) ∨ ∃ attempt pause wakeAt,
      stage = .sleeping attempt pause wakeAt ∧ number = attempt + 1) :
    Move runtime s a (call s k ⟨id, envelopes, stage⟩ number backoff) := by
  obtain ⟨pre, post, hwrites, hset, -⟩ := Slots.exists_split hk
  rw [call, hset]
  exact .call a pre post _ number backoff hwrites hlive hnumber hnext

theorem finish_move {ending : Except WriteError Unit} (result : Except WriteError WriteOutcome)
    (hk : s.writes[k]? = some ⟨id, envelopes, .writing attempt backoff⟩)
    (hlast : ∀ e, result = .error (.write e) → runtime.settings.retryMaxAttempts ≤ attempt)
    (hok : ∀ outcome, result = .ok outcome → a = .attempted k (.ok outcome)) :
    Move runtime s a (finish (s.record (concluded s.metrics result).1 ⟨id, attempt, result⟩) k
      ⟨id, envelopes, .writing attempt backoff⟩ ending (concluded s.metrics result).2) := by
  obtain ⟨pre, post, hwrites, hset, -⟩ := Slots.exists_split hk
  have hmove : Move runtime s a _ :=
    .finish k a pre post _ attempt backoff result ending hk hwrites rfl hlast hok
  rw [finish, State.record]
  dsimp only
  rw [hset]
  exact hmove

theorem begin_move (hs : begin runtime s k = some s') : Move runtime s a s' := by
  unfold begin at hs
  split at hs
  · rename_i hk
    cases hs
    exact call_move hk rfl runtime.settings.one_le_attempts (Or.inl ⟨rfl, rfl⟩)
  · contradiction

/-- A failure before the last attempt is retried; anything else ends the write. -/
theorem attempted_move {result : Except String WriteOutcome}
    (hs : attempted runtime s k result = some s') :
    Move runtime s (.attempted k result) s' := by
  unfold attempted at hs
  split at hs
  · rename_i id envelopes attempt backoff hk
    cases result with
    | ok outcome =>
      cases hs
      exact finish_move (.ok outcome) hk (fun e he => by contradiction)
        (fun o ho => by cases ho; rfl)
    | error e =>
      dsimp only at hs
      split at hs
      · rename_i hretry
        cases hs
        obtain ⟨pre, post, hwrites, hset, -⟩ := Slots.exists_split hk
        rw [hset]
        exact .retry _ pre post _ attempt backoff e hwrites rfl hretry
      · rename_i hlast
        cases hs
        exact finish_move (.error (.write e)) hk (fun _ _ => Nat.le_of_not_lt hlast)
          (fun o ho => by contradiction)
  · contradiction

theorem panicked_move (hs : panicked s k = some s') : Move runtime s (.panicked k) s' := by
  unfold panicked at hs
  split at hs
  · rename_i hk
    cases hs
    exact finish_move (.error .panicked) hk (fun e he => by simp at he)
      (fun o ho => by contradiction)
  · contradiction

theorem wake_move (hstages : ∀ w ∈ s.writes, StageOk runtime w.stage)
    (hs : wake runtime s k = some s') : Move runtime s a s' := by
  unfold wake at hs
  split at hs
  · rename_i id envelopes attempt backoff wakeAt hk
    simp only [Option.ite_none_right_eq_some, Option.some.injEq] at hs
    obtain ⟨-, rfl⟩ := hs
    have hstage : attempt < runtime.settings.retryMaxAttempts :=
      hstages _ (List.mem_of_getElem? hk)
    exact call_move hk rfl hstage (Or.inr ⟨attempt, backoff, wakeAt, rfl, rfl⟩)
  · contradiction

theorem dropWrite_move (hs : dropWrite s k = some s') : Move runtime s a s' := by
  unfold dropWrite at hs
  split at hs
  · rename_i w hrun hk
    simp only [Option.ite_none_right_eq_some, Option.some.injEq] at hs
    obtain ⟨hlive, rfl⟩ := hs
    obtain ⟨pre, post, hwrites, -, herase⟩ := Slots.exists_split hk
    rw [herase]
    exact .dropWrite _ pre post w hrun hwrites hlive
  · contradiction

end write

/-- What `run` leaves behind is dropped from one of two lists. -/
theorem dropRest_move {a : Action}
    (hs : dropOrphan s = some s' ∨ dropQueued s = some s') : Move runtime s a s' := by
  rcases hs with hs | hs
  · unfold dropOrphan at hs
    split at hs
    · rename_i e rest hrun hrest
      cases hs
      refine .dropRest _ e s.queue rest hrun ?_
      rw [hrest]
      exact List.perm_middle
    · contradiction
  · unfold dropQueued at hs
    split at hs
    · rename_i e rest hrun hrest
      cases hs
      refine .dropRest _ e rest s.orphans hrun ?_
      rw [hrest]
      rfl
    · contradiction

/-- Every step is one of the moves, as long as no write is past its last attempt and
only a run that has returned has orphans. -/
theorem step_move {a : Action} (horphans : s.returned = false → s.orphans = [])
    (hstages : ∀ w ∈ s.writes, StageOk runtime w.stage) (hs : step runtime s a = some s') :
    Move runtime s a s' := by
  cases a with
  | elapse duration =>
    cases hs
    exact .shuffle _ _ (Shuffle.of_loop rfl horphans Or.inl id)
  | arrive e =>
    simp only [step, arrive, Option.ite_none_right_eq_some, Option.some.injEq] at hs
    obtain ⟨⟨hrun, -, -⟩, rfl⟩ := hs
    exact .arrive e hrun
  | closeInput =>
    cases hs
    exact .shuffle _ _ (Shuffle.of_loop rfl horphans Or.inl id)
  | shutdown => exact .shuffle _ _ (shutdown_shuffle horphans hs)
  | recv => exact .shuffle _ _ (recv_shuffle horphans hs)
  | inputEnd => exact .shuffle _ _ (inputEnd_shuffle horphans hs)
  | linger => exact .shuffle _ _ (linger_shuffle horphans hs)
  | reap k => exact reap_move horphans hs
  | dispatch => exact dispatch_move hs
  | finishDrain => exact .shuffle _ _ (finishDrain_shuffle horphans hs)
  | begin k => exact begin_move hs
  | attempted k result => exact attempted_move hs
  | panicked k => exact panicked_move hs
  | wake k => exact wake_move hstages hs
  | dropOrphan => exact dropRest_move (Or.inl hs)
  | dropQueued => exact dropRest_move (Or.inr hs)
  | dropWrite k => exact dropWrite_move hs

end step_move

end Rustper.Sink
