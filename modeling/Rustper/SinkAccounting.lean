import Rustper.SinkInvariant

/-!
What the sink's counters count, and that every envelope of a finished run has been
settled exactly once.
-/
namespace Rustper.Sink

open TransitionSystem

variable {runtime : Runtime} {s s' : State}

structure Counted (runtime : Runtime) (s : State) : Prop where
  batchesWritten : s.metrics.batchesWritten = s.succeeded.length
  writeErrors : s.metrics.writeErrors = (s.exhausted runtime.settings).length
  retries : s.metrics.retries = (s.attempts.filter (Attempt.retried runtime.settings)).length

/-- What a sink promises of a successful call: it wrote or dropped every event. -/
def Accounts (s : State) : Action → Prop
  | .attempted k (.ok outcome) => ∀ w ∈ s.writes[k]?,
      outcome.written + outcome.dropped = totalEvents (batches w.envelopes)
  | _ => True

instance (s : State) (a : Action) : Decidable (Accounts s a) := by
  unfold Accounts
  split
  · infer_instance
  · infer_instance

/-- The counters after one more call is over, or after none. -/
theorem Counted.append (h : Counted runtime s) {calls : List Attempt}
    (hattempts : s'.attempts = s.attempts ++ calls)
    (hwritten : s'.metrics.batchesWritten =
      s.metrics.batchesWritten + (calls.filter Attempt.succeeded).length)
    (herrors : s'.metrics.writeErrors =
      s.metrics.writeErrors + (calls.filter (Attempt.exhausts runtime.settings)).length)
    (hretries : s'.metrics.retries =
      s.metrics.retries + (calls.filter (Attempt.retried runtime.settings)).length) :
    Counted runtime s' := by
  have hlength : ∀ p : Attempt → Bool, (s'.groupsWith p).length =
      (s.groupsWith p).length + (calls.filter p).length := by
    intro p
    simp [State.groupsWith, hattempts]
  refine ⟨?_, ?_, ?_⟩
  · rw [hwritten, h.batchesWritten, State.succeeded, State.succeeded, hlength]
  · rw [herrors, h.writeErrors, State.exhausted, State.exhausted, hlength]
  · rw [hretries, h.retries, hattempts, List.filter_append, List.length_append]

theorem Counted.same (h : Counted runtime s) (hattempts : s'.attempts = s.attempts)
    (hwritten : s'.metrics.batchesWritten = s.metrics.batchesWritten)
    (herrors : s'.metrics.writeErrors = s.metrics.writeErrors)
    (hretries : s'.metrics.retries = s.metrics.retries) : Counted runtime s' :=
  h.append (hattempts.trans (List.append_nil _).symm) hwritten herrors hretries

theorem Shuffle.counted {lost : List ℕ} (hsame : Shuffle lost s s') (h : Counted runtime s) :
    Counted runtime s' := by
  have hmetrics := hsame.metrics
  exact h.same hsame.attempts (by rw [hmetrics]) (by rw [hmetrics]) (by rw [hmetrics])

theorem Move.counted {a : Action} (hmove : Move runtime s a s') (hfates : Fates runtime s)
    (h : Counted runtime s) : Counted runtime s' := by
  cases hmove with
  | shuffle _ _ hsame => exact hsame.counted h
  | exit k _ w hsame => exact hsame.counted h
  | arrive e hrun => exact h.same rfl rfl rfl rfl
  | dispatch envelopes hphase => exact h.same rfl rfl rfl rfl
  | call _ pre post w number backoff hwrites hlive hnumber => exact h.same rfl rfl rfl rfl
  | retry _ pre post w attempt backoff e hwrites hstage hretry =>
    have hretried : Attempt.retried runtime.settings ⟨w.id, attempt, .error (.write e)⟩ = true := by
      simp [Attempt.retried, Attempt.failed, hretry]
    obtain ⟨hsucceeded, hexhausts, -⟩ := Attempt.retried_excludes hretried
    refine h.append rfl ?_ ?_ ?_ <;>
      simp only [List.filter_cons, List.filter_nil, hsucceeded, hexhausts, hretried] <;> rfl
  | finish k _ pre post w attempt backoff result ending hk hwrites hstage hlast hok =>
    have hnumber : StageOk runtime w.stage := hfates.stages w (List.mem_of_getElem? hk)
    rw [hstage] at hnumber
    cases result with
    | ok outcome => exact h.append rfl rfl rfl rfl
    | error e =>
      cases e with
      | panicked => exact h.append rfl rfl rfl rfl
      | write e =>
        have heq : attempt = runtime.settings.retryMaxAttempts :=
          Nat.le_antisymm hnumber (hlast e rfl)
        have hexhausts : Attempt.exhausts runtime.settings ⟨w.id, attempt, .error (.write e)⟩ =
            true := by
          simp [Attempt.exhausts, Attempt.failed, heq]
        have hretried : Attempt.retried runtime.settings ⟨w.id, attempt, .error (.write e)⟩ =
            false := by
          simp [Attempt.retried, Attempt.failed, heq]
        refine h.append rfl rfl ?_ ?_ <;>
          simp only [List.filter_cons, List.filter_nil, hexhausts, hretried] <;> rfl
  | dropRest _ e queue orphans hrun hrest => exact h.same rfl rfl rfl rfl
  | dropWrite _ pre post w hrun hwrites hlive => exact h.same rfl rfl rfl rfl

/-- Events of delivered envelopes are the ones the sink says it wrote or dropped. -/
def EventsCounted (s : State) : Prop :=
  s.metrics.eventsOut + s.metrics.eventsDropped = totalEvents (batches s.delivered)

theorem totalEvents_append (l l' : List SinkEnvelope) :
    totalEvents (batches (l ++ l')) = totalEvents (batches l) + totalEvents (batches l') := by
  simp [totalEvents, batches]

theorem events_settle (s : State) {t : State} {write : Option ℕ} {g : List SinkEnvelope}
    {how : Settlement} (hsettled : t.settled = s.settled) :
    totalEvents (batches (t.settle write g how).delivered) =
      totalEvents (batches s.delivered) +
        if how = .delivered then totalEvents (batches g) else 0 := by
  show totalEvents (batches (((t.settled ++ settlements write how g).filter _).map _)) = _
  rw [hsettled, List.filter_append, List.map_append, totalEvents_append, ← State.delivered]
  congr 1
  by_cases hhow : how = .delivered
  · rw [if_pos hhow, List.filter_eq_self.mpr, settlements_envelope]
    intro x hx
    simp [(mem_settlements _ _ _ hx).2, hhow]
  · rw [if_neg hhow, List.filter_eq_nil_iff.mpr]
    · rfl
    · intro x hx
      simp [(mem_settlements _ _ _ hx).2, hhow]

theorem Move.events {a : Action} (hmove : Move runtime s a s') (haccounts : Accounts s a)
    (h : EventsCounted s) : EventsCounted s' := by
  unfold EventsCounted at h ⊢
  cases hmove with
  | shuffle _ _ hsame =>
    rw [hsame.metrics, State.delivered, hsame.settled]
    exact h
  | exit k _ w hsame =>
    rw [hsame.metrics, State.delivered, hsame.settled]
    exact h
  | arrive e hrun => exact h
  | dispatch envelopes hphase => exact h
  | call _ pre post w number backoff hwrites hlive hnumber => exact h
  | retry _ pre post w attempt backoff e hwrites hstage hretry => exact h
  | finish k _ pre post w attempt backoff result ending hk hwrites hstage hlast hok =>
    refine Eq.trans ?_ (events_settle s ?_).symm
    rotate_left
    · rfl
    rw [← h]
    cases result with
    | ok outcome =>
      rw [hok outcome rfl] at haccounts
      have hsum := haccounts w hk
      simp only [concluded, if_true, State.settle, State.record]
      omega
    | error e => cases e <;> rfl
  | dropRest _ e queue orphans hrun hrest =>
    refine h.trans (Eq.symm ((events_settle s ?_).trans (Nat.add_zero _)))
    rfl
  | dropWrite _ pre post w hrun hwrites hlive =>
    refine h.trans (Eq.symm ((events_settle s ?_).trans (Nat.add_zero _)))
    rfl

structure Inv (runtime : Runtime) (s : State) : Prop where
  ledger : Ledger s
  fates : Fates runtime s
  counted : Counted runtime s

theorem start_inv (runtime : Runtime) (now : ℕ) : Inv runtime (State.start now) where
  ledger := ⟨List.Perm.refl _, fun _ => rfl⟩
  fates :=
    { stages := by simp [State.start]
      ids := List.nodup_nil
      groups := by simp [State.start]
      pending := by simp [State.start, State.liveIds, State.live]
      unknown := fun k _ => ⟨rfl, by simp [State.start, State.attemptsOf]⟩
      ended := by simp [State.start]
      loose := by simp [State.start]
      succeeded := List.nodup_nil
      exhausted := List.nodup_nil
      aborted := by simp [State.start, State.returned, Phase.isReturned] }
  counted := ⟨rfl, rfl, rfl⟩

theorem step_inv {a : Action} (h : Inv runtime s) (hs : step runtime s a = some s') :
    Inv runtime s' := by
  have hmove := step_move h.ledger.orphans h.fates.stages hs
  exact ⟨hmove.ledger h.ledger, hmove.fates h.fates, hmove.counted h.fates h.counted⟩

theorem reachable_inv {now : ℕ} (h : (system runtime now).Reachable s) : Inv runtime s := by
  apply System.Reachable.invariant (start_inv runtime now) _ h
  intro t a t' hi hs
  exact step_inv hi hs

theorem reachable_events {now : ℕ} (h : (system runtime now).ReachableBy Accounts s) :
    EventsCounted s := by
  have hboth : Inv runtime s ∧ EventsCounted s := by
    have hstart : Inv runtime (State.start now) ∧ EventsCounted (State.start now) :=
      ⟨start_inv runtime now, rfl⟩
    apply System.ReachableBy.invariant hstart _ h
    intro t a t' hi haccounts hs
    have hmove := step_move hi.1.ledger.orphans hi.1.fates.stages hs
    exact ⟨step_inv hi.1 hs, hmove.events haccounts hi.2⟩
  exact hboth.2

/-- `run` has returned and everything it left behind is gone. -/
structure TornDown (s : State) : Prop where
  returned : s.returned = true
  queue : s.queue = []
  orphans : s.orphans = []
  live : s.live = []

theorem Inv.settled_once (h : Inv runtime s) (hdown : TornDown s) :
    s.arrived.Perm s.settledEnvelopes := by
  have hgroup : s.phase.group = [] := by
    have hreturned := hdown.returned
    unfold State.returned at hreturned
    cases hphase : s.phase with
    | returned outcome => rfl
    | _ => rw [hphase] at hreturned; contradiction
  have hperm := h.ledger.perm
  rw [State.held, hdown.queue, hdown.orphans, hdown.live, hgroup] at hperm
  simpa using hperm

/-- An envelope settled by a write was settled the way that write ended. -/
theorem Fates.ended_of_settled (h : Fates runtime s) {x : Settled} {k : ℕ} (hx : x ∈ s.settled)
    (hk : x.write = some k) : ∃ g, Ended runtime s k g x.settlement := by
  have hentry : x ∈ s.entries k := List.mem_filter.mpr ⟨hx, by simp [hk]⟩
  have hlt : k < s.dispatched.length := by
    by_contra hle
    rw [(h.unknown k (by omega)).entries] at hentry
    contradiction
  rcases h.ended k _ (List.getElem?_eq_getElem hlt) with hlive | ⟨how, hend⟩
  · rw [(h.pending k hlive).entries] at hentry
    contradiction
  · rw [hend.entries] at hentry
    rw [(mem_settlements _ _ _ hentry).2]
    exact ⟨_, hend⟩

/-- An envelope was delivered exactly when the write of its group returned `Ok`. -/
theorem Fates.delivered_iff (h : Fates runtime s) {x : Settled} (hx : x ∈ s.settled) :
    x.settlement = .delivered ↔ ∃ k, x.write = some k ∧ k ∈ s.succeeded := by
  cases hwrite : x.write with
  | none =>
    rw [h.loose x hx hwrite]
    simp
  | some k =>
    obtain ⟨g, hend⟩ := h.ended_of_settled hx hwrite
    rw [← hend.succeeded]
    simp

/-- The settlements by the write of a group are those of its envelopes, in order. -/
theorem Fates.settled_group (h : Fates runtime s) (hlive : s.live = []) {k : ℕ}
    {g : List SinkEnvelope} (hg : s.dispatched[k]? = some g) :
    (s.entries k).map Settled.envelope = g := by
  rcases h.ended k g hg with hk | ⟨how, hend⟩
  · rw [State.liveIds, hlive] at hk
    contradiction
  · rw [hend.entries, settlements_envelope]

/-- Sink settlement and accounting, for a sink that accounts for every event of a
successful call. In every reachable state the counters are: the events of the delivered
envelopes, the groups that succeeded, the groups whose last allowed attempt failed and
the attempts that failed before. Once the run is torn down every envelope ever put into
the channel is settled once, those of a group by its write; and an envelope is settled
as delivered exactly when the write of its group succeeded. -/
theorem run_settles {now : ℕ} (h : (system runtime now).ReachableBy Accounts s) :
    s.metrics.eventsOut + s.metrics.eventsDropped = totalEvents (batches s.delivered) ∧
    s.metrics.batchesWritten = s.succeeded.length ∧ s.succeeded.Nodup ∧
    s.metrics.writeErrors = (s.exhausted runtime.settings).length ∧
    (s.exhausted runtime.settings).Nodup ∧
    s.metrics.retries = (s.attempts.filter (Attempt.retried runtime.settings)).length ∧
    (∀ x ∈ s.settled, x.settlement = .delivered ↔ ∃ k, x.write = some k ∧ k ∈ s.succeeded) ∧
    (TornDown s → s.arrived.Perm s.settledEnvelopes ∧
      ∀ k g, s.dispatched[k]? = some g → (s.entries k).map Settled.envelope = g) := by
  have hinv := reachable_inv h.reachable
  refine ⟨reachable_events h, hinv.counted.batchesWritten, hinv.fates.succeeded,
    hinv.counted.writeErrors, hinv.fates.exhausted, hinv.counted.retries,
    fun x hx => hinv.fates.delivered_iff hx, fun hdown => ⟨hinv.settled_once hdown, ?_⟩⟩
  intro k g hg
  exact hinv.fates.settled_group hdown.live hg

/-- One write at a time, one event a group and two attempts. -/
def sequential : Runtime where
  capacity := 4
  batching := ⟨1, 1024, 5⟩
  settings := ⟨1, 2, 1, 2, by decide, by decide⟩

def envelope (sequence : ℕ) : SinkEnvelope where
  batch := EventBatch.new [⟨none, [120], none, ⟨"in", "input", 0, sequence⟩⟩]
  ack := ⟨"in", sequence⟩

/-- The first group is written at the second attempt, the second one never, and the
third one is still in the channel when the failure of the second ends `run`. -/
def oneOfThree : List Action :=
  [.arrive (envelope 0), .arrive (envelope 1), .arrive (envelope 2), .recv, .dispatch, .begin 0,
    .attempted 0 (.error "broker down"), .elapse 1, .wake 0, .attempted 0 (.ok ⟨1, 0⟩), .recv,
    .reap 0, .dispatch, .begin 0, .attempted 0 (.error "broker down"), .elapse 1, .wake 0,
    .attempted 0 (.error "broker down"), .reap 0, .dropQueued]

theorem run_settles_oneOfThree : ∃ s : State, TornDown s ∧
    s.arrived.Perm s.settledEnvelopes ∧
    s.metrics.eventsOut + s.metrics.eventsDropped = totalEvents (batches s.delivered) ∧
    s.delivered = [envelope 0] ∧ s.metrics.retries = 2 := by
  have hrun : ((system sequential 0).runBy Accounts (State.start 0) oneOfThree).map
      (fun s => (s.returned && s.queue.isEmpty && s.orphans.isEmpty && s.live.isEmpty,
        s.delivered, s.metrics.retries)) = some (true, [envelope 0], 2) := by decide
  obtain ⟨s, hs, hview⟩ := Option.map_eq_some_iff.mp hrun
  simp only [Prod.mk.injEq, Bool.and_eq_true, List.isEmpty_iff] at hview
  obtain ⟨⟨⟨⟨hreturned, hqueue⟩, horphans⟩, hlive⟩, hdelivered, hretries⟩ := hview
  have hdown : TornDown s := ⟨hreturned, hqueue, horphans, hlive⟩
  have hreach : (system sequential 0).ReachableBy Accounts s :=
    System.ReachableBy.start.runBy hs
  obtain ⟨hevents, -, -, -, -, -, -, hsettled⟩ := run_settles hreach
  exact ⟨s, hdown, (hsettled hdown).1, hevents, hdelivered, hretries⟩

end Rustper.Sink
