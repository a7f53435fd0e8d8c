import Rustper.BatchOffsets
import Rustper.Pipeline
import Rustper.SourceConservation

/-!
At-least-once delivery across restarts. `Covers` is what an offset means: every record
below it has been written by all sinks or is among the given ones. A committed offset
covers its log with no exception; the position of the consumer and every received record
cover it up to what the process has received before.
-/
namespace Rustper.Pipeline

open TransitionSystem Source MachineInt

variable {n : ℕ} {wiring : Router.Wiring n} {s s' : State n} {process process' : Router.State n}

/-- Every sink has written the event of the record. -/
def Delivered (wiring : Router.Wiring n) (s : State n) (r : Record) : Prop :=
  ∀ i, toEvent wiring.source.id r ∈ s.written i

/-- The offset is not beyond the log, and what lies below it is delivered or seen. -/
structure Covers (wiring : Router.Wiring n) (s : State n) (seen : List Record)
    (p : TopicPartition) (x : ℤ) : Prop where
  bounded : ∃ r ∈ (s.log p).records, x ≤ r.offset + 1
  below : ∀ r ∈ (s.log p).records, r.offset < x → Delivered wiring s r ∨ r ∈ seen

def receivedRecords (process : Router.State n) : List Record :=
  process.source.received.map Receipt.record

structure ProcessInv (wiring : Router.Wiring n) (s : State n) (process : Router.State n) :
    Prop where
  router : Router.Inv wiring process
  position : ∀ p x, s.position p = .offset x → Covers wiring s (receivedRecords process) p x
  received : ∀ pre r post, receivedRecords process = pre ++ r :: post →
    r ∈ (s.log r.topicPartition).records ∧ Covers wiring s pre r.topicPartition r.offset

structure Inv (wiring : Router.Wiring n) (s : State n) : Prop where
  committed : ∀ p x, s.committed p = some x → Covers wiring s [] p x
  inTransit : ∀ entry ∈ s.inTransit, Covers wiring s [] entry.topicPartition entry.offset
  process : ∀ process, s.process = some process → ProcessInv wiring s process

theorem start_inv (wiring : Router.Wiring n) : Inv wiring (State.start n) where
  committed := by simp [State.start]
  inTransit := by simp [State.start]
  process := by simp [State.start]

/-- Logs only grow at their end, and what has been written stays written. -/
structure Advances (s s' : State n) : Prop where
  kept : ∀ p, ∀ r ∈ (s.log p).records, r ∈ (s'.log p).records
  fresh : ∀ p, ∀ r ∈ (s'.log p).records,
    r ∈ (s.log p).records ∨ ∀ q ∈ (s.log p).records, q.offset < r.offset
  written : ∀ i e, e ∈ s.written i → e ∈ s'.written i

theorem Covers.advance {seen seen' : List Record} {p : TopicPartition} {x : ℤ}
    (h : Covers wiring s seen p x) (hadvances : Advances s s') (hseen : seen ⊆ seen') :
    Covers wiring s' seen' p x := by
  obtain ⟨last, hlast, hle⟩ := h.bounded
  refine ⟨⟨last, hadvances.kept p last hlast, hle⟩, ?_⟩
  intro r hr hlt
  rcases hadvances.fresh p r hr with hold | hnew
  · rcases h.below r hold hlt with hdelivered | hmem
    · exact Or.inl (fun i => hadvances.written i _ (hdelivered i))
    · exact Or.inr (hseen hmem)
  · have := hnew last hlast
    omega

/-- A step of the broker: a committed offset or a position it sets is covered already. -/
theorem Inv.advance (h : Inv wiring s) (hadvances : Advances s s')
    (hcommitted : ∀ p x, s'.committed p = some x → Covers wiring s [] p x)
    (hinTransit : s'.inTransit ⊆ s.inTransit)
    (hprocess : ∀ process, s'.process = some process → s.process = some process ∧
      ∀ p x, s'.position p = .offset x → Covers wiring s (receivedRecords process) p x) :
    Inv wiring s' := by
  refine ⟨?_, ?_, ?_⟩
  · exact fun p x hx => (hcommitted p x hx).advance hadvances (List.Subset.refl _)
  · intro entry he
    exact (h.inTransit entry (hinTransit he)).advance hadvances (List.Subset.refl _)
  · intro process hp
    obtain ⟨hp, hposition⟩ := hprocess process hp
    have hold := h.process process hp
    refine ⟨hold.router, ?_, ?_⟩
    · exact fun p x hx => (hposition p x hx).advance hadvances (List.Subset.refl _)
    · intro pre r post hsplit
      obtain ⟨hr, hcovers⟩ := hold.received pre r post hsplit
      exact ⟨hadvances.kept _ r hr, hcovers.advance hadvances (List.Subset.refl _)⟩

/-- A step that neither appends to a log nor writes. -/
theorem Advances.of_eq (hlog : s'.log = s.log) (hwritten : s'.written = s.written) :
    Advances s s' :=
  ⟨fun _ _ => hlog ▸ id, fun _ _ hr => Or.inl (hlog ▸ hr), fun _ _ => hwritten ▸ id⟩

theorem append_advances {r : Record} (h : (s.log r.topicPartition).Fits r) :
    Advances s { s with
      log := Function.update s.log r.topicPartition (PartitionLog.append s.log r h) } := by
  refine ⟨?_, ?_, fun _ _ => id⟩
  · intro p q hq
    dsimp only
    by_cases hp : p = r.topicPartition
    · subst hp
      rw [Function.update_self]
      exact List.mem_append_left _ hq
    · rwa [Function.update_of_ne hp]
  · intro p q hq
    dsimp only at hq
    by_cases hp : p = r.topicPartition
    · subst hp
      rw [Function.update_self] at hq
      rcases List.mem_append.mp hq with hq | hq
      · exact Or.inl hq
      · rw [List.mem_singleton.mp hq]
        exact Or.inr h.2
    · rw [Function.update_of_ne hp] at hq
      exact Or.inl hq

/-- A log holds one record at most at an offset. -/
theorem PartitionLog.eq_of_offset {p : TopicPartition} (log : PartitionLog p) {q r : Record}
    (hq : q ∈ log.records) (hr : r ∈ log.records) (h : q.offset = r.offset) : q = r :=
  List.inj_on_of_nodup_map (log.increasing.imp ne_of_lt) hq hr h

/-- The consumer skips only records that its position excludes. -/
theorem PartitionLog.next_spec {p : TopicPartition} (log : PartitionLog p) {position : Position}
    {r : Record} (h : log.next position = some r) :
    r ∈ log.records ∧ ∀ q ∈ log.records, q.offset < r.offset → position.admits q = false := by
  refine ⟨List.mem_of_find?_eq_some h, ?_⟩
  intro q hq hlt
  obtain ⟨-, pre, post, hsplit, hpre⟩ := List.find?_eq_some_iff_append.mp h
  have hincreasing := log.increasing
  rw [hsplit, List.map_append, List.map_cons, List.pairwise_append, List.pairwise_cons]
    at hincreasing
  rw [hsplit] at hq
  rcases List.mem_append.mp hq with hq | hq
  · simpa using hpre q hq
  · rcases List.mem_cons.mp hq with rfl | hq
    · exact absurd hlt (lt_irrefl _)
    · have := hincreasing.2.1.1 q.offset (List.mem_map_of_mem hq)
      omega

theorem written_of_process (hp : s.process = some process) {i : Fin n} {e : Event}
    (he : e ∈ (process.sinks i).written) : e ∈ s.written i := by
  rw [State.written, hp]
  exact List.mem_append_right _ he

/-- An entry that is committed covers its log: below the record it follows, everything
is delivered already or was received before it, in a batch that is committed as well. -/
theorem ProcessInv.covers_of_committed (h : ProcessInv wiring s process)
    (hp : s.process = some process) {c : BatchCompletion}
    (hc : c ∈ process.source.cursor.committed) {entry : PartitionOffset}
    (hentry : entry ∈ c.offsets) : Covers wiring s [] entry.topicPartition entry.offset := by
  have hlt : c.sequence < process.source.cursor.nextSequence := by
    rw [← List.mem_range, ← h.router.committed.inOrder]
    exact List.mem_map_of_mem hc
  obtain ⟨d, hd, hoffsets, -⟩ := h.router.committed.carries c hc
  rw [offsetsFor_eq hoffsets] at hentry
  obtain ⟨e, he, htp, hoffset⟩ := mem_nextOffsets hentry
  have hevents := (h.router.source.dispatches d (List.mem_of_getElem? hd)).events
  have hbatch : ∀ k d', k ≤ c.sequence → process.source.dispatched[k]? = some d' →
      ∀ r ∈ d'.receipts, Delivered wiring s r.record := by
    intro k d' hk hd' r hr i
    have hevents' := (h.router.source.dispatches d' (List.mem_of_getElem? hd')).events
    refine written_of_process hp
      (h.router.delivered_of_lt (by omega) hd' ?_ i)
    rw [hevents']
    exact List.mem_map_of_mem hr
  rw [hevents] at he
  obtain ⟨r, hr, rfl⟩ := List.mem_map.mp he
  -- The receipts before `r` are those of the earlier batches and the first ones of its own.
  obtain ⟨before, after, hreceipts⟩ := List.append_of_mem hr
  have hreceived : receivedRecords process =
      (((process.source.dispatched.take c.sequence).flatMap Dispatch.receipts ++ before).map
        Receipt.record) ++ r.record ::
        ((after ++ (process.source.dispatched.drop (c.sequence + 1)).flatMap Dispatch.receipts ++
          process.source.assembling).map Receipt.record) := by
    have hdispatched := congrArg (fun l => l.flatMap Dispatch.receipts) (Slots.split_at hd)
    rw [receivedRecords, h.router.source.received_eq, hdispatched]
    simp [hreceipts]
  obtain ⟨hlog, hcovers⟩ := h.received _ _ _ hreceived
  have hnonneg := (s.log r.record.topicPartition).nonneg _ hlog
  have hle : entry.offset ≤ r.record.offset + 1 := by
    rw [hoffset]
    refine wrapI64_le ?_
    rw [toEvent_offset, i64Min]
    omega
  rw [htp, toEvent_topicPartition]
  refine ⟨⟨_, hlog, hle⟩, fun q hq hqlt => Or.inl ?_⟩
  rcases lt_or_eq_of_le (show q.offset ≤ r.record.offset by omega) with hless | heq
  · rcases hcovers.below q hq hless with hdelivered | hmem
    · exact hdelivered
    · obtain ⟨r', hr', rfl⟩ := List.mem_map.mp hmem
      rcases List.mem_append.mp hr' with hr' | hr'
      · obtain ⟨d', hd', hr'⟩ := List.mem_flatMap.mp hr'
        obtain ⟨k, hk, rfl⟩ := List.mem_take_iff_getElem.mp hd'
        have hle : k ≤ c.sequence := by omega
        exact hbatch k _ hle (List.getElem?_eq_getElem _) r' hr'
      · refine hbatch c.sequence d (Nat.le_refl _) hd r' ?_
        rw [hreceipts]
        exact List.mem_append_left _ hr'
  · rw [PartitionLog.eq_of_offset _ hq hlog heq]
    exact hbatch c.sequence d (Nat.le_refl _) hd r hr

/-- A step of the process: what it commits is covered. -/
theorem Inv.setProcess (h : Inv wiring s) (hadvances : Advances s s')
    (hprocess : ProcessInv wiring s' process') (hp' : s'.process = some process')
    (hcommitted : s'.committed = s.committed)
    (hinTransit : s'.inTransit = s.inTransit ++ commits process process') : Inv wiring s' := by
  refine ⟨?_, ?_, ?_⟩
  · rw [hcommitted]
    exact fun p x hx => (h.committed p x hx).advance hadvances (List.Subset.refl _)
  · rw [hinTransit]
    intro entry he
    rcases List.mem_append.mp he with he | he
    · exact (h.inTransit entry he).advance hadvances (List.Subset.refl _)
    · obtain ⟨c, hc, hentry⟩ := List.mem_flatMap.mp he
      exact hprocess.covers_of_committed hp' (List.mem_of_mem_drop hc) hentry
  · rw [hp']
    intro process hp
    exact Option.some.inj hp ▸ hprocess

theorem runProcess_some {a : Router.Action n} (hs : runProcess wiring s a = some s') :
    ∃ process process', s.process = some process ∧
      Router.step wiring process a = some process' ∧
      s' = { s with
        inTransit := s.inTransit ++ commits process process'
        process := some process' } := by
  simp only [runProcess, Option.bind_eq_bind, Option.bind_eq_some_iff] at hs
  obtain ⟨process, hp, process', hstep, hs⟩ := hs
  exact ⟨process, process', hp, hstep, (Option.some.inj hs).symm⟩

/-- The logs stay and the sinks have written at least what they had. -/
theorem Advances.of_process (hp : s.process = some process) (hp' : s'.process = some process')
    (hlog : s'.log = s.log) (hpast : s'.past = s.past)
    (hwritten : ∀ i e, e ∈ (process.sinks i).written → e ∈ (process'.sinks i).written) :
    Advances s s' := by
  refine ⟨fun p r => hlog ▸ id, fun p r hr => Or.inl (hlog ▸ hr), ?_⟩
  intro i e he
  rw [State.written, hp] at he
  rw [State.written, hp', hpast]
  exact (List.mem_append.mp he).elim (List.mem_append_left _)
    (fun he => List.mem_append_right _ (hwritten i e he))

theorem routerStep_inv {a : Router.Action n} (h : Inv wiring s)
    (hs : routerStep wiring s a = some s') : Inv wiring s' := by
  have hrecv : ∀ m, a ≠ .source (.recv m) := by
    rintro m rfl
    contradiction
  have hrun : runProcess wiring s a = some s' := by
    unfold routerStep at hs
    split at hs
    · contradiction
    · exact hs
  obtain ⟨process, process', hp, hstep, rfl⟩ := runProcess_some hrun
  have hold := h.process process hp
  have hmove := Router.step_move hstep
  have hadvances : Advances s { s with
      inTransit := s.inTransit ++ commits process process', process := some process' } :=
    .of_process hp rfl rfl rfl (hmove.written hold.router)
  have hreceived : receivedRecords process' = receivedRecords process := by
    rcases hmove.received hold.router with hsame | ⟨m, time, ha, -⟩
    · rw [receivedRecords, hsame, receivedRecords]
    · exact absurd ha (hrecv m)
  refine h.setProcess hadvances ?_ rfl rfl rfl
  refine ⟨hmove.inv hold.router, ?_, ?_⟩
  · intro p x hx
    rw [hreceived]
    exact (hold.position p x hx).advance hadvances (List.Subset.refl _)
  · intro pre r post hsplit
    rw [hreceived] at hsplit
    obtain ⟨hr, hcovers⟩ := hold.received pre r post hsplit
    exact ⟨hr, hcovers.advance hadvances (List.Subset.refl _)⟩

/-- The record that `recv` yields covers its log up to what was received before. -/
theorem ProcessInv.covers_next (h : ProcessInv wiring s process) {p : TopicPartition} {r : Record}
    (hr : (s.log p).next (s.position p) = some r) :
    Covers wiring s (receivedRecords process) p r.offset := by
  obtain ⟨hmem, hskipped⟩ := (s.log p).next_spec hr
  refine ⟨⟨r, hmem, by omega⟩, ?_⟩
  intro q hq hlt
  have hnot := hskipped q hq hlt
  cases hposition : s.position p with
  | unassigned =>
    have hadmits : (s.position p).admits r = true := List.find?_some hr
    rw [hposition] at hadmits
    contradiction
  | logStart =>
    rw [hposition] at hnot
    contradiction
  | offset x =>
    rw [hposition, Position.admits, decide_eq_false_iff_not] at hnot
    exact (h.position p x hposition).below q hq (by omega)

theorem recv_inv {p : TopicPartition} (h : Inv wiring s) (hs : recv wiring s p = some s') :
    Inv wiring s' := by
  simp only [recv, Option.bind_eq_bind, Option.bind_eq_some_iff] at hs
  obtain ⟨r, hr, t, hrun, hs⟩ := hs
  obtain ⟨process, process', hp, hstep, rfl⟩ := runProcess_some hrun
  obtain rfl := (Option.some.inj hs).symm
  have hold := h.process process hp
  have hmove := Router.step_move hstep
  have hadvances : Advances s { s with
      inTransit := s.inTransit ++ commits process process', process := some process'
      position := Function.update s.position p (.offset (r.offset + 1)) } :=
    .of_process hp rfl rfl rfl (hmove.written hold.router)
  have hmem := ((s.log p).next_spec hr).1
  have htp : r.topicPartition = p := (s.log p).own r hmem
  have hnext := hold.covers_next hr
  have hreceived : receivedRecords process' = receivedRecords process ++ [r] := by
    rw [receivedRecords, Router.step_recv hstep, List.map_append]
    rfl
  refine h.setProcess hadvances ?_ rfl rfl rfl
  refine ⟨hmove.inv hold.router, ?_, ?_⟩
  · intro p' x hx
    dsimp only at hx
    rw [hreceived]
    by_cases hp' : p' = p
    · subst hp'
      rw [Function.update_self] at hx
      cases hx
      refine ⟨⟨r, hmem, le_refl _⟩, ?_⟩
      intro q hq hlt
      rcases lt_or_eq_of_le (show q.offset ≤ r.offset by omega) with hless | heq
      · exact ((hnext.advance hadvances (List.subset_append_left _ [r])).below q hq hless)
      · rw [PartitionLog.eq_of_offset _ hq hmem heq]
        exact Or.inr (by simp)
    · rw [Function.update_of_ne hp'] at hx
      exact (hold.position p' x hx).advance hadvances (List.subset_append_left _ _)
  · intro pre q post hsplit
    rw [hreceived] at hsplit
    rcases List.eq_nil_or_concat post with rfl | ⟨post, last, rfl⟩
    · obtain ⟨rfl, hq⟩ := List.append_inj' hsplit rfl
      cases hq
      rw [htp]
      exact ⟨hmem, hnext.advance hadvances (List.Subset.refl _)⟩
    · have hinit : receivedRecords process = pre ++ q :: post := by
        rw [List.concat_eq_append, ← List.cons_append, ← List.append_assoc] at hsplit
        exact (List.append_inj' hsplit rfl).1
      obtain ⟨hq, hcovers⟩ := hold.received pre q post hinit
      exact ⟨hq, hcovers.advance hadvances (List.Subset.refl _)⟩

theorem Covers.seen {seen : List Record} {p : TopicPartition} {x : ℤ}
    (h : Covers wiring s [] p x) : Covers wiring s seen p x :=
  h.advance (Advances.of_eq rfl rfl) (List.nil_subset _)

theorem append_inv {r : Record} (h : Inv wiring s) (hs : append s r = some s') :
    Inv wiring s' := by
  unfold append at hs
  split at hs
  · rename_i hfits
    cases hs
    exact h.advance (append_advances hfits) h.committed (List.Subset.refl _)
      (fun process hp => ⟨hp, (h.process process hp).position⟩)
  · contradiction

theorem startProcess_inv {now : ℕ} (h : Inv wiring s) (hs : startProcess s now = some s') :
    Inv wiring s' := by
  unfold startProcess at hs
  split at hs
  · rename_i hnone
    cases hs
    have hwritten : ∀ i, s.past i ++ (Sink.State.start now).written = s.written i := by
      intro i
      rw [State.written, hnone]
      rfl
    have hadvances : Advances s { s with
        position := fun _ => .unassigned
        process := some (Router.State.start n now) } := Advances.of_eq rfl (funext hwritten)
    refine ⟨?_, ?_, ?_⟩
    · exact fun p x hx => (h.committed p x hx).advance hadvances (List.Subset.refl _)
    · exact fun entry he => (h.inTransit entry he).advance hadvances (List.Subset.refl _)
    · intro process hp
      cases hp
      refine ⟨Router.start_inv wiring now, fun p x hx => by contradiction, ?_⟩
      intro pre r post hsplit
      simp [receivedRecords, Router.State.start, Source.State.start] at hsplit
  · contradiction

theorem crash_inv (h : Inv wiring s) (hs : crash s = some s') : Inv wiring s' := by
  unfold crash at hs
  split at hs
  · contradiction
  · cases hs
    refine h.advance (Advances.of_eq rfl ?_) h.committed (List.Subset.refl _) (by simp)
    funext i
    exact List.append_nil _

/-- A partition that is assigned resumes at its committed offset, which covers it. -/
theorem assign_inv (h : Inv wiring s) (p : TopicPartition) : Inv wiring (assign s p) := by
  refine h.advance (Advances.of_eq rfl rfl) h.committed (List.Subset.refl _) ?_
  intro process hp
  refine ⟨hp, fun p' x hx => ?_⟩
  dsimp only [assign] at hx
  by_cases hp' : p' = p
  · subst hp'
    rw [Function.update_self] at hx
    cases hcommitted : s.committed p' with
    | none => simp [hcommitted] at hx
    | some y =>
      rw [hcommitted] at hx
      cases hx
      exact (h.committed p' _ hcommitted).seen
  · rw [Function.update_of_ne hp'] at hx
    exact (h.process process hp).position p' x hx

theorem revoke_inv (h : Inv wiring s) (p : TopicPartition) : Inv wiring (revoke s p) := by
  refine h.advance (Advances.of_eq rfl rfl) h.committed (List.Subset.refl _) ?_
  intro process hp
  refine ⟨hp, fun p' x hx => ?_⟩
  dsimp only [revoke] at hx
  by_cases hp' : p' = p
  · subst hp'
    rw [Function.update_self] at hx
    contradiction
  · rw [Function.update_of_ne hp'] at hx
    exact (h.process process hp).position p' x hx

theorem applyCommit_inv {k : ℕ} (h : Inv wiring s) (hs : applyCommit s k = some s') :
    Inv wiring s' := by
  simp only [applyCommit, Option.bind_eq_bind, Option.bind_eq_some_iff] at hs
  obtain ⟨entry, hentry, hs⟩ := hs
  cases hs
  refine h.advance (Advances.of_eq rfl rfl) ?_ (List.eraseIdx_subset)
    (fun process hp => ⟨hp, (h.process process hp).position⟩)
  intro p x hx
  dsimp only at hx
  by_cases hp : p = entry.topicPartition
  · subst hp
    rw [Function.update_self] at hx
    cases hx
    exact h.inTransit entry (List.mem_of_getElem? hentry)
  · rw [Function.update_of_ne hp] at hx
    exact h.committed p x hx

theorem loseCommit_inv {k : ℕ} (h : Inv wiring s) (hs : loseCommit s k = some s') :
    Inv wiring s' := by
  simp only [loseCommit, Option.bind_eq_bind, Option.bind_eq_some_iff] at hs
  obtain ⟨entry, hentry, hs⟩ := hs
  cases hs
  exact h.advance (Advances.of_eq rfl rfl) h.committed (List.eraseIdx_subset)
    (fun process hp => ⟨hp, (h.process process hp).position⟩)

theorem step_inv {a : Action n} (h : Inv wiring s) (hs : step wiring s a = some s') :
    Inv wiring s' := by
  cases a with
  | append r => exact append_inv h hs
  | start now => exact startProcess_inv h hs
  | crash => exact crash_inv h hs
  | assign p =>
    cases hs
    exact assign_inv h p
  | revoke p =>
    cases hs
    exact revoke_inv h p
  | recv p => exact recv_inv h hs
  | router a => exact routerStep_inv h hs
  | applyCommit k => exact applyCommit_inv h hs
  | loseCommit k => exact loseCommit_inv h hs

theorem reachable_inv (h : (system wiring).Reachable s) : Inv wiring s := by
  apply System.Reachable.invariant (start_inv wiring) _ h
  intro t a t' hi hs
  exact step_inv hi hs

/-- At-least-once delivery, in every state that any run of processes, crashes, restarts
and reassignments reaches: a record of a partition below its committed offset has been
written by every sink the source is wired to, in a call of `write_batches` that returned
`Ok`. -/
theorem committed_delivered (h : (system wiring).Reachable s) {p : TopicPartition} {x : ℤ}
    (hcommitted : s.committed p = some x) {r : Record} (hr : r ∈ (s.log p).records)
    (hlt : r.offset < x) (i : Fin n) : toEvent wiring.source.id r ∈ s.written i := by
  rcases ((reachable_inv h).committed p x hcommitted).below r hr hlt with hdelivered | hseen
  · exact hdelivered i
  · contradiction

/-- A source with batches of two events and one sequential sink. -/
def pairWiring : Router.Wiring 1 := ⟨pairSource, fun _ => Sink.sequential⟩

/-- The envelope of the first batch of two. -/
def pairEnvelope : Sink.SinkEnvelope where
  batch := EventBatch.new [toEvent "in" (message 0), toEvent "in" (message 1)]
  ack := ⟨"in", 0⟩

/-- One batch is delivered and its commit takes effect after the process is gone. -/
def commitAfterCrash : List (Action 1) :=
  [.append (message 0), .append (message 1), .start 0, .assign ("input", 0), .recv ("input", 0),
    .recv ("input", 0), .router (.enqueue 0 0), .router (.sink 0 .recv),
    .router (.sink 0 .dispatch), .router (.sink 0 (.begin 0)),
    .router (.sink 0 (.attempted 0 (.ok ⟨2, 0⟩))),
    .router (.settle 0 ⟨pairEnvelope, some 0, .delivered⟩), .router (.fanout 0 .joinSends),
    .router (.fanout 0 .acknowledged), .router (.join 0 (fun _ => true)), .crash, .applyCommit 0]

theorem committed_delivered_commitAfterCrash : ∃ s : State 1,
    s.committed ("input", 0) = some 2 ∧ toEvent "in" (message 1) ∈ s.written 0 := by
  have hrun : ((system pairWiring).run (State.start 1) commitAfterCrash).map
      (fun s => (s.committed ("input", 0), (s.log ("input", 0)).records)) =
        some (some 2, [message 0, message 1]) := by decide
  obtain ⟨s, hs, hview⟩ := Option.map_eq_some_iff.mp hrun
  obtain ⟨hcommitted, hlog⟩ := Prod.mk.inj hview
  have hreach : (system pairWiring).Reachable s :=
    System.Reachable.run System.ReachableBy.start hs
  have hmem : message 1 ∈ (s.log ("input", 0)).records := by
    rw [hlog]
    simp
  exact ⟨s, hcommitted, committed_delivered hreach hcommitted hmem (by decide) 0⟩

end Rustper.Pipeline
