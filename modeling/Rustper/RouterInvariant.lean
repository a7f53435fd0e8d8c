import Rustper.Router

/-!
The invariant of one process. A batch that was joined or committed has a fan-out that
returned `Ok`; a branch that was answered `delivered` has been settled so by its sink;
and a sink settles only envelopes it was sent. Together: what the source commits, every
one of its sinks has written.
-/
namespace Rustper.Router

open TransitionSystem

variable {n : ℕ} {wiring : Wiring n} {s s' : State n}

/-- What a step does, by the parts that take it. -/
inductive Move (wiring : Wiring n) (s : State n) : Action n → State n → Prop
  | source (a : Action n) (a' : Source.Action) (source : Source.State)
      (hs : Source.step wiring.source s.source a' = some source)
      (hjoin : ∀ k commit, a' = .join k .ok commit →
        ∃ f, s.fanouts[k]? = some f ∧ f.phase = .returned (.ok ()))
      (hrecv : ∀ m, a' = .recv m → a = .source (.recv m)) :
      Move wiring s a (spawn s source)
  | fanout (a : Action n) (k : ℕ) (a' : Fanout.Action n) (f f' : Fanout.State n)
      (hf : s.fanouts[k]? = some f) (hs : Fanout.step f a' = some f')
      (hdelivered : ∀ i, a' = .delivered i → ∃ x ∈ (s.sinks i).settled,
        x.settlement = .delivered ∧ x.envelope.ack = ⟨wiring.source.id, k⟩) :
      Move wiring s a { s with fanouts := s.fanouts.set k f' }
  | enqueue (k : ℕ) (i : Fin n) (f f' : Fanout.State n) (sink : Sink.State)
      (hf : s.fanouts[k]? = some f) (hs : Fanout.step f (.enqueue i) = some f')
      (harrive : Sink.step (wiring.runtimes i) (s.sinks i)
        (.arrive (envelopeOf wiring k f)) = some sink) :
      Move wiring s (.enqueue k i)
        { s with
          fanouts := s.fanouts.set k f'
          sinks := Function.update s.sinks i sink }
  | sink (a : Action n) (i : Fin n) (a' : Sink.Action) (sink : Sink.State)
      (hs : Sink.step (wiring.runtimes i) (s.sinks i) a' = some sink)
      (hforeign : ∀ e, a' = .arrive e → e.ack.source ≠ wiring.source.id ∧
        ∀ ev ∈ e.batch.events, ev.source.componentId = e.ack.source) :
      Move wiring s a { s with sinks := Function.update s.sinks i sink }

theorem updateFanout_some {k : ℕ} {a : Fanout.Action n} (hs : updateFanout s k a = some s') :
    ∃ f f', s.fanouts[k]? = some f ∧ Fanout.step f a = some f' ∧
      s' = { s with fanouts := s.fanouts.set k f' } := by
  simp only [updateFanout, Option.bind_eq_bind, Option.bind_eq_some_iff] at hs
  obtain ⟨f, hf, f', hf', hs⟩ := hs
  exact ⟨f, f', hf, hf', (Option.some.inj hs).symm⟩

theorem updateSink_some {i : Fin n} {a : Sink.Action} (hs : updateSink wiring s i a = some s') :
    ∃ sink, Sink.step (wiring.runtimes i) (s.sinks i) a = some sink ∧
      s' = { s with sinks := Function.update s.sinks i sink } := by
  obtain ⟨sink, hsink, rfl⟩ := Option.map_eq_some_iff.mp hs
  exact ⟨sink, hsink, rfl⟩

theorem source_move {a : Source.Action} (hs : sourceStep wiring s a = some s') :
    Move wiring s (.source a) s' := by
  cases a with
  | join k result commit => contradiction
  | _ =>
    obtain ⟨source, hsource, rfl⟩ := Option.map_eq_some_iff.mp hs
    exact .source _ _ source hsource (by simp) (by simp)

theorem join_move {k : ℕ} {commit : Source.BatchCompletion → Bool}
    (hs : join wiring s k commit = some s') : Move wiring s (.join k commit) s' := by
  simp only [join, Option.bind_eq_bind, Option.bind_eq_some_iff] at hs
  obtain ⟨f, hf, result, hresult, source, hsource, hs⟩ := hs
  cases hs
  refine .source _ _ source hsource ?_ (by simp)
  intro k' commit' ha
  cases ha
  refine ⟨f, hf, ?_⟩
  unfold taskResult at hresult
  split at hresult
  · assumption
  · simp at hresult
  · contradiction

theorem fanout_move {k : ℕ} {a : Fanout.Action n} (hs : fanoutStep s k a = some s') :
    Move wiring s (.fanout k a) s' := by
  simp only [fanoutStep, Option.bind_eq_bind, Option.bind_eq_some_iff,
    Option.ite_none_right_eq_some] at hs
  obtain ⟨f, -, hown, hs⟩ := hs
  obtain ⟨f, f', hf, hf', rfl⟩ := updateFanout_some hs
  refine .fanout _ k a f f' hf hf' ?_
  rintro i rfl
  simp [ownAction] at hown

theorem enqueue_move {k : ℕ} {i : Fin n} (hs : enqueue wiring s k i = some s') :
    Move wiring s (.enqueue k i) s' := by
  simp only [enqueue, Option.bind_eq_bind, Option.bind_eq_some_iff] at hs
  obtain ⟨f, hf, t, ht, hs⟩ := hs
  obtain ⟨f₀, f', hf₀, hf', rfl⟩ := updateFanout_some ht
  obtain rfl : f = f₀ := Option.some.inj (hf.symm.trans hf₀)
  obtain ⟨sink, hsink, rfl⟩ := updateSink_some hs
  exact .enqueue k i f f' sink hf hf' hsink

theorem settle_move {i : Fin n} {x : Sink.Settled} (hs : settle wiring s i x = some s') :
    Move wiring s (.settle i x) s' := by
  simp only [settle, Option.ite_none_right_eq_some] at hs
  obtain ⟨⟨hx, hown⟩, hs⟩ := hs
  obtain ⟨f, f', hf, hf', rfl⟩ := updateFanout_some hs
  refine .fanout _ _ _ f f' hf hf' ?_
  intro j hj
  cases hhow : x.settlement with
  | delivered =>
    rw [hhow] at hj
    cases hj
    exact ⟨x, hx, hhow, by rw [← hown]⟩
  | failed =>
    rw [hhow] at hj
    contradiction
  | dropped =>
    rw [hhow] at hj
    contradiction

theorem sink_move {i : Fin n} {a : Sink.Action} (hs : sinkStep wiring s i a = some s') :
    Move wiring s (.sink i a) s' := by
  cases a with
  | arrive e => contradiction
  | _ =>
    obtain ⟨sink, hsink, rfl⟩ := updateSink_some hs
    exact .sink _ i _ sink hsink (by simp)

theorem step_move {a : Action n} (hs : step wiring s a = some s') : Move wiring s a s' := by
  cases a with
  | source a => exact source_move hs
  | join k commit => exact join_move hs
  | fanout k a => exact fanout_move hs
  | enqueue k i => exact enqueue_move hs
  | refuse k i =>
    simp only [step, refuse, Option.ite_none_right_eq_some] at hs
    obtain ⟨f, f', hf, hf', rfl⟩ := updateFanout_some hs.2
    exact .fanout _ k _ f f' hf hf' (by simp)
  | settle i x => exact settle_move hs
  | sink i a => exact sink_move hs
  | foreign i e =>
    simp only [step, foreign, Option.ite_none_right_eq_some] at hs
    obtain ⟨hforeign, hs⟩ := hs
    obtain ⟨sink, hsink, rfl⟩ := updateSink_some hs
    refine .sink _ i _ sink hsink ?_
    intro e' he'
    cases he'
    exact hforeign

/-- The future of a batch, in a state it can reach. -/
def FanoutOk (source : Source.State) (k : ℕ) (f : Fanout.State n) : Prop :=
  ∃ d, source.dispatched[k]? = some d ∧ (Fanout.system n d.batch).Reachable f

/-- The sink of the branch has settled its envelope as delivered. -/
def SettledBy (wiring : Wiring n) (s : State n) (i : Fin n) (k : ℕ) (batch : EventBatch) : Prop :=
  ∃ x ∈ (s.sinks i).settled, x.settlement = .delivered ∧
    x.envelope = ⟨batch, ⟨wiring.source.id, k⟩⟩

structure Inv (wiring : Wiring n) (s : State n) : Prop where
  source : Source.Inv wiring.source s.source
  committed : Source.Committed wiring.source s.source
  length_eq : s.fanouts.length = s.source.dispatched.length
  fanouts : ∀ k f, s.fanouts[k]? = some f → FanoutOk s.source k f
  returned : ∀ c, c ∈ s.source.joined ∨ c ∈ s.source.cursor.committed →
    ∃ f, s.fanouts[c.sequence]? = some f ∧ f.phase = .returned (.ok ())
  sinks : ∀ i, ∃ now, (Sink.system (wiring.runtimes i) now).Reachable (s.sinks i)
  envelopes : ∀ i, ∀ e ∈ (s.sinks i).arrived, e.ack.source = wiring.source.id →
    ∃ f, s.fanouts[e.ack.sequence]? = some f ∧ f.batch = e.batch
  answered : ∀ i k f, s.fanouts[k]? = some f → (f.branches i).answer = some true →
    SettledBy wiring s i k f.batch

theorem start_inv (wiring : Wiring n) (now : ℕ) : Inv wiring (State.start n now) where
  source := Source.start_inv wiring.source now
  committed := Source.start_committed now
  length_eq := rfl
  fanouts := by simp [State.start]
  returned := by simp [State.start, Source.State.start, Source.Cursor.start]
  sinks _ := ⟨now, System.ReachableBy.start⟩
  envelopes := by simp [State.start, Sink.State.start]
  answered := by simp [State.start]

theorem Inv.sink (h : Inv wiring s) (i : Fin n) : Sink.Inv (wiring.runtimes i) (s.sinks i) :=
  let ⟨_, hreach⟩ := h.sinks i
  Sink.reachable_inv hreach

/-- A source that has run on, with the fan-outs of what it has dispatched meanwhile. -/
theorem Inv.setSource (h : Inv wiring s) {a : Source.Action} {source : Source.State}
    (hs : Source.step wiring.source s.source a = some source)
    (hjoin : ∀ k commit, a = .join k .ok commit →
      ∃ f, s.fanouts[k]? = some f ∧ f.phase = .returned (.ok ())) :
    Inv wiring (spawn s source) := by
  obtain ⟨⟨new, hnew, -⟩, -, hcursor⟩ := Source.step_history h.source hs
  have hdrop : source.dispatched.drop s.source.dispatched.length = new := by
    rw [hnew, List.drop_left]
  have hrun : s.source.outcome = none := by
    simp only [Source.step, Option.ite_none_right_eq_some] at hs
    exact hs.1
  have hold : ∀ {k : ℕ} {f}, s.fanouts[k]? = some f → (spawn s source).fanouts[k]? = some f := by
    intro k f hf
    exact (List.getElem?_append_left (List.getElem?_eq_some_iff.mp hf).1).trans hf
  have hfanout : ∀ {k : ℕ} {f}, (spawn s source).fanouts[k]? = some f → s.fanouts[k]? = some f ∨
      ∃ d, source.dispatched[k]? = some d ∧ f = Fanout.State.start n d.batch := by
    intro k f hf
    by_cases hk : k < s.fanouts.length
    · exact Or.inl ((List.getElem?_append_left hk).symm.trans hf)
    · refine Or.inr ?_
      rw [spawn, hdrop, List.getElem?_append_right (by omega), List.getElem?_map] at hf
      obtain ⟨d, hd, rfl⟩ := Option.map_eq_some_iff.mp hf
      refine ⟨d, ?_, rfl⟩
      rwa [hnew, List.getElem?_append_right (by rw [← h.length_eq]; omega), ← h.length_eq]
  refine ⟨Source.step_inv h.source hs, h.committed.step h.source (h.source.running hrun).joined hs,
    ?_, ?_, ?_, h.sinks, ?_, ?_⟩
  · show (s.fanouts ++ _).length = source.dispatched.length
    rw [hdrop, hnew, List.length_append, List.length_append, List.length_map, h.length_eq]
  · intro k f hf
    rcases hfanout hf with hf | ⟨d, hd, rfl⟩
    · obtain ⟨d, hd, hreach⟩ := h.fanouts k f hf
      refine ⟨d, ?_, hreach⟩
      show source.dispatched[k]? = some d
      rw [hnew, List.getElem?_append_left (List.getElem?_eq_some_iff.mp hd).1, hd]
    · exact ⟨d, hd, System.ReachableBy.start⟩
  · intro c hc
    have hfound : ∃ f, s.fanouts[c.sequence]? = some f ∧ f.phase = .returned (.ok ()) := by
      rcases hcursor with ⟨hcursor, hjoined⟩ | ⟨k, commit, released, ha, hcommits⟩
      · change c ∈ source.joined ∨ c ∈ source.cursor.committed at hc
        rw [hcursor, hjoined] at hc
        exact h.returned c hc
      · rcases hcommits.fed c hc.symm with hold | ⟨hk, -⟩
        · exact h.returned c (Or.inl hold)
        · rw [hk]
          exact hjoin k commit ha
    obtain ⟨f, hf, hphase⟩ := hfound
    exact ⟨f, hold hf, hphase⟩
  · intro i e he hown
    obtain ⟨f, hf, hbatch⟩ := h.envelopes i e he hown
    exact ⟨f, hold hf, hbatch⟩
  · intro i k f hf hanswer
    rcases hfanout hf with hf | ⟨d, hd, rfl⟩
    · exact h.answered i k f hf hanswer
    · simp [Fanout.State.start, Fanout.Branch.new] at hanswer

/-- A fan-out takes a step. Only a settlement may answer `delivered`. -/
theorem Inv.setFanout (h : Inv wiring s) {k : ℕ} {f f' : Fanout.State n} {a : Fanout.Action n}
    (hf : s.fanouts[k]? = some f) (hs : Fanout.step f a = some f')
    (hdelivered : ∀ i, a = .delivered i → SettledBy wiring s i k f.batch) :
    Inv wiring { s with fanouts := s.fanouts.set k f' } := by
  have hevolves := Fanout.step_evolves hs
  have hk := (List.getElem?_eq_some_iff.mp hf).1
  have hset : ∀ {j : ℕ} {g}, (s.fanouts.set k f')[j]? = some g →
      (j = k ∧ g = f') ∨ (j ≠ k ∧ s.fanouts[j]? = some g) := by
    intro j g hg
    by_cases hj : j = k
    · subst j
      rw [List.getElem?_set_self hk] at hg
      exact Or.inl ⟨rfl, (Option.some.inj hg).symm⟩
    · rw [List.getElem?_set_ne (Ne.symm hj)] at hg
      exact Or.inr ⟨hj, hg⟩
  have hkeep : ∀ {j : ℕ} {g}, s.fanouts[j]? = some g → ∃ g', (s.fanouts.set k f')[j]? = some g' ∧
      g'.batch = g.batch ∧ ∀ result, g.phase = .returned result → g'.phase = .returned result := by
    intro j g hg
    by_cases hj : j = k
    · subst j
      obtain rfl : f = g := Option.some.inj (hf.symm.trans hg)
      exact ⟨f', List.getElem?_set_self hk, hevolves.batch, hevolves.returned⟩
    · exact ⟨g, (List.getElem?_set_ne (Ne.symm hj)).trans hg, rfl, fun _ => id⟩
  refine ⟨h.source, h.committed, ?_, ?_, ?_, h.sinks, ?_, ?_⟩
  · rw [List.length_set]
    exact h.length_eq
  · intro j g hg
    rcases hset hg with ⟨rfl, rfl⟩ | ⟨-, hg⟩
    · obtain ⟨d, hd, hreach⟩ := h.fanouts _ f hf
      exact ⟨d, hd, hreach.next hs⟩
    · exact h.fanouts j g hg
  · intro c hc
    obtain ⟨g, hg, hphase⟩ := h.returned c hc
    obtain ⟨g', hg', -, hreturned⟩ := hkeep hg
    exact ⟨g', hg', hreturned _ hphase⟩
  · intro i e he hown
    obtain ⟨g, hg, hbatch⟩ := h.envelopes i e he hown
    obtain ⟨g', hg', hsame, -⟩ := hkeep hg
    exact ⟨g', hg', hsame.trans hbatch⟩
  · intro i j g hg hanswer
    rcases hset hg with ⟨rfl, rfl⟩ | ⟨-, hg⟩
    · rw [hevolves.batch]
      rcases hevolves.answer i hanswer with hanswer | ha
      · exact h.answered i _ f hf hanswer
      · exact hdelivered i ha
    · exact h.answered i j g hg hanswer

/-- A sink takes a step. What it receives from the source is the batch of a fan-out. -/
theorem Inv.setSink (h : Inv wiring s) {i : Fin n} {a : Sink.Action} {sink : Sink.State}
    (hs : Sink.step (wiring.runtimes i) (s.sinks i) a = some sink)
    (harrive : ∀ e, a = .arrive e → e.ack.source = wiring.source.id →
      ∃ f, s.fanouts[e.ack.sequence]? = some f ∧ f.batch = e.batch) :
    Inv wiring { s with sinks := Function.update s.sinks i sink } := by
  have hextends := Sink.step_extends (h.sink i) hs
  refine ⟨h.source, h.committed, h.length_eq, h.fanouts, h.returned, ?_, ?_, ?_⟩
  · intro j
    by_cases hj : j = i
    · subst j
      dsimp only
      rw [Function.update_self]
      obtain ⟨now, hreach⟩ := h.sinks _
      exact ⟨now, hreach.next hs⟩
    · dsimp only
      rw [Function.update_of_ne hj]
      exact h.sinks j
  · intro j e he hown
    dsimp only at he
    by_cases hj : j = i
    · subst j
      rw [Function.update_self] at he
      rcases hextends.arrived with hsame | ⟨e', ha, happend⟩
      · rw [hsame] at he
        exact h.envelopes _ e he hown
      · rw [happend] at he
        rcases List.mem_append.mp he with he | he
        · exact h.envelopes _ e he hown
        · rw [List.mem_singleton.mp he] at hown ⊢
          exact harrive e' ha hown
    · rw [Function.update_of_ne hj] at he
      exact h.envelopes j e he hown
  · intro j k f hf hanswer
    obtain ⟨x, hx, hhow, henvelope⟩ := h.answered j k f hf hanswer
    refine ⟨x, ?_, hhow, henvelope⟩
    dsimp only
    by_cases hj : j = i
    · subst j
      rw [Function.update_self]
      exact hextends.mem_settled hx
    · rwa [Function.update_of_ne hj]

/-- A settled envelope of the source carries the batch of its fan-out. -/
theorem Inv.settledBy (h : Inv wiring s) {i : Fin n} {k : ℕ} {f : Fanout.State n}
    (hf : s.fanouts[k]? = some f) {x : Sink.Settled} (hx : x ∈ (s.sinks i).settled)
    (hdelivered : x.settlement = .delivered) (hack : x.envelope.ack = ⟨wiring.source.id, k⟩) :
    SettledBy wiring s i k f.batch := by
  refine ⟨x, hx, hdelivered, ?_⟩
  obtain ⟨g, hg, hbatch⟩ := h.envelopes i _ ((h.sink i).settled_arrived hx) (by rw [hack])
  rw [hack] at hg
  obtain rfl : f = g := Option.some.inj (hf.symm.trans hg)
  rw [hbatch, ← hack]

theorem Move.inv {a : Action n} (hmove : Move wiring s a s') (h : Inv wiring s) :
    Inv wiring s' := by
  cases hmove with
  | source _ a' source hs hjoin hrecv => exact h.setSource hs hjoin
  | fanout _ k a' f f' hf hs hdelivered =>
    refine h.setFanout hf hs ?_
    intro i ha
    obtain ⟨x, hx, hhow, hack⟩ := hdelivered i ha
    exact h.settledBy hf hx hhow hack
  | enqueue k i f f' sink hf hs harrive =>
    have hmid : Inv wiring { s with fanouts := s.fanouts.set k f' } :=
      h.setFanout hf hs (by simp)
    refine hmid.setSink harrive ?_
    intro e he hown
    cases he
    refine ⟨f', List.getElem?_set_self (List.getElem?_eq_some_iff.mp hf).1, ?_⟩
    exact (Fanout.step_evolves hs).batch
  | sink _ i a' sink hs hforeign =>
    refine h.setSink hs ?_
    intro e he hown
    exact absurd hown (hforeign e he).1

/-- Records are received only where the source takes one from the consumer. -/
theorem Move.received {a : Action n} (hmove : Move wiring s a s') (h : Inv wiring s) :
    s'.source.received = s.source.received ∨ ∃ m time, a = .source (.recv m) ∧
      s'.source.received = s.source.received ++ [⟨m, time⟩] := by
  cases hmove with
  | source _ a' source hs hjoin hrecv =>
    refine (Source.step_history h.source hs).2.1.imp_right ?_
    rintro ⟨m, ha, hreceived⟩
    exact ⟨m, _, hrecv m ha, hreceived⟩
  | _ => exact Or.inl rfl

theorem step_recv {m : Record} (hs : step wiring s (.source (.recv m)) = some s') :
    s'.source.received = s.source.received ++ [⟨m, s.source.now⟩] := by
  obtain ⟨source, hsource, rfl⟩ := Option.map_eq_some_iff.mp hs
  exact Source.step_recv hsource

theorem update_written {i : Fin n} {a : Sink.Action} {sink : Sink.State} (h : Inv wiring s)
    (hs : Sink.step (wiring.runtimes i) (s.sinks i) a = some sink) (j : Fin n) {e : Event}
    (he : e ∈ (s.sinks j).written) : e ∈ (Function.update s.sinks i sink j).written := by
  by_cases hj : j = i
  · subst j
    rw [Function.update_self]
    exact (Sink.step_extends (h.sink i) hs).written (h.sink i).fates he
  · rwa [Function.update_of_ne hj]

/-- What a sink has written stays written. -/
theorem Move.written {a : Action n} (hmove : Move wiring s a s') (h : Inv wiring s) (i : Fin n)
    (e : Event) (he : e ∈ (s.sinks i).written) : e ∈ (s'.sinks i).written := by
  cases hmove with
  | source _ a' source hs hjoin hrecv => exact he
  | fanout _ k a' f f' hf hs hdelivered => exact he
  | enqueue k j f f' sink hf hs harrive => exact update_written h harrive i he
  | sink _ j a' sink hs hforeign => exact update_written h hs i he

theorem step_inv {a : Action n} (h : Inv wiring s) (hs : step wiring s a = some s') :
    Inv wiring s' :=
  (step_move hs).inv h

theorem reachable_inv {now : ℕ} (h : (system wiring now).Reachable s) : Inv wiring s := by
  apply System.Reachable.invariant (start_inv wiring now) _ h
  intro t a t' hi hs
  exact step_inv hi hs

/-- The events of a batch that was joined or committed were received by every sink in
one envelope and written with the group it was in. -/
theorem Inv.delivered_of_committed (h : Inv wiring s) {c : Source.BatchCompletion}
    (hc : c ∈ s.source.joined ∨ c ∈ s.source.cursor.committed) {d : Source.Dispatch}
    (hd : s.source.dispatched[c.sequence]? = some d) (i : Fin n) :
    ⟨d.batch, ⟨wiring.source.id, c.sequence⟩⟩ ∈ (s.sinks i).arrived ∧
      ∀ e ∈ d.batch.events, e ∈ (s.sinks i).written := by
  obtain ⟨f, hf, hphase⟩ := h.returned c hc
  obtain ⟨d', hd', hreach⟩ := h.fanouts _ f hf
  obtain rfl : d = d' := Option.some.inj (hd.symm.trans hd')
  have hanswer := Fanout.answered_of_returned hreach hphase i
  obtain ⟨x, hx, hdelivered, henvelope⟩ := h.answered i _ f hf hanswer
  rw [Fanout.reachable_batch hreach] at henvelope
  refine ⟨henvelope ▸ (h.sink i).settled_arrived hx, fun e he => ?_⟩
  exact (h.sink i).written_of_delivered hx hdelivered (by rw [henvelope]; exact he)

/-- What the committed batches hold has been written by every sink. -/
theorem Inv.delivered_of_lt (h : Inv wiring s) {k : ℕ}
    (hk : k < s.source.cursor.nextSequence) {d : Source.Dispatch}
    (hd : s.source.dispatched[k]? = some d) {e : Event} (he : e ∈ d.batch.events) (i : Fin n) :
    e ∈ (s.sinks i).written := by
  have hmem : k ∈ s.source.cursor.committed.map Source.BatchCompletion.sequence := by
    rw [h.committed.inOrder]
    exact List.mem_range.mpr hk
  obtain ⟨c, hc, rfl⟩ := List.mem_map.mp hmem
  exact (h.delivered_of_committed (Or.inr hc) hd i).2 e he

end Rustper.Router
