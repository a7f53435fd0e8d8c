import Rustper.RouterInvariant

/-!
The way of one envelope between a fan-out and a sink. An envelope that is still being
sent is in no channel; one whose branch is held has arrived at its sink, once; and what
has arrived is still held by its branch until the sink has settled it.
-/
namespace Rustper.Fanout

variable {n : ℕ} {f f' : State n}

/-- What a step makes of the envelope of branch `i`. -/
inductive StageMove (i : Fin n) : Action n → Stage → Stage → Prop
  | same (a : Action n) (stage : Stage) : StageMove i a stage stage
  | enqueue : StageMove i (.enqueue i) .sending .held
  | refuse : StageMove i (.refuse i) .sending .gone
  | answer (a : Action n) (ha : a = .delivered i ∨ a = .failed i) :
      StageMove i a .held .answered
  | drop (stage : Stage) (hstage : stage = .held ∨ stage = .answered) :
      StageMove i (.drop i) stage .gone
  | dropSend : StageMove i (.dropSend i) .sending .gone

/-- A step on branch `j` leaves the others as they are. -/
theorem StageMove.of_update {a : Action n} {j : Fin n} {b : Branch}
    (hbranches : f'.branches = Function.update f.branches j b)
    (h : StageMove j a (f.branches j).stage b.stage) (i : Fin n) :
    StageMove i a (f.branches i).stage (f'.branches i).stage := by
  rw [hbranches]
  by_cases hi : i = j
  · subst i
    rwa [Function.update_self]
  · rw [Function.update_of_ne hi]
    exact .same a _

theorem StageMove.of_complete {a : Action n} {j : Fin n} {g : Branch → Branch} {d : Bool}
    (h : StageMove j a (f.branches j).stage (g (f.branches j)).stage) (i : Fin n) :
    StageMove i a (f.branches i).stage (((f.modify j g).complete j d).branches i).stage := by
  refine .of_update (modify_complete_branches f j g d) ?_ i
  rwa [Branch.complete_stage]

theorem step_stageMove {a : Action n} (hs : step f a = some f') (i : Fin n) :
    StageMove i a (f.branches i).stage (f'.branches i).stage := by
  cases a with
  | enqueue j =>
    simp only [step, enqueue, Option.ite_none_right_eq_some, Option.some.injEq] at hs
    obtain ⟨⟨-, hstage⟩, rfl⟩ := hs
    exact .of_update (State.modify_branches f j _) (hstage ▸ .enqueue) i
  | refuse j =>
    simp only [step, refuse, Option.ite_none_right_eq_some, Option.some.injEq] at hs
    obtain ⟨⟨-, hstage⟩, rfl⟩ := hs
    exact .of_complete (hstage ▸ .refuse) i
  | delivered j =>
    simp only [step, answer, Option.ite_none_right_eq_some, Option.some.injEq] at hs
    obtain ⟨hstage, rfl⟩ := hs
    exact .of_complete (hstage ▸ .answer _ (Or.inl rfl)) i
  | failed j =>
    simp only [step, answer, Option.ite_none_right_eq_some, Option.some.injEq] at hs
    obtain ⟨hstage, rfl⟩ := hs
    exact .of_complete (hstage ▸ .answer _ (Or.inr rfl)) i
  | drop j =>
    simp only [step, drop, Option.ite_none_right_eq_some, Option.some.injEq] at hs
    obtain ⟨hstage, rfl⟩ := hs
    exact .of_complete (.drop _ hstage) i
  | dropSend j =>
    simp only [step, dropSend] at hs
    split at hs
    · simp only [Option.ite_none_right_eq_some, Option.some.injEq] at hs
      obtain ⟨hstage, rfl⟩ := hs
      exact .of_complete (hstage ▸ .dropSend) i
    · contradiction
  | joinSends | cancel | ackClosed =>
    simp only [step, joinSends, cancel, ackClosed, Option.ite_none_right_eq_some,
      Option.some.injEq] at hs
    obtain ⟨-, rfl⟩ := hs
    exact .same _ _
  | abort | acknowledged =>
    simp only [step, abort, acknowledged] at hs
    split at hs <;> cases hs <;> exact .same _ _
  | endCancel =>
    simp only [step, endCancel] at hs
    split at hs
    · simp only [Option.ite_none_right_eq_some, Option.some.injEq] at hs
      obtain ⟨-, rfl⟩ := hs
      exact .same _ _
    · contradiction

end Rustper.Fanout

namespace Rustper.Router

open TransitionSystem

variable {n : ℕ} {wiring : Wiring n} {s s' : State n}

/-- Which part takes a step, and what allows it to. -/
inductive Taken (wiring : Wiring n) (s : State n) : Action n → State n → Prop
  | source (a : Source.Action) (source : Source.State)
      (hs : Source.step wiring.source s.source a = some source)
      (hnot : ∀ k result commit, a ≠ .join k result commit) :
      Taken wiring s (.source a) (spawn s source)
  | join (k : ℕ) (commit : Source.BatchCompletion → Bool) (f : Fanout.State n)
      (result : Source.TaskResult) (source : Source.State) (hf : s.fanouts[k]? = some f)
      (hresult : taskResult f = some result)
      (hs : Source.step wiring.source s.source (.join k result commit) = some source) :
      Taken wiring s (.join k commit) (spawn s source)
  | fanout (k : ℕ) (a : Fanout.Action n) (f f' : Fanout.State n) (hf : s.fanouts[k]? = some f)
      (hown : ownAction s f a = true) (hs : Fanout.step f a = some f') :
      Taken wiring s (.fanout k a) { s with fanouts := s.fanouts.set k f' }
  | enqueue (k : ℕ) (i : Fin n) (f f' : Fanout.State n) (sink : Sink.State)
      (hf : s.fanouts[k]? = some f) (hs : Fanout.step f (.enqueue i) = some f')
      (harrive : Sink.step (wiring.runtimes i) (s.sinks i)
        (.arrive (envelopeOf wiring k f)) = some sink) :
      Taken wiring s (.enqueue k i)
        { s with
          fanouts := s.fanouts.set k f'
          sinks := Function.update s.sinks i sink }
  | refuse (k : ℕ) (i : Fin n) (f f' : Fanout.State n) (hf : s.fanouts[k]? = some f)
      (hreturned : (s.sinks i).returned = true) (hs : Fanout.step f (.refuse i) = some f') :
      Taken wiring s (.refuse k i) { s with fanouts := s.fanouts.set k f' }
  | settle (i : Fin n) (x : Sink.Settled) (f f' : Fanout.State n)
      (hx : x ∈ (s.sinks i).settled) (hown : x.envelope.ack.source = wiring.source.id)
      (hf : s.fanouts[x.envelope.ack.sequence]? = some f)
      (hs : Fanout.step f (settlementAction i x.settlement) = some f') :
      Taken wiring s (.settle i x)
        { s with fanouts := s.fanouts.set x.envelope.ack.sequence f' }
  | sink (i : Fin n) (a : Sink.Action) (sink : Sink.State)
      (hs : Sink.step (wiring.runtimes i) (s.sinks i) a = some sink)
      (hnot : ∀ e, a ≠ .arrive e) :
      Taken wiring s (.sink i a) { s with sinks := Function.update s.sinks i sink }
  | foreign (i : Fin n) (e : Sink.SinkEnvelope) (sink : Sink.State)
      (hforeign : e.ack.source ≠ wiring.source.id)
      (hs : Sink.step (wiring.runtimes i) (s.sinks i) (.arrive e) = some sink) :
      Taken wiring s (.foreign i e) { s with sinks := Function.update s.sinks i sink }

theorem step_taken {a : Action n} (hs : step wiring s a = some s') : Taken wiring s a s' := by
  cases a with
  | source a =>
    cases a with
    | join k result commit => contradiction
    | _ =>
      obtain ⟨source, hsource, rfl⟩ := Option.map_eq_some_iff.mp hs
      exact .source _ source hsource (by simp)
  | join k commit =>
    simp only [step, join, Option.bind_eq_bind, Option.bind_eq_some_iff] at hs
    obtain ⟨f, hf, result, hresult, source, hsource, hs⟩ := hs
    cases hs
    exact .join k commit f result source hf hresult hsource
  | fanout k a =>
    simp only [step, fanoutStep, Option.bind_eq_bind, Option.bind_eq_some_iff,
      Option.ite_none_right_eq_some] at hs
    obtain ⟨f, hf, hown, hs⟩ := hs
    obtain ⟨g, f', hg, hf', rfl⟩ := updateFanout_some hs
    obtain rfl : f = g := Option.some.inj (hf.symm.trans hg)
    exact .fanout k a f f' hf hown hf'
  | enqueue k i =>
    simp only [step, enqueue, Option.bind_eq_bind, Option.bind_eq_some_iff] at hs
    obtain ⟨f, hf, t, ht, hs⟩ := hs
    obtain ⟨g, f', hg, hf', rfl⟩ := updateFanout_some ht
    obtain rfl : f = g := Option.some.inj (hf.symm.trans hg)
    obtain ⟨sink, hsink, rfl⟩ := updateSink_some hs
    exact .enqueue k i f f' sink hf hf' hsink
  | refuse k i =>
    simp only [step, refuse, Option.ite_none_right_eq_some] at hs
    obtain ⟨f, f', hf, hf', rfl⟩ := updateFanout_some hs.2
    exact .refuse k i f f' hf hs.1 hf'
  | settle i x =>
    simp only [step, settle, Option.ite_none_right_eq_some] at hs
    obtain ⟨⟨hx, hown⟩, hs⟩ := hs
    obtain ⟨f, f', hf, hf', rfl⟩ := updateFanout_some hs
    exact .settle i x f f' hx hown hf hf'
  | sink i a =>
    have hs : sinkStep wiring s i a = some s' := hs
    cases a with
    | arrive e => contradiction
    | _ =>
      obtain ⟨sink, hsink, rfl⟩ := updateSink_some hs
      exact .sink i _ sink hsink (by simp)
  | foreign i e =>
    simp only [step, foreign, Option.ite_none_right_eq_some] at hs
    obtain ⟨sink, hsink, rfl⟩ := updateSink_some hs.2
    exact .foreign i e sink hs.1.1 hsink

/-- The envelopes of the source that have arrived at a sink, by sequence. -/
def ownArrivals (wiring : Wiring n) (s : State n) (i : Fin n) : List ℕ :=
  ((s.sinks i).arrived.filter (fun e => e.ack.source = wiring.source.id)).map
    (fun e => e.ack.sequence)

/-- What the stage of a branch says about its envelope at the sink. -/
structure Linked (wiring : Wiring n) (s : State n) (i : Fin n) : Prop where
  sending : ∀ k f, s.fanouts[k]? = some f → (f.branches i).stage = .sending →
    k ∉ ownArrivals wiring s i
  held : ∀ k f, s.fanouts[k]? = some f → (f.branches i).stage = .held →
    envelopeOf wiring k f ∈ (s.sinks i).arrived
  once : (ownArrivals wiring s i).Nodup
  answered : ∀ e ∈ (s.sinks i).arrived, e.ack.source = wiring.source.id →
    ∃ f, s.fanouts[e.ack.sequence]? = some f ∧
      ((f.branches i).stage = .held ∨ ∃ x ∈ (s.sinks i).settled, x.envelope = e)

theorem start_linked (wiring : Wiring n) (now : ℕ) (i : Fin n) :
    Linked wiring (State.start n now) i where
  sending := by simp [State.start]
  held := by simp [State.start]
  once := by simp [ownArrivals, State.start, Sink.State.start]
  answered := by simp [State.start, Sink.State.start]

theorem mem_ownArrivals {i : Fin n} {k : ℕ} : k ∈ ownArrivals wiring s i ↔
    ∃ e ∈ (s.sinks i).arrived, e.ack = ⟨wiring.source.id, k⟩ := by
  simp only [ownArrivals, List.mem_map, List.mem_filter, decide_eq_true_eq]
  constructor
  · rintro ⟨e, ⟨he, hown⟩, rfl⟩
    exact ⟨e, he, by rw [← hown]⟩
  · rintro ⟨e, he, hack⟩
    exact ⟨e, ⟨he, by rw [hack]⟩, by rw [hack]⟩

/-- An envelope of the source is told by its sequence. -/
theorem Linked.eq_of_ack {i : Fin n} (h : Linked wiring s i) {e e' : Sink.SinkEnvelope}
    (he : e ∈ (s.sinks i).arrived) (he' : e' ∈ (s.sinks i).arrived)
    (hown : e.ack.source = wiring.source.id) (hack : e.ack = e'.ack) : e = e' := by
  have hfilter : ∀ {x : Sink.SinkEnvelope}, x ∈ (s.sinks i).arrived →
      x.ack.source = wiring.source.id → x ∈ (s.sinks i).arrived.filter
        (fun e => e.ack.source = wiring.source.id) :=
    fun hx hsource => List.mem_filter.mpr ⟨hx, by simpa using hsource⟩
  exact List.inj_on_of_nodup_map h.once (hfilter he hown) (hfilter he' (hack ▸ hown))
    (congrArg Sink.BranchAck.sequence hack)

/-- A step that brings nothing to the sink, and may settle. -/
theorem Linked.keep {i : Fin n} (h : Linked wiring s i)
    (harrived : (s'.sinks i).arrived = (s.sinks i).arrived)
    (hsettled : ∀ x ∈ (s.sinks i).settled, x ∈ (s'.sinks i).settled)
    (hbefore : ∀ (k : ℕ) (f' : Fanout.State n), s'.fanouts[k]? = some f' →
      (∃ f : Fanout.State n, s.fanouts[k]? = some f ∧ f'.batch = f.batch ∧
        ((f'.branches i).stage = .sending → (f.branches i).stage = .sending) ∧
        ((f'.branches i).stage = .held → (f.branches i).stage = .held)) ∨
      ((f'.branches i).stage = .sending ∧ s.fanouts[k]? = none))
    (hafter : ∀ (k : ℕ) (f : Fanout.State n), s.fanouts[k]? = some f → ∃ f', s'.fanouts[k]? = some f' ∧
      ((f.branches i).stage = .held → (f'.branches i).stage = .held ∨
        ∃ x ∈ (s.sinks i).settled, x.envelope.ack = ⟨wiring.source.id, k⟩))
    (hsink : Sink.Inv (wiring.runtimes i) (s.sinks i)) : Linked wiring s' i := by
  have hown : ownArrivals wiring s' i = ownArrivals wiring s i := by
    rw [ownArrivals, harrived, ownArrivals]
  refine ⟨?_, ?_, hown ▸ h.once, ?_⟩
  · intro k f' hf' hstage
    rw [hown]
    rcases hbefore k f' hf' with ⟨f, hf, -, hsending, -⟩ | ⟨-, hnone⟩
    · exact h.sending k f hf (hsending hstage)
    · intro hk
      obtain ⟨e, he, hack⟩ := mem_ownArrivals.mp hk
      obtain ⟨f, hf, -⟩ := h.answered e he (by rw [hack])
      rw [hack] at hf
      rw [hnone] at hf
      contradiction
  · intro k f' hf' hstage
    rcases hbefore k f' hf' with ⟨f, hf, hbatch, -, hheld⟩ | ⟨hsending, -⟩
    · rw [harrived, envelopeOf, hbatch]
      exact h.held k f hf (hheld hstage)
    · rw [hsending] at hstage
      contradiction
  · intro e he hsource
    rw [harrived] at he
    obtain ⟨f, hf, hstage⟩ := h.answered e he hsource
    obtain ⟨f', hf', hheld⟩ := hafter _ f hf
    refine ⟨f', hf', ?_⟩
    rcases hstage with hstage | ⟨x, hx, henvelope⟩
    · refine (hheld hstage).imp_right ?_
      rintro ⟨x, hx, hack⟩
      refine ⟨x, hsettled x hx, ?_⟩
      refine (h.eq_of_ack he (hsink.settled_arrived hx) hsource ?_).symm
      rw [hack, ← hsource]
    · exact Or.inr ⟨x, hsettled x hx, henvelope⟩

/-- A branch of one fan-out moves without an envelope going into the channel. -/
theorem Linked.setFanout {i : Fin n} (h : Linked wiring s i)
    (hsink : Sink.Inv (wiring.runtimes i) (s.sinks i)) {k : ℕ} {f f' : Fanout.State n}
    {a : Fanout.Action n} (hf : s.fanouts[k]? = some f) (hs : Fanout.step f a = some f')
    (hnot : a ≠ .enqueue i)
    (hanswer : (f.branches i).stage = .held → a = .delivered i ∨ a = .failed i ∨ a = .drop i →
      ∃ x ∈ (s.sinks i).settled, x.envelope.ack = ⟨wiring.source.id, k⟩)
    (hfanouts : s'.fanouts = s.fanouts.set k f') (hsinks : s'.sinks i = s.sinks i) :
    Linked wiring s' i := by
  have hk := (List.getElem?_eq_some_iff.mp hf).1
  have hmove := Fanout.step_stageMove hs i
  have hevolves := Fanout.step_evolves hs
  refine h.keep (by rw [hsinks]) (fun x hx => hsinks ▸ hx) ?_ ?_ hsink
  · intro j g' hg'
    rw [hfanouts] at hg'
    by_cases hj : j = k
    · subst j
      rw [List.getElem?_set_self hk] at hg'
      obtain rfl := Option.some.inj hg'
      refine Or.inl ⟨f, hf, hevolves.batch, hevolves.stage i, fun hheld => ?_⟩
      rw [hheld] at hmove
      generalize hstage : (f.branches i).stage = stage at hmove
      cases hmove with
      | same => rfl
      | enqueue => exact absurd rfl hnot
    · rw [List.getElem?_set_ne (Ne.symm hj)] at hg'
      exact Or.inl ⟨g', hg', rfl, id, id⟩
  · intro j g hg
    rw [hfanouts]
    by_cases hj : j = k
    · subst j
      obtain rfl : f = g := Option.some.inj (hf.symm.trans hg)
      refine ⟨f', List.getElem?_set_self hk, fun hheld => ?_⟩
      have hsettled := hanswer hheld
      rw [hheld] at hmove
      generalize (f'.branches i).stage = stage at hmove
      cases hmove with
      | same => exact Or.inl rfl
      | answer _ ha => exact Or.inr (hsettled (ha.imp_right Or.inl))
      | drop => exact Or.inr (hsettled (Or.inr (Or.inr rfl)))
    · rw [List.getElem?_set_ne (Ne.symm hj)]
      exact ⟨g, hg, Or.inl⟩

/-- The envelope of a branch that is being sent goes into the channel. -/
theorem enqueue_linked {i : Fin n} (h : Linked wiring s i) {k : ℕ} {f f' : Fanout.State n}
    (hf : s.fanouts[k]? = some f) (hs : Fanout.step f (.enqueue i) = some f')
    (hfanouts : s'.fanouts = s.fanouts.set k f')
    (harrived : (s'.sinks i).arrived = (s.sinks i).arrived ++ [envelopeOf wiring k f])
    (hsettled : ∀ x ∈ (s.sinks i).settled, x ∈ (s'.sinks i).settled) : Linked wiring s' i := by
  have hk := (List.getElem?_eq_some_iff.mp hf).1
  have hstages : (f.branches i).stage = .sending ∧ (f'.branches i).stage = .held := by
    simp only [Fanout.step, Fanout.enqueue, Option.ite_none_right_eq_some,
      Option.some.injEq] at hs
    obtain ⟨⟨-, hstage⟩, rfl⟩ := hs
    exact ⟨hstage, by simp [Fanout.State.modify_branches]⟩
  have hbatch : f'.batch = f.batch := (Fanout.step_evolves hs).batch
  have hown : ownArrivals wiring s' i = ownArrivals wiring s i ++ [k] := by
    simp [ownArrivals, harrived, envelopeOf]
  have hnew : k ∉ ownArrivals wiring s i := h.sending k f hf hstages.1
  have hget : ∀ {j : ℕ} {g : Fanout.State n}, s'.fanouts[j]? = some g →
      (j = k ∧ g = f') ∨ (j ≠ k ∧ s.fanouts[j]? = some g) := by
    intro j g hg
    rw [hfanouts] at hg
    by_cases hj : j = k
    · subst j
      rw [List.getElem?_set_self hk] at hg
      exact Or.inl ⟨rfl, (Option.some.inj hg).symm⟩
    · rw [List.getElem?_set_ne (Ne.symm hj)] at hg
      exact Or.inr ⟨hj, hg⟩
  refine ⟨?_, ?_, ?_, ?_⟩
  · intro j g hg hstage
    rcases hget hg with ⟨rfl, rfl⟩ | ⟨hj, hg⟩
    · rw [hstages.2] at hstage
      contradiction
    · rw [hown, List.mem_append, List.mem_singleton]
      rintro (hmem | hmem)
      · exact h.sending j g hg hstage hmem
      · exact hj hmem
  · intro j g hg hstage
    rw [harrived]
    rcases hget hg with ⟨rfl, rfl⟩ | ⟨-, hg⟩
    · simp only [envelopeOf, hbatch]
      exact List.mem_append_right _ List.mem_cons_self
    · exact List.mem_append_left _ (h.held j g hg hstage)
  · rw [hown, List.nodup_append]
    refine ⟨h.once, List.nodup_singleton k, ?_⟩
    rintro j hj j' hj' rfl
    rw [List.mem_singleton.mp hj'] at hj
    exact hnew hj
  · intro e he hsource
    rw [harrived] at he
    rcases List.mem_append.mp he with hold | he
    · obtain ⟨g, hg, hstage⟩ := h.answered e hold hsource
      have hne : e.ack.sequence ≠ k := by
        rintro rfl
        refine hnew (mem_ownArrivals.mpr ⟨e, hold, ?_⟩)
        rw [← hsource]
      refine ⟨g, ?_, hstage.imp_right fun hx => ?_⟩
      · rw [hfanouts, List.getElem?_set_ne (Ne.symm hne)]
        exact hg
      · obtain ⟨x, hx, henvelope⟩ := hx
        exact ⟨x, hsettled x hx, henvelope⟩
    · rw [List.mem_singleton.mp he]
      refine ⟨f', ?_, Or.inl hstages.2⟩
      rw [hfanouts]
      exact List.getElem?_set_self hk

/-- A sink step that brings no envelope of the source. -/
theorem Linked.setSink {i j : Fin n} (h : Linked wiring s i) {a : Sink.Action}
    {sink : Sink.State} (hinv : ∀ j, Sink.Inv (wiring.runtimes j) (s.sinks j))
    (hs : Sink.step (wiring.runtimes j) (s.sinks j) a = some sink)
    (hforeign : ∀ e, a = .arrive e → e.ack.source ≠ wiring.source.id) :
    Linked wiring { s with sinks := Function.update s.sinks j sink } i := by
  by_cases hi : i = j
  · subst j
    have hextends := Sink.step_extends (hinv i) hs
    have hown : ownArrivals wiring { s with sinks := Function.update s.sinks i sink } i =
        ownArrivals wiring s i := by
      simp only [ownArrivals, Function.update_self]
      rcases hextends.arrived with hsame | ⟨e, ha, happend⟩
      · rw [hsame]
      · rw [happend, List.filter_append]
        simp [hforeign e ha]
    refine ⟨?_, ?_, hown ▸ h.once, ?_⟩
    · intro k f hf hstage
      rw [hown]
      exact h.sending k f hf hstage
    · intro k f hf hstage
      have hmem := h.held k f hf hstage
      simp only [Function.update_self]
      rcases hextends.arrived with hsame | ⟨e, -, happend⟩
      · rwa [hsame]
      · rw [happend]
        exact List.mem_append_left _ hmem
    · intro e he hsource
      simp only [Function.update_self] at he ⊢
      have hold : e ∈ (s.sinks i).arrived := by
        rcases hextends.arrived with hsame | ⟨e', ha, happend⟩
        · rwa [hsame] at he
        · rw [happend] at he
          rcases List.mem_append.mp he with he | he
          · exact he
          · rw [List.mem_singleton.mp he] at hsource
            exact absurd hsource (hforeign e' ha)
      obtain ⟨f, hf, hstage⟩ := h.answered e hold hsource
      refine ⟨f, hf, hstage.imp_right ?_⟩
      rintro ⟨x, hx, henvelope⟩
      exact ⟨x, hextends.mem_settled hx, henvelope⟩
  · have hsame : Function.update s.sinks j sink i = s.sinks i := Function.update_of_ne hi _ _
    refine h.keep ?_ ?_ ?_ ?_ (hinv i)
    · simp only [hsame]
    · simp only [hsame]
      exact fun x hx => hx
    · exact fun k f hf => Or.inl ⟨f, hf, rfl, id, id⟩
    · exact fun k f hf => ⟨f, hf, Or.inl⟩

/-- The fan-outs of newly dispatched batches have sent nothing. -/
theorem spawn_linked {i : Fin n} (h : Linked wiring s i)
    (hsink : Sink.Inv (wiring.runtimes i) (s.sinks i)) (source : Source.State) :
    Linked wiring (spawn s source) i := by
  refine h.keep rfl (fun x hx => hx) ?_ ?_ hsink
  · intro k f' hf'
    by_cases hk : k < s.fanouts.length
    · exact Or.inl ⟨f', (List.getElem?_append_left hk).symm.trans hf', rfl, id, id⟩
    · refine Or.inr ⟨?_, List.getElem?_eq_none (by omega)⟩
      rw [spawn, List.getElem?_append_right (by omega), List.getElem?_map] at hf'
      obtain ⟨d, -, rfl⟩ := Option.map_eq_some_iff.mp hf'
      rfl
  · intro k f hf
    refine ⟨f, ?_, Or.inl⟩
    exact (List.getElem?_append_left (List.getElem?_eq_some_iff.mp hf).1).trans hf

theorem Taken.linked {a : Action n} (htaken : Taken wiring s a s') (h : Inv wiring s)
    {i : Fin n} (hlinked : Linked wiring s i) : Linked wiring s' i := by
  have hsinks := fun j => h.sink j
  cases htaken with
  | source a source hs hnot => exact spawn_linked hlinked (hsinks i) source
  | join k commit f result source hf hresult hs => exact spawn_linked hlinked (hsinks i) source
  | fanout k a f f' hf hown hs =>
    refine hlinked.setFanout (hsinks i) hf hs ?_ ?_ rfl rfl
    · rintro rfl
      simp [ownAction] at hown
    · rintro hheld (rfl | rfl | rfl)
      · simp [ownAction] at hown
      · simp [ownAction] at hown
      · simp [ownAction, hheld] at hown
  | enqueue k j f f' sink hf hs harrive =>
    by_cases hi : i = j
    · subst j
      refine enqueue_linked hlinked hf hs rfl ?_ ?_
      · simp only [Function.update_self]
        simp only [Sink.step, Sink.arrive, Option.ite_none_right_eq_some,
          Option.some.injEq] at harrive
        obtain ⟨-, rfl⟩ := harrive
        rfl
      · simp only [Function.update_self]
        exact fun x hx => (Sink.step_extends (hsinks i) harrive).mem_settled hx
    · refine hlinked.setFanout (hsinks i) hf hs ?_ ?_ rfl (Function.update_of_ne hi _ _)
      · intro heq
        cases heq
        exact hi rfl
      · rintro - (ha | ha | ha) <;> contradiction
  | refuse k j f f' hf hreturned hs =>
    refine hlinked.setFanout (hsinks i) hf hs (by simp) ?_ rfl rfl
    rintro - (ha | ha | ha) <;> contradiction
  | settle j x f f' hx hown hf hs =>
    refine hlinked.setFanout (hsinks i) hf hs ?_ ?_ rfl rfl
    · cases x.settlement <;> simp [settlementAction]
    · rintro - hanswer
      have hj : j = i := by
        cases hhow : x.settlement <;> simpa [hhow, settlementAction] using hanswer
      subst j
      exact ⟨x, hx, by rw [← hown]⟩
  | sink j a sink hs hnot => exact hlinked.setSink hsinks hs (fun e he => absurd he (hnot e))
  | foreign j e sink hforeign hs =>
    refine hlinked.setSink hsinks hs ?_
    rintro e' he'
    cases he'
    exact hforeign

theorem reachable_linked {now : ℕ} (h : (system wiring now).Reachable s) (i : Fin n) :
    Linked wiring s i := by
  have hboth : Inv wiring s ∧ Linked wiring s i := by
    have hstart : Inv wiring (State.start n now) ∧ Linked wiring (State.start n now) i :=
      ⟨start_inv wiring now, start_linked wiring now i⟩
    apply System.Reachable.invariant hstart _ h
    intro t a t' ht hs
    exact ⟨step_inv ht.1 hs, (step_taken hs).linked ht.1 ht.2⟩
  exact hboth.2

/-- A sink has been sent the batches of the source, each of them once at most. -/
theorem ownBatches_subperm (h : Inv wiring s) {i : Fin n} (hlinked : Linked wiring s i) :
    (((s.sinks i).arrived.filter (fun e => e.ack.source = wiring.source.id)).map
      Sink.SinkEnvelope.batch).Subperm (s.source.dispatched.map Source.Dispatch.batch) := by
  have hbatch : ∀ e ∈ (s.sinks i).arrived.filter (fun e => e.ack.source = wiring.source.id),
      (s.source.dispatched.map Source.Dispatch.batch)[e.ack.sequence]? = some e.batch := by
    intro e he
    obtain ⟨he, hown⟩ := List.mem_filter.mp he
    obtain ⟨f, hf, hbatch⟩ := h.envelopes i e he (of_decide_eq_true hown)
    obtain ⟨d, hd, hreach⟩ := h.fanouts _ f hf
    rw [List.getElem?_map, hd, ← hbatch, Fanout.reachable_batch hreach]
    rfl
  have hpicked : ((s.sinks i).arrived.filter (fun e => e.ack.source = wiring.source.id)).map
      Sink.SinkEnvelope.batch = (ownArrivals wiring s i).filterMap
        (fun k => (s.source.dispatched.map Source.Dispatch.batch)[k]?) := by
    rw [ownArrivals, List.filterMap_map, ← List.filterMap_eq_map]
    apply List.filterMap_congr
    intro e he
    exact (hbatch e he).symm
  rw [hpicked]
  apply Slots.filterMap_getElem?_subperm hlinked.once
  intro k hk
  obtain ⟨e, he, rfl⟩ := List.mem_map.mp hk
  exact (List.getElem?_eq_some_iff.mp (hbatch e he)).1

end Rustper.Router
