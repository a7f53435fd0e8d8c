import Rustper.SinkMoves

/-!
Invariants of the sink runtime. `Ledger` says where every envelope is, `Fates` what
has become of every dispatched group, and `Counted` what the counters count.
-/
namespace Rustper.Sink

open TransitionSystem

variable {runtime : Runtime}

/-- Every envelope put into the channel is settled or held, once. -/
structure Ledger (s : State) : Prop where
  perm : s.arrived.Perm (s.settledEnvelopes ++ s.held)
  orphans : s.returned = false → s.orphans = []

theorem Ledger.move {s s' : State} (h : Ledger s) (harrived : s'.arrived = s.arrived)
    (hsettled : s'.settled = s.settled) (hheld : s'.held.Perm s.held)
    (horphans : s'.returned = false → s'.orphans = []) : Ledger s' := by
  refine ⟨?_, horphans⟩
  rw [harrived, State.settledEnvelopes, hsettled]
  exact h.perm.trans (hheld.symm.append_left _)

/-- Envelopes that stop being held because they are settled. -/
theorem Ledger.settle {s t : State} (h : Ledger s) {write : Option ℕ} {how : Settlement}
    {envelopes : List SinkEnvelope} (harrived : t.arrived = s.arrived)
    (hsettled : t.settled = s.settled) (hheld : s.held.Perm (envelopes ++ t.held))
    (horphans : t.returned = false → t.orphans = []) :
    Ledger (t.settle write envelopes how) := by
  refine ⟨?_, horphans⟩
  show t.arrived.Perm
    ((t.settled ++ settlements write how envelopes).map Settled.envelope ++ t.held)
  rw [harrived, hsettled, List.map_append, settlements_envelope, List.append_assoc]
  exact h.perm.trans (hheld.append_left _)

/-- A write that is still running after the step holds what it held. -/
theorem live_restage {s : State} {pre post : List Write} {w : Write} (stage : WriteStage)
    (hwrites : s.writes = pre ++ w :: post) (hlive : w.live = true)
    (hlive' : Write.live { w with stage := stage } = true) :
    ((pre ++ { w with stage := stage } :: post).filter Write.live).flatMap Write.envelopes =
      s.live.flatMap Write.envelopes := by
  simp [State.live, hwrites, hlive, hlive']

theorem live_remove {s : State} {pre post : List Write} {w : Write}
    (hwrites : s.writes = pre ++ w :: post) (hlive : w.live = true) :
    (s.live.flatMap Write.envelopes).Perm
      (w.envelopes ++ ((pre ++ post).filter Write.live).flatMap Write.envelopes) := by
  simp only [State.live, hwrites, List.filter_append, List.filter_cons, hlive, if_true,
    List.flatMap_append, List.flatMap_cons]
  exact List.perm_append_comm_assoc _ _ _

theorem Write.live_of_writing {w : Write} {attempt backoff : ℕ}
    (h : w.stage = .writing attempt backoff) : w.live = true := by
  rw [Write.live, h]

theorem Move.ledger {s s' : State} {a : Action} (hmove : Move runtime s a s') (h : Ledger s) :
    Ledger s' := by
  have hperm := List.perm_iff_count.mp h.perm
  cases hmove with
  | shuffle _ _ hsame => exact h.move hsame.arrived hsame.settled hsame.held hsame.orphans
  | exit k _ w hsame => exact h.move hsame.arrived hsame.settled hsame.held hsame.orphans
  | arrive e hrun =>
    refine ⟨List.perm_iff_count.mpr (fun x => ?_), h.orphans⟩
    have hx := hperm x
    simp only [State.settledEnvelopes, State.held, State.live, List.count_append] at hx ⊢
    omega
  | dispatch envelopes hphase =>
    have hrun : s.returned = false := by
      rw [State.returned, hphase]
      rfl
    refine ⟨List.perm_iff_count.mpr (fun x => ?_), fun _ => h.orphans hrun⟩
    have hx := hperm x
    simp only [State.settledEnvelopes, State.held, State.live, hphase, Phase.group,
      List.count_append, List.filter_append, List.flatMap_append] at hx ⊢
    simp only [Write.live, List.filter_cons, List.filter_nil, if_true, List.flatMap_cons,
      List.flatMap_nil, List.append_nil, List.count_nil] at hx ⊢
    omega
  | call _ pre post w number backoff hwrites hlive hnumber =>
    have hheld := live_restage (.writing number backoff) hwrites hlive rfl
    exact h.move rfl rfl ((List.Perm.of_eq hheld).append_left _) h.orphans
  | retry _ pre post w attempt backoff e hwrites hstage hretry =>
    have hheld := live_restage (.sleeping attempt backoff (s.now + backoff)) hwrites
      (Write.live_of_writing hstage) rfl
    exact h.move rfl rfl ((List.Perm.of_eq hheld).append_left _) h.orphans
  | finish k _ pre post w attempt backoff result ending hk hwrites hstage hlast hok =>
    refine h.settle rfl rfl ?_ h.orphans
    have hremove := live_remove hwrites (Write.live_of_writing hstage)
    have hdone : (pre ++ { w with stage := .done ending } :: post).filter Write.live =
        (pre ++ post).filter Write.live := by
      simp [Write.live]
    simp only [State.held, State.live, State.record, hdone]
    exact (hremove.append_left _).trans (List.perm_append_comm_assoc _ _ _)
  | dropRest _ e queue orphans hrun hrest =>
    refine h.settle rfl rfl ?_ (fun hnot => ?_)
    · refine List.perm_iff_count.mpr (fun x => ?_)
      have hx := List.perm_iff_count.mp hrest x
      simp only [State.held, State.live, List.count_append, List.count_cons, List.count_nil]
        at hx ⊢
      omega
    · rw [State.returned] at hnot hrun
      rw [hrun] at hnot
      contradiction
  | dropWrite _ pre post w hrun hwrites hlive =>
    refine h.settle rfl rfl ?_ h.orphans
    have hremove := live_remove hwrites hlive
    exact (hremove.append_left _).trans (List.perm_append_comm_assoc _ _ _)

/-- No call of the write of group `k` has ended it, and none of its envelopes is settled. -/
structure Pending (runtime : Runtime) (s : State) (k : ℕ) : Prop where
  entries : s.entries k = []
  attempts : ∀ a ∈ s.attemptsOf k, a.retried runtime.settings = true

/-- The write of group `k` is over and has settled the group `g` in one way, which says
how it ended. -/
structure Ended (runtime : Runtime) (s : State) (k : ℕ) (g : List SinkEnvelope)
    (how : Settlement) : Prop where
  entries : s.entries k = settlements (some k) how g
  succeeded : k ∈ s.succeeded ↔ how = .delivered
  exhausted : k ∈ s.exhausted runtime.settings ↔ how = .failed
  dropped : how = .dropped → k ∈ s.panicked ∨ k ∈ s.aborted

/-- What the invariants say about group `k` is the same in both states. -/
structure SameFor (k : ℕ) (s s' : State) : Prop where
  entries : s'.entries k = s.entries k
  attempts : s'.attemptsOf k = s.attemptsOf k
  aborted : s.aborted ⊆ s'.aborted

theorem mem_groupsWith {p : Attempt → Bool} {s : State} {k : ℕ} :
    k ∈ s.groupsWith p ↔ ∃ a ∈ s.attemptsOf k, p a = true := by
  simp only [State.groupsWith, State.attemptsOf, List.mem_map, List.mem_filter,
    decide_eq_true_eq]
  constructor
  · rintro ⟨a, ⟨ha, hp⟩, hk⟩
    exact ⟨a, ⟨ha, hk⟩, hp⟩
  · rintro ⟨a, ⟨ha, hk⟩, hp⟩
    exact ⟨a, ⟨ha, hp⟩, hk⟩

section SameFor

variable {k : ℕ} {s s' : State}

theorem SameFor.mem_groupsWith (h : SameFor k s s') {p : Attempt → Bool} :
    k ∈ s'.groupsWith p ↔ k ∈ s.groupsWith p := by
  rw [Sink.mem_groupsWith, Sink.mem_groupsWith, h.attempts]

theorem SameFor.pending (h : SameFor k s s') (hk : Pending runtime s k) :
    Pending runtime s' k :=
  ⟨h.entries.trans hk.entries, h.attempts ▸ hk.attempts⟩

theorem SameFor.ended (h : SameFor k s s') {g : List SinkEnvelope} {how : Settlement}
    (hk : Ended runtime s k g how) : Ended runtime s' k g how where
  entries := h.entries.trans hk.entries
  succeeded := h.mem_groupsWith.trans hk.succeeded
  exhausted := h.mem_groupsWith.trans hk.exhausted
  dropped hhow := (hk.dropped hhow).imp h.mem_groupsWith.mpr (fun hmem => h.aborted hmem)

/-- A step about another group. -/
theorem SameFor.of_append {attempts : List Attempt} {settled : List Settled}
    (hattempts : s'.attempts = s.attempts ++ attempts)
    (hsettled : s'.settled = s.settled ++ settled) (haborted : s'.aborted = s.aborted)
    (hother : ∀ a ∈ attempts, a.write ≠ k) (hloose : ∀ x ∈ settled, x.write ≠ some k) :
    SameFor k s s' := by
  have hnone : settled.filter (fun x => x.write = some k) = [] :=
    List.filter_eq_nil_iff.mpr (by simpa using hloose)
  have hnever : attempts.filter (fun a => a.write = k) = [] :=
    List.filter_eq_nil_iff.mpr (by simpa using hother)
  refine ⟨?_, ?_, haborted ▸ List.Subset.refl _⟩
  · rw [State.entries, State.entries, hsettled, List.filter_append, hnone, List.append_nil]
  · rw [State.attemptsOf, State.attemptsOf, hattempts, List.filter_append, hnever,
      List.append_nil]

end SameFor

theorem groupsWith_append {p : Attempt → Bool} {s s' : State} {a : Attempt}
    (h : s'.attempts = s.attempts ++ [a]) :
    s'.groupsWith p = s.groupsWith p ++ if p a = true then [a.write] else [] := by
  unfold State.groupsWith
  rw [h, List.filter_append, List.map_append]
  by_cases hp : p a = true <;> simp [hp]

/-- A call that is retried neither succeeded nor was the last nor panicked. -/
theorem Attempt.retried_excludes {settings : DeliverySettings} {a : Attempt}
    (h : a.retried settings = true) :
    a.succeeded = false ∧ a.exhausts settings = false ∧ a.panicked = false := by
  obtain ⟨write, number, result⟩ := a
  match result with
  | .ok outcome => simp [Attempt.retried, Attempt.failed] at h
  | .error .panicked => simp [Attempt.retried, Attempt.failed] at h
  | .error (.write e) =>
    simp only [Attempt.retried, Attempt.failed, Bool.true_and, decide_eq_true_eq] at h
    refine ⟨rfl, ?_, by simp [Attempt.panicked]⟩
    simp only [Attempt.exhausts, Attempt.failed, Bool.true_and, decide_eq_false_iff_not]
    omega

theorem Pending.not_mem {s : State} {k : ℕ} (h : Pending runtime s k) {p : Attempt → Bool}
    (hp : ∀ a, a.retried runtime.settings = true → p a = false) : k ∉ s.groupsWith p := by
  intro hk
  obtain ⟨a, ha, hpa⟩ := mem_groupsWith.mp hk
  rw [hp a (h.attempts a ha)] at hpa
  contradiction

/-- The groups whose write is running are pending; every other one has ended, once. -/
structure Fates (runtime : Runtime) (s : State) : Prop where
  stages : ∀ w ∈ s.writes, StageOk runtime w.stage
  ids : (s.writes.map Write.id).Nodup
  groups : ∀ w ∈ s.writes, s.dispatched[w.id]? = some w.envelopes
  pending : ∀ k ∈ s.liveIds, Pending runtime s k
  unknown : ∀ k, s.dispatched.length ≤ k → Pending runtime s k
  ended : ∀ k g, s.dispatched[k]? = some g → k ∈ s.liveIds ∨ ∃ how, Ended runtime s k g how
  loose : ∀ x ∈ s.settled, x.write = none → x.settlement = .dropped
  succeeded : s.succeeded.Nodup
  exhausted : (s.exhausted runtime.settings).Nodup
  aborted : s.returned = true → ∀ k ∈ s.liveIds, k ∈ s.aborted

section Move

variable {s s' : State} {pre post : List Write} {w : Write}

theorem Shuffle.fates {lost : List ℕ} (hsame : Shuffle lost s s') (h : Fates runtime s) :
    Fates runtime s' := by
  have hfor : ∀ k, SameFor k s s' := by
    intro k
    refine ⟨?_, ?_, hsame.aborted ▸ List.subset_append_left _ _⟩
    · rw [State.entries, hsame.settled, State.entries]
    · rw [State.attemptsOf, hsame.attempts, State.attemptsOf]
  have hwith : ∀ p, s'.groupsWith p = s.groupsWith p := by
    intro p
    rw [State.groupsWith, hsame.attempts, State.groupsWith]
  have hlive : s'.liveIds = s.liveIds := by rw [State.liveIds, hsame.live, State.liveIds]
  refine ⟨?_, ?_, ?_, ?_, ?_, ?_, ?_, ?_, ?_, ?_⟩
  · intro w hw
    exact h.stages w (hsame.writes.subset hw)
  · exact h.ids.sublist (hsame.writes.map Write.id)
  · intro w hw
    rw [hsame.dispatched]
    exact h.groups w (hsame.writes.subset hw)
  · intro k hk
    exact (hfor k).pending (h.pending k (hlive ▸ hk))
  · intro k hk
    exact (hfor k).pending (h.unknown k (hsame.dispatched ▸ hk))
  · intro k g hg
    rw [hlive]
    exact (h.ended k g (hsame.dispatched ▸ hg)).imp_right
      (Exists.imp fun how hend => (hfor k).ended hend)
  · rw [hsame.settled]
    exact h.loose
  · rw [State.succeeded, hwith]
    exact h.succeeded
  · rw [State.exhausted, hwith]
    exact h.exhausted
  · intro hrun k hk
    rw [hlive] at hk
    rw [hsame.aborted]
    rcases hsame.returned hrun with hrun | hall
    · exact List.mem_append_left _ (h.aborted hrun k hk)
    · obtain ⟨w, hw, rfl⟩ := List.mem_map.mp hk
      exact List.mem_append_right _ (hall w (hsame.live ▸ hw))

theorem liveIds_restage (stage : WriteStage) (hwrites : s.writes = pre ++ w :: post)
    (hlive : w.live = true) (hlive' : Write.live { w with stage := stage } = true) :
    ((pre ++ { w with stage := stage } :: post).filter Write.live).map Write.id = s.liveIds := by
  simp [State.liveIds, State.live, hwrites, hlive, hlive']

/-- The identifiers of the running writes, when one of them is singled out. -/
theorem Fates.liveIds_split (h : Fates runtime s) (hwrites : s.writes = pre ++ w :: post)
    (hlive : w.live = true) :
    w.id ∉ ((pre ++ post).filter Write.live).map Write.id ∧
      ∀ k, k ∈ s.liveIds ↔ k = w.id ∨ k ∈ ((pre ++ post).filter Write.live).map Write.id := by
  constructor
  · intro hmem
    have hids := h.ids
    rw [hwrites, List.map_append, List.map_cons] at hids
    have hnot := (List.nodup_middle.mp hids).notMem
    obtain ⟨v, hv, hid⟩ := List.mem_map.mp hmem
    rw [← List.map_append] at hnot
    exact hnot (List.mem_map.mpr ⟨v, List.mem_of_mem_filter hv, hid⟩)
  · intro k
    simp only [State.liveIds, State.live, hwrites, List.filter_append, List.filter_cons, hlive,
      if_true, List.map_append, List.map_cons, List.mem_append, List.mem_cons]
    tauto

theorem Fates.mem_liveIds (h : Fates runtime s) (hwrites : s.writes = pre ++ w :: post)
    (hlive : w.live = true) : w.id ∈ s.liveIds :=
  ((h.liveIds_split hwrites hlive).2 w.id).mpr (Or.inl rfl)

theorem mem_writes_restage {stage : WriteStage} {P : Write → Prop}
    (hwrites : s.writes = pre ++ w :: post) (hall : ∀ v ∈ s.writes, P v)
    (hw : P { w with stage := stage }) : ∀ v ∈ pre ++ { w with stage := stage } :: post, P v := by
  intro v hv
  rcases List.mem_append.mp hv with hv | hv
  · exact hall v (by rw [hwrites]; exact List.mem_append_left _ hv)
  · rcases List.mem_cons.mp hv with rfl | hv
    · exact hw
    · exact hall v (by rw [hwrites]; exact List.mem_append_right _ (List.mem_cons_of_mem _ hv))

/-- What survives when only the stage of one write changes. -/
theorem Fates.writes_restage (h : Fates runtime s) (stage : WriteStage)
    (hwrites : s.writes = pre ++ w :: post) (hstage : StageOk runtime stage) :
    (∀ v ∈ pre ++ { w with stage := stage } :: post, StageOk runtime v.stage) ∧
      ((pre ++ { w with stage := stage } :: post).map Write.id).Nodup ∧
      ∀ v ∈ pre ++ { w with stage := stage } :: post,
        s.dispatched[v.id]? = some v.envelopes := by
  refine ⟨mem_writes_restage hwrites h.stages hstage, ?_, mem_writes_restage hwrites h.groups ?_⟩
  · have hids := h.ids
    rw [hwrites] at hids
    simpa using hids
  · exact h.groups w (by rw [hwrites]; exact List.mem_append_right _ List.mem_cons_self)

/-- A running write goes on: the calls it made meanwhile have not ended it. -/
theorem Fates.restage (h : Fates runtime s) (stage : WriteStage) {attempts : List Attempt}
    (hwrites : s.writes = pre ++ w :: post) (hlive : w.live = true)
    (hlive' : Write.live { w with stage := stage } = true) (hstage : StageOk runtime stage)
    (hwrites' : s'.writes = pre ++ { w with stage := stage } :: post)
    (hdispatched : s'.dispatched = s.dispatched) (hsettled : s'.settled = s.settled)
    (haborted : s'.aborted = s.aborted) (hreturned : s'.returned = s.returned)
    (hattempts : s'.attempts = s.attempts ++ attempts)
    (hretried : ∀ a ∈ attempts, a.write = w.id ∧ a.retried runtime.settings = true) :
    Fates runtime s' := by
  obtain ⟨hstages, hids, hgroups⟩ := h.writes_restage stage hwrites hstage
  have hliveIds : s'.liveIds = s.liveIds := by
    rw [← liveIds_restage stage hwrites hlive hlive', ← hwrites']
    rfl
  have hwith : ∀ {p : Attempt → Bool}, (∀ a, a.retried runtime.settings = true → p a = false) →
      s'.groupsWith p = s.groupsWith p := by
    intro p hp
    have hnone : attempts.filter p = [] := by
      rw [List.filter_eq_nil_iff]
      intro a ha
      rw [hp a (hretried a ha).2]
      exact Bool.false_ne_true
    rw [State.groupsWith, hattempts, List.filter_append, hnone, List.append_nil, State.groupsWith]
  have hpending : ∀ k, Pending runtime s k → Pending runtime s' k := by
    intro k hk
    refine ⟨?_, ?_⟩
    · rw [State.entries, hsettled]
      exact hk.entries
    · intro a ha
      rw [State.attemptsOf, hattempts, List.filter_append] at ha
      rcases List.mem_append.mp ha with ha | ha
      · exact hk.attempts a ha
      · exact (hretried a (List.mem_of_mem_filter ha)).2
  refine ⟨hwrites' ▸ hstages, hwrites' ▸ hids, ?_, ?_, ?_, ?_, hsettled ▸ h.loose, ?_, ?_, ?_⟩
  · rw [hwrites', hdispatched]
    exact hgroups
  · rw [hliveIds]
    exact fun k hk => hpending k (h.pending k hk)
  · rw [hdispatched]
    exact fun k hk => hpending k (h.unknown k hk)
  · intro k g hg
    rw [hliveIds]
    by_cases hk : k = w.id
    · exact Or.inl (hk ▸ h.mem_liveIds hwrites hlive)
    · have hfor : SameFor k s s' := by
        apply SameFor.of_append hattempts (hsettled.trans (List.append_nil _).symm) haborted
        · exact fun a ha hak => hk (hak.symm.trans (hretried a ha).1)
        · exact fun x hx => by contradiction
      exact (h.ended k g (hdispatched ▸ hg)).imp_right
        (Exists.imp fun how hend => hfor.ended hend)
  · rw [State.succeeded, hwith (fun a ha => (Attempt.retried_excludes ha).1)]
    exact h.succeeded
  · rw [State.exhausted, hwith (fun a ha => (Attempt.retried_excludes ha).2.1)]
    exact h.exhausted
  · rw [hreturned, hliveIds, haborted]
    exact h.aborted

theorem Fates.dispatch (h : Fates runtime s) {envelopes : List SinkEnvelope}
    {metrics : SinkMetrics} :
    Fates runtime { s with
      phase := .accepting
      writes := s.writes ++ [⟨s.dispatched.length, envelopes, .spawned⟩]
      metrics := metrics
      dispatched := s.dispatched ++ [envelopes] } := by
  have hfor : ∀ k, SameFor k s { s with
      phase := .accepting
      writes := s.writes ++ [⟨s.dispatched.length, envelopes, .spawned⟩]
      metrics := metrics
      dispatched := s.dispatched ++ [envelopes] } := fun k => ⟨rfl, rfl, List.Subset.refl _⟩
  have hlt : ∀ v ∈ s.writes, v.id < s.dispatched.length := fun v hv =>
    (List.getElem?_eq_some_iff.mp (h.groups v hv)).1
  have hliveIds : ((s.writes ++ [(⟨s.dispatched.length, envelopes, .spawned⟩ : Write)]).filter
      Write.live).map Write.id = s.liveIds ++ [s.dispatched.length] := by
    rw [List.filter_append, List.map_append]
    rfl
  refine ⟨?_, ?_, ?_, ?_, ?_, ?_, h.loose, h.succeeded, h.exhausted, ?_⟩
  · intro v hv
    rcases List.mem_append.mp hv with hv | hv
    · exact h.stages v hv
    · rw [List.mem_singleton.mp hv]
      trivial
  · rw [List.map_append, List.map_singleton, List.nodup_append]
    refine ⟨h.ids, List.nodup_singleton _, ?_⟩
    intro k hk k' hk' heq
    obtain ⟨v, hv, rfl⟩ := List.mem_map.mp hk
    have hltv := hlt v hv
    rw [heq, List.mem_singleton.mp hk'] at hltv
    exact Nat.lt_irrefl _ hltv
  · intro v hv
    rcases List.mem_append.mp hv with hv | hv
    · rw [List.getElem?_append_left (hlt v hv)]
      exact h.groups v hv
    · rw [List.mem_singleton.mp hv]
      exact List.getElem?_concat_length
  · intro k hk
    rw [State.liveIds, State.live, hliveIds] at hk
    apply (hfor k).pending
    rcases List.mem_append.mp hk with hk | hk
    · exact h.pending k hk
    · exact h.unknown k (List.mem_singleton.mp hk).ge
  · intro k hk
    rw [List.length_append] at hk
    exact (hfor k).pending (h.unknown k (by omega))
  · intro k g hg
    rw [State.liveIds, State.live, hliveIds]
    by_cases hk : k < s.dispatched.length
    · rw [List.getElem?_append_left hk] at hg
      exact (h.ended k g hg).imp (List.mem_append_left _)
        (Exists.imp fun how hend => (hfor k).ended hend)
    · have hlast := (List.getElem?_eq_some_iff.mp hg).1
      rw [List.length_append, List.length_singleton] at hlast
      have hkeq : k = s.dispatched.length := by omega
      exact Or.inl (List.mem_append_right _ (List.mem_singleton.mpr hkeq))
  · intro hnot
    contradiction

/-- What is left of the invariant about the running writes once `w` is no longer one of
them and its group has ended. -/
theorem Fates.remove (h : Fates runtime s) {how : Settlement} {attempts : List Attempt}
    (hwrites : s.writes = pre ++ w :: post) (hlive : w.live = true)
    (hlive' : s'.liveIds = ((pre ++ post).filter Write.live).map Write.id)
    (hstages : ∀ v ∈ s'.writes, StageOk runtime v.stage) (hids : (s'.writes.map Write.id).Nodup)
    (hgroups : ∀ v ∈ s'.writes, s.dispatched[v.id]? = some v.envelopes)
    (hdispatched : s'.dispatched = s.dispatched)
    (hsettled : s'.settled = s.settled ++ settlements (some w.id) how w.envelopes)
    (haborted : s'.aborted = s.aborted) (hreturned : s'.returned = s.returned)
    (hattempts : s'.attempts = s.attempts ++ attempts) (hown : ∀ a ∈ attempts, a.write = w.id)
    (hone : (attempts.map Attempt.write).Nodup)
    (hended : Pending runtime s w.id → Ended runtime s' w.id w.envelopes how) :
    Fates runtime s' := by
  obtain ⟨hnot, hsplit⟩ := h.liveIds_split hwrites hlive
  have hmem := h.mem_liveIds hwrites hlive
  have hpending := h.pending w.id hmem
  have hgroup : s.dispatched[w.id]? = some w.envelopes :=
    h.groups w (by rw [hwrites]; exact List.mem_append_right _ List.mem_cons_self)
  have hfor : ∀ k, k ≠ w.id → SameFor k s s' := by
    intro k hk
    apply SameFor.of_append hattempts hsettled haborted
    · exact fun a ha hak => hk (hak.symm.trans (hown a ha))
    · intro x hx hxk
      rw [(mem_settlements _ _ _ hx).1] at hxk
      exact hk (Option.some.inj hxk).symm
  have hnodup : ∀ {p : Attempt → Bool}, (∀ a, a.retried runtime.settings = true → p a = false) →
      (s.groupsWith p).Nodup → (s'.groupsWith p).Nodup := by
    intro p hp hold
    rw [State.groupsWith, hattempts, List.filter_append, List.map_append, List.nodup_append]
    refine ⟨hold, ?_, ?_⟩
    · exact hone.sublist ((List.filter_sublist).map Attempt.write)
    · rintro k hk k' hk' rfl
      obtain ⟨a, ha, rfl⟩ := List.mem_map.mp hk'
      rw [hown a (List.mem_of_mem_filter ha)] at hk
      exact hpending.not_mem hp hk
  refine ⟨hstages, hids, ?_, ?_, ?_, ?_, ?_, ?_, ?_, ?_⟩
  · rw [hdispatched]
    exact hgroups
  · intro k hk
    rw [hlive'] at hk
    exact (hfor k (fun heq => hnot (heq ▸ hk))).pending (h.pending k ((hsplit k).mpr (Or.inr hk)))
  · intro k hk
    have hlt := (List.getElem?_eq_some_iff.mp hgroup).1
    rw [hdispatched] at hk
    exact (hfor k (by omega)).pending (h.unknown k hk)
  · intro k g hg
    rw [hdispatched] at hg
    rw [hlive']
    by_cases hk : k = w.id
    · subst hk
      rw [hgroup] at hg
      exact Or.inr ⟨how, Option.some.inj hg ▸ hended hpending⟩
    · refine (h.ended k g hg).imp ?_ (Exists.imp fun how' hend => (hfor k hk).ended hend)
      exact fun hkl => ((hsplit k).mp hkl).resolve_left hk
  · rw [hsettled]
    intro x hx hnone
    rcases List.mem_append.mp hx with hx | hx
    · exact h.loose x hx hnone
    · rw [(mem_settlements _ _ _ hx).1] at hnone
      contradiction
  · exact hnodup (fun a ha => (Attempt.retried_excludes ha).1) h.succeeded
  · exact hnodup (fun a ha => (Attempt.retried_excludes ha).2.1) h.exhausted
  · rw [hreturned, haborted, hlive']
    exact fun hrun k hk => h.aborted hrun k ((hsplit k).mpr (Or.inr hk))

theorem entries_settle {t : State} {k : ℕ} {how : Settlement} {g : List SinkEnvelope}
    (hsettled : t.settled = s.settled) (hk : s.entries k = []) :
    (t.settle (some k) g how).entries k = settlements (some k) how g := by
  show (t.settled ++ settlements (some k) how g).filter (fun x => x.write = some k) = _
  rw [hsettled, List.filter_append, settlements_write_self, ← State.entries, hk, List.nil_append]

theorem Attempt.settlement {settings : DeliverySettings} (metrics : SinkMetrics) {a : Attempt}
    (hnumber : a.number ≤ settings.retryMaxAttempts)
    (hlast : ∀ e, a.result = .error (.write e) → settings.retryMaxAttempts ≤ a.number) :
    (a.succeeded = true ↔ (concluded metrics a.result).2 = .delivered) ∧
      (a.exhausts settings = true ↔ (concluded metrics a.result).2 = .failed) ∧
      (a.panicked = true ↔ (concluded metrics a.result).2 = .dropped) := by
  obtain ⟨write, number, result⟩ := a
  cases result with
  | ok outcome =>
    simp [Attempt.succeeded, Attempt.exhausts, Attempt.failed, Attempt.panicked, Except.toBool,
      concluded]
  | error e =>
    cases e with
    | panicked =>
      simp [Attempt.succeeded, Attempt.exhausts, Attempt.failed, Attempt.panicked, Except.toBool,
        concluded]
    | write e =>
      have heq : number = settings.retryMaxAttempts := Nat.le_antisymm hnumber (hlast e rfl)
      simp [Attempt.succeeded, Attempt.exhausts, Attempt.failed, Attempt.panicked, Except.toBool,
        concluded, heq]

/-- The call that ends a write decides how its envelopes are settled. -/
theorem ended_of_call {a : Attempt} {t : State} {metrics : SinkMetrics} {g : List SinkEnvelope}
    (h : Pending runtime s a.write) (hnumber : a.number ≤ runtime.settings.retryMaxAttempts)
    (hlast : ∀ e, a.result = .error (.write e) → runtime.settings.retryMaxAttempts ≤ a.number)
    (hattempts : t.attempts = s.attempts ++ [a]) (hsettled : t.settled = s.settled) :
    Ended runtime (t.settle (some a.write) g (concluded metrics a.result).2) a.write g
      (concluded metrics a.result).2 := by
  obtain ⟨hdelivered, hfailed, hdropped⟩ := Attempt.settlement metrics hnumber hlast
  have hwith : ∀ {p : Attempt → Bool}, (∀ a, a.retried runtime.settings = true → p a = false) →
      (a.write ∈ State.groupsWith p (t.settle (some a.write) g (concluded metrics a.result).2) ↔
        p a = true) := by
    intro p hp
    have happend : (t.settle (some a.write) g (concluded metrics a.result).2).attempts =
        s.attempts ++ [a] := hattempts
    rw [groupsWith_append happend, List.mem_append]
    simp [h.not_mem hp]
  refine ⟨entries_settle hsettled h.entries, ?_, ?_, ?_⟩
  · rw [State.succeeded, hwith (fun a ha => (Attempt.retried_excludes ha).1)]
    exact hdelivered
  · rw [State.exhausted, hwith (fun a ha => (Attempt.retried_excludes ha).2.1)]
    exact hfailed
  · intro hhow
    rw [State.panicked, hwith (fun a ha => (Attempt.retried_excludes ha).2.2)]
    exact Or.inl (hdropped.mpr hhow)

/-- An aborted write that is dropped settles its envelopes as dropped. -/
theorem ended_of_drop {t : State} {k : ℕ} {g : List SinkEnvelope} (h : Pending runtime s k)
    (hattempts : t.attempts = s.attempts) (hsettled : t.settled = s.settled)
    (haborted : k ∈ t.aborted) : Ended runtime (t.settle (some k) g .dropped) k g .dropped := by
  have hwith : ∀ {p : Attempt → Bool}, (∀ a, a.retried runtime.settings = true → p a = false) →
      k ∉ State.groupsWith p (t.settle (some k) g .dropped) := by
    intro p hp
    show k ∉ (t.attempts.filter p).map Attempt.write
    rw [hattempts]
    exact h.not_mem hp
  refine ⟨entries_settle hsettled h.entries, ?_, ?_, fun _ => Or.inr haborted⟩
  · rw [State.succeeded]
    simp [hwith (fun a ha => (Attempt.retried_excludes ha).1)]
  · rw [State.exhausted]
    simp [hwith (fun a ha => (Attempt.retried_excludes ha).2.1)]

/-- A step that leaves the tasks alone and settles at most envelopes of no group. -/
theorem Fates.loosen (h : Fates runtime s) {settled : List Settled}
    (hwrites : s'.writes = s.writes) (hdispatched : s'.dispatched = s.dispatched)
    (hattempts : s'.attempts = s.attempts) (haborted : s'.aborted = s.aborted)
    (hreturned : s'.returned = s.returned) (hsettled : s'.settled = s.settled ++ settled)
    (hloose : ∀ x ∈ settled, x.write = none ∧ x.settlement = .dropped) : Fates runtime s' := by
  have hfor : ∀ k, SameFor k s s' := by
    intro k
    apply SameFor.of_append (hattempts.trans (List.append_nil _).symm) hsettled haborted
    · exact fun a ha => by contradiction
    · intro x hx
      rw [(hloose x hx).1]
      simp
  have hlive : s'.liveIds = s.liveIds := by
    rw [State.liveIds, State.live, hwrites, State.liveIds, State.live]
  refine ⟨hwrites ▸ h.stages, hwrites ▸ h.ids, ?_, ?_, ?_, ?_, ?_, ?_, ?_, ?_⟩
  · rw [hwrites, hdispatched]
    exact h.groups
  · rw [hlive]
    exact fun k hk => (hfor k).pending (h.pending k hk)
  · rw [hdispatched]
    exact fun k hk => (hfor k).pending (h.unknown k hk)
  · intro k g hg
    rw [hlive]
    exact (h.ended k g (hdispatched ▸ hg)).imp_right
      (Exists.imp fun how hend => (hfor k).ended hend)
  · rw [hsettled]
    intro x hx hnone
    rcases List.mem_append.mp hx with hx | hx
    · exact h.loose x hx hnone
    · exact (hloose x hx).2
  · rw [State.succeeded, State.groupsWith, hattempts]
    exact h.succeeded
  · rw [State.exhausted, State.groupsWith, hattempts]
    exact h.exhausted
  · rw [hreturned, hlive, haborted]
    exact h.aborted

theorem Move.fates {a : Action} (hmove : Move runtime s a s') (h : Fates runtime s) :
    Fates runtime s' := by
  cases hmove with
  | shuffle _ _ hsame => exact hsame.fates h
  | exit k _ w hsame => exact hsame.fates h
  | arrive e hrun =>
    exact h.loosen rfl rfl rfl rfl rfl (List.append_nil _).symm (fun x hx => by contradiction)
  | dispatch envelopes hphase => exact h.dispatch
  | call _ pre post w number backoff hwrites hlive hnumber =>
    exact h.restage (.writing number backoff) hwrites hlive rfl hnumber rfl rfl rfl rfl rfl
      (List.append_nil _).symm (fun a ha => by contradiction)
  | retry _ pre post w attempt backoff e hwrites hstage hretry =>
    refine h.restage (.sleeping attempt backoff (s.now + backoff)) hwrites
      (Write.live_of_writing hstage) rfl hretry rfl rfl rfl rfl rfl rfl ?_
    intro a ha
    rw [List.mem_singleton.mp ha]
    exact ⟨rfl, by simp [Attempt.retried, Attempt.failed, hretry]⟩
  | finish k _ pre post w attempt backoff result ending hk hwrites hstage hlast hok =>
    obtain ⟨hstages, hids, hgroups⟩ := h.writes_restage (.done ending) hwrites trivial
    have hnumber : StageOk runtime w.stage := h.stages w (List.mem_of_getElem? hk)
    rw [hstage] at hnumber
    have hdone : ((pre ++ { w with stage := .done ending } :: post).filter Write.live).map
        Write.id = ((pre ++ post).filter Write.live).map Write.id := by
      simp [Write.live]
    refine h.remove hwrites (Write.live_of_writing hstage) hdone hstages hids hgroups rfl rfl rfl
      rfl rfl (fun a ha => ?_) (List.nodup_singleton _) (fun hpending => ?_)
    · rw [List.mem_singleton.mp ha]
    · have hcall : Pending runtime s (Attempt.write ⟨w.id, attempt, result⟩) := hpending
      exact ended_of_call hcall hnumber hlast rfl rfl
  | dropRest _ e queue orphans hrun hrest =>
    refine h.loosen rfl rfl rfl rfl rfl rfl ?_
    intro x hx
    exact mem_settlements _ _ _ hx
  | dropWrite _ pre post w hrun hwrites hlive =>
    have hsub : (pre ++ post).Sublist s.writes := by
      rw [hwrites]
      exact (List.sublist_cons_self w post).append_left pre
    refine h.remove hwrites hlive rfl (fun v hv => h.stages v (hsub.subset hv))
      (h.ids.sublist (hsub.map Write.id)) (fun v hv => h.groups v (hsub.subset hv)) rfl rfl rfl
      rfl (List.append_nil _).symm (fun a ha => by contradiction) List.nodup_nil ?_
    intro hpending
    exact ended_of_drop hpending rfl rfl (h.aborted hrun w.id (h.mem_liveIds hwrites hlive))

end Move

end Rustper.Sink
