import Rustper.SinkOrder

/-!
How a sink cuts what it receives into groups. The receipts and groups are a history of
the loop over one group; `Tallied` ties them to the locals of `run` in each phase.
-/
namespace Rustper.Sink

open TransitionSystem

variable {runtime : Runtime} {s s' : State}

def totalBytes (batches : List EventBatch) : ℕ := (batches.map EventBatch.bytes).sum

/-- Below both limits of the sink, the condition under which `run` receives on. -/
def Below (batching : BatchSettings) (envelopes : List SinkEnvelope) : Prop :=
  totalEvents (batches envelopes) < batching.maxEvents ∧
    totalBytes (batches envelopes) < batching.maxBytes

instance (batching : BatchSettings) (envelopes : List SinkEnvelope) :
    Decidable (Below batching envelopes) :=
  inferInstanceAs (Decidable (_ ∧ _))

def Group.envelopes (g : Group) : List SinkEnvelope := g.receipts.map Receipt.envelope

namespace State

/-- Every envelope taken from the channel, in the order of its receipt. -/
def received (s : State) : List SinkEnvelope :=
  (s.groups.map Group.envelopes).flatten ++ s.assembling.map Receipt.envelope

/-- Apart from `group` everything received has been dispatched; `group` is still being
assembled, or waits for a slot, or was one of these two when `run` returned. -/
def Holds (s : State) (group : List SinkEnvelope) : Prop :=
  (s.groups.map Group.envelopes = s.dispatched ∧ s.assembling.map Receipt.envelope = group) ∨
    (s.groups.map Group.envelopes = s.dispatched ++ [group] ∧ s.assembling = [])

theorem Holds.received {group : List SinkEnvelope} (h : s.Holds group) :
    s.received = s.dispatched.flatten ++ group := by
  rcases h with ⟨hgroups, hassembling⟩ | ⟨hgroups, hassembling⟩
  · rw [State.received, hgroups, hassembling]
  · simp [State.received, hgroups, hassembling]

theorem Holds.dispatched {group : List SinkEnvelope} (h : s.Holds group) :
    s.dispatched <+: s.groups.map Group.envelopes := by
  rcases h with ⟨hgroups, -⟩ | ⟨hgroups, -⟩
  · exact hgroups ▸ List.prefix_refl _
  · exact hgroups ▸ List.prefix_append _ _

end State

/-- A group is not empty, it was below the limits until its last envelope came, and one
that is still below them was closed by its timer or by the end of the channel. -/
structure WellCut (batching : BatchSettings) (g : Group) : Prop where
  nonempty : g.envelopes ≠ []
  before : ∀ pre, pre <+: g.envelopes → pre ≠ [] → pre ≠ g.envelopes → Below batching pre
  closed : Below batching g.envelopes → g.ended = true ∨
    ∃ first, g.receipts.head? = some first ∧ first.time + batching.linger ≤ g.closedAt

/-- The locals of the coalescing loop. -/
structure Assembly (batching : BatchSettings) (s : State) (envelopes : List SinkEnvelope)
    (eventCount byteCount : ℕ) : Prop where
  receipts : s.assembling.map Receipt.envelope = envelopes
  first : ∃ first, s.assembling.head? = some first ∧
    s.deadline = first.time + batching.linger
  events : eventCount = totalEvents (batches envelopes)
  bytes : byteCount = totalBytes (batches envelopes)
  before : ∀ pre, pre <+: envelopes → pre ≠ [] → pre ≠ envelopes → Below batching pre

/-- What `run` has received is in its groups, all of them dispatched, and in the group
it holds. -/
def Tallied (batching : BatchSettings) (s : State) : Prop :=
  match s.phase with
  | .accepting => s.groups.map Group.envelopes = s.dispatched ∧ s.assembling = []
  | .coalescing envelopes eventCount byteCount =>
    s.groups.map Group.envelopes = s.dispatched ∧
      Assembly batching s envelopes eventCount byteCount ∧ Below batching envelopes
  | .freeing envelopes =>
    s.groups.map Group.envelopes = s.dispatched ++ [envelopes] ∧ s.assembling = []
  | .draining _ => s.groups.map Group.envelopes = s.dispatched ∧ s.assembling = []
  | .returned outcome => ∃ group, s.Holds group ∧ ∀ u, outcome = .ok u → group = []

structure Coalesced (batching : BatchSettings) (s : State) : Prop where
  tallied : Tallied batching s
  running : s.returned = false → s.arrived = s.received ++ s.queue
  received : s.received <+: s.arrived
  groups : ∀ g ∈ s.groups, WellCut batching g
  ended : ∀ g ∈ s.groups, g.ended = true → s.inputClosed = true

theorem Assembly.nonempty {batching : BatchSettings} {envelopes : List SinkEnvelope}
    {eventCount byteCount : ℕ} (h : Assembly batching s envelopes eventCount byteCount) :
    envelopes ≠ [] := by
  obtain ⟨first, hfirst, -⟩ := h.first
  intro hnil
  rw [← h.receipts, List.map_eq_nil_iff] at hnil
  rw [hnil] at hfirst
  contradiction

theorem Tallied.holds {batching : BatchSettings} (h : Tallied batching s) :
    ∃ group, s.Holds group ∧ (s.returned = false → group = s.phase.group) ∧
      ∀ u, s.phase = .returned (.ok u) → group = [] := by
  unfold Tallied at h
  rw [State.returned]
  cases hphase : s.phase with
  | coalescing envelopes eventCount byteCount =>
    rw [hphase] at h
    exact ⟨envelopes, Or.inl ⟨h.1, h.2.1.receipts⟩, fun _ => rfl, fun u hu => by contradiction⟩
  | freeing envelopes =>
    rw [hphase] at h
    exact ⟨envelopes, Or.inr h, fun _ => rfl, fun u hu => by contradiction⟩
  | returned outcome =>
    rw [hphase] at h
    obtain ⟨group, hholds, hok⟩ := h
    refine ⟨group, hholds, fun hrun => by contradiction, fun u hu => hok u ?_⟩
    exact Phase.returned.inj hu
  | _ =>
    rw [hphase] at h
    exact ⟨[], Or.inl ⟨h.1, by rw [h.2]; rfl⟩, fun _ => rfl, fun u hu => by contradiction⟩

/-- The step leaves the timer, the receipts and the groups alone. -/
structure SameGroups (s s' : State) : Prop where
  deadline : s'.deadline = s.deadline
  assembling : s'.assembling = s.assembling
  groups : s'.groups = s.groups
  dispatched : s'.dispatched = s.dispatched

/-- The step leaves the channel alone too. -/
structure Keeps (s s' : State) : Prop extends SameGroups s s' where
  queue : s'.queue = s.queue
  arrived : s'.arrived = s.arrived
  inputClosed : s.inputClosed = true → s'.inputClosed = true

namespace SameGroups

theorem received (h : SameGroups s s') : s'.received = s.received := by
  rw [State.received, h.groups, h.assembling, State.received]

theorem holds (h : SameGroups s s') {group : List SinkEnvelope} (hholds : s.Holds group) :
    s'.Holds group := by
  unfold State.Holds
  rw [h.groups, h.assembling, h.dispatched]
  exact hholds

theorem tallied {batching : BatchSettings} (h : SameGroups s s') (hphase : s'.phase = s.phase)
    (htallied : Tallied batching s) : Tallied batching s' := by
  unfold Tallied at htallied ⊢
  rw [hphase, h.groups, h.assembling, h.dispatched]
  cases hs : s.phase with
  | coalescing envelopes eventCount byteCount =>
    rw [hs] at htallied
    obtain ⟨hgroups, hassembly, hbelow⟩ := htallied
    refine ⟨hgroups, ⟨?_, ?_, hassembly.events, hassembly.bytes, hassembly.before⟩, hbelow⟩
    · rw [h.assembling]
      exact hassembly.receipts
    · rw [h.assembling, h.deadline]
      exact hassembly.first
  | returned outcome =>
    rw [hs] at htallied
    obtain ⟨group, hholds, hok⟩ := htallied
    exact ⟨group, h.holds hholds, hok⟩
  | _ =>
    rw [hs] at htallied
    exact htallied

end SameGroups

theorem Keeps.coalesced {batching : BatchSettings} (h : Keeps s s')
    (hstays : s'.returned = false → s.returned = false) (htallied : Tallied batching s')
    (hs : Coalesced batching s) : Coalesced batching s' := by
  refine ⟨htallied, ?_, ?_, ?_, ?_⟩
  · intro hrun
    rw [h.arrived, h.received, h.queue]
    exact hs.running (hstays hrun)
  · rw [h.arrived, h.received]
    exact hs.received
  · rw [h.groups]
    exact hs.groups
  · rw [h.groups]
    exact fun g hg hended => h.inputClosed (hs.ended g hg hended)

/-- A step of the tasks or of the clock. -/
theorem Coalesced.aside {batching : BatchSettings} (h : Coalesced batching s)
    (hkeeps : Keeps s s') (hphase : s'.phase = s.phase) : Coalesced batching s' := by
  refine hkeeps.coalesced ?_ (hkeeps.tallied hphase h.tallied) h
  rw [State.returned, State.returned, hphase]
  exact id

section loop

variable {batching : BatchSettings} {envelopes : List SinkEnvelope} {eventCount byteCount : ℕ}

theorem Assembly.wellCut (h : Assembly batching s envelopes eventCount byteCount)
    {closedAt : ℕ} {ended : Bool}
    (hclosed : Below batching envelopes → ended = true ∨ s.deadline ≤ closedAt) :
    WellCut batching ⟨s.assembling, closedAt, ended⟩ := by
  have henvelopes : Group.envelopes ⟨s.assembling, closedAt, ended⟩ = envelopes := h.receipts
  refine ⟨henvelopes ▸ h.nonempty, henvelopes ▸ h.before, ?_⟩
  rw [henvelopes]
  intro hbelow
  refine (hclosed hbelow).imp_right (fun hdue => ?_)
  obtain ⟨first, hfirst, hdeadline⟩ := h.first
  exact ⟨first, hfirst, hdeadline ▸ hdue⟩

/-- Leaving the coalescing loop moves the receipts into a group. -/
theorem State.close_received (s : State) (envelopes : List SinkEnvelope) (ended : Bool) :
    (s.close envelopes ended).received = s.received := by
  simp [State.close, State.received, Group.envelopes]

theorem Assembly.close (h : Assembly batching s envelopes eventCount byteCount) {ended : Bool}
    (hgroups : s.groups.map Group.envelopes = s.dispatched)
    (hclosed : Below batching envelopes → ended = true ∨ s.deadline ≤ s.now)
    (hinput : ended = true → s.inputClosed = true)
    (harrived : s.arrived = s.received ++ s.queue)
    (hwell : ∀ g ∈ s.groups, WellCut batching g)
    (hended : ∀ g ∈ s.groups, g.ended = true → s.inputClosed = true) :
    Coalesced batching (s.close envelopes ended) := by
  have hreceived := State.close_received s envelopes ended
  refine ⟨⟨?_, rfl⟩, fun _ => ?_, ?_, ?_, ?_⟩
  · show (s.groups ++ [(⟨s.assembling, s.now, ended⟩ : Group)]).map Group.envelopes = _
    rw [List.map_append, hgroups, List.map_singleton, Group.envelopes, h.receipts]
    rfl
  · rw [hreceived]
    exact harrived
  · rw [hreceived]
    exact harrived ▸ List.prefix_append _ _
  · intro g hg
    rcases List.mem_append.mp hg with hg | hg
    · exact hwell g hg
    · rw [List.mem_singleton.mp hg]
      exact h.wellCut hclosed
  · intro g hg
    rcases List.mem_append.mp hg with hg | hg
    · exact hended g hg
    · rw [List.mem_singleton.mp hg]
      exact hinput

/-- The head of the coalescing loop: the group goes on as long as it is below the limits. -/
theorem Assembly.coalesce (h : Assembly batching s envelopes eventCount byteCount)
    (hgroups : s.groups.map Group.envelopes = s.dispatched)
    (harrived : s.arrived = s.received ++ s.queue)
    (hwell : ∀ g ∈ s.groups, WellCut batching g)
    (hended : ∀ g ∈ s.groups, g.ended = true → s.inputClosed = true) :
    Coalesced batching (s.coalesce batching envelopes eventCount byteCount) := by
  have hcounts : (eventCount < batching.maxEvents ∧ byteCount < batching.maxBytes) ↔
      Below batching envelopes := by
    rw [h.events, h.bytes, Below]
  unfold State.coalesce
  split
  · rename_i hbelow
    refine ⟨⟨hgroups, ⟨h.receipts, h.first, h.events, h.bytes, h.before⟩, hcounts.mp hbelow⟩,
      fun _ => harrived, ?_, hwell, hended⟩
    exact harrived ▸ List.prefix_append _ _
  · rename_i hfull
    refine h.close hgroups ?_ (fun hfalse => by contradiction) harrived hwell hended
    intro hbelow
    exact absurd (hcounts.mpr hbelow) hfull

theorem recv_coalesced (h : Coalesced runtime.batching s) (hs : recv runtime s = some s') :
    Coalesced runtime.batching s' := by
  have htallied := h.tallied
  unfold recv at hs
  split at hs
  · rename_i e rest hphase hqueue
    cases hs
    have hrun : s.returned = false := by
      rw [State.returned, hphase]
      rfl
    rw [Tallied, hphase] at htallied
    obtain ⟨hgroups, hassembling⟩ := htallied
    have hassembly : Assembly runtime.batching { s with
        queue := rest
        deadline := s.now + runtime.batching.linger
        assembling := [⟨e, s.now⟩] } [e] e.batch.len e.batch.bytes := by
      refine ⟨rfl, ⟨⟨e, s.now⟩, rfl, rfl⟩, ?_, ?_, ?_⟩
      · simp [batches, totalEvents]
      · simp [batches, totalBytes]
      · intro pre hpre hne hproper
        rcases List.prefix_cons_iff.mp hpre with hnil | ⟨tail, rfl, htail⟩
        · exact absurd hnil hne
        · rw [List.prefix_nil.mp htail] at hproper
          exact absurd rfl hproper
    refine hassembly.coalesce hgroups ?_ h.groups h.ended
    show s.arrived = (s.groups.map Group.envelopes).flatten ++ [e] ++ rest
    rw [h.running hrun, State.received, hassembling, hqueue]
    simp
  · rename_i envelopes eventCount byteCount e rest hphase hqueue
    cases hs
    have hrun : s.returned = false := by
      rw [State.returned, hphase]
      rfl
    rw [Tallied, hphase] at htallied
    obtain ⟨hgroups, hold, hbelow⟩ := htallied
    have hassembly : Assembly runtime.batching { s with
        queue := rest
        assembling := s.assembling ++ [⟨e, s.now⟩] } (envelopes ++ [e])
          (eventCount + e.batch.len) (byteCount + e.batch.bytes) := by
      refine ⟨?_, ?_, ?_, ?_, ?_⟩
      · simp [hold.receipts]
      · obtain ⟨first, hfirst, hdeadline⟩ := hold.first
        exact ⟨first, by simp [hfirst], hdeadline⟩
      · simp [hold.events, batches, totalEvents]
      · simp [hold.bytes, batches, totalBytes]
      · intro pre hpre hne hproper
        have hprefix := (List.prefix_concat_iff.mp hpre).resolve_left hproper
        by_cases hall : pre = envelopes
        · exact hall ▸ hbelow
        · exact hold.before pre hprefix hne hall
    refine hassembly.coalesce hgroups ?_ h.groups h.ended
    show s.arrived = (s.groups.map Group.envelopes).flatten ++
      (s.assembling ++ [(⟨e, s.now⟩ : Receipt)]).map Receipt.envelope ++ rest
    rw [h.running hrun, State.received, hqueue]
    simp
  · contradiction

theorem linger_coalesced (h : Coalesced batching s) (hs : linger s = some s') :
    Coalesced batching s' := by
  have htallied := h.tallied
  unfold linger at hs
  split at hs
  · rename_i envelopes eventCount byteCount hphase
    simp only [Option.ite_none_right_eq_some, Option.some.injEq] at hs
    obtain ⟨hdue, rfl⟩ := hs
    rw [Tallied, hphase] at htallied
    obtain ⟨hgroups, hassembly, -⟩ := htallied
    have hrun : s.returned = false := by
      rw [State.returned, hphase]
      rfl
    exact hassembly.close hgroups (fun _ => Or.inr hdue) (fun hfalse => by contradiction)
      (h.running hrun) h.groups h.ended
  · contradiction

/-- `run` leaves its loop between two groups, or its drain. -/
theorem Coalesced.leave {phase : Phase} (h : Coalesced batching s)
    (hrun : s.returned = false) (hgroups : s.groups.map Group.envelopes = s.dispatched)
    (hassembling : s.assembling = [])
    (hphase : (∃ outcome, phase = .draining outcome) ∨ ∃ outcome, phase = .returned outcome) :
    Coalesced batching { s with phase := phase } := by
  have hkeeps : Keeps s { s with phase := phase } := ⟨⟨rfl, rfl, rfl, rfl⟩, rfl, rfl, id⟩
  refine hkeeps.coalesced (fun _ => hrun) ?_ h
  unfold Tallied
  rcases hphase with ⟨outcome, rfl⟩ | ⟨outcome, rfl⟩
  · exact ⟨hgroups, hassembling⟩
  · exact ⟨[], Or.inl ⟨hgroups, by rw [hassembling]; rfl⟩, fun _ _ => rfl⟩

theorem inputEnd_coalesced (h : Coalesced batching s) (hs : inputEnd s = some s') :
    Coalesced batching s' := by
  have htallied := h.tallied
  simp only [inputEnd, Option.ite_none_right_eq_some] at hs
  obtain ⟨⟨-, hclosed⟩, hs⟩ := hs
  split at hs
  · rename_i hphase
    cases hs
    rw [Tallied, hphase] at htallied
    exact h.leave (by rw [State.returned, hphase]; rfl) htallied.1 htallied.2
      (Or.inl ⟨.ok (), rfl⟩)
  · rename_i envelopes eventCount byteCount hphase
    cases hs
    rw [Tallied, hphase] at htallied
    obtain ⟨hgroups, hassembly, -⟩ := htallied
    have hrun : s.returned = false := by
      rw [State.returned, hphase]
      rfl
    exact hassembly.close hgroups (fun _ => Or.inl rfl) (fun _ => hclosed)
      (h.running hrun) h.groups h.ended
  · contradiction

theorem shutdown_coalesced (h : Coalesced batching s) (hs : shutdown s = some s') :
    Coalesced batching s' := by
  have htallied := h.tallied
  unfold shutdown at hs
  split at hs
  · rename_i hphase
    cases hs
    rw [Tallied, hphase] at htallied
    exact h.leave (by rw [State.returned, hphase]; rfl) htallied.1 htallied.2
      (Or.inl ⟨.ok (), rfl⟩)
  · contradiction

theorem finishDrain_coalesced (h : Coalesced batching s) (hs : finishDrain s = some s') :
    Coalesced batching s' := by
  have htallied := h.tallied
  unfold finishDrain at hs
  split at hs
  · rename_i outcome hphase
    simp only [Option.ite_none_right_eq_some, Option.some.injEq] at hs
    obtain ⟨-, rfl⟩ := hs
    rw [Tallied, hphase] at htallied
    exact h.leave (by rw [State.returned, hphase]; rfl) htallied.1 htallied.2
      (Or.inr ⟨outcome, rfl⟩)
  · contradiction

theorem dispatch_coalesced (h : Coalesced batching s) (hs : dispatch runtime s = some s') :
    Coalesced batching s' := by
  have htallied := h.tallied
  unfold dispatch at hs
  split at hs
  · rename_i envelopes hphase
    simp only [Option.ite_none_right_eq_some, Option.some.injEq] at hs
    obtain ⟨-, rfl⟩ := hs
    rw [Tallied, hphase] at htallied
    refine ⟨htallied, fun _ => ?_, h.received, h.groups, h.ended⟩
    exact h.running (by rw [State.returned, hphase]; rfl)
  · contradiction

/-- An error exit keeps the group that `run` was at among its locals. -/
theorem Coalesced.exit (h : Coalesced batching s) (hrun : s.returned = false) (e : WriteError) :
    Coalesced batching (s.exit e) := by
  have hkeeps : Keeps s (s.exit e) := ⟨⟨rfl, rfl, rfl, rfl⟩, rfl, rfl, id⟩
  refine hkeeps.coalesced (fun _ => hrun) ?_ h
  obtain ⟨group, hholds, -⟩ := h.tallied.holds
  exact ⟨group, hkeeps.holds hholds, fun u hu => by contradiction⟩

theorem reap_coalesced {k : ℕ} (h : Coalesced batching s) (hs : reap runtime s k = some s') :
    Coalesced batching s' := by
  unfold reap at hs
  split at hs
  · rename_i id envelopes result hk
    simp only [Option.ite_none_right_eq_some, Option.some.injEq] at hs
    obtain ⟨hreaps, rfl⟩ := hs
    have hrest : Coalesced batching { s with writes := s.writes.eraseIdx k } :=
      h.aside ⟨⟨rfl, rfl, rfl, rfl⟩, rfl, rfl, fun hclosed => hclosed⟩ rfl
    generalize hsame : ({ s with writes := s.writes.eraseIdx k } : State) = t at hrest
    have hphase : t.phase = s.phase := by rw [← hsame]
    have htallied := hrest.tallied
    rw [reaps, ← hphase] at hreaps
    unfold propagate
    split
    · rename_i hdraining
      rw [Tallied, hdraining] at htallied
      exact hrest.leave (by rw [State.returned, hdraining]; rfl) htallied.1 htallied.2
        (Or.inl ⟨_, rfl⟩)
    · exact hrest
    · exact hrest
    · apply hrest.exit
      rw [State.returned]
      cases hcase : t.phase with
      | returned outcome =>
        rw [hcase] at hreaps
        contradiction
      | _ => rfl
  · contradiction

end loop

/-- What the write tasks, the clock and the senders do while the loop waits. -/
def Action.outside : Action → Bool
  | .elapse _ | .closeInput | .begin _ | .attempted _ _ | .panicked _ | .wake _ | .dropOrphan
  | .dropWrite _ => true
  | _ => false

theorem keeps_of_outside {a : Action} (hs : step runtime s a = some s')
    (houtside : a.outside = true) : Keeps s s' ∧ s'.phase = s.phase := by
  cases a with
  | elapse duration =>
    cases hs
    exact ⟨⟨⟨rfl, rfl, rfl, rfl⟩, rfl, rfl, id⟩, rfl⟩
  | closeInput =>
    cases hs
    exact ⟨⟨⟨rfl, rfl, rfl, rfl⟩, rfl, rfl, fun _ => rfl⟩, rfl⟩
  | begin k =>
    simp only [step, begin] at hs
    split at hs
    · cases hs
      exact ⟨⟨⟨rfl, rfl, rfl, rfl⟩, rfl, rfl, id⟩, rfl⟩
    · contradiction
  | attempted k result =>
    simp only [step, attempted] at hs
    split at hs
    · cases result with
      | ok outcome =>
        cases hs
        exact ⟨⟨⟨rfl, rfl, rfl, rfl⟩, rfl, rfl, id⟩, rfl⟩
      | error e =>
        dsimp only at hs
        split at hs
        · cases hs
          exact ⟨⟨⟨rfl, rfl, rfl, rfl⟩, rfl, rfl, id⟩, rfl⟩
        · cases hs
          exact ⟨⟨⟨rfl, rfl, rfl, rfl⟩, rfl, rfl, id⟩, rfl⟩
    · contradiction
  | panicked k =>
    simp only [step, panicked] at hs
    split at hs
    · cases hs
      exact ⟨⟨⟨rfl, rfl, rfl, rfl⟩, rfl, rfl, id⟩, rfl⟩
    · contradiction
  | wake k =>
    simp only [step, wake] at hs
    split at hs
    · simp only [Option.ite_none_right_eq_some, Option.some.injEq] at hs
      obtain ⟨-, rfl⟩ := hs
      exact ⟨⟨⟨rfl, rfl, rfl, rfl⟩, rfl, rfl, id⟩, rfl⟩
    · contradiction
  | dropOrphan =>
    simp only [step, dropOrphan] at hs
    split at hs
    · cases hs
      exact ⟨⟨⟨rfl, rfl, rfl, rfl⟩, rfl, rfl, id⟩, rfl⟩
    · contradiction
  | dropWrite k =>
    simp only [step, dropWrite] at hs
    split at hs
    · simp only [Option.ite_none_right_eq_some, Option.some.injEq] at hs
      obtain ⟨-, rfl⟩ := hs
      exact ⟨⟨⟨rfl, rfl, rfl, rfl⟩, rfl, rfl, id⟩, rfl⟩
    · contradiction
  | _ => contradiction

theorem arrive_coalesced {e : SinkEnvelope} (h : Coalesced runtime.batching s)
    (hs : arrive runtime s e = some s') : Coalesced runtime.batching s' := by
  simp only [arrive, Option.ite_none_right_eq_some, Option.some.injEq] at hs
  obtain ⟨⟨hrun, -, -⟩, rfl⟩ := hs
  have hsame : SameGroups s { s with queue := s.queue ++ [e], arrived := s.arrived ++ [e] } :=
    ⟨rfl, rfl, rfl, rfl⟩
  refine ⟨hsame.tallied rfl h.tallied, fun _ => ?_, h.received.trans (List.prefix_append _ _),
    h.groups, h.ended⟩
  show s.arrived ++ [e] = s.received ++ (s.queue ++ [e])
  rw [h.running hrun, List.append_assoc]

theorem dropQueued_coalesced (h : Coalesced runtime.batching s) (hs : dropQueued s = some s') :
    Coalesced runtime.batching s' := by
  unfold dropQueued at hs
  split at hs
  · rename_i e rest hrun hqueue
    cases hs
    have hsame : SameGroups s (State.settle { s with queue := rest } none [e] .dropped) :=
      ⟨rfl, rfl, rfl, rfl⟩
    refine ⟨hsame.tallied rfl h.tallied, fun hnot => ?_, h.received, h.groups, h.ended⟩
    have hreturned : s.returned = false := hnot
    rw [hrun] at hreturned
    contradiction
  · contradiction

/-- Only the loop of `run` moves envelopes out of the channel or into groups. -/
theorem step_coalesced {a : Action} (h : Coalesced runtime.batching s)
    (hs : step runtime s a = some s') : Coalesced runtime.batching s' := by
  by_cases houtside : a.outside = true
  · obtain ⟨hkeeps, hphase⟩ := keeps_of_outside hs houtside
    exact h.aside hkeeps hphase
  · cases a with
    | arrive e => exact arrive_coalesced h hs
    | shutdown => exact shutdown_coalesced h hs
    | recv => exact recv_coalesced h hs
    | inputEnd => exact inputEnd_coalesced h hs
    | linger => exact linger_coalesced h hs
    | reap k => exact reap_coalesced h hs
    | dispatch => exact dispatch_coalesced h hs
    | finishDrain => exact finishDrain_coalesced h hs
    | dropQueued => exact dropQueued_coalesced h hs
    | _ => exact absurd rfl houtside

theorem start_coalesced (batching : BatchSettings) (now : ℕ) :
    Coalesced batching (State.start now) where
  tallied := ⟨rfl, rfl⟩
  running _ := rfl
  received := List.prefix_refl _
  groups := by simp [State.start]
  ended := by simp [State.start]

theorem reachable_coalesced {now : ℕ} (h : (system runtime now).Reachable s) :
    Coalesced runtime.batching s := by
  apply System.Reachable.invariant (start_coalesced runtime.batching now) _ h
  intro t a t' ht hs
  exact step_coalesced ht hs

/-- In every run the dispatched groups are, one after another, what was received from the
channel but for the group that `run` holds; once it has returned without an error there is
no such group. Each group is cut as the limits and the timer say, and one that the end of
the channel closed comes after that end. -/
theorem groups_coalesced {now : ℕ} (h : (system runtime now).Reachable s) :
    s.received <+: s.arrived ∧
      (s.returned = false → s.arrived = s.received ++ s.queue) ∧
      (∃ group, s.Holds group ∧ s.received = s.dispatched.flatten ++ group ∧
        (s.returned = false → group = s.phase.group) ∧
        ∀ u, s.phase = .returned (.ok u) → group = []) ∧
      s.dispatched <+: s.groups.map Group.envelopes ∧
      ∀ g ∈ s.groups, WellCut runtime.batching g ∧ (g.ended = true → s.inputClosed = true) := by
  have hcoalesced := reachable_coalesced h
  obtain ⟨group, hholds, hrunning, hok⟩ := hcoalesced.tallied.holds
  exact ⟨hcoalesced.received, hcoalesced.running, ⟨group, hholds, hholds.received, hrunning, hok⟩,
    hholds.dispatched, fun g hg => ⟨hcoalesced.groups g hg, hcoalesced.ended g hg⟩⟩

/-- Two events a group and a linger of five. -/
def paired : Runtime where
  capacity := 4
  batching := ⟨2, 1024, 5⟩
  settings := deliverySettings 1 1 1 2

/-- The first group is closed by the limit on its events, the second one by its timer. -/
theorem groups_coalesced_paired : ∃ s : State,
    s.dispatched = [[envelope 0, envelope 1]] ∧
      s.received = s.dispatched.flatten ++ [envelope 2] ∧
      ∀ g ∈ s.groups, WellCut paired.batching g := by
  have hrun : ((system paired 0).run (State.start 0)
      [.arrive (envelope 0), .arrive (envelope 1), .arrive (envelope 2), .recv, .recv, .dispatch,
        .recv, .elapse 5, .linger]).map (fun s => (s.dispatched, s.phase)) =
          some ([[envelope 0, envelope 1]], .freeing [envelope 2]) := by decide
  obtain ⟨s, hs, hview⟩ := Option.map_eq_some_iff.mp hrun
  obtain ⟨hdispatched, hphase⟩ := Prod.mk.inj hview
  have hreach : (system paired 0).Reachable s :=
    System.Reachable.run System.ReachableBy.start hs
  obtain ⟨-, -, ⟨group, -, hreceived, hgroup, -⟩, -, hgroups⟩ := groups_coalesced hreach
  have hheld : group = [envelope 2] := by
    rw [hgroup (by rw [State.returned, hphase]; rfl), hphase]
    rfl
  exact ⟨s, hdispatched, hheld ▸ hreceived, fun g hg => (hgroups g hg).1⟩

end Rustper.Sink
