import Rustper.SinkDrain
import Rustper.SinkHistory

/-!
What `sink::run` returns. A write task ends with the result of its last call, the join
set hands each of these results on, and `run` keeps the first failure it joins: so it
returns `Ok` exactly when every group it dispatched has been written.
-/
namespace Rustper.Sink

open TransitionSystem

variable {runtime : Runtime} {s s' : State} {a : Action}

/-- The failure that `run` has joined. -/
def Phase.error? : Phase → Option WriteError
  | .draining (.error e) => some e
  | .returned (.error e) => some e
  | _ => none

/-- How a write task ends if the call is its last. -/
def Attempt.ending (call : Attempt) : Except WriteError Unit := call.result.map (fun _ => ())

/-- What a step does to the results of the writes on their way to the end of `run`. -/
inductive Turn (settings : DeliverySettings) (s s' : State) : Prop
  | loop (hwrites : s'.writes = s.writes) (hattempts : s'.attempts = s.attempts)
      (hdispatched : s'.dispatched = s.dispatched) (herror : s'.phase.error? = s.phase.error?)
      (hend : s'.phase = .returned (.ok ()) → s.phase = .returned (.ok ()) ∨ s.writes = [])
  | dispatch (envelopes : List SinkEnvelope) (hphase : s'.phase = .accepting)
      (hwrites : s'.writes = s.writes ++ [⟨s.dispatched.length, envelopes, .spawned⟩])
      (hattempts : s'.attempts = s.attempts) (hrun : s.phase.error? = none)
      (hdispatched : s'.dispatched = s.dispatched ++ [envelopes])
  | proceed (pre post : List Write) (w w' : Write) (calls : List Attempt)
      (hwrites : s.writes = pre ++ w :: post) (hwrites' : s'.writes = pre ++ w' :: post)
      (hid : w'.id = w.id) (hlive : w.live = true) (hlive' : w'.live = true)
      (hattempts : s'.attempts = s.attempts ++ calls)
      (hown : ∀ call ∈ calls, call.write = w.id)
      (hdispatched : s'.dispatched = s.dispatched) (hphase : s'.phase = s.phase)
  | finish (pre post : List Write) (w w' : Write) (call : Attempt)
      (hwrites : s.writes = pre ++ w :: post) (hwrites' : s'.writes = pre ++ w' :: post)
      (hid : w'.id = w.id) (hlive : w.live = true) (hstage : w'.stage = .done call.ending)
      (hattempts : s'.attempts = s.attempts ++ [call]) (hown : call.write = w.id)
      (hlast : call.retried settings = false)
      (hdispatched : s'.dispatched = s.dispatched) (hphase : s'.phase = s.phase)
  | reap (pre post : List Write) (w : Write) (result : Except WriteError Unit)
      (hwrites : s.writes = pre ++ w :: post) (hwrites' : s'.writes = pre ++ post)
      (hstage : w.stage = .done result) (hattempts : s'.attempts = s.attempts)
      (hdispatched : s'.dispatched = s.dispatched)
      (hkept : ∀ e, s'.phase.error? = some e → s.phase.error? = some e ∨ result = .error e)
      (hnone : s'.phase.error? = none → s.phase.error? = none ∧ result = .ok ())
      (hrun : s.returned = false) (hend : s'.phase ≠ .returned (.ok ()))
  | drop (pre post : List Write) (w : Write) (hrun : s.returned = true)
      (hwrites : s.writes = pre ++ w :: post) (hwrites' : s'.writes = pre ++ post)
      (hattempts : s'.attempts = s.attempts) (hdispatched : s'.dispatched = s.dispatched)
      (hphase : s'.phase = s.phase)

section step_turn

/-- A step of the loops that leaves the join set and its history alone. -/
theorem Turn.of_phase {now deadline : ℕ} {queue orphans arrived : List SinkEnvelope}
    {inputClosed : Bool} {assembling : List Receipt} {groups : List Group}
    {settled : List Settled} {phase : Phase} (herror : phase.error? = s.phase.error?)
    (hend : phase = .returned (.ok ()) → s.phase = .returned (.ok ()) ∨ s.writes = []) :
    Turn runtime.settings s { s with
      now := now, deadline := deadline, queue := queue, inputClosed := inputClosed
      phase := phase, orphans := orphans, arrived := arrived, assembling := assembling
      groups := groups, settled := settled } :=
  .loop rfl rfl rfl herror hend

theorem coalesce_turn {batching : BatchSettings} {envelopes queue : List SinkEnvelope}
    {eventCount byteCount deadline : ℕ} {assembling : List Receipt}
    (hrun : s.phase.error? = none) :
    Turn runtime.settings s (State.coalesce { s with
      queue := queue, deadline := deadline, assembling := assembling } batching envelopes
        eventCount byteCount) := by
  unfold State.coalesce
  split
  · exact Turn.of_phase hrun.symm (fun hend => by contradiction)
  · exact Turn.of_phase hrun.symm (fun hend => by contradiction)

theorem recv_turn (hs : recv runtime s = some s') : Turn runtime.settings s s' := by
  unfold recv at hs
  split at hs
  · rename_i hphase _
    cases hs
    exact coalesce_turn (by rw [hphase]; rfl)
  · rename_i hphase _
    cases hs
    exact coalesce_turn (by rw [hphase]; rfl)
  · contradiction

theorem inputEnd_turn (hs : inputEnd s = some s') : Turn runtime.settings s s' := by
  simp only [inputEnd, Option.ite_none_right_eq_some] at hs
  obtain ⟨-, hs⟩ := hs
  split at hs
  · rename_i hphase
    cases hs
    exact Turn.of_phase (by rw [hphase]; rfl) (fun hend => by contradiction)
  · rename_i hphase
    cases hs
    exact Turn.of_phase (by rw [hphase]; rfl) (fun hend => by contradiction)
  · contradiction

theorem shutdown_turn (hs : shutdown s = some s') : Turn runtime.settings s s' := by
  unfold shutdown at hs
  split at hs
  · rename_i hphase
    cases hs
    exact Turn.of_phase (by rw [hphase]; rfl) (fun hend => by contradiction)
  · contradiction

theorem linger_turn (hs : linger s = some s') : Turn runtime.settings s s' := by
  unfold linger at hs
  split at hs
  · rename_i hphase
    simp only [Option.ite_none_right_eq_some, Option.some.injEq] at hs
    obtain ⟨-, rfl⟩ := hs
    exact Turn.of_phase (by rw [hphase]; rfl) (fun hend => by contradiction)
  · contradiction

/-- `run` returns the outcome of the drain, which is over once no write is left. -/
theorem finishDrain_turn (hs : finishDrain s = some s') : Turn runtime.settings s s' := by
  unfold finishDrain at hs
  split at hs
  · rename_i outcome hphase
    simp only [Option.ite_none_right_eq_some, Option.some.injEq] at hs
    obtain ⟨hwrites, rfl⟩ := hs
    refine Turn.of_phase ?_ (fun _ => Or.inr hwrites)
    rw [hphase]
    cases outcome <;> rfl
  · contradiction

/-- The drain keeps the failure it has, and any other loop hands the result on. -/
theorem propagate_error (t : State) (result : Except WriteError Unit)
    (hrun : t.returned = false) :
    (propagate t result).writes = t.writes ∧ (propagate t result).attempts = t.attempts ∧
      (propagate t result).dispatched = t.dispatched ∧
      (∀ e, (propagate t result).phase.error? = some e →
        t.phase.error? = some e ∨ result = .error e) ∧
      ((propagate t result).phase.error? = none → t.phase.error? = none ∧ result = .ok ()) ∧
      (propagate t result).phase ≠ .returned (.ok ()) := by
  cases hphase : t.phase with
  | returned outcome =>
    rw [State.returned, hphase] at hrun
    contradiction
  | draining outcome =>
    cases outcome with
    | ok u => cases result <;> simp [propagate, hphase, Phase.error?]
    | error e => simp [propagate, hphase, Phase.error?]
  | _ => cases result <;> simp [propagate, hphase, Phase.error?, State.exit]

theorem reap_turn {k : ℕ} (hs : reap runtime s k = some s') : Turn runtime.settings s s' := by
  unfold reap at hs
  split at hs
  · rename_i id envelopes result hk
    simp only [Option.ite_none_right_eq_some, Option.some.injEq] at hs
    obtain ⟨hreaps, rfl⟩ := hs
    have hrun : s.returned = false := by
      cases hphase : s.phase with
      | returned outcome =>
        rw [reaps, hphase] at hreaps
        contradiction
      | _ => rw [State.returned, hphase]; rfl
    obtain ⟨pre, post, hwrites, -, herase⟩ := Slots.exists_split hk
    rw [herase]
    obtain ⟨hwrites', hattempts, hdispatched, hkept, hnone, hend⟩ :=
      propagate_error { s with writes := pre ++ post } result hrun
    exact .reap pre post _ result hwrites hwrites' rfl hattempts hdispatched hkept hnone
      hrun hend
  · contradiction

theorem dispatch_turn (hs : dispatch runtime s = some s') : Turn runtime.settings s s' := by
  unfold dispatch at hs
  split at hs
  · rename_i envelopes hphase
    simp only [Option.ite_none_right_eq_some, Option.some.injEq] at hs
    obtain ⟨-, rfl⟩ := hs
    exact .dispatch envelopes rfl rfl rfl (by rw [hphase]; rfl) rfl
  · contradiction

variable {k id attempt backoff : ℕ} {envelopes : List SinkEnvelope}

theorem call_turn {stage : WriteStage} {number : ℕ}
    (hk : s.writes[k]? = some ⟨id, envelopes, stage⟩)
    (hlive : Write.live ⟨id, envelopes, stage⟩ = true) :
    Turn runtime.settings s (call s k ⟨id, envelopes, stage⟩ number backoff) := by
  obtain ⟨pre, post, hwrites, hset, -⟩ := Slots.exists_split hk
  exact .proceed pre post _ ⟨id, envelopes, .writing number backoff⟩ [] hwrites (hset _) rfl hlive
    rfl (List.append_nil _).symm (fun call hcall => by contradiction) rfl rfl

theorem finish_turn {settlement : Settlement} {metrics : SinkMetrics}
    (result : Except WriteError WriteOutcome) (ending : Except WriteError Unit)
    (hk : s.writes[k]? = some ⟨id, envelopes, .writing attempt backoff⟩)
    (hending : ending = result.map (fun _ => ()))
    (hlast : Attempt.retried runtime.settings ⟨id, attempt, result⟩ = false) :
    Turn runtime.settings s (finish (s.record metrics ⟨id, attempt, result⟩) k
      ⟨id, envelopes, .writing attempt backoff⟩ ending settlement) := by
  obtain ⟨pre, post, hwrites, hset, -⟩ := Slots.exists_split hk
  exact .finish pre post _ ⟨id, envelopes, .done ending⟩ ⟨id, attempt, result⟩ hwrites (hset _)
    rfl rfl (congrArg WriteStage.done hending) rfl rfl hlast rfl rfl

theorem begin_turn (hs : begin runtime s k = some s') : Turn runtime.settings s s' := by
  unfold begin at hs
  split at hs
  · rename_i hk
    cases hs
    exact call_turn hk rfl
  · contradiction

/-- A call that is retried leaves the write running, any other ends it with its result. -/
theorem attempted_turn {result : Except String WriteOutcome}
    (hs : attempted runtime s k result = some s') : Turn runtime.settings s s' := by
  unfold attempted at hs
  split at hs
  · rename_i id envelopes attempt backoff hk
    cases result with
    | ok outcome =>
      cases hs
      exact finish_turn (.ok outcome) (.ok ()) hk rfl rfl
    | error e =>
      dsimp only at hs
      split at hs
      · cases hs
        obtain ⟨pre, post, hwrites, hset, -⟩ := Slots.exists_split hk
        refine .proceed pre post _ ⟨id, envelopes, .sleeping attempt backoff (s.now + backoff)⟩
          [⟨id, attempt, .error (.write e)⟩] hwrites (hset _) rfl rfl rfl rfl ?_ rfl rfl
        intro call hcall
        rw [List.mem_singleton.mp hcall]
      · rename_i hlast
        cases hs
        exact finish_turn (.error (.write e)) _ hk rfl
          (by simp [Attempt.retried, Attempt.failed, hlast])
  · contradiction

theorem panicked_turn (hs : panicked s k = some s') : Turn runtime.settings s s' := by
  unfold panicked at hs
  split at hs
  · rename_i hk
    cases hs
    exact finish_turn (.error .panicked) _ hk rfl rfl
  · contradiction

theorem wake_turn (hs : wake runtime s k = some s') : Turn runtime.settings s s' := by
  unfold wake at hs
  split at hs
  · rename_i hk
    simp only [Option.ite_none_right_eq_some, Option.some.injEq] at hs
    obtain ⟨-, rfl⟩ := hs
    exact call_turn hk rfl
  · contradiction

theorem dropWrite_turn (hs : dropWrite s k = some s') : Turn runtime.settings s s' := by
  unfold dropWrite at hs
  split at hs
  · rename_i w hrun hk
    simp only [Option.ite_none_right_eq_some, Option.some.injEq] at hs
    obtain ⟨-, rfl⟩ := hs
    obtain ⟨pre, post, hwrites, -, herase⟩ := Slots.exists_split hk
    exact .drop pre post w hrun hwrites herase rfl rfl rfl
  · contradiction

/-- What is dropped from the channel or from the group was never handed to a write. -/
theorem dropRest_turn (hs : dropOrphan s = some s' ∨ dropQueued s = some s') :
    Turn runtime.settings s s' := by
  rcases hs with hs | hs
  · unfold dropOrphan at hs
    split at hs
    · cases hs
      exact Turn.of_phase rfl Or.inl
    · contradiction
  · unfold dropQueued at hs
    split at hs
    · cases hs
      exact Turn.of_phase rfl Or.inl
    · contradiction

theorem step_turn (hs : step runtime s a = some s') : Turn runtime.settings s s' := by
  cases a with
  | elapse duration =>
    cases hs
    exact Turn.of_phase rfl Or.inl
  | arrive e =>
    simp only [step, arrive, Option.ite_none_right_eq_some, Option.some.injEq] at hs
    obtain ⟨-, rfl⟩ := hs
    exact Turn.of_phase rfl Or.inl
  | closeInput =>
    cases hs
    exact Turn.of_phase rfl Or.inl
  | shutdown => exact shutdown_turn hs
  | recv => exact recv_turn hs
  | inputEnd => exact inputEnd_turn hs
  | linger => exact linger_turn hs
  | reap k => exact reap_turn hs
  | dispatch => exact dispatch_turn hs
  | finishDrain => exact finishDrain_turn hs
  | begin k => exact begin_turn hs
  | attempted k result => exact attempted_turn hs
  | panicked k => exact panicked_turn hs
  | wake k => exact wake_turn hs
  | dropOrphan => exact dropRest_turn (Or.inl hs)
  | dropQueued => exact dropRest_turn (Or.inr hs)
  | dropWrite k => exact dropWrite_turn hs

end step_turn

/-- The last call for group `k` failed with `e`, and no call for it ever succeeded. -/
structure FailedWith (runtime : Runtime) (s : State) (k : ℕ) (e : WriteError) : Prop where
  call : ∃ a ∈ s.attemptsOf k, a.result = .error e ∧ a.retried runtime.settings = false
  unwritten : k ∉ s.succeeded

/-- What a result of the write of group `k` stands for. -/
def Stands (runtime : Runtime) (s : State) (k : ℕ) : Except WriteError Unit → Prop
  | .ok () => k ∈ s.succeeded
  | .error e => FailedWith runtime s k e

/-- The results of the calls on their way through the join set to the end of `run`. -/
structure Surfaced (runtime : Runtime) (s : State) : Prop where
  results : ∀ w ∈ s.writes, ∀ result, w.stage = .done result → Stands runtime s w.id result
  joined : s.phase.error? = none → ∀ k < s.dispatched.length,
    k ∈ s.succeeded ∨ k ∈ s.writes.map Write.id
  kept : ∀ e, s.phase.error? = some e → ∃ k, FailedWith runtime s k e
  drained : s.phase = .returned (.ok ()) → s.writes = []

theorem mem_succeeded_append {calls : List Attempt}
    (hattempts : s'.attempts = s.attempts ++ calls) {k : ℕ} (hk : k ∈ s.succeeded) :
    k ∈ s'.succeeded := by
  rw [State.succeeded, State.groupsWith, hattempts, List.filter_append, List.map_append]
  exact List.mem_append_left _ hk

/-- Only a write that is still running makes calls. -/
theorem FailedWith.append {k : ℕ} {e : WriteError} {calls : List Attempt}
    (h : FailedWith runtime s k e) (hattempts : s'.attempts = s.attempts ++ calls)
    (hpending : ∀ call ∈ calls, Pending runtime s call.write) : FailedWith runtime s' k e := by
  obtain ⟨⟨a, ha, hresult, hlast⟩, hunwritten⟩ := h
  refine ⟨⟨a, ?_, hresult, hlast⟩, ?_⟩
  · rw [State.attemptsOf, hattempts, List.filter_append]
    exact List.mem_append_left _ ha
  · rw [State.succeeded, State.groupsWith, hattempts, List.filter_append, List.map_append]
    intro hk
    rcases List.mem_append.mp hk with hk | hk
    · exact hunwritten hk
    · obtain ⟨call, hcall, rfl⟩ := List.mem_map.mp hk
      have hretried := (hpending call (List.mem_of_mem_filter hcall)).attempts a ha
      rw [hlast] at hretried
      contradiction

/-- A call that is not retried is the one that decides what becomes of its group. -/
theorem failedWith_of_call {call : Attempt} {e : WriteError} (h : Pending runtime s call.write)
    (hattempts : s'.attempts = s.attempts ++ [call]) (hresult : call.result = .error e)
    (hlast : call.retried runtime.settings = false) : FailedWith runtime s' call.write e := by
  refine ⟨⟨call, ?_, hresult, hlast⟩, ?_⟩
  · rw [State.attemptsOf, hattempts]
    exact List.mem_filter.mpr ⟨List.mem_append_right _ List.mem_cons_self, by simp⟩
  · rw [State.succeeded, groupsWith_append hattempts, List.mem_append]
    have hfails : call.succeeded = false := by rw [Attempt.succeeded, hresult]; rfl
    have hnot := h.not_mem (fun a ha => (Attempt.retried_excludes ha).1)
    simpa [hfails] using hnot

theorem Stands.append {k : ℕ} {result : Except WriteError Unit} {calls : List Attempt}
    (h : Stands runtime s k result) (hattempts : s'.attempts = s.attempts ++ calls)
    (hpending : ∀ call ∈ calls, Pending runtime s call.write) : Stands runtime s' k result := by
  cases result with
  | ok u => exact mem_succeeded_append hattempts h
  | error e => exact FailedWith.append h hattempts hpending

/-- The last call of a write decides what its result stands for. -/
theorem stands_of_call {call : Attempt} (h : Pending runtime s call.write)
    (hattempts : s'.attempts = s.attempts ++ [call])
    (hlast : call.retried runtime.settings = false) :
    Stands runtime s' call.write call.ending := by
  cases hresult : call.result with
  | ok outcome =>
    rw [Attempt.ending, hresult]
    show call.write ∈ s'.succeeded
    rw [State.succeeded, groupsWith_append hattempts, Attempt.succeeded, hresult]
    exact List.mem_append_right _ List.mem_cons_self
  | error e =>
    rw [Attempt.ending, hresult]
    exact failedWith_of_call h hattempts hresult hlast

section surfaced

variable {calls : List Attempt} (h : Surfaced runtime s)
  (hattempts : s'.attempts = s.attempts ++ calls)
  (hpending : ∀ call ∈ calls, Pending runtime s call.write)

include h hattempts hpending

/-- The writes of the join set that are not new stand for what they stood for. -/
theorem Surfaced.results_append (hwrites : ∀ w ∈ s'.writes, w ∈ s.writes ∨
      ∀ result, w.stage = .done result → Stands runtime s' w.id result) :
    ∀ w ∈ s'.writes, ∀ result, w.stage = .done result → Stands runtime s' w.id result := by
  intro w hw result hstage
  rcases hwrites w hw with hold | hnew
  · exact (h.results w hold result hstage).append hattempts hpending
  · exact hnew result hstage

theorem Surfaced.kept_append (e : WriteError) (he : s.phase.error? = some e) :
    ∃ k, FailedWith runtime s' k e := by
  obtain ⟨k, hk⟩ := h.kept e he
  exact ⟨k, hk.append hattempts hpending⟩

/-- A step that takes no write out of the join set and ends `run` only with its result. -/
theorem Surfaced.restage (hwrites : ∀ w ∈ s'.writes, w ∈ s.writes ∨
      ∀ result, w.stage = .done result → Stands runtime s' w.id result)
    (hids : s'.writes.map Write.id = s.writes.map Write.id)
    (hdispatched : s'.dispatched = s.dispatched) (herror : s'.phase.error? = s.phase.error?)
    (hend : s'.phase = .returned (.ok ()) → s.phase = .returned (.ok ()) ∨ s.writes = []) :
    Surfaced runtime s' := by
  refine ⟨h.results_append hattempts hpending hwrites, ?_, ?_, ?_⟩
  · intro hnone k hk
    rw [hdispatched] at hk
    rw [hids]
    exact (h.joined (herror ▸ hnone) k hk).imp_left (mem_succeeded_append hattempts)
  · intro e he
    exact h.kept_append hattempts hpending e (herror ▸ he)
  · intro hreturned
    have hnil : s.writes = [] := (hend hreturned).elim h.drained id
    rw [hnil] at hids
    exact List.map_eq_nil_iff.mp hids

end surfaced

theorem Fates.pending_calls (h : Fates runtime s) {pre post : List Write} {w : Write}
    {calls : List Attempt} (hwrites : s.writes = pre ++ w :: post) (hlive : w.live = true)
    (hown : ∀ call ∈ calls, call.write = w.id) :
    ∀ call ∈ calls, Pending runtime s call.write := by
  intro call hcall
  rw [hown call hcall]
  exact h.pending w.id (h.mem_liveIds hwrites hlive)

theorem mem_replace {α : Type} {pre post : List α} {x y z : α} (hz : z ∈ pre ++ y :: post) :
    z ∈ pre ++ x :: post ∨ z = y := by
  simp only [List.mem_append, List.mem_cons] at hz ⊢
  tauto

theorem Turn.surfaced (hturn : Turn runtime.settings s s') (hfates : Fates runtime s)
    (h : Surfaced runtime s) : Surfaced runtime s' := by
  have hnone : ∀ call ∈ ([] : List Attempt), Pending runtime s call.write :=
    fun call hcall => by contradiction
  cases hturn with
  | loop hwrites hattempts hdispatched herror hend =>
    refine h.restage (hattempts.trans (List.append_nil _).symm) hnone ?_
      (congrArg (List.map Write.id) hwrites) hdispatched herror hend
    intro w hw
    exact Or.inl (hwrites ▸ hw)
  | dispatch envelopes hphase hwrites hattempts hrun hdispatched =>
    have hsame := hattempts.trans (List.append_nil _).symm
    refine ⟨h.results_append hsame hnone ?_, ?_, ?_, ?_⟩
    · intro w hw
      rw [hwrites] at hw
      refine (List.mem_append.mp hw).imp_right ?_
      intro hnew result hstage
      rw [List.mem_singleton.mp hnew] at hstage
      contradiction
    · intro _ k hk
      rw [hwrites, List.map_append, List.mem_append]
      rw [hdispatched, List.length_append, List.length_singleton] at hk
      rcases Nat.lt_succ_iff_lt_or_eq.mp hk with hk | rfl
      · exact (h.joined hrun k hk).imp (mem_succeeded_append hsame) Or.inl
      · exact Or.inr (Or.inr List.mem_cons_self)
    · intro e he
      rw [hphase] at he
      contradiction
    · intro hreturned
      rw [hphase] at hreturned
      contradiction
  | proceed pre post w w' calls hwrites hwrites' hid hlive hlive' hattempts hown hdispatched
      hphase =>
    refine h.restage hattempts (hfates.pending_calls hwrites hlive hown) ?_ ?_ hdispatched
      (congrArg Phase.error? hphase) (fun hend => Or.inl (hphase ▸ hend))
    · rw [hwrites, hwrites']
      intro v hv
      refine (mem_replace hv).imp_right ?_
      rintro rfl result hstage
      rw [Write.live, hstage] at hlive'
      contradiction
    · rw [hwrites, hwrites', List.map_append, List.map_append, List.map_cons, List.map_cons, hid]
  | finish pre post w w' call hwrites hwrites' hid hlive hstage hattempts hown hlast hdispatched
      hphase =>
    have hpending : ∀ c ∈ [call], Pending runtime s c.write :=
      hfates.pending_calls hwrites hlive (fun c hc => List.mem_singleton.mp hc ▸ hown)
    refine h.restage hattempts hpending ?_ ?_ hdispatched
      (congrArg Phase.error? hphase) (fun hend => Or.inl (hphase ▸ hend))
    · rw [hwrites, hwrites']
      intro v hv
      refine (mem_replace hv).imp_right ?_
      rintro rfl result hdone
      obtain rfl := WriteStage.done.inj (hstage.symm.trans hdone)
      rw [hid, ← hown]
      exact stands_of_call (hpending call List.mem_cons_self) hattempts hlast
    · rw [hwrites, hwrites', List.map_append, List.map_append, List.map_cons, List.map_cons, hid]
  | reap pre post w result hwrites hwrites' hstage hattempts hdispatched hkept hclear hrun
      hend =>
    have hsame := hattempts.trans (List.append_nil _).symm
    have hw : w ∈ s.writes := hwrites ▸ List.mem_append_right _ List.mem_cons_self
    have hstands := h.results w hw result hstage
    refine ⟨h.results_append hsame hnone ?_, ?_, ?_, fun hreturned => absurd hreturned hend⟩
    · rw [hwrites, hwrites']
      intro v hv
      exact Or.inl (((List.sublist_cons_self w post).append_left pre).subset hv)
    · intro hphase k hk
      obtain ⟨hrun, rfl⟩ := hclear hphase
      rw [hdispatched] at hk
      rcases h.joined hrun k hk with hwritten | hmem
      · exact Or.inl (mem_succeeded_append hsame hwritten)
      · rw [hwrites, List.map_append, List.map_cons] at hmem
        rw [hwrites', List.map_append]
        rcases List.mem_cons.mp (List.perm_middle.mem_iff.mp hmem) with rfl | hmem
        · exact Or.inl (mem_succeeded_append hsame hstands)
        · exact Or.inr hmem
    · intro e he
      rcases hkept e he with hrun | rfl
      · exact h.kept_append hsame hnone e hrun
      · exact ⟨w.id, hstands.append hsame hnone⟩
  | drop pre post w hrun hwrites hwrites' hattempts hdispatched hphase =>
    have hsame := hattempts.trans (List.append_nil _).symm
    have hfailed : s.phase ≠ .returned (.ok ()) := by
      intro hreturned
      rw [h.drained hreturned] at hwrites
      simp at hwrites
    refine ⟨h.results_append hsame hnone ?_, ?_, ?_, ?_⟩
    · rw [hwrites, hwrites']
      intro v hv
      exact Or.inl (((List.sublist_cons_self w post).append_left pre).subset hv)
    · intro hclear
      rw [hphase] at hclear
      cases hs : s.phase with
      | returned outcome =>
        cases outcome with
        | ok u => exact absurd hs hfailed
        | error e =>
          rw [hs] at hclear
          contradiction
      | _ =>
        rw [State.returned, hs] at hrun
        contradiction
    · intro e he
      exact h.kept_append hsame hnone e (hphase ▸ he)
    · intro hreturned
      exact absurd (hphase ▸ hreturned) hfailed

theorem start_surfaced (runtime : Runtime) (now : ℕ) : Surfaced runtime (State.start now) where
  results w hw := by contradiction
  joined _ k hk := absurd hk (Nat.not_lt_zero k)
  kept e he := by contradiction
  drained hphase := by contradiction

theorem reachable_surfaced {now : ℕ} (h : (system runtime now).Reachable s) :
    Surfaced runtime s := by
  have hboth : Inv runtime s ∧ Surfaced runtime s := by
    have hstart : Inv runtime (State.start now) ∧ Surfaced runtime (State.start now) :=
      ⟨start_inv runtime now, start_surfaced runtime now⟩
    apply System.Reachable.invariant hstart _ h
    intro t a t' ht hs
    exact ⟨step_inv ht.1 hs, (step_turn hs).surfaced ht.1.fates ht.2⟩
  exact hboth.2

theorem Phase.eq_of_error {phase : Phase} {outcome : Except WriteError Unit}
    (hrun : phase.isReturned = true) (herror : phase.error? = (Phase.returned outcome).error?) :
    phase = .returned outcome := by
  cases phase with
  | returned outcome' =>
    cases outcome' <;> cases outcome <;> simp [Phase.error?] at herror ⊢
    exact herror
  | _ => contradiction

/-- `run` returns once. -/
theorem step_outcome {outcome : Except WriteError Unit} (h : Inv runtime s)
    (hs : step runtime s a = some s') (hphase : s.phase = .returned outcome) :
    s'.phase = .returned outcome := by
  have hrun : s.returned = true := by rw [State.returned, hphase]; rfl
  have hstays := (step_move h.ledger.orphans h.fates.stages hs).aborted.2 hrun
  cases step_turn hs with
  | loop hwrites hattempts hdispatched herror =>
    exact Phase.eq_of_error hstays (hphase ▸ herror)
  | dispatch envelopes haccepting =>
    rw [State.returned, haccepting] at hstays
    contradiction
  | reap pre post w result hwrites hwrites' hstage hattempts hdispatched hkept hclear hnot =>
    rw [hrun] at hnot
    contradiction
  | proceed pre post w w' calls hwrites hwrites' hid hlive hlive' hattempts hown hdispatched
      hsame => exact hsame.trans hphase
  | finish pre post w w' call hwrites hwrites' hid hlive hstage hattempts hown hlast hdispatched
      hsame => exact hsame.trans hphase
  | drop pre post w hreturned hwrites hwrites' hattempts hdispatched hsame =>
    exact hsame.trans hphase

theorem FailedWith.lt {k : ℕ} {e : WriteError} (h : FailedWith runtime s k e)
    (hfates : Fates runtime s) : k < s.dispatched.length := by
  obtain ⟨a, ha, -, hlast⟩ := h.call
  by_contra hle
  have hretried := (hfates.unknown k (Nat.le_of_not_lt hle)).attempts a ha
  rw [hlast] at hretried
  contradiction

/-- A run that returned `Ok` has joined every write and found each one successful. -/
theorem Surfaced.written_of_ok (h : Surfaced runtime s) (hphase : s.phase = .returned (.ok ())) :
    ∀ k < s.dispatched.length, k ∈ s.succeeded := by
  intro k hk
  refine (h.joined (by rw [hphase]; rfl) k hk).resolve_right ?_
  rw [h.drained hphase]
  exact List.not_mem_nil

theorem Surfaced.failed_of_error {e : WriteError} (h : Surfaced runtime s)
    (hfates : Fates runtime s) (hphase : s.phase = .returned (.error e)) :
    ∃ k < s.dispatched.length, FailedWith runtime s k e := by
  obtain ⟨k, hk⟩ := h.kept e (by rw [hphase]; rfl)
  exact ⟨k, hk.lt hfates, hk⟩

/-- `run` returns `Ok` exactly when every group it dispatched has been written, and a
failure it returns is that of the last call for a group that never was. -/
theorem outcome_exact {now : ℕ} {outcome : Except WriteError Unit}
    (h : (system runtime now).Reachable s) (hphase : s.phase = .returned outcome) :
    (outcome = .ok () ↔ ∀ k < s.dispatched.length, k ∈ s.succeeded) ∧
      ∀ e, outcome = .error e → ∃ k < s.dispatched.length, FailedWith runtime s k e := by
  have hfates := (reachable_inv h).fates
  have hsurfaced := reachable_surfaced h
  have hfails : ∀ e, outcome = .error e →
      ∃ k < s.dispatched.length, FailedWith runtime s k e := by
    rintro e rfl
    exact hsurfaced.failed_of_error hfates hphase
  refine ⟨⟨?_, ?_⟩, hfails⟩
  · rintro rfl
    exact hsurfaced.written_of_ok hphase
  · intro hall
    cases outcome with
    | ok u => rfl
    | error e =>
      obtain ⟨k, hk, hfailed⟩ := hfails e rfl
      exact absurd (hall k hk) hfailed.unwritten

/-- Of two writes under way when the input ends the second one fails: the drain waits for
the first and returns the failure of the second. -/
def secondFails : List Action :=
  [.arrive (envelope 0), .arrive (envelope 1), .closeInput, .recv, .dispatch, .recv, .dispatch,
    .begin 0, .begin 1, .inputEnd, .attempted 1 (.error "broker down"), .reap 1,
    .attempted 0 (.ok ⟨1, 0⟩), .reap 0, .finishDrain]

theorem outcome_exact_secondFails : ∃ s : State,
    s.phase = .returned (.error (.write "broker down")) ∧ s.succeeded = [0] ∧
    ∃ k < s.dispatched.length, FailedWith concurrent s k (.write "broker down") := by
  have hrun : ((system concurrent 0).run (State.start 0) secondFails).map
      (fun s => (s.phase, s.succeeded)) =
        some (.returned (.error (.write "broker down")), [0]) := by decide
  obtain ⟨s, hs, hview⟩ := Option.map_eq_some_iff.mp hrun
  obtain ⟨hphase, hsucceeded⟩ := Prod.mk.inj hview
  have hreach : (system concurrent 0).Reachable s :=
    System.Reachable.run System.ReachableBy.start hs
  exact ⟨s, hphase, hsucceeded, (outcome_exact hreach hphase).2 _ rfl⟩

end Rustper.Sink
