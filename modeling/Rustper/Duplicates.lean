import Rustper.Deployment
import Rustper.SinkAttempts

/-!
How often a destination acknowledges an event. A process sends an event to a sink once for
each time it received the record, the sink attempts it once for each call of its group, and
a call has it acknowledged once at most: so within a process duplicates come from retries
only, and where no call fails there are none.
-/
namespace Rustper.Sink

open TransitionSystem

variable {runtime : Runtime} {s s' : State} {a : Action}

/-- Groups that are dispatched later do not change what earlier calls were given. -/
theorem flatMap_group_append {attempts : List Attempt} {dispatched : List (List SinkEnvelope)}
    {new : List (List SinkEnvelope)} (h : ∀ call ∈ attempts, call.write < dispatched.length) :
    attempts.flatMap (fun call => events (((dispatched ++ new)[call.write]?).getD [])) =
      attempts.flatMap (fun call => events ((dispatched[call.write]?).getD [])) := by
  apply List.flatMap_congr
  intro call hcall
  rw [List.getElem?_append_left (h call hcall)]

/-- What the calls that are over were given and what was written, after one more of them. -/
theorem events_append {call : Attempt} (hattempts : s'.attempts = s.attempts ++ [call])
    (hdispatched : s'.dispatched = s.dispatched) :
    s'.attempted = s.attempted ++ events (s.group call.write) ∧
      s'.written = s.written ++ if call.succeeded = true then events (s.group call.write) else [] := by
  constructor
  · rw [State.attempted, hattempts, List.flatMap_append]
    simp only [State.group, hdispatched, List.flatMap_cons, List.flatMap_nil, List.append_nil]
    rfl
  · rw [State.written, State.succeeded, groupsWith_append hattempts, List.flatMap_append,
      hdispatched]
    refine congrArg (s.written ++ ·) ?_
    split <;> simp [State.group]

theorem events_failed {c : Attempt} (hattempts : s'.attempts = s.attempts ++ [c])
    (hdispatched : s'.dispatched = s.dispatched) (hfails : c.succeeded = false) :
    s.attempted.Sublist s'.attempted ∧ s'.written = s.written := by
  obtain ⟨hattempted, hwritten⟩ := events_append hattempts hdispatched
  refine ⟨hattempted ▸ List.sublist_append_left _ _, ?_⟩
  simpa [hfails] using hwritten

theorem events_same (hattempts : s'.attempts = s.attempts) (hpaced : Paced runtime s)
    (hdispatched : ∃ new, s'.dispatched = s.dispatched ++ new) :
    s'.attempted = s.attempted ∧ s'.written = s.written := by
  obtain ⟨new, hnew⟩ := hdispatched
  constructor
  · rw [State.attempted, hattempts]
    simp only [State.group, hnew]
    exact flatMap_group_append hpaced.known
  · simp only [State.written, State.succeeded, State.groupsWith, hattempts, hnew, List.flatMap_map]
    exact flatMap_group_append fun call hcall => hpaced.known call (List.mem_of_mem_filter hcall)

/-- A step in which no call returns. -/
theorem Move.events_of_not_attempted (hmove : Move runtime s a s') (hpaced : Paced runtime s)
    (hnot : ∀ k result, a ≠ .attempted k result) :
    s.attempted.Sublist s'.attempted ∧ s'.written = s.written := by
  have hsame : s'.attempts = s.attempts → (∃ new, s'.dispatched = s.dispatched ++ new) →
      s.attempted.Sublist s'.attempted ∧ s'.written = s.written := by
    intro hattempts hdispatched
    obtain ⟨hattempted, hwritten⟩ := events_same hattempts hpaced hdispatched
    exact ⟨hattempted ▸ List.Sublist.refl _, hwritten⟩
  have hnil : ∃ new, s.dispatched = s.dispatched ++ new := ⟨[], (List.append_nil _).symm⟩
  cases hmove with
  | shuffle _ _ h | exit _ _ _ h => exact hsame h.attempts (h.dispatched ▸ hnil)
  | arrive e hrun => exact hsame rfl hnil
  | dispatch envelopes hphase hroom => exact hsame rfl ⟨_, rfl⟩
  | call _ pre post w number backoff hwrites hlive hnumber hnext => exact hsame rfl hnil
  | retry _ pre post w attempt backoff e hwrites hstage hretry =>
    exact events_failed (c := ⟨w.id, attempt, .error (.write e)⟩) rfl rfl rfl
  | finish k _ pre post w attempt backoff result ending hk hwrites hstage hlast hok =>
    cases result with
    | ok outcome => exact absurd (hok outcome rfl) (hnot k (.ok outcome))
    | error e => exact events_failed (c := ⟨w.id, attempt, .error e⟩) rfl rfl rfl
  | dropRest _ e queue orphans hrun hrest => exact hsame rfl hnil
  | dropWrite _ pre post w hrun hwrites hlive => exact hsame rfl hnil

theorem attempted_call {k : ℕ} {result : Except String WriteOutcome} {w : Write}
    (hs : step runtime s (.attempted k result) = some s') (hw : s.writes[k]? = some w) :
    s'.dispatched = s.dispatched ∧ ∃ number,
      s'.attempts = s.attempts ++ [⟨w.id, number, result.mapError .write⟩] := by
  simp only [step, attempted, hw] at hs
  split at hs
  · rename_i id envelopes attempt backoff hsome
    obtain rfl := Option.some.inj hsome
    cases result with
    | ok outcome =>
      cases hs
      exact ⟨rfl, attempt, rfl⟩
    | error e =>
      dsimp only at hs
      split at hs
      · cases hs
        exact ⟨rfl, attempt, rfl⟩
      · cases hs
        exact ⟨rfl, attempt, rfl⟩
  · contradiction

/-- A call that returns was given the events of its group, and they are written if it
succeeds. -/
theorem attempted_events {k : ℕ} {result : Except String WriteOutcome} {w : Write}
    (h : Fates runtime s) (hs : step runtime s (.attempted k result) = some s')
    (hw : s.writes[k]? = some w) :
    s'.attempted = s.attempted ++ events w.envelopes ∧
      s'.written = s.written ++ if result.toBool = true then events w.envelopes else [] := by
  obtain ⟨hdispatched, number, hattempts⟩ := attempted_call hs hw
  have hgroup : s.group w.id = w.envelopes := by
    rw [State.group, h.groups w (List.mem_of_getElem? hw)]
    rfl
  have hsucceeded : Attempt.succeeded ⟨w.id, number, result.mapError .write⟩ = result.toBool := by
    cases result <;> rfl
  obtain ⟨hattempted, hwritten⟩ := events_append hattempts hdispatched
  rw [hsucceeded] at hwritten
  exact ⟨hgroup ▸ hattempted, hgroup ▸ hwritten⟩

end Rustper.Sink

namespace Rustper.Router

open TransitionSystem

variable {n : ℕ} {wiring : Wiring n} {s s' : State n}

/-- A step of the process is a step of one sink at most, and a call only returns when the
step says so. -/
theorem step_sink {a : Action n} (hs : step wiring s a = some s') (i : Fin n) :
    s'.sinks i = s.sinks i ∨ ∃ b, Sink.step (wiring.runtimes i) (s.sinks i) b = some (s'.sinks i) ∧
      ∀ k result, b = .attempted k result → a = .sink i b := by
  have hupdate : ∀ {j : Fin n} {b : Sink.Action} {sink : Sink.State},
      Sink.step (wiring.runtimes j) (s.sinks j) b = some sink →
      (∀ k result, b = .attempted k result → a = .sink j b) →
      Function.update s.sinks j sink i = s.sinks i ∨
        ∃ b, Sink.step (wiring.runtimes i) (s.sinks i) b =
          some (Function.update s.sinks j sink i) ∧
          ∀ k result, b = .attempted k result → a = .sink i b := by
    intro j b sink hb haction
    by_cases hj : i = j
    · subst hj
      rw [Function.update_self]
      exact Or.inr ⟨b, hb, haction⟩
    · exact Or.inl (Function.update_of_ne hj sink s.sinks)
  cases step_taken hs with
  | sink j b sink hb hnot => exact hupdate hb fun _ _ _ => rfl
  | enqueue k j f f' sink hf hfan harrive =>
    exact hupdate harrive fun _ _ h => by contradiction
  | foreign j e sink hforeign hb => exact hupdate hb fun _ _ h => by contradiction
  | _ => exact Or.inl rfl

end Rustper.Router

namespace Rustper.Pipeline

variable {n : ℕ} {wiring : Router.Wiring n} {s s' : State n}

end Rustper.Pipeline

namespace Rustper.Deployment

open TransitionSystem Destination

variable {n : ℕ} {d : Site n} {base s s' : State n}

/-- What a destination has acknowledged for one sink: at most what the calls that are over
were given, and at least what is written. -/
structure Acknowledged (config : SinkConfig) (sink : Sink.State) (items : List Item) : Prop where
  most : items.Subperm (sink.attempted.filterMap (item? config))
  least : (sink.written.filterMap (item? config)).Subperm items

/-- What has been acknowledged since the process was started. -/
def Session (d : Site n) (base s : State n) : Prop :=
  match s.pipeline.process with
  | none => s.held = base.held
  | some process => ∀ i, ∃ items, s.held i = base.held i ++ items ∧
      Acknowledged (d.sinks i).2 (process.sinks i) items

theorem Acknowledged.start (config : SinkConfig) (now : ℕ) :
    Acknowledged config (Sink.State.start now) [] where
  most := List.Subperm.refl _
  least := List.Subperm.refl _

section Acknowledged

variable {config : SinkConfig} {runtime : Sink.Runtime} {sink sink' : Sink.State}
  {items taken : List Item} {now : ℕ}

theorem Acknowledged.idle (h : Acknowledged config sink items)
    (hreach : (Sink.system runtime now).Reachable sink) {a : Sink.Action}
    (hs : Sink.step runtime sink a = some sink') (hnot : ∀ k result, a ≠ .attempted k result) :
    Acknowledged config sink' items := by
  have hinv := Sink.reachable_inv hreach
  have hmove := Sink.step_move hinv.ledger.orphans hinv.fates.stages hs
  obtain ⟨hattempted, hwritten⟩ :=
    hmove.events_of_not_attempted (Sink.reachable_paced hreach) hnot
  exact ⟨h.most.trans (hattempted.filterMap _).subperm, hwritten ▸ h.least⟩

/-- The answer of a destination to a call. -/
theorem Acknowledged.answer (h : Acknowledged config sink items)
    (hreach : (Sink.system runtime now).Reachable sink) {formats : Formats} {id : String} {k : ℕ}
    {exchange : Exchange} {result : Except String Sink.WriteOutcome} {w : Sink.Write}
    (hs : Sink.step runtime sink (.attempted k result) = some sink')
    (hw : sink.writes[k]? = some w)
    (hperform : perform formats id config (Sink.batches w.envelopes) exchange =
      some (result, taken)) : Acknowledged config sink' (items ++ taken) := by
  obtain ⟨hattempted, hwritten⟩ :=
    Sink.attempted_events (Sink.reachable_inv hreach).fates hs hw
  have hitems : (Sink.events w.envelopes).filterMap (item? config) =
      Destination.items config (Sink.batches w.envelopes) := by
    rw [Sink.events_eq]
    rfl
  refine ⟨?_, ?_⟩
  · rw [hattempted, List.filterMap_append, hitems]
    exact h.most.append (perform_subperm hperform)
  · rw [hwritten, List.filterMap_append]
    cases result with
    | ok outcome =>
      simp only [Except.toBool, if_true, hitems]
      exact h.least.append (perform_ok hperform).taken.symm.subperm
    | error e =>
      simp only [Except.toBool, Bool.false_eq_true, if_false, List.filterMap_nil, List.append_nil]
      exact h.least.trans (List.sublist_append_left _ _).subperm

end Acknowledged

theorem Session.idle (h : Session d base s) (hprocess : s'.pipeline.process = s.pipeline.process)
    (hheld : s'.held = s.held) : Session d base s' := by
  unfold Session at h ⊢
  rw [hprocess, hheld]
  exact h

/-- The process takes a step in which no call returns. -/
theorem Session.run (h : Session d base s) {process process' : Router.State n} {now : ℕ}
    {b : Router.Action n} (hprocess : s.pipeline.process = some process)
    (hreach : (Router.system d.wiring now).Reachable process)
    (hstep : Router.step d.wiring process b = some process')
    (hprocess' : s'.pipeline.process = some process') (hheld : s'.held = s.held)
    (hnot : ∀ i k result, b ≠ .sink i (.attempted k result)) : Session d base s' := by
  simp only [Session, hprocess] at h
  simp only [Session, hprocess', hheld]
  intro i
  obtain ⟨items, hitems, hacknowledged⟩ := h i
  refine ⟨items, hitems, ?_⟩
  rcases Router.step_sink hstep i with hsame | ⟨c, hc, haction⟩
  · rw [hsame]
    exact hacknowledged
  · obtain ⟨start, hsink⟩ := (Router.reachable_inv hreach).sinks i
    refine hacknowledged.idle hsink hc fun k result hcall => ?_
    exact hnot i k result (hcall ▸ haction k result hcall)

/-- A call returns: its destination has taken in what it acknowledges. -/
theorem Session.answer (h : Session d base s) {process process' : Router.State n} {now k : ℕ}
    {i : Fin n} {exchange : Exchange} {w : Sink.Write}
    {result : Except String Sink.WriteOutcome} {taken : List Item}
    (hprocess : s.pipeline.process = some process)
    (hreach : (Router.system d.wiring now).Reachable process)
    (hstep : Router.step d.wiring process (.sink i (.attempted k result)) = some process')
    (hprocess' : s'.pipeline.process = some process')
    (hw : (process.sinks i).writes[k]? = some w)
    (hperform : perform d.formats (d.sinks i).1 (d.sinks i).2 (Sink.batches w.envelopes) exchange =
      some (result, taken))
    (hheld : s'.held = Function.update s.held i (s.held i ++ taken)) : Session d base s' := by
  simp only [Session, hprocess] at h
  simp only [Session, hprocess', hheld]
  intro j
  obtain ⟨items, hitems, hacknowledged⟩ := h j
  cases Router.step_taken hstep with
  | sink _ _ sink hsink hnot =>
    by_cases hj : j = i
    · subst hj
      obtain ⟨start, hrun⟩ := (Router.reachable_inv hreach).sinks j
      simp only [Function.update_self, hitems, List.append_assoc]
      exact ⟨items ++ taken, rfl, hacknowledged.answer hrun hsink hw hperform⟩
    · simp only [Function.update_of_ne hj]
      exact ⟨items, hitems, hacknowledged⟩

theorem Move.session (hmove : Move d s s') (hinv : Inv d s) (h : Session d base s)
    (hkeeps : ∀ process, s.pipeline.process = some process → s'.pipeline.process ≠ none) :
    Session d base s' := by
  have hrunning := Pipeline.reachable_running hinv.pipeline
  cases hmove with
  | pipeline action hnot hstep hheld =>
    cases (Pipeline.step_cases hstep).1 with
    | idle hprocess hpast => exact h.idle hprocess hheld
    | start now hnone hprocess hpast =>
      simp only [Session, hnone] at h
      simp only [Session, hprocess, hheld, h]
      exact fun i => ⟨[], (List.append_nil _).symm, Acknowledged.start _ now⟩
    | crash hnone hpast =>
      cases hprocess : s.pipeline.process with
      | none => exact h.idle (hnone.trans hprocess.symm) hheld
      | some process => exact absurd hnone (hkeeps process hprocess)
    | run b process process' hold hrouter hprocess hpast haction =>
      obtain ⟨now, hreach⟩ := hrunning process hold
      refine h.run hold hreach hrouter hprocess hheld ?_
      rintro i k result rfl
      rcases haction with ⟨r, hr⟩ | rfl
      · contradiction
      · exact hnot i k result rfl
  | answer i k exchange process w result taken hprocess hw hperform hstep hheld =>
    obtain ⟨old, process', hold, hrouter, hnext⟩ := Pipeline.runProcess_some hstep
    obtain rfl := Option.some.inj (hprocess.symm.trans hold)
    obtain ⟨now, hreach⟩ := hrunning process hprocess
    exact h.answer hprocess hreach hrouter (by rw [hnext]) hw hperform hheld

end Rustper.Deployment
