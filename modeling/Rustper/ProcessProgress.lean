import Rustper.Process
import Rustper.RouterProgress
import Rustper.ShutdownProgress

/-!
Progress of the whole process. What is left to do of all sources, fan-outs and sinks and of
`topology::run` shrinks with every step but the receipt of a record. Where nothing is left,
either no task has ended and every source has committed all it has received, or `run` has
returned: no part of the process can keep another one waiting, and none can fail unnoticed.
-/
namespace Rustper.Process

open TransitionSystem

variable {m n : ℕ} {plan : Plan m n} {s s' : State plan}

/-- What is left to a source and its fan-outs, the sinks apart. -/
def partRemaining (plan : Plan m n) (k : Fin m) (part : Part (plan.width k)) : ℕ :=
  part.source.remaining (Router.batchCost (plan.wiring k)) +
    (part.fanouts.map (Fanout.State.remaining (Router.envelopeCost (plan.wiring k)))).sum

def State.remaining (s : State plan) : ℕ :=
  s.control.remaining plan.runtimes + s.control.sourceTasks.running.length +
    ∑ k, partRemaining plan k (s.parts k)

def work : Action plan → ℕ
  | .part _ a => Router.work a
  | .sourceEnds _ => 1
  | .control a => Shutdown.work a
  | .idle => 0

/-- Only a record brings work into the process. -/
def pay : Action plan → ℕ
  | .part k a => Router.pay (plan.wiring k) a
  | _ => 0

/-- What happens without the consumers and the user: no record comes in, no call of `recv`
fails, and nobody interrupts the process. -/
def internal : Action plan → Bool
  | .part _ (.source .shutdown) => true
  | .part _ a => Router.internal a
  | .control .interrupt => false
  | _ => true

/-- The action of the process that a source sees as one of the router. -/
def ofView (k : Fin m) : Router.Action (plan.width k) → Action plan
  | .sink i a => .control (.sink (plan.target k i) a)
  | a => .part k a

theorem parts_update (k : Fin m) (part : Part (plan.width k)) :
    ∑ l, partRemaining plan l (Function.update s.parts k part l) +
        partRemaining plan k (s.parts k) =
      ∑ l, partRemaining plan l (s.parts l) + partRemaining plan k part :=
  sum_update s.parts (partRemaining plan) k part

/-- What a source sees is what is left to it and to its sinks. -/
theorem view_remaining (s : State plan) (k : Fin m) :
    (s.view k).remaining (plan.wiring k) = partRemaining plan k (s.parts k) +
      ∑ i, (s.control.sinks (plan.target k i)).remaining (plan.runtimes (plan.target k i)) :=
  rfl

section sources

variable {runtimes : Fin n → Sink.Runtime} {c c' : Shutdown.State n}

/-- Source tasks that end with a step of `run`. -/
def ending : Shutdown.Action n → ℕ
  | .source _ _ => 1
  | _ => 0

theorem joined_running {ι ε : Type} {tasks rest : JoinSet ι ε}
    (h : Shutdown.joinAll tasks = .again rest ∨
      ∃ result, Shutdown.joinAll tasks = .returned result rest) : rest.running = tasks.running := by
  rcases h with h | ⟨result, h⟩
  · obtain ⟨i, -, hrunning⟩ := Shutdown.joinAll_eq_again h
    exact hrunning
  · exact (Shutdown.joinAll_eq_returned h).1

theorem sources_running {a : Shutdown.Action n} (hs : Shutdown.step runtimes c a = some c') :
    c'.sourceTasks.running.length + ending a ≤ c.sourceTasks.running.length := by
  unfold Shutdown.step at hs
  split at hs
  · contradiction
  · cases a with
    | sink i b =>
      obtain ⟨sink, tasks, -, -, rfl⟩ := Shutdown.sinkStep_eq_some hs
      exact Nat.le_refl _
    | source k result =>
      obtain ⟨tasks, hfinish, rfl⟩ := Option.map_eq_some_iff.mp hs
      obtain ⟨hmem, hrunning, -⟩ := JoinSet.finish_eq_some hfinish
      have hpos := List.length_pos_of_mem hmem
      have hlength := List.length_erase_of_mem hmem
      simp only [hrunning, ending]
      omega
    | joinSource =>
      simp only [Shutdown.act, Shutdown.joinSource] at hs
      split at hs
      · rename_i hturn
        cases hs
        rw [joined_running (Or.inl hturn)]
        exact Nat.le_refl _
      · rename_i hturn
        cases hs
        rw [joined_running (Or.inr ⟨_, hturn⟩)]
        exact Nat.le_refl _
      · contradiction
    | stopped =>
      simp only [Shutdown.act, Shutdown.stopped] at hs
      split at hs
      · cases hs
        exact Nat.zero_le _
      · contradiction
    | interrupt | joinSink | joinDrain | finish =>
      simp only [Shutdown.act, Shutdown.interrupt, Shutdown.joinSink, Shutdown.joinDrain,
        Shutdown.finish] at hs
      split at hs <;> cases hs <;> exact Nat.le_refl _

end sources

theorem Move.remaining {a : Action plan} (hmove : Move s a s')
    (hviews : ∀ k, Router.Inv (plan.wiring k) (s.view k))
    (hcontrol : Shutdown.Inv plan.runtimes s.control) :
    s'.remaining + work a ≤ s.remaining + pay a := by
  cases hmove with
  | part k a r hs hsinks hallows hrun =>
    have hless := (Router.step_taken hs).remaining (hviews k)
    have hparts := parts_update (s := s) k ⟨r.source, r.fanouts⟩
    have hview : r.remaining (plan.wiring k) = partRemaining plan k ⟨r.source, r.fanouts⟩ +
        ∑ i, (s.control.sinks (plan.target k i)).remaining (plan.runtimes (plan.target k i)) := by
      simp only [Router.State.remaining, hsinks]
      rfl
    rw [hview, view_remaining] at hless
    simp only [State.remaining, State.setPart, work, pay]
    omega
  | enqueue k sequence i f f' control hf hs hcontrol' =>
    have hless := Shutdown.step_remaining hcontrol hcontrol'
    have hrunning := sources_running hcontrol'
    have hparts := parts_update (s := s) k
      ⟨(s.parts k).source, (s.parts k).fanouts.set sequence f'⟩
    have hset := Router.fanouts_set (Router.envelopeCost (plan.wiring k)) hf f'
    have hsent := Fanout.step_remaining (Router.envelopeCost (plan.wiring k)) hs
    simp only [partRemaining] at hparts
    simp only [State.remaining, partRemaining, work, Router.work, pay, Router.pay, Shutdown.work,
      Shutdown.pay, Sink.work, Sink.pay, Fanout.passed, Router.envelopeCost, Plan.wiring] at *
    omega
  | sourceEnds k result control hresult hcontrol' =>
    have hless := Shutdown.step_remaining hcontrol hcontrol'
    have hrunning := sources_running hcontrol'
    simp only [State.remaining, work, pay, Shutdown.work, Shutdown.pay, ending] at hless hrunning ⊢
    omega
  | control a control hcontrol' hadmits =>
    have hless := Shutdown.step_remaining hcontrol hcontrol'
    have hrunning := sources_running hcontrol'
    have hfree : Shutdown.pay plan.runtimes a = 0 := by
      cases a with
      | sink i b =>
        cases b with
        | arrive e => contradiction
        | _ => rfl
      | _ => rfl
    simp only [State.remaining, work, pay]
    omega
  | idle => exact Nat.le_refl _

/-- What is left to do in the process is a potential of it. -/
def potential (plan : Plan m n) (now : ℕ) :
    Potential (system plan now) (system plan now).Reachable work pay where
  value := State.remaining
  keeps h hs := h.next hs
  bound h hs := (step_move hs).remaining (fun k => Router.reachable_inv (reachable_view h k))
    (Shutdown.reachable_inv (reachable_control h))

/-- Until `run` returns every task goes its way. -/
theorem step_of_running (hrun : ∀ result, s.control.phase ≠ .returned result) (a : Action plan) :
    step s a = match a with
      | .part k a => partStep s k a
      | .sourceEnds k => sourceEnds s k
      | .control a => controlStep s a
      | .idle => some s := by
  cases hphase : s.control.phase with
  | returned result => exact absurd hphase (hrun result)
  | _ => cases a <;> simp [step, hphase]

theorem step_control {a : Shutdown.Action n} {control : Shutdown.State n}
    (hcontrol : Shutdown.step plan.runtimes s.control a = some control)
    (hadmits : s.admits a = true) : step s (.control a) = some { s with control := control } := by
  rw [step_of_running (Shutdown.step_running hcontrol)]
  simp [controlStep, hcontrol, hadmits]

/-- A sink can always do what it does by itself. -/
theorem step_sink (h : Shutdown.Inv plan.runtimes s.control)
    (hrun : ∀ result, s.control.phase ≠ .returned result) {i : Fin n} {a : Sink.Action}
    (hinternal : Sink.internal a = true) {sink : Sink.State}
    (hsink : Sink.step (plan.runtimes i) (s.control.sinks i) a = some sink) :
    ∃ control, Shutdown.step plan.runtimes s.control (.sink i a) = some control ∧
      control.sinks = Function.update s.control.sinks i sink ∧
      control.phase = s.control.phase ∧
      step s (.control (.sink i a)) = some { s with control := control } := by
  have hnot : a = .shutdown → s.control.phase.cancelled = true := by
    rintro rfl
    contradiction
  obtain ⟨control, hcontrol, hsinks, hphase⟩ := Shutdown.sink_enabled h hrun hnot hsink
  refine ⟨control, hcontrol, hsinks, hphase, step_control hcontrol ?_⟩
  cases a <;> first | rfl | contradiction

/-- A source takes the step of the router that it sees, and nothing else of `run` changes. -/
theorem step_part (h : Shutdown.Inv plan.runtimes s.control)
    (hrun : ∀ result, s.control.phase ≠ .returned result) {k : Fin m}
    {a : Router.Action (plan.width k)} (hallows : s.allows a = true)
    {r : Router.State (plan.width k)} (hs : Router.step (plan.wiring k) (s.view k) a = some r) :
    ∃ s', step s (.part k a) = some s' ∧ s'.view k = r ∧ s'.control.phase = s.control.phase ∧
      Shutdown.Inv plan.runtimes s'.control := by
  have hpass : ∃ control, passOn s k a = some control ∧ control.phase = s.control.phase ∧
      (fun i => control.sinks (plan.target k i)) = r.sinks ∧
      Shutdown.Inv plan.runtimes control := by
    cases Router.step_taken hs with
    | enqueue sequence i f f' sink hf hs harrive =>
      have harrive : Sink.step (plan.runtimes (plan.target k i))
          (s.control.sinks (plan.target k i))
            (.arrive (Router.envelopeOf (plan.wiring k) sequence f)) = some sink := harrive
      obtain ⟨control, hcontrol, hsinks, hphase⟩ :=
        Shutdown.sink_enabled h hrun (by simp) harrive
      refine ⟨control, ?_, hphase, ?_, Shutdown.step_inv h hcontrol⟩
      · exact Option.bind_eq_some_iff.mpr ⟨f, hf, hcontrol⟩
      · rw [hsinks]
        exact Function.update_comp_eq_of_injective _ (plan.target_injective k) i sink
    | sink i b sink hs hnot => contradiction
    | foreign i e sink hforeign hs => contradiction
    | _ => exact ⟨s.control, rfl, rfl, rfl, h⟩
  obtain ⟨control, hcontrol, hphase, hsinks, hinv⟩ := hpass
  refine ⟨{ s.setPart k r with control := control }, ?_, ?_, hphase, hinv⟩
  · rw [step_of_running hrun]
    simp [partStep, hs, hcontrol, hallows]
  · simp only [State.view, State.setPart, Function.update_self, hsinks]

section ends

theorem taken_outcome {w : ℕ} {wiring : Router.Wiring w} {r r' : Router.State w}
    {a : Router.Action w} (hs : Router.step wiring r a = some r') :
    (∀ result, r.source.outcome = some result → r'.source.outcome = some result) ∧
      (r'.source.outcome = some (.ok ()) → r.source.outcome = some (.ok ()) ∨
        a = .source .shutdown) := by
  cases Router.step_taken hs with
  | source a source hsource hnot =>
    have hnone := Source.outcome_of_step hsource
    refine ⟨fun result hresult => ?_, fun hok => Or.inr ?_⟩
    · rw [hnone] at hresult
      contradiction
    · rw [Source.shutdown_of_ok hsource hok]
  | join k commit f result source hf hresult hsource =>
    have hnone := Source.outcome_of_step hsource
    refine ⟨fun result hresult => ?_, fun hok => ?_⟩
    · rw [hnone] at hresult
      contradiction
    · have hshutdown := Source.shutdown_of_ok hsource hok
      contradiction
  | _ => exact ⟨fun result => id, Or.inl⟩

/-- A source that has ended stays so; it only ends well once the token is cancelled. -/
theorem Move.outcome {a : Action plan} (hmove : Move s a s') (k : Fin m) :
    (∀ result, (s.parts k).source.outcome = some result →
      (s'.parts k).source.outcome = some result) ∧
    ((s'.parts k).source.outcome = some (.ok ()) → (s.parts k).source.outcome = some (.ok ()) ∨
      s.control.phase.cancelled = true) := by
  cases hmove with
  | part l a r hs hsinks hallows hrun =>
    by_cases hk : k = l
    · subst hk
      obtain ⟨hstays, hends⟩ := taken_outcome hs
      simp only [State.setPart, Function.update_self]
      refine ⟨hstays, fun hok => (hends hok).imp_right ?_⟩
      rintro rfl
      exact hallows
    · simp only [State.setPart, Function.update_of_ne hk]
      exact ⟨fun result => id, Or.inl⟩
  | enqueue l sequence i f f' control hf hs hcontrol =>
    by_cases hk : k = l
    · subst hk
      simp only [Function.update_self]
      exact ⟨fun result => id, Or.inl⟩
    · simp only [Function.update_of_ne hk]
      exact ⟨fun result => id, Or.inl⟩
  | _ => exact ⟨fun result => id, Or.inl⟩

/-- What a step of `run` does to the source tasks while it runs on. -/
theorem running_sources {runtimes : Fin n → Sink.Runtime} {c c' : Shutdown.State n}
    {a : Shutdown.Action n} (hs : Shutdown.step runtimes c a = some c')
    (hnot : ∀ k result, a ≠ .source k result) (hphase : c'.phase = .running) :
    c.phase = .running ∧ (c'.sourceTasks = c.sourceTasks ∨
      ∃ k, c.sourceTasks.finished = (k, .ok ()) :: c'.sourceTasks.finished ∧
        c'.sourceTasks.running = c.sourceTasks.running) := by
  unfold Shutdown.step at hs
  split at hs
  · contradiction
  · cases a with
    | sink i b =>
      obtain ⟨sink, tasks, -, -, rfl⟩ := Shutdown.sinkStep_eq_some hs
      exact ⟨hphase, Or.inl rfl⟩
    | source k result => exact absurd rfl (hnot k result)
    | joinSource =>
      simp only [Shutdown.act, Shutdown.joinSource] at hs
      split at hs
      · rename_i hrun hturn
        cases hs
        exact ⟨hrun, Or.inr (Shutdown.joinAll_eq_again hturn)⟩
      · cases hs
        contradiction
      · contradiction
    | joinSink =>
      simp only [Shutdown.act, Shutdown.joinSink] at hs
      split at hs
      · rename_i hrun hturn
        cases hs
        exact ⟨hrun, Or.inl rfl⟩
      · cases hs
        contradiction
      · contradiction
    | joinDrain =>
      simp only [Shutdown.act, Shutdown.joinDrain] at hs
      split at hs
      · cases hs
        exact ⟨hphase, Or.inl rfl⟩
      · cases hs
        contradiction
      · contradiction
    | interrupt | stopped | finish =>
      simp only [Shutdown.act, Shutdown.interrupt, Shutdown.stopped, Shutdown.finish] at hs
      split at hs
      · cases hs
        contradiction
      · contradiction

theorem step_source {runtimes : Fin n → Sink.Runtime} {c c' : Shutdown.State n} {k : ℕ}
    {result : Except Shutdown.TaskError Unit}
    (hs : Shutdown.step runtimes c (.source k result) = some c') :
    c'.phase = c.phase ∧ k ∈ c.sourceTasks.running ∧
      c'.sourceTasks.running = c.sourceTasks.running.erase k ∧
      c'.sourceTasks.finished = c.sourceTasks.finished ++ [(k, result)] := by
  unfold Shutdown.step at hs
  split at hs
  · contradiction
  · obtain ⟨tasks, hfinish, rfl⟩ := Option.map_eq_some_iff.mp hs
    exact ⟨rfl, JoinSet.finish_eq_some hfinish⟩

/-- While `run` is in its `select!`, no source has ended well, and one that has failed has
not been joined. -/
structure Reported (s : State plan) : Prop where
  well : s.control.phase.cancelled = false → ∀ k, (s.parts k).source.outcome ≠ some (.ok ())
  running : s.control.phase = .running → ∀ k : Fin m, (s.parts k).source.outcome = none →
    k.val ∈ s.control.sourceTasks.running
  failed : s.control.phase = .running → ∀ (k : Fin m) (e : Source.SourceError),
    (s.parts k).source.outcome = some (.error e) → k.val ∈ s.control.sourceTasks.running ∨
      (k.val, .error (.source e)) ∈ s.control.sourceTasks.finished

theorem start_reported (plan : Plan m n) (now : ℕ) : Reported (State.start plan now) where
  well _ k hok := by contradiction
  running _ k _ := List.mem_range.mpr k.isLt
  failed _ k e he := by contradiction

/-- The source tasks keep their place, or a success is joined, or one more has ended. -/
theorem Reported.keep (h : Reported s)
    (hwell : ∀ k, (s'.parts k).source.outcome = some (.ok ()) →
      (s.parts k).source.outcome = some (.ok ()) ∨ s.control.phase.cancelled = true)
    (hstays : ∀ k result, (s.parts k).source.outcome = some result →
      (s'.parts k).source.outcome = some result)
    (hcancelled : s.control.phase.cancelled = true → s'.control.phase.cancelled = true)
    (hsources : s'.control.phase = .running → s.control.phase = .running ∧
      (∀ k : Fin m, (s'.parts k).source.outcome = none → k.val ∈ s.control.sourceTasks.running →
        k.val ∈ s'.control.sourceTasks.running) ∧
      (∀ (k : Fin m) (e : Source.SourceError), (s'.parts k).source.outcome = some (.error e) →
        k.val ∈ s.control.sourceTasks.running → k.val ∈ s'.control.sourceTasks.running ∨
          (k.val, .error (.source e)) ∈ s'.control.sourceTasks.finished) ∧
      ∀ (k : Fin m) (e : Source.SourceError),
        (k.val, .error (.source e)) ∈ s.control.sourceTasks.finished →
        (k.val, .error (.source e)) ∈ s'.control.sourceTasks.finished) : Reported s' := by
  have hbefore : ∀ k, (s'.parts k).source.outcome = none →
      (s.parts k).source.outcome = none := by
    intro k hnone
    cases hold : (s.parts k).source.outcome with
    | none => rfl
    | some result =>
      rw [hstays k result hold] at hnone
      contradiction
  refine ⟨?_, ?_, ?_⟩
  · intro hnot k hok
    have hnot' : s.control.phase.cancelled = false := by
      cases hphase : s.control.phase.cancelled with
      | false => rfl
      | true =>
        rw [hcancelled hphase] at hnot
        contradiction
    rcases hwell k hok with hok | hcancelled
    · exact h.well hnot' k hok
    · rw [hnot'] at hcancelled
      contradiction
  · intro hphase k hnone
    obtain ⟨hphase, hkeeps, -, -⟩ := hsources hphase
    exact hkeeps k hnone (h.running hphase k (hbefore k hnone))
  · intro hphase k e herror
    obtain ⟨hphase, -, hends, hkept⟩ := hsources hphase
    cases hold : (s.parts k).source.outcome with
    | none => exact hends k e herror (h.running hphase k hold)
    | some result =>
      obtain rfl : result = .error e := Option.some.inj ((hstays k result hold).symm.trans herror)
      rcases h.failed hphase k e hold with hmem | hmem
      · exact hends k e herror hmem
      · exact Or.inr (hkept k e hmem)

theorem Move.reported {a : Action plan} (hmove : Move s a s') (h : Reported s) :
    Reported s' := by
  have hwell := fun k => (hmove.outcome k).2
  have hstays := fun k => (hmove.outcome k).1
  have hsame : s'.control = s.control → Reported s' := by
    intro hcontrol
    refine h.keep hwell hstays ?_ ?_ <;> rw [hcontrol]
    · exact id
    · exact fun hphase => ⟨hphase, fun _ _ => id, fun _ _ _ => Or.inl, fun _ _ => id⟩
  have hstep : ∀ b, Shutdown.step plan.runtimes s.control b = some s'.control →
      (∀ k result, b ≠ .source k result) → Reported s' := by
    intro b hb hnot
    refine h.keep hwell hstays (Shutdown.step_cancelled hb) fun hphase => ?_
    obtain ⟨hphase, hsources⟩ := running_sources hb hnot hphase
    refine ⟨hphase, ?_⟩
    rcases hsources with hsources | ⟨k, hfinished, hrunning⟩
    · rw [hsources]
      exact ⟨fun _ _ => id, fun _ _ _ => Or.inl, fun _ _ => id⟩
    · rw [hrunning]
      refine ⟨fun _ _ => id, fun _ _ _ => Or.inl, fun j e hmem => ?_⟩
      rw [hfinished] at hmem
      simpa using hmem
  cases hmove with
  | part k a r hs hsinks hallows hrun => exact hsame rfl
  | enqueue k sequence i f f' control hf hs hcontrol => exact hstep _ hcontrol (by simp)
  | sourceEnds k result control hresult hcontrol =>
    obtain ⟨hphase, -, hrunning, hfinished⟩ := step_source hcontrol
    refine h.keep hwell hstays (Shutdown.step_cancelled hcontrol) fun hrun => ?_
    refine ⟨hphase ▸ hrun, fun j hnone hmem => ?_, fun j e herror hmem => ?_, fun j e hmem => ?_⟩
    · rw [hrunning]
      refine (List.mem_erase_of_ne fun heq => ?_).mpr hmem
      rw [Fin.val_injective heq] at hnone
      rw [show (s.parts k).source.outcome = none from hnone] at hresult
      contradiction
    · rw [hrunning, hfinished]
      by_cases heq : j.val = k.val
      · obtain rfl := Fin.val_injective heq
        rw [show (s.parts j).source.outcome = some (.error e) from herror] at hresult
        obtain rfl := Option.some.inj hresult
        exact Or.inr (List.mem_append_right _ List.mem_cons_self)
      · exact Or.inl ((List.mem_erase_of_ne heq).mpr hmem)
    · rw [hfinished]
      exact List.mem_append_left _ hmem
  | control a control hcontrol hadmits =>
    refine hstep a hcontrol ?_
    rintro k result rfl
    contradiction
  | idle => exact h

theorem reachable_reported {now : ℕ} (h : (system plan now).Reachable s) : Reported s := by
  apply System.Reachable.invariant (start_reported plan now) _ h
  intro t a t' ht hs
  exact (step_move hs).reported ht

end ends

section Quiet

variable {now : ℕ} (hquiet : (system plan now).Quiet work (fun a => internal a = true) s)
include hquiet

theorem not_enabled {a : Action plan} (hinternal : internal a = true) (hwork : work a = 1) :
    step s a = none := by
  cases hs : step s a with
  | none => rfl
  | some s' =>
    have hzero := hquiet.work_eq_zero (a := a) hinternal hs
    omega

theorem quiet_sink (h : Shutdown.Inv plan.runtimes s.control)
    (hrun : ∀ result, s.control.phase ≠ .returned result) (i : Fin n) :
    (Sink.system (plan.runtimes i) now).Quiet Sink.work (fun a => Sink.internal a = true)
      (s.control.sinks i) := by
  refine hquiet.part_of (P := fun s => Shutdown.Inv plan.runtimes s.control ∧
    ∀ result, s.control.phase ≠ .returned result) (fun a => .control (.sink i a))
    (fun s => s.control.sinks i) (fun _ _ => rfl) (fun _ => rfl) ?_ ⟨h, hrun⟩
  intro t a sink ⟨h, hrun⟩ ha hsink
  obtain ⟨control, hcontrol, hsinks, hphase, hstep⟩ := step_sink h hrun ha hsink
  refine ⟨{ t with control := control }, hstep, ?_, Shutdown.step_inv h hcontrol, hphase ▸ hrun⟩
  simp only [hsinks, Function.update_self]

/-- What a source sees of the process has nothing left to do either. -/
theorem quiet_view (h : Shutdown.Inv plan.runtimes s.control)
    (hrun : ∀ result, s.control.phase ≠ .returned result) (k : Fin m) :
    (Router.system (plan.wiring k) now).Quiet Router.work (fun a => Router.internal a = true)
      (s.view k) := by
  refine hquiet.part_of (P := fun s => Shutdown.Inv plan.runtimes s.control ∧
    ∀ result, s.control.phase ≠ .returned result) (ofView k) (fun s => s.view k) ?_ ?_ ?_ ⟨h, hrun⟩
  · intro a ha
    cases a with
    | source a => cases a <;> first | rfl | contradiction
    | foreign i e => contradiction
    | _ => rfl
  · intro a
    cases a <;> rfl
  · intro t a r ⟨h, hrun⟩ ha hr
    have hpart : t.allows a = true → ofView k a = .part k a →
        ∃ t', step t (ofView k a) = some t' ∧ t'.view k = r ∧ Shutdown.Inv plan.runtimes t'.control ∧
          ∀ result, t'.control.phase ≠ .returned result := by
      intro hallows hact
      obtain ⟨t', hstep, hview, hphase, hinv⟩ := step_part h hrun hallows hr
      exact ⟨t', hact ▸ hstep, hview, hinv, hphase ▸ hrun⟩
    have hr : Router.step (plan.wiring k) (t.view k) a = some r := hr
    cases a with
    | sink i b =>
      cases Router.step_taken hr with
      | sink _ _ sink hsink hnot =>
        obtain ⟨control, hcontrol, hsinks, hphase, hstep⟩ := step_sink h hrun ha hsink
        refine ⟨{ t with control := control }, hstep, ?_, Shutdown.step_inv h hcontrol,
          hphase ▸ hrun⟩
        simp only [State.view, hsinks]
        exact congrArg (Router.State.mk _ _)
          (Function.update_comp_eq_of_injective _ (plan.target_injective k) i sink)
    | foreign i e => contradiction
    | source a =>
      refine hpart ?_ rfl
      cases a <;> first | rfl | contradiction
    | _ => exact hpart rfl rfl

/-- The sinks wait for envelopes or have returned. -/
theorem quiet_sinks (h : Shutdown.Inv plan.runtimes s.control)
    (hrun : ∀ result, s.control.phase ≠ .returned result) (i : Fin n) :
    (s.control.sinks i).phase = .accepting ∨ (s.control.sinks i).returned = true :=
  (Sink.quiet_cases (quiet_sink hquiet h hrun i)).imp And.left Sink.TornDown.returned

/-- `run` is not on its way to its end. -/
theorem quiet_phase (hreach : (system plan now).Reachable s) :
    s.control.phase = .running ∨ ∃ result, s.control.phase = .returned result := by
  have hinv := Shutdown.reachable_inv (reachable_control hreach)
  have hbusy := Shutdown.reachable_busy (reachable_control hreach)
  cases hphase : s.control.phase with
  | running => exact Or.inl rfl
  | returned result => exact Or.inr ⟨result, rfl⟩
  | stopping outcome =>
    have hrun : ∀ result, s.control.phase ≠ .returned result := by simp [hphase]
    have hended : ∀ k, (s.parts k).source.outcome.isSome = true := by
      intro k
      by_contra hnot
      have hnone : (s.view k).source.outcome = none := Option.not_isSome_iff_eq_none.mp hnot
      have hallows : s.allows (.source .shutdown : Router.Action (plan.width k)) = true := by
        rw [State.allows, hphase]
        rfl
      have hshutdown : ∃ r, Router.step (plan.wiring k) (s.view k) (.source .shutdown) = some r := by
        simp [Router.step, Router.sourceStep, Source.step, hnone]
      obtain ⟨r, hr⟩ := hshutdown
      obtain ⟨s', hs', -⟩ := step_part hinv hrun hallows hr
      rw [not_enabled hquiet (a := .part k (.source .shutdown)) rfl rfl] at hs'
      contradiction
    have hstopped : Shutdown.step plan.runtimes s.control .stopped =
        some { s.control with phase := .draining outcome, sourceTasks := JoinSet.spawn [] } := by
      simp only [Shutdown.step, hphase, Shutdown.act, Shutdown.stopped]
    have hstep := step_control hstopped (decide_eq_true hended)
    rw [not_enabled hquiet (a := .control .stopped) rfl rfl] at hstep
    contradiction
  | draining outcome =>
    have hcases := quiet_sinks hquiet hinv (by simp [hphase])
    rcases Shutdown.drain_enabled hinv hbusy hphase hcases with ⟨c, hc⟩ | ⟨i, c, hc⟩
    · have hstep := step_control hc rfl
      rw [not_enabled hquiet (a := .control .joinDrain) rfl rfl] at hstep
      contradiction
    · have hstep := step_control hc rfl
      rw [not_enabled hquiet (a := .control (.sink i .shutdown)) rfl rfl] at hstep
      contradiction
  | closing result =>
    have hfinish : ∃ c, Shutdown.step plan.runtimes s.control .finish = some c := by
      simp [Shutdown.step, hphase, Shutdown.act, Shutdown.finish]
    obtain ⟨c, hc⟩ := hfinish
    have hstep := step_control hc rfl
    rw [not_enabled hquiet (a := .control .finish) rfl rfl] at hstep
    contradiction

/-- A failure does not go unnoticed. -/
theorem quiet_sources (hreach : (system plan now).Reachable s)
    (hphase : s.control.phase = .running) (k : Fin m) : (s.parts k).source.outcome = none := by
  have hreported := reachable_reported hreach
  cases houtcome : (s.parts k).source.outcome with
  | none => rfl
  | some result =>
    cases result with
    | ok u => exact absurd houtcome (hreported.well (by rw [hphase]; rfl) k)
    | error e =>
      rcases hreported.failed hphase k e houtcome with hmem | hmem
      · have hends : ∃ c, Shutdown.step plan.runtimes s.control
            (.source k (.error (.source e))) = some c := by
          simp [Shutdown.step, hphase, Shutdown.act, Shutdown.sourceEnds, JoinSet.finish, hmem]
        obtain ⟨c, hc⟩ := hends
        have hnone := not_enabled hquiet (a := .sourceEnds k) rfl rfl
        rw [step_of_running (Shutdown.step_running hc)] at hnone
        simp [sourceEnds, houtcome, Except.mapError, hc] at hnone
      · obtain ⟨x, rest, hfinished⟩ := List.exists_cons_of_ne_nil (List.ne_nil_of_mem hmem)
        obtain ⟨l, result⟩ := x
        have hjoin : ∃ c, Shutdown.step plan.runtimes s.control .joinSource = some c := by
          cases result <;> simp [Shutdown.step, hphase, Shutdown.act, Shutdown.joinSource,
            Shutdown.joinAll, JoinSet.joinNext, hfinished]
        obtain ⟨c, hc⟩ := hjoin
        have hstep := step_control hc rfl
        rw [not_enabled hquiet (a := .control .joinSource) rfl rfl] at hstep
        contradiction

/-- Nor does that of a sink. -/
theorem quiet_sink_ok (hreach : (system plan now).Reachable s)
    (hphase : s.control.phase = .running) (i : Fin n) (e : Sink.WriteError) :
    (s.control.sinks i).phase ≠ .returned (.error e) := by
  have hbusy := Shutdown.reachable_busy (reachable_control hreach)
  have hsurfaced : Shutdown.Surfaced (fun _ => True) s.control :=
    Shutdown.reachable_surfaced ((reachable_control hreach).mono fun _ a _ => by
      cases a with
      | source k result => cases result <;> trivial
      | _ => trivial)
  intro hreturned
  rcases hsurfaced.tasks (by rw [hphase]; rfl) i with hmem | hmem | hok
  · have hnot := hbusy.running i hmem
    rw [Sink.State.returned, hreturned] at hnot
    contradiction
  · obtain ⟨x, hx, -⟩ := List.mem_map.mp hmem
    obtain ⟨⟨l, result⟩, rest, hfinished⟩ := List.exists_cons_of_ne_nil (List.ne_nil_of_mem hx)
    have hjoin : ∃ c, Shutdown.step plan.runtimes s.control .joinSink = some c := by
      cases result <;> simp [Shutdown.step, hphase, Shutdown.act, Shutdown.joinSink,
        Shutdown.firstFailure, JoinSet.joinNext, hfinished]
    obtain ⟨c, hc⟩ := hjoin
    have hstep := step_control hc rfl
    rw [not_enabled hquiet (a := .control .joinSink) rfl rfl] at hstep
    contradiction
  · simp [hreturned] at hok

end Quiet

/-- `run` waits for a task to end, no source has ended and no sink has failed, and nothing
is left to do: every source has committed all it has received. -/
structure Idle (s : State plan) : Prop where
  running : s.control.phase = .running
  sources : ∀ k, (s.parts k).source.outcome = none
  sinks : ∀ i e, (s.control.sinks i).phase ≠ .returned (.error e)
  drained : ∀ k, Router.Drained (plan.wiring k) (s.view k)
  settled : ∀ i, (s.control.sinks i).arrived.Perm (s.control.sinks i).settledEnvelopes

theorem quiet_cases {now : ℕ} (hbounded : ∀ k, Router.Bounded (plan.wiring k))
    (hreach : (system plan now).Reachable s)
    (hquiet : (system plan now).Quiet work (fun a => internal a = true) s) :
    Idle s ∨ ∃ result, s.control.phase = .returned result := by
  refine (quiet_phase hquiet hreach).imp_left fun hphase => ?_
  have hinv := Shutdown.reachable_inv (reachable_control hreach)
  have hrun : ∀ result, s.control.phase ≠ .returned result := by simp [hphase]
  refine ⟨hphase, quiet_sources hquiet hreach hphase, quiet_sink_ok hquiet hreach hphase, ?_, ?_⟩
  · intro k
    exact Router.quiet_drained (hbounded k) (reachable_view hreach k)
      (quiet_view hquiet hinv hrun k)
  · intro i
    exact Sink.quiet_settled (quiet_sink hquiet hinv hrun i) (hinv.sinks i)

/-- Something makes `run` stop: the user, or a task that has ended. -/
def Stopping (s : State plan) : Prop :=
  s.control.phase.cancelled = true ∨ (∃ k, (s.parts k).source.outcome.isSome = true) ∨
    ∃ i e, (s.control.sinks i).phase = .returned (.error e)

theorem Move.stopping {a : Action plan} (hmove : Move s a s')
    (hcontrol : Shutdown.Inv plan.runtimes s.control) (h : Stopping s) : Stopping s' := by
  rcases h with hcancelled | ⟨k, hsome⟩ | ⟨i, e, hphase⟩
  · refine Or.inl ?_
    rcases hmove.control_step with hsame | ⟨b, hb, -⟩
    · rwa [hsame]
    · exact Shutdown.step_cancelled hb hcancelled
  · obtain ⟨result, hresult⟩ := Option.isSome_iff_exists.mp hsome
    exact Or.inr (Or.inl ⟨k, by rw [(hmove.outcome k).1 result hresult]; rfl⟩)
  · refine Or.inr (Or.inr ⟨i, e, ?_⟩)
    rcases hmove.control_step with hsame | ⟨b, hb, -⟩
    · rwa [hsame]
    · rcases control_sinks hb with ⟨j, c, sink, -, hsink, hsinks⟩ | ⟨-, hsinks⟩
      · rw [hsinks]
        by_cases hi : i = j
        · subst hi
          rw [Function.update_self]
          exact Sink.step_outcome (hcontrol.sinks i) hsink hphase
        · rwa [Function.update_of_ne hi]
      · rwa [hsinks]

theorem Idle.not_stopping (h : Idle s) : ¬ Stopping s := by
  rintro (hcancelled | ⟨k, hsome⟩ | ⟨i, e, hphase⟩)
  · rw [h.running] at hcancelled
    contradiction
  · rw [h.sources k] at hsome
    contradiction
  · exact h.sinks i e hphase

theorem pay_eq_zero {a : Action plan} (hs : step s a = some s')
    (hrecv : ∀ k r, a ≠ .part k (.source (.recv r))) : pay a = 0 := by
  cases a with
  | part k a =>
    cases a with
    | source a =>
      cases a with
      | recv r => exact absurd rfl (hrecv k r)
      | _ => rfl
    | foreign i e =>
      cases step_move hs with
      | part _ _ r hr hsinks hallows hrun => contradiction
    | _ => rfl
  | _ => rfl

/-- The bounds of an accepted configuration are those that progress needs. -/
theorem plan_bounded {client : Source.OffsetList} {config : Config}
    (h : config.validate = .ok ()) (k : Fin config.sources.entries.length) :
    Router.Bounded ((Topology.plan client config).wiring k) := by
  obtain ⟨-, -, hsinks, hsources⟩ := Config.validate_ok h
  have hsource : SourceValid ((Topology.plan client config).sources k).config := by
    have hmem := List.get_mem config.sources.entries k
    simp only [Topology.plan]
    generalize config.sources.entries.get k = entry at hmem
    obtain ⟨id, source⟩ := entry
    cases source with
    | kafka source => exact hsources id source hmem
  refine ⟨fun i => Nat.pos_of_ne_zero ?_, Nat.pos_of_ne_zero hsource.maxInFlightBatches,
    Nat.pos_of_ne_zero hsource.maxInFlightBytes⟩
  exact (hsinks _ (List.get_mem config.sinks.entries _)).bufferCapacity

/-- Every accepted configuration makes a process that goes on or ends. In every fair
execution in which no record comes in any more, after at most as many steps as were left:
either `topology::run` has returned, or no task has ended and every source has committed
every record it has received, which all of its sinks have written. It is the former if the
user has interrupted the process or any source or sink has failed. -/
theorem idle_or_returned {client : Source.OffsetList} {config : Config} {now : ℕ}
    (h : config.validate = .ok ()) (e : (system (Topology.plan client config) now).Execution)
    {i : ℕ} (hreach : (system (Topology.plan client config) now).Reachable (e.state i))
    (hfair : e.Fair work (fun a => internal a = true))
    (hlast : ∀ j, i ≤ j → ∀ k r, e.action j ≠ .part k (.source (.recv r))) :
    ∃ j, i ≤ j ∧ ∑ l ∈ Finset.Ico i j, work (e.action l) ≤ (e.state i).remaining ∧
      ((Idle (e.state j) ∧ ¬ Stopping (e.state i)) ∨
        ∃ result, (e.state j).control.phase = .returned result) := by
  have hfree : ∀ j, i ≤ j → pay (e.action j) = 0 := fun j hij =>
    pay_eq_zero (e.next j) (hlast j hij)
  obtain ⟨j, hij, hquiet⟩ := (potential _ now).eventually_quiet e hreach hfair hfree
  have hreach' := e.invariant (fun h hs => h.next hs) hij hreach
  refine ⟨j, hij, ?_, ?_⟩
  · exact Nat.le_trans (Nat.le_add_left _ _) ((potential _ now).work_le e hij hreach hfree)
  · refine (quiet_cases (plan_bounded h) hreach' hquiet).imp_left fun hidle => ⟨hidle, ?_⟩
    intro hstopping
    have hkeeps : ∀ {s a s'}, (system (Topology.plan client config) now).Reachable s ∧ Stopping s →
        (system (Topology.plan client config) now).step s a = some s' →
          (system (Topology.plan client config) now).Reachable s' ∧ Stopping s' := by
      rintro s a s' ⟨hreach, hstopping⟩ hs
      exact ⟨hreach.next hs, (step_move hs).stopping
        (Shutdown.reachable_inv (reachable_control hreach)) hstopping⟩
    have hboth := e.invariant hkeeps hij ⟨hreach, hstopping⟩
    exact hidle.not_stopping hboth.2

theorem internal_free {a : Action plan} (ha : internal a = true) : pay a = 0 := by
  cases a with
  | part k a =>
    cases a with
    | source a => cases a <;> first | rfl | contradiction
    | foreign i e => contradiction
    | _ => rfl
  | _ => rfl

/-- A process of two sources, of which only one is listed by the sink; the other one
receives a record. -/
theorem idle_or_returned_orphan : ∃ (e : (system (Topology.plan .checked
    Topology.orphanConfig) 0).Execution) (j : ℕ),
    (∃ k, ((e.state 0).parts k).source.received.length = 1) ∧
    (Idle (e.state j) ∨ ∃ result, (e.state j).control.phase = .returned result) := by
  let k : Fin Topology.orphanConfig.sources.entries.length := ⟨0, by decide⟩
  have hrun : ((system (Topology.plan .checked Topology.orphanConfig) 0).run
      (State.start _ 0) [.part k (.source (.recv (Source.message 0)))]).map
        (fun s => (s.parts k).source.received.length) = some 1 := by decide
  obtain ⟨s, hs, hreceived⟩ := Option.map_eq_some_iff.mp hrun
  have hreach : (system (Topology.plan .checked Topology.orphanConfig) 0).Reachable s :=
    System.Reachable.run System.ReachableBy.start hs
  have hidle : ∀ s, (system (Topology.plan .checked Topology.orphanConfig) 0).step s .idle =
      some s := by
    intro s
    simp only [system, step]
  obtain ⟨e, hfirst, hfair, hinternal⟩ :=
    (potential _ 0).exists_fair (fun a => internal_free) (fun s _ => hidle s) rfl hreach
  have hlast : ∀ j, 0 ≤ j → ∀ k r, e.action j ≠ .part k (.source (.recv r)) := by
    intro j _ k r hr
    have := hinternal j
    rw [hr] at this
    contradiction
  obtain ⟨j, -, -, hcases⟩ := idle_or_returned Topology.orphanConfig_valid e
    (hfirst ▸ hreach) hfair hlast
  exact ⟨e, j, ⟨k, by rw [hfirst, hreceived]⟩, hcases.imp_left And.left⟩

end Rustper.Process
