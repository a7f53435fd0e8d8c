import Rustper.Coalescing
import Rustper.SinkHistory

/-!
How often a group is given to `write_batches`. Where a write stands says how many of its
calls are over, so no group has more attempts than the settings allow; counted over all
calls, an event is attempted at most that often for each time it was sent to the sink.
-/
namespace Rustper.Sink

open TransitionSystem

variable {runtime : Runtime} {s s' : State} {a : Action}

/-- Whether the calls that are over are as many as a write at this stage has made. -/
def Tallies (calls : ℕ) : WriteStage → Prop
  | .spawned => calls = 0
  | .writing attempt _ => calls + 1 = attempt
  | .sleeping attempt _ _ => calls = attempt
  | .done _ => True

structure Paced (runtime : Runtime) (s : State) : Prop where
  stages : ∀ w ∈ s.writes, Tallies (s.attemptsOf w.id).length w.stage
  bound : ∀ k, (s.attemptsOf k).length ≤ runtime.settings.retryMaxAttempts
  known : ∀ call ∈ s.attempts, call.write < s.dispatched.length

theorem attemptsOf_append {call : Attempt} (h : s'.attempts = s.attempts ++ [call]) (k : ℕ) :
    (s'.attemptsOf k).length = (s.attemptsOf k).length + if call.write = k then 1 else 0 := by
  rw [State.attemptsOf, h, List.filter_append, List.length_append, State.attemptsOf]
  by_cases hk : call.write = k <;> simp [hk]

theorem attemptsOf_same (h : s'.attempts = s.attempts) (k : ℕ) :
    s'.attemptsOf k = s.attemptsOf k := by
  rw [State.attemptsOf, h, State.attemptsOf]

/-- The identifier of a write is that of no other one. -/
theorem Fates.other_id (h : Fates runtime s) {pre post : List Write} {w v : Write}
    (hwrites : s.writes = pre ++ w :: post) (hv : v ∈ pre ++ post) : v.id ≠ w.id := by
  have hids := h.ids
  rw [hwrites, List.map_append, List.map_cons] at hids
  have hnot := (List.nodup_middle.mp hids).notMem
  rw [← List.map_append] at hnot
  intro heq
  exact hnot (heq ▸ List.mem_map_of_mem hv)

/-- A call that is over takes its write from one stage to the next. -/
theorem Paced.finish (h : Paced runtime s) (hfates : Fates runtime s) {pre post : List Write}
    {w w' : Write} {call : Attempt} (hwrites : s.writes = pre ++ w :: post)
    (hwrites' : s'.writes = pre ++ w' :: post) (hid : w'.id = w.id) (hown : call.write = w.id)
    (hattempts : s'.attempts = s.attempts ++ [call]) (hdispatched : s'.dispatched = s.dispatched)
    (hless : (s.attemptsOf w.id).length < runtime.settings.retryMaxAttempts)
    (hstage : Tallies ((s.attemptsOf w.id).length + 1) w'.stage) : Paced runtime s' := by
  have hw : w ∈ s.writes := hwrites ▸ List.mem_append_right _ List.mem_cons_self
  refine ⟨?_, ?_, ?_⟩
  · intro v hv
    rw [hwrites'] at hv
    rcases List.mem_cons.mp (List.perm_middle.mem_iff.mp hv) with rfl | hv
    · rw [attemptsOf_append hattempts, hid, hown, if_pos rfl]
      exact hstage
    · have hne := hfates.other_id hwrites hv
      have hold : v ∈ s.writes := by
        rw [hwrites]
        exact ((List.sublist_cons_self w post).append_left pre).subset hv
      rw [attemptsOf_append hattempts, hown, if_neg (Ne.symm hne), Nat.add_zero]
      exact h.stages v hold
  · intro k
    rw [attemptsOf_append hattempts, hown]
    by_cases hk : w.id = k
    · rw [if_pos hk, ← hk]
      exact hless
    · rw [if_neg hk, Nat.add_zero]
      exact h.bound k
  · intro c hc
    rw [hattempts] at hc
    rw [hdispatched]
    rcases List.mem_append.mp hc with hc | hc
    · exact h.known c hc
    · rw [List.mem_singleton.mp hc, hown]
      exact (List.getElem?_eq_some_iff.mp (hfates.groups w hw)).1

/-- A step without a call that is over: a write that moves keeps what it has made. -/
theorem Paced.rest (h : Paced runtime s) (hattempts : s'.attempts = s.attempts)
    (hdispatched : s.dispatched.length ≤ s'.dispatched.length)
    (hstages : ∀ w ∈ s'.writes, w ∈ s.writes ∨ Tallies (s.attemptsOf w.id).length w.stage) :
    Paced runtime s' := by
  refine ⟨?_, ?_, ?_⟩
  · intro w hw
    rw [attemptsOf_same hattempts]
    exact (hstages w hw).elim (h.stages w) id
  · intro k
    rw [attemptsOf_same hattempts]
    exact h.bound k
  · intro call hcall
    exact Nat.lt_of_lt_of_le (h.known call (hattempts ▸ hcall)) hdispatched

theorem Move.paced (hmove : Move runtime s a s') (hfates : Fates runtime s)
    (h : Paced runtime s) : Paced runtime s' := by
  cases hmove with
  | shuffle _ _ hsame | exit _ _ _ hsame =>
    exact h.rest hsame.attempts (by rw [hsame.dispatched])
      (fun w hw => Or.inl (hsame.writes.subset hw))
  | arrive e hrun => exact h.rest rfl (Nat.le_refl _) (fun w hw => Or.inl hw)
  | dispatch envelopes hphase hroom =>
    refine h.rest rfl (by simp) ?_
    intro w hw
    refine (List.mem_append.mp hw).imp_right ?_
    intro hnew
    rw [List.mem_singleton.mp hnew]
    have hnone : s.attemptsOf s.dispatched.length = [] := by
      refine List.filter_eq_nil_iff.mpr ?_
      intro call hcall
      have hlt := h.known call hcall
      simp only [decide_eq_true_eq]
      omega
    rw [hnone]
    rfl
  | call _ pre post w number backoff hwrites hlive hnumber hnext =>
    have hw : w ∈ s.writes := hwrites ▸ List.mem_append_right _ List.mem_cons_self
    have hbefore := h.stages w hw
    refine h.rest rfl (Nat.le_refl _) ?_
    intro v hv
    rcases List.mem_cons.mp (List.perm_middle.mem_iff.mp hv) with rfl | hv
    · right
      rcases hnext with ⟨hstage, rfl⟩ | ⟨attempt, pause, wakeAt, hstage, rfl⟩
      · rw [hstage] at hbefore
        exact congrArg (· + 1) hbefore
      · rw [hstage] at hbefore
        exact congrArg (· + 1) hbefore
    · left
      rw [hwrites]
      exact ((List.sublist_cons_self w post).append_left pre).subset hv
  | retry _ pre post w attempt backoff e hwrites hstage hretry =>
    have hw : w ∈ s.writes := hwrites ▸ List.mem_append_right _ List.mem_cons_self
    have hbefore : (s.attemptsOf w.id).length + 1 = attempt := by
      have hold := h.stages w hw
      rwa [hstage] at hold
    exact h.finish hfates hwrites rfl rfl rfl rfl rfl (by omega) hbefore
  | finish k _ pre post w attempt backoff result ending hk hwrites hstage hlast hok =>
    have hw : w ∈ s.writes := hwrites ▸ List.mem_append_right _ List.mem_cons_self
    have hbefore : (s.attemptsOf w.id).length + 1 = attempt := by
      have hold := h.stages w hw
      rwa [hstage] at hold
    have hallowed : attempt ≤ runtime.settings.retryMaxAttempts := by
      have hold := hfates.stages w hw
      rwa [hstage] at hold
    exact h.finish hfates hwrites rfl rfl rfl rfl rfl (by omega) trivial
  | dropRest _ e queue orphans hrun hrest =>
    exact h.rest rfl (Nat.le_refl _) (fun w hw => Or.inl hw)
  | dropWrite _ pre post w hrun hwrites hlive =>
    refine h.rest rfl (Nat.le_refl _) ?_
    intro v hv
    left
    rw [hwrites]
    exact ((List.sublist_cons_self w post).append_left pre).subset hv

theorem start_paced (runtime : Runtime) (now : ℕ) : Paced runtime (State.start now) where
  stages w hw := by contradiction
  bound k := Nat.zero_le _
  known call hcall := by contradiction

theorem reachable_paced {now : ℕ} (h : (system runtime now).Reachable s) : Paced runtime s := by
  have hboth : Inv runtime s ∧ Paced runtime s := by
    have hstart : Inv runtime (State.start now) ∧ Paced runtime (State.start now) :=
      ⟨start_inv runtime now, start_paced runtime now⟩
    apply System.Reachable.invariant hstart _ h
    rintro t a t' ⟨hinv, hpaced⟩ hs
    have hmove := step_move hinv.ledger.orphans hinv.fates.stages hs
    exact ⟨step_inv hinv hs, hmove.paced hinv.fates hpaced⟩
  exact hboth.2

def State.group (s : State) (k : ℕ) : List SinkEnvelope := (s.dispatched[k]?).getD []

/-- The events given to the calls that are over, as often as they were. -/
def State.attempted (s : State) : List Event :=
  s.attempts.flatMap (fun call => events (s.group call.write))

section counting

variable {β : Type} [DecidableEq β] (f : Event → Option β) (x : β)

/-- How often a group has `x` among what its events stand for. -/
def weight (s : State) (k : ℕ) : ℕ := ((events (s.group k)).filterMap f).count x

end counting

end Rustper.Sink
