import Rustper.Coalescing
import Rustper.SinkOutcome
import Rustper.SinkProgress

/-!
What `Ok` from `sink::run` means for the envelopes. A run that is not cancelled leaves
its loop only at the end of the input, with an empty channel, or by a failure: so it
returns `Ok` exactly when it has delivered all it was sent.
-/
namespace Rustper.Sink

open TransitionSystem

variable {runtime : Runtime} {s s' : State} {a : Action}

/-- `run` has left its loop over the groups, and not by a failure there. -/
def Phase.closing : Phase → Bool
  | .draining _ => true
  | .returned (.ok ()) => true
  | _ => false

/-- Nothing is left in the channel, and nothing more is sent to it. -/
structure Emptied (s : State) : Prop where
  queue : s.queue = []
  inputClosed : s.inputClosed = true
  orphans : s.orphans = []

/-- The token of the sink is never cancelled. -/
def Uncancelled (_ : State) (a : Action) : Prop := a ≠ .shutdown

theorem propagate_closing {t : State} {result : Except WriteError Unit}
    (h : (propagate t result).phase.closing = true) (hrun : t.returned = false) :
    t.phase.closing = true ∧ (propagate t result).queue = t.queue ∧
      (propagate t result).inputClosed = t.inputClosed ∧
      (propagate t result).orphans = t.orphans := by
  cases hphase : t.phase with
  | returned outcome =>
    rw [State.returned, hphase] at hrun
    contradiction
  | draining outcome =>
    refine ⟨rfl, ?_⟩
    cases outcome <;> simp [propagate, hphase]
  | _ => cases result <;> simp [propagate, hphase, Phase.closing, State.exit] at h

theorem reap_emptied {k : ℕ} (h : s.phase.closing = true → Emptied s)
    (hs : reap runtime s k = some s') (hclosing : s'.phase.closing = true) : Emptied s' := by
  unfold reap at hs
  split at hs
  · simp only [Option.ite_none_right_eq_some, Option.some.injEq] at hs
    obtain ⟨hreaps, rfl⟩ := hs
    have hrun : s.returned = false := by
      cases hphase : s.phase with
      | returned outcome =>
        rw [reaps, hphase] at hreaps
        contradiction
      | _ => rw [State.returned, hphase]; rfl
    obtain ⟨hbefore, hqueue, hinput, horphans⟩ :=
      propagate_closing (t := { s with writes := s.writes.eraseIdx k }) hclosing hrun
    have hempty := h hbefore
    exact ⟨hqueue.trans hempty.queue, hinput.trans hempty.inputClosed,
      horphans.trans hempty.orphans⟩
  · contradiction

/-- Without a cancellation only the end of the input leads out of the loop over the groups. -/
theorem step_emptied (horphans : s.returned = false → s.orphans = [])
    (h : s.phase.closing = true → Emptied s) (ha : a ≠ .shutdown)
    (hs : step runtime s a = some s') (hclosing : s'.phase.closing = true) : Emptied s' := by
  cases a with
  | shutdown => contradiction
  | reap k => exact reap_emptied h hs hclosing
  | elapse duration | closeInput =>
    cases hs
    grind [Emptied]
  | arrive e | dropQueued | dropOrphan | dispatch | finishDrain | linger | recv | inputEnd
    | begin k | panicked k | wake k | dropWrite k | attempted k result =>
    simp only [step, arrive, dropQueued, dropOrphan, dispatch, finishDrain, linger, recv,
      inputEnd, begin, panicked, wake, dropWrite, attempted] at hs
    grind [Emptied, State.settle, State.close, call, finish, State.record, State.coalesce,
      Phase.closing, State.returned, Phase.isReturned]

theorem Turn.error_none (hturn : Turn runtime.settings s s') (h : s'.phase.error? = none) :
    s.phase.error? = none := by
  cases hturn with
  | loop hwrites hattempts hdispatched herror => exact herror ▸ h
  | dispatch envelopes hphase hwrites hattempts hrun => exact hrun
  | proceed pre post w w' calls hwrites hwrites' hid hlive hlive' hattempts hown hdispatched
      hphase => exact hphase ▸ h
  | finish pre post w w' call hwrites hwrites' hid hlive hstage hattempts hown hlast hdispatched
      hphase => exact hphase ▸ h
  | reap pre post w result hwrites hwrites' hstage hattempts hdispatched hkept hclear =>
    exact (hclear h).1
  | drop pre post w hrun hwrites hwrites' hattempts hdispatched hphase => exact hphase ▸ h

/-- A run that has not failed settles envelopes through its writes only: what is left in
the channel is dropped when `run` has returned, and then there is nothing in it. -/
structure Clean (s : State) : Prop where
  emptied : s.phase.closing = true → Emptied s
  written : s.phase.error? = none → ∀ x ∈ s.settled, x.write ≠ none

theorem closing_of_returned (hrun : s.returned = true) (hclear : s.phase.error? = none) :
    s.phase.closing = true := by
  unfold State.returned at hrun
  cases hphase : s.phase with
  | returned outcome =>
    rw [hphase] at hclear
    cases outcome with
    | ok u => rfl
    | error e => contradiction
  | _ =>
    rw [hphase] at hrun
    contradiction

theorem Move.clean (hmove : Move runtime s a s') (hturn : Turn runtime.settings s s')
    (h : Clean s) (hclear : s'.phase.error? = none) : ∀ x ∈ s'.settled, x.write ≠ none := by
  have hbefore := hturn.error_none hclear
  have hold := h.written hbefore
  have hsettle : ∀ (k : ℕ) (how : Settlement) (g : List SinkEnvelope),
      ∀ x ∈ s.settled ++ settlements (some k) how g, x.write ≠ none := by
    intro k how g x hx
    rcases List.mem_append.mp hx with hx | hx
    · exact hold x hx
    · rw [(mem_settlements _ _ _ hx).1]
      exact Option.some_ne_none k
  cases hmove with
  | shuffle _ _ hsame | exit _ _ _ hsame =>
    rw [hsame.settled]
    exact hold
  | finish k _ pre post w => exact hsettle _ _ _
  | dropWrite _ pre post w => exact hsettle _ _ _
  | dropRest _ e queue orphans hrun hrest =>
    have hempty := h.emptied (closing_of_returned hrun hbefore)
    rw [hempty.queue, hempty.orphans] at hrest
    exact absurd hrest.length_eq (by simp)
  | _ => exact hold

theorem reachable_clean {now : ℕ} (h : (system runtime now).ReachableBy Uncancelled s) :
    Clean s := by
  have hboth : Inv runtime s ∧ Clean s := by
    have hstart : Inv runtime (State.start now) ∧ Clean (State.start now) :=
      ⟨start_inv runtime now, fun hclosing => by contradiction, fun _ x hx => by contradiction⟩
    apply System.ReachableBy.invariant hstart _ h
    rintro t a t' ⟨hinv, hclean⟩ ha hs
    refine ⟨step_inv hinv hs, step_emptied hinv.ledger.orphans hclean.emptied ha hs, ?_⟩
    exact (step_move hinv.ledger.orphans hinv.fates.stages hs).clean (step_turn hs) hclean
  exact hboth.2

theorem Fates.settled_lt (h : Fates runtime s) {x : Settled} {k : ℕ} (hx : x ∈ s.settled)
    (hk : x.write = some k) : k < s.dispatched.length := by
  have hentry : x ∈ s.entries k := List.mem_filter.mpr ⟨hx, by simp [hk]⟩
  by_contra hle
  rw [(h.unknown k (Nat.le_of_not_lt hle)).entries] at hentry
  contradiction

theorem Inv.all_delivered (h : Inv runtime s) (hdown : TornDown s)
    (hall : ∀ x ∈ s.settled, x.settlement = .delivered) : s.arrived.Perm s.delivered := by
  rw [State.delivered, List.filter_eq_self.mpr (by simpa using hall)]
  exact h.settled_once hdown

/-- As many envelopes delivered as there are settled. -/
theorem Inv.delivered_of_perm (h : Inv runtime s) (hdown : TornDown s)
    (hperm : s.arrived.Perm s.delivered) : ∀ x ∈ s.settled, x.settlement = .delivered := by
  have hlength := ((h.settled_once hdown).symm.trans hperm).length_eq
  rw [State.settledEnvelopes, State.delivered, List.length_map, List.length_map] at hlength
  have hall := List.length_filter_eq_length_iff.mp hlength.symm
  simpa using hall

/-- A group whose write failed leaves an envelope undelivered. -/
theorem FailedWith.undelivered {k : ℕ} {e : WriteError} (h : FailedWith runtime s k e)
    (hinv : Inv runtime s) (hcoalesced : Coalesced runtime.batching s) (hlive : s.live = []) :
    ∃ x ∈ s.settled, x.settlement ≠ .delivered := by
  have hlt := h.lt hinv.fates
  have hgroup := List.getElem?_eq_getElem hlt
  have hentries := hinv.fates.settled_group hlive hgroup
  obtain ⟨group, hholds, -⟩ := hcoalesced.tallied.holds
  obtain ⟨g, hg, hcut⟩ := List.mem_map.mp
    (hholds.dispatched.subset (List.mem_of_getElem? hgroup))
  have hnonempty : s.entries k ≠ [] := by
    intro hnil
    rw [hnil] at hentries
    exact (hcoalesced.groups g hg).nonempty (hcut.trans hentries.symm)
  obtain ⟨x, hx⟩ := List.exists_mem_of_ne_nil _ hnonempty
  obtain ⟨hsettled, hwrite⟩ := List.mem_filter.mp hx
  refine ⟨x, hsettled, fun hdelivered => h.unwritten ?_⟩
  obtain ⟨j, hj, hsucceeded⟩ := (hinv.fates.delivered_iff hsettled).mp hdelivered
  obtain rfl := Option.some.inj (hj.symm.trans (of_decide_eq_true hwrite))
  exact hsucceeded

/-- A sink that was never cancelled returns `Ok` exactly when it has delivered every
envelope it was sent. -/
theorem ok_iff_delivered {now : ℕ} {outcome : Except WriteError Unit}
    (h : (system runtime now).ReachableBy Uncancelled s) (hdown : TornDown s)
    (hphase : s.phase = .returned outcome) :
    outcome = .ok () ↔ s.arrived.Perm s.delivered := by
  have hinv := reachable_inv h.reachable
  have hsurfaced := reachable_surfaced h.reachable
  constructor
  · rintro rfl
    apply hinv.all_delivered hdown
    intro x hx
    have hwrite := (reachable_clean h).written (by rw [hphase]; rfl) x hx
    obtain ⟨k, hk⟩ := Option.ne_none_iff_exists'.mp hwrite
    have hlt := hinv.fates.settled_lt hx hk
    exact (hinv.fates.delivered_iff hx).mpr ⟨k, hk, hsurfaced.written_of_ok hphase k hlt⟩
  · intro hperm
    cases outcome with
    | ok u => rfl
    | error e =>
      obtain ⟨k, hk⟩ := hsurfaced.kept e (by rw [hphase]; rfl)
      obtain ⟨x, hx, hnot⟩ :=
        hk.undelivered hinv (reachable_coalesced h.reachable) hdown.live
      exact absurd (hinv.delivered_of_perm hdown hperm x hx) hnot

theorem ok_iff_delivered_secondFails : ∃ s : State, TornDown s ∧ s.delivered = [envelope 0] ∧
    ¬ s.arrived.Perm s.delivered := by
  have hrun : ((system concurrent 0).run (State.start 0) secondFails).map
      (fun s => (s.phase, s.queue, s.orphans, s.live, s.delivered)) =
        some (.returned (.error (.write "broker down")), [], [], [], [envelope 0]) := by decide
  obtain ⟨s, hs, hview⟩ := Option.map_eq_some_iff.mp hrun
  simp only [Prod.mk.injEq] at hview
  obtain ⟨hphase, hqueue, horphans, hlive, hdelivered⟩ := hview
  have hdown : TornDown s := ⟨by rw [State.returned, hphase]; rfl, hqueue, horphans, hlive⟩
  have hreach : (system concurrent 0).ReachableBy Uncancelled s := by
    refine System.ReachableBy.run System.ReachableBy.start ?_ hs
    intro a ha _ hcancel
    rw [hcancel] at ha
    simp [secondFails] at ha
  refine ⟨s, hdown, hdelivered, fun hperm => ?_⟩
  have hok := (ok_iff_delivered hreach hdown hphase).mpr hperm
  contradiction

end Rustper.Sink
