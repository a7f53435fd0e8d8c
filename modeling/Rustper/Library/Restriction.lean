import Rustper.Library.Potential

/-!
A transition system some of whose actions are switched off. An execution in which they no
longer happen is from then on one of the restricted system, and a fair one. A part that
moves inside a system need not find its own actions there: it is enough that the system can
do some work whenever the part can.
-/
namespace TransitionSystem

variable {State Action : Type*}

namespace System

variable {T : System State Action} {p : Action → Prop} [DecidablePred p]
  {work : Action → ℕ} {permitted : Action → Prop}

/-- The system without the actions that fail `p`. -/
def restrict (T : System State Action) (p : Action → Prop) [DecidablePred p] :
    System State Action where
  start := T.start
  step := fun s a => if p a then T.step s a else none

theorem restrict_step {s s' : State} {a : Action} :
    (T.restrict p).step s a = some s' ↔ p a ∧ T.step s a = some s' :=
  Option.ite_none_right_eq_some

theorem run_of_restrict {s s' : State} {actions : List Action}
    (hrun : (T.restrict p).run s actions = some s') : T.run s actions = some s' := by
  induction actions generalizing s with
  | nil => exact hrun
  | cons a rest ih =>
    obtain ⟨t, ht, hrest⟩ := Option.bind_eq_some_iff.mp hrun
    exact Option.bind_eq_some_iff.mpr ⟨t, (restrict_step.mp ht).2, ih hrest⟩

theorem restrict_run {s s' : State} {actions : List Action} (hall : ∀ a ∈ actions, p a)
    (hrun : T.run s actions = some s') : (T.restrict p).run s actions = some s' := by
  induction actions generalizing s with
  | nil => exact hrun
  | cons a rest ih =>
    obtain ⟨t, ht, hrest⟩ := Option.bind_eq_some_iff.mp hrun
    have hstep := restrict_step.mpr ⟨hall a List.mem_cons_self, ht⟩
    exact Option.bind_eq_some_iff.mpr
      ⟨t, hstep, ih (fun b hb => hall b (List.mem_cons_of_mem a hb)) hrest⟩

theorem Quiet.restrict {s : State} (h : T.Quiet work permitted s) :
    (T.restrict p).Quiet work permitted s :=
  fun actions s' hall hrun => h actions s' hall (run_of_restrict hrun)

theorem Quiet.of_restrict (hp : ∀ a, permitted a → p a) {s : State}
    (h : (T.restrict p).Quiet work permitted s) : T.Quiet work permitted s :=
  fun actions s' hall hrun =>
    h actions s' hall (restrict_run (fun a ha => hp a (hall a ha)) hrun)

/-- An execution from where no action that is switched off happens any more. -/
def Execution.restrict (e : T.Execution) (i : ℕ) (h : ∀ j, i ≤ j → p (e.action j)) :
    (T.restrict p).Execution where
  state j := e.state (i + j)
  action j := e.action (i + j)
  next j := restrict_step.mpr ⟨h _ (Nat.le_add_right i j), e.next (i + j)⟩

theorem Execution.Fair.restrict {e : T.Execution} (hfair : e.Fair work permitted) {i : ℕ}
    (h : ∀ j, i ≤ j → p (e.action j)) : (e.restrict i h).Fair work permitted := by
  intro j hbusy
  obtain ⟨l, hl, hwork⟩ := hfair (i + j) fun hquiet => hbusy hquiet.restrict
  refine ⟨l - i, by omega, ?_⟩
  have hil : i + (l - i) = l := by omega
  show 0 < work (e.action (i + (l - i)))
  rwa [hil]

/-- An execution of the restricted system is one of the whole. -/
def Execution.ofRestrict (e : (T.restrict p).Execution) : T.Execution where
  state := e.state
  action := e.action
  next j := (restrict_step.mp (e.next j)).2

theorem Execution.Fair.ofRestrict {e : (T.restrict p).Execution}
    (hp : ∀ a, permitted a → p a) (hfair : e.Fair work permitted) :
    e.ofRestrict.Fair work permitted :=
  fun i hbusy => hfair i fun hquiet => hbusy (hquiet.of_restrict hp)

/-- A part is quiet in a quiet system if the system can take its steps that are no work, and
can do some work where the part can. -/
theorem Quiet.part_of_work {Part Act : Type*} {C : System Part Act} (proj : State → Part)
    {workC : Act → ℕ} {permittedC : Act → Prop} {P : State → Prop}
    (hfree : ∀ {s b c}, P s → permittedC b → workC b = 0 → C.step (proj s) b = some c →
      ∃ a s', permitted a ∧ T.step s a = some s' ∧ proj s' = c ∧ P s')
    (hwork : ∀ {s b c}, P s → permittedC b → 0 < workC b → C.step (proj s) b = some c →
      ∃ a s', permitted a ∧ T.step s a = some s' ∧ 0 < work a)
    {s : State} (h : T.Quiet work permitted s) (hs : P s) :
    C.Quiet workC permittedC (proj s) := by
  intro actions c hall hrun
  induction actions generalizing s with
  | nil =>
    intro b hb
    contradiction
  | cons b rest ih =>
    obtain ⟨c', hc', hrest⟩ := Option.bind_eq_some_iff.mp hrun
    have hb : permittedC b := hall b List.mem_cons_self
    have hzero : workC b = 0 := by
      by_contra hne
      obtain ⟨a, s', ha, hs', hpos⟩ := hwork hs hb (Nat.pos_of_ne_zero hne) hc'
      have := h.work_eq_zero ha hs'
      omega
    obtain ⟨a, s', ha, hs', rfl, hP⟩ := hfree hs hb hzero hc'
    intro b' hb'
    rcases List.mem_cons.mp hb' with rfl | hb'
    · exact hzero
    · exact ih (h.next ha hs') hP (fun x hx => hall x (List.mem_cons_of_mem b hx)) hrest b' hb'

end System

end TransitionSystem
