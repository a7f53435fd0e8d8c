import Rustper.Library.TransitionSystem
import Mathlib.Algebra.BigOperators.Intervals
import Mathlib.Algebra.Order.BigOperators.Group.List
import Mathlib.Algebra.Order.Group.Nat
import Mathlib.Data.List.GetD

/-!
Progress of a transition system from a potential. Every action has an amount of
work, and an amount it may pay into the potential; a step does its work out of the
potential and what it pays. So the work of a run is bounded by the potential of its
first state and what the run pays, and where nothing is paid any more the system
comes to a state in which there is nothing left to do. Waiting is an action without
work, so a state is quiet only if no waiting enables work either.
-/
namespace TransitionSystem

variable {State Action : Type*}

/-- One part of a family changes, and its contribution to a sum with it. -/
theorem sum_update {ι : Type*} {β : ι → Type*} [Fintype ι] [DecidableEq ι] (parts : ∀ i, β i)
    (f : ∀ i, β i → ℕ) (i : ι) (b : β i) :
    ∑ j, f j (Function.update parts i b j) + f i (parts i) = ∑ j, f j (parts j) + f i b := by
  have hnew := Finset.add_sum_erase Finset.univ (fun j => f j (Function.update parts i b j))
    (Finset.mem_univ i)
  have hold := Finset.add_sum_erase Finset.univ (fun j => f j (parts j)) (Finset.mem_univ i)
  have hrest : ∑ j ∈ Finset.univ.erase i, f j (Function.update parts i b j) =
      ∑ j ∈ Finset.univ.erase i, f j (parts j) := by
    refine Finset.sum_congr rfl fun j hj => ?_
    rw [Function.update_of_ne (Finset.ne_of_mem_erase hj)]
  simp only [Function.update_self] at hnew
  omega

/-- One term of a sum pays for something. -/
theorem sum_spend {ι : Type*} [Fintype ι] [DecidableEq ι] {f f' : ι → ℕ} {i : ι} {cost : ℕ}
    (hspend : f' i + cost ≤ f i) (hother : ∀ j, j ≠ i → f' j = f j) :
    ∑ j, f' j + cost ≤ ∑ j, f j := by
  have hnew := Finset.add_sum_erase Finset.univ f' (Finset.mem_univ i)
  have hold := Finset.add_sum_erase Finset.univ f (Finset.mem_univ i)
  have hrest : ∑ j ∈ Finset.univ.erase i, f' j = ∑ j ∈ Finset.univ.erase i, f j :=
    Finset.sum_congr rfl fun j hj => hother j (Finset.ne_of_mem_erase hj)
  omega

/-- A potential for the states that satisfy `inv`. -/
structure Potential (T : System State Action) (inv : State → Prop)
    (work pay : Action → ℕ) where
  value : State → ℕ
  keeps : ∀ {s a s'}, inv s → T.step s a = some s' → inv s'
  bound : ∀ {s a s'}, inv s → T.step s a = some s' → value s' + work a ≤ value s + pay a

namespace System

/-- No run of permitted actions from `s` does any work. -/
def Quiet (T : System State Action) (work : Action → ℕ) (permitted : Action → Prop)
    (s : State) : Prop :=
  ∀ actions s', (∀ a ∈ actions, permitted a) → T.run s actions = some s' →
    ∀ a ∈ actions, work a = 0

/-- An infinite run. -/
structure Execution (T : System State Action) where
  state : ℕ → State
  action : ℕ → Action
  next : ∀ i, T.step (state i) (action i) = some (state (i + 1))

/-- The system does not stand still for ever while permitted actions could do work. -/
def Execution.Fair {T : System State Action} (e : T.Execution) (work : Action → ℕ)
    (permitted : Action → Prop) : Prop :=
  ∀ i, ¬ T.Quiet work permitted (e.state i) → ∃ j, i ≤ j ∧ 0 < work (e.action j)

variable {T : System State Action} {work pay : Action → ℕ} {permitted : Action → Prop}

theorem run_cons {s s' : State} {a : Action} (hs : T.step s a = some s')
    (actions : List Action) : T.run s (a :: actions) = T.run s' actions := by
  rw [run, hs]
  rfl

theorem run_prefix {s s' : State} {before after : List Action}
    (hrun : T.run s (before ++ after) = some s') :
    ∃ t, T.run s before = some t ∧ T.run t after = some s' := by
  induction before generalizing s with
  | nil => exact ⟨s, rfl, hrun⟩
  | cons a rest ih =>
    obtain ⟨t, ht, hrest⟩ := Option.bind_eq_some_iff.mp hrun
    obtain ⟨u, hu, hafter⟩ := ih hrest
    exact ⟨u, (run_cons ht rest).trans hu, hafter⟩

theorem Quiet.next {s s' : State} {a : Action} (h : T.Quiet work permitted s)
    (hpermitted : permitted a) (hs : T.step s a = some s') : T.Quiet work permitted s' := by
  intro actions t hall hrun b hb
  have hall' : ∀ b ∈ a :: actions, permitted b := by
    intro b hb
    rcases List.mem_cons.mp hb with rfl | hb
    · exact hpermitted
    · exact hall b hb
  exact h (a :: actions) t hall' ((run_cons hs actions).trans hrun) b
    (List.mem_cons_of_mem a hb)

/-- In a quiet state a permitted action that is enabled does no work. -/
theorem Quiet.work_eq_zero {s s' : State} {a : Action} (h : T.Quiet work permitted s)
    (hpermitted : permitted a) (hs : T.step s a = some s') : work a = 0 := by
  have hall : ∀ b ∈ [a], permitted b := by
    intro b hb
    rwa [List.mem_singleton.mp hb]
  exact h [a] s' hall (run_cons hs []) a List.mem_cons_self

theorem Quiet.of_stable {P : State → Prop}
    (hstep : ∀ {s a s'}, P s → permitted a → T.step s a = some s' → work a = 0 ∧ P s')
    {s : State} (h : P s) : T.Quiet work permitted s := by
  intro actions s' hall hrun
  induction actions generalizing s with
  | nil =>
    intro a ha
    contradiction
  | cons b rest ih =>
    obtain ⟨t, ht, hrest⟩ := Option.bind_eq_some_iff.mp hrun
    obtain ⟨hwork, hP⟩ := hstep h (hall b List.mem_cons_self) ht
    intro a ha
    rcases List.mem_cons.mp ha with rfl | ha
    · exact hwork
    · exact ih hP (fun x hx => hall x (List.mem_cons_of_mem b hx)) hrest a ha

/-- A part that moves on its own inside a system, as long as a condition on the system
holds that its steps preserve, is quiet when the system is. -/
theorem Quiet.part_of {Part Act : Type*} {C : System Part Act} (act : Act → Action)
    (proj : State → Part) {workC : Act → ℕ} {permittedC : Act → Prop} {P : State → Prop}
    (hpermitted : ∀ b, permittedC b → permitted (act b)) (hwork : ∀ b, work (act b) = workC b)
    (hlift : ∀ {s b c}, P s → permittedC b → C.step (proj s) b = some c →
      ∃ s', T.step s (act b) = some s' ∧ proj s' = c ∧ P s')
    {s : State} (h : T.Quiet work permitted s) (hs : P s) :
    C.Quiet workC permittedC (proj s) := by
  intro actions c hall hrun
  induction actions generalizing s with
  | nil =>
    intro b hb
    contradiction
  | cons b rest ih =>
    obtain ⟨c', hc', hrest⟩ := Option.bind_eq_some_iff.mp hrun
    have hb : permittedC b := hall b List.mem_cons_self
    obtain ⟨s', hs', rfl, hP⟩ := hlift hs hb hc'
    intro b' hb'
    rcases List.mem_cons.mp hb' with rfl | hb'
    · rw [← hwork b']
      exact h.work_eq_zero (hpermitted b' hb) hs'
    · exact ih (h.next (hpermitted b hb) hs') hP
        (fun x hx => hall x (List.mem_cons_of_mem b hx)) hrest b' hb'

theorem Quiet.part {Part Act : Type*} {C : System Part Act} (act : Act → Action)
    (proj : State → Part) {workC : Act → ℕ} {permittedC : Act → Prop}
    (hpermitted : ∀ b, permittedC b → permitted (act b)) (hwork : ∀ b, work (act b) = workC b)
    (hlift : ∀ {s b c}, permittedC b → C.step (proj s) b = some c →
      ∃ s', T.step s (act b) = some s' ∧ proj s' = c)
    {s : State} (h : T.Quiet work permitted s) : C.Quiet workC permittedC (proj s) := by
  refine h.part_of (P := fun _ => True) act proj hpermitted hwork ?_ trivial
  intro s b c _ hb hc
  obtain ⟨s', hs', hproj⟩ := hlift hb hc
  exact ⟨s', hs', hproj, trivial⟩

theorem Execution.invariant {inv : State → Prop} (e : T.Execution)
    (hstep : ∀ {s a s'}, inv s → T.step s a = some s' → inv s') {i j : ℕ} (hij : i ≤ j)
    (h : inv (e.state i)) : inv (e.state j) := by
  induction hij with
  | refl => exact h
  | step _ ih => exact hstep ih (e.next _)

theorem Execution.reachable (e : T.Execution) (h : T.Reachable (e.state 0)) (i : ℕ) :
    T.Reachable (e.state i) :=
  e.invariant (fun h hs => h.next hs) (Nat.zero_le i) h

section ofRun

variable {s s' : State} {actions : List Action} {idle : Action}

/-- The states of a list of actions that is followed by waiting. -/
def trajectory (T : System State Action) (s : State) (actions : List Action) (idle : Action) :
    ℕ → State
  | 0 => s
  | i + 1 => T.attempt (T.trajectory s actions idle i) (actions.getD i idle)

theorem run_trajectory (hrun : T.run s actions = some s') (hidle : T.step s' idle = some s')
    (i : ℕ) : T.run (T.trajectory s actions idle i) (actions.drop i) = some s' := by
  induction i with
  | zero => exact hrun
  | succ i ih =>
    by_cases hi : i < actions.length
    · rw [List.drop_eq_getElem_cons hi] at ih
      obtain ⟨t, ht, hrest⟩ := Option.bind_eq_some_iff.mp ih
      rw [trajectory, List.getD_eq_getElem _ _ hi, attempt, ht]
      exact hrest
    · rw [List.drop_eq_nil_of_le (by omega)] at ih ⊢
      rw [trajectory, List.getD_eq_default _ _ (by omega), Option.some.inj ih, attempt, hidle]
      rfl

/-- A finite run, after which the system waits for ever. -/
def Execution.ofRun (hrun : T.run s actions = some s') (hidle : T.step s' idle = some s') :
    T.Execution where
  state := T.trajectory s actions idle
  action i := actions.getD i idle
  next i := by
    have hleft := run_trajectory hrun hidle i
    rw [trajectory, attempt]
    by_cases hi : i < actions.length
    · rw [List.drop_eq_getElem_cons hi] at hleft
      obtain ⟨t, ht, -⟩ := Option.bind_eq_some_iff.mp hleft
      rw [List.getD_eq_getElem _ _ hi, ht]
      rfl
    · rw [List.drop_eq_nil_of_le (by omega)] at hleft
      rw [List.getD_eq_default _ _ (by omega), Option.some.inj hleft, hidle]
      rfl

/-- Such an execution is fair if there is nothing left to do at the end of the run and
the last thing that was done is work. -/
theorem Execution.ofRun_fair (hrun : T.run s actions = some s') (hidle : T.step s' idle = some s')
    (hquiet : T.Quiet work permitted s') (hlast : ∀ last ∈ actions.getLast?, 0 < work last) :
    (Execution.ofRun hrun hidle).Fair work permitted := by
  intro i hbusy
  have hleft := run_trajectory hrun hidle i
  by_cases hi : i < actions.length
  · have hget : actions.getLast? = some (actions.getD (actions.length - 1) idle) := by
      rw [List.getLast?_eq_getElem?, List.getD_eq_getElem?_getD,
        List.getElem?_eq_getElem (by omega)]
      rfl
    exact ⟨actions.length - 1, by omega, hlast _ hget⟩
  · rw [List.drop_eq_nil_of_le (by omega)] at hleft
    refine absurd ?_ hbusy
    show T.Quiet work permitted (T.trajectory s actions idle i)
    rw [Option.some.inj hleft]
    exact hquiet

end ofRun

end System

namespace Potential

variable {T : System State Action} {inv : State → Prop} {work pay : Action → ℕ}

theorem run_inv (P : Potential T inv work pay) {s s' : State} {actions : List Action}
    (h : inv s) (hrun : T.run s actions = some s') : inv s' := by
  induction actions generalizing s with
  | nil => exact Option.some.inj hrun ▸ h
  | cons a rest ih =>
    obtain ⟨t, ht, hrest⟩ := Option.bind_eq_some_iff.mp hrun
    exact ih (P.keeps h ht) hrest

/-- The work of a run is paid for by the potential it starts with and what it pays. -/
theorem run_bound (P : Potential T inv work pay) {s s' : State} {actions : List Action}
    (h : inv s) (hrun : T.run s actions = some s') :
    P.value s' + (actions.map work).sum ≤ P.value s + (actions.map pay).sum := by
  induction actions generalizing s with
  | nil =>
    obtain rfl := Option.some.inj hrun
    exact Nat.le_refl _
  | cons a rest ih =>
    obtain ⟨t, ht, hrest⟩ := Option.bind_eq_some_iff.mp hrun
    have hfirst := P.bound h ht
    have hthen := ih (P.keeps h ht) hrest
    simp only [List.map_cons, List.sum_cons]
    omega

theorem pays_nothing {permitted : Action → Prop} (hfree : ∀ a, permitted a → pay a = 0)
    {actions : List Action} (hall : ∀ a ∈ actions, permitted a) : (actions.map pay).sum = 0 := by
  refine List.sum_eq_zero ?_
  intro p hp
  obtain ⟨a, ha, rfl⟩ := List.mem_map.mp hp
  exact hfree a (hall a ha)

/-- By induction on the potential: permitted actions that pay nothing lead, from any
state, to a quiet one, and the last of them does work. -/
theorem exists_quiet (P : Potential T inv work pay) {permitted : Action → Prop}
    (hfree : ∀ a, permitted a → pay a = 0) {s : State} (h : inv s) :
    ∃ actions s', (∀ a ∈ actions, permitted a) ∧ T.run s actions = some s' ∧
      T.Quiet work permitted s' ∧ ∀ last ∈ actions.getLast?, 0 < work last := by
  induction hvalue : P.value s using Nat.strongRecOn generalizing s with
  | _ value ih =>
    by_cases hquiet : T.Quiet work permitted s
    · exact ⟨[], s, by simp, rfl, hquiet, by simp⟩
    · unfold System.Quiet at hquiet
      push Not at hquiet
      obtain ⟨actions, s', hall, hrun, a, ha, hwork⟩ := hquiet
      obtain ⟨before, after, rfl⟩ := List.append_of_mem ha
      rw [List.append_cons] at hrun
      obtain ⟨t, ht, -⟩ := System.run_prefix hrun
      have hall' : ∀ b ∈ before ++ [a], permitted b := by
        intro b hb
        refine hall b ?_
        rw [List.append_cons]
        exact List.mem_append_left _ hb
      have hbound := P.run_bound h ht
      rw [pays_nothing hfree hall', List.map_append, List.sum_append, List.map_singleton,
        List.sum_singleton] at hbound
      obtain ⟨rest, u, hrest, hrun', hquiet', hlast⟩ :=
        ih (P.value t) (by omega) (P.run_inv h ht) rfl
      refine ⟨before ++ [a] ++ rest, u, ?_, System.run_append ht hrun', hquiet', ?_⟩
      · intro b hb
        rcases List.mem_append.mp hb with hb | hb
        · exact hall' b hb
        · exact hrest b hb
      · intro last hget
        cases rest with
        | nil =>
          rw [List.append_nil, List.getLast?_concat] at hget
          obtain rfl := Option.some.inj hget
          omega
        | cons b rest =>
          rw [List.getLast?_append_of_ne_nil _ (by simp)] at hget
          exact hlast last hget

variable {permitted : Action → Prop}

/-- The work an execution does while nothing is paid comes out of the potential. -/
theorem work_le (P : Potential T inv work pay) (e : T.Execution) {i j : ℕ} (hij : i ≤ j)
    (h : inv (e.state i)) (hfree : ∀ k, i ≤ k → pay (e.action k) = 0) :
    P.value (e.state j) + ∑ k ∈ Finset.Ico i j, work (e.action k) ≤ P.value (e.state i) := by
  induction hij with
  | refl => simp
  | @step j hij ih =>
    have hbound := P.bound (e.invariant P.keeps hij h) (e.next j)
    rw [hfree j hij] at hbound
    rw [Nat.succ_eq_add_one, Finset.sum_Ico_succ_top hij]
    omega

/-- Once nothing is paid any more, a fair execution comes to a quiet state. -/
theorem eventually_quiet (P : Potential T inv work pay) (e : T.Execution) {i : ℕ}
    (h : inv (e.state i)) (hfair : e.Fair work permitted)
    (hfree : ∀ k, i ≤ k → pay (e.action k) = 0) :
    ∃ j, i ≤ j ∧ T.Quiet work permitted (e.state j) := by
  induction hvalue : P.value (e.state i) using Nat.strongRecOn generalizing i with
  | _ value ih =>
    by_cases hquiet : T.Quiet work permitted (e.state i)
    · exact ⟨i, Nat.le_refl i, hquiet⟩
    · obtain ⟨j, hij, hwork⟩ := hfair i hquiet
      have hle := P.work_le e hij h hfree
      have hinv : inv (e.state j) := e.invariant P.keeps hij h
      have hbound := P.bound hinv (e.next j)
      have hpay := hfree j hij
      obtain ⟨k, hjk, hk⟩ := ih (P.value (e.state (j + 1))) (by omega)
        (P.keeps hinv (e.next j)) (fun k hk => hfree k (by omega)) rfl
      exact ⟨k, by omega, hk⟩

/-- Fairness asks for nothing impossible: every state has a fair execution, in which only
permitted actions are taken. -/
theorem exists_fair (P : Potential T inv work pay) (hfree : ∀ a, permitted a → pay a = 0)
    {idle : Action} (hidle : ∀ s, inv s → T.step s idle = some s) (hpermitted : permitted idle)
    {s : State} (h : inv s) : ∃ e : T.Execution, e.state 0 = s ∧ e.Fair work permitted ∧
      ∀ i, permitted (e.action i) := by
  obtain ⟨actions, s', hall, hrun, hquiet, hlast⟩ := P.exists_quiet hfree h
  have hwaits := hidle s' (P.run_inv h hrun)
  refine ⟨System.Execution.ofRun hrun hwaits, rfl,
    System.Execution.ofRun_fair hrun hwaits hquiet hlast, fun i => ?_⟩
  show permitted (actions.getD i idle)
  by_cases hi : i < actions.length
  · rw [List.getD_eq_getElem _ _ hi]
    exact hall _ (List.getElem_mem hi)
  · rwa [List.getD_eq_default _ _ (by omega)]

end Potential

end TransitionSystem
