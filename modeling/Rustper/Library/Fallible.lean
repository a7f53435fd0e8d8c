import Mathlib.Data.List.Basic

/-!
When a sequence of fallible steps succeeds. The rules are for `Except` and `Option`
and for the loops of Lean's `List` over them.
-/
namespace Fallible

variable {ε α β : Type}

theorem bind_eq_ok {x : Except ε α} {f : α → Except ε β} {b : β} :
    (x >>= f) = .ok b ↔ ∃ a, x = .ok a ∧ f a = .ok b := by
  cases x with
  | error e =>
    constructor
    · intro h
      contradiction
    · rintro ⟨_, h, _⟩
      contradiction
  | ok a =>
    constructor
    · intro h
      exact ⟨a, rfl, h⟩
    · rintro ⟨a', ha, hf⟩
      cases ha
      exact hf

theorem seq_eq_ok {x : Except ε Unit} {y : Except ε β} {b : β} :
    (x >>= fun _ => y) = .ok b ↔ x = .ok () ∧ y = .ok b := by
  rw [bind_eq_ok]
  constructor
  · rintro ⟨⟨⟩, hx, hy⟩
    exact ⟨hx, hy⟩
  · rintro ⟨hx, hy⟩
    exact ⟨(), hx, hy⟩

theorem mapError_eq_ok {ε' : Type} {f : ε → ε'} {x : Except ε α} {a : α}
    (h : x.mapError f = .ok a) : x = .ok a := by
  cases x with
  | error e => contradiction
  | ok b =>
    obtain rfl := Except.ok.inj h
    rfl

/-- A loop succeeds when its body does on every element. -/
theorem forM_eq_ok {l : List α} {f : α → Except ε Unit} :
    l.forM f = .ok () ↔ ∀ x ∈ l, f x = .ok () := by
  induction l with
  | nil => exact ⟨fun _ x hx => by contradiction, fun _ => rfl⟩
  | cons x rest ih =>
    show (f x >>= fun _ => rest.forM f) = _ ↔ _
    rw [seq_eq_ok, ih, List.forall_mem_cons]

theorem mapM_eq_some {l : List α} {f : α → Option β} {g : α → β}
    (h : ∀ x ∈ l, f x = some (g x)) : l.mapM f = some (l.map g) := by
  induction l with
  | nil => rfl
  | cons x rest ih =>
    rw [List.forall_mem_cons] at h
    rw [List.mapM_cons, h.1, ih h.2]
    rfl

theorem isSome_mapM {l : List α} {f : α → Option β} :
    (l.mapM f).isSome ↔ ∀ x ∈ l, (f x).isSome := by
  induction l with
  | nil => simp
  | cons x rest ih =>
    rw [List.mapM_cons, List.forall_mem_cons, ← ih]
    cases f x <;> cases rest.mapM f <;> simp

theorem exists_of_mem_mapM {l : List α} {f : α → Option β} {out : List β} {b : β}
    (h : l.mapM f = some out) (hb : b ∈ out) : ∃ x ∈ l, f x = some b := by
  induction l generalizing out with
  | nil =>
    obtain rfl : [] = out := Option.some.inj h
    contradiction
  | cons x rest ih =>
    rw [List.mapM_cons, Option.bind_eq_bind, Option.bind_eq_some_iff] at h
    obtain ⟨first, hfirst, h⟩ := h
    rw [Option.bind_eq_bind, Option.bind_eq_some_iff] at h
    obtain ⟨others, hothers, h⟩ := h
    obtain rfl : first :: others = out := Option.some.inj h
    rcases List.mem_cons.mp hb with rfl | hb
    · exact ⟨x, List.mem_cons_self, hfirst⟩
    · obtain ⟨y, hy, hfy⟩ := ih hothers hb
      exact ⟨y, List.mem_cons_of_mem _ hy, hfy⟩

end Fallible
