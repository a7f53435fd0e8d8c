import Mathlib.Data.List.MinMax
import Mathlib.Order.MinMax

/-!
The greatest value of every group of a list. As a map from keys it does not depend on the
order of the list, and a concatenation has the greater of the two values.
-/
namespace GroupedMax

theorem max?_append {β : Type*} [LinearOrder β] (xs ys : List β) :
    (xs ++ ys).max? = Option.merge max xs.max? ys.max? := by
  induction xs with
  | nil => exact Option.merge_none_left.symm
  | cons x xs ih =>
    rw [List.cons_append, List.max?_cons, List.max?_cons, ih]
    cases xs.max? <;> cases ys.max? <;> simp [max_assoc]

variable {α κ β : Type*} [DecidableEq κ] [LinearOrder β]

/-- The greatest value of the elements with a key, if there are any. -/
def highest (key : α → κ) (value : α → β) (k : κ) (xs : List α) : Option β :=
  ((xs.filter (fun x => key x = k)).map value).max?

variable {key : α → κ} {value : α → β} {k : κ} {xs ys : List α} {b : β}

theorem highest_eq_none_iff : highest key value k xs = none ↔ ∀ x ∈ xs, key x ≠ k := by
  simp [highest]

theorem highest_eq_some_iff : highest key value k xs = some b ↔
    (∃ x ∈ xs, key x = k ∧ value x = b) ∧ ∀ x ∈ xs, key x = k → value x ≤ b := by
  rw [highest, List.max?_eq_some_iff]
  simp only [List.mem_map, List.mem_filter, decide_eq_true_eq, and_assoc, forall_exists_index,
    and_imp]
  refine and_congr_right fun _ => ⟨fun h x hx hk => h _ x hx hk rfl, ?_⟩
  intro h y x hx hk hy
  rw [← hy]
  exact h x hx hk

theorem highest_perm (h : xs.Perm ys) : highest key value k xs = highest key value k ys := by
  apply Option.ext
  intro b
  simp only [highest_eq_some_iff, h.mem_iff]

/-- A concatenation keeps the greater value where both lists have the key. -/
theorem highest_append (xs ys : List α) : highest key value k (xs ++ ys) =
    Option.merge max (highest key value k xs) (highest key value k ys) := by
  rw [highest, List.filter_append, List.map_append, max?_append]
  rfl

end GroupedMax
