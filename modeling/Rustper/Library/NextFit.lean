import Mathlib.Algebra.BigOperators.Group.List.Basic
import Mathlib.Algebra.Order.Ring.Nat

/-!
Next-fit packing: an item goes into the last bin or, when it does not fit, into a new one,
which is made as large as the item needs. Any two consecutive bins hold more than the size
of a bin.
-/
namespace NextFit

/-- The bins opened, what the last of them holds, and what it still has room for. -/
structure Bins where
  count : ℕ
  level : ℕ
  room : ℕ
deriving DecidableEq, Repr

def Bins.none : Bins := ⟨0, 0, 0⟩

def place (size : ℕ) (b : Bins) (item : ℕ) : Bins :=
  if b.room < item then ⟨b.count + 1, item, max size item - item⟩
  else ⟨b.count, b.level + item, b.room - item⟩

/-- The bins before the last are charged to what they and their neighbours hold. -/
structure Packed (size total : ℕ) (b : Bins) : Prop where
  room : b.count = 0 ∨ size ≤ b.level + b.room
  spent : b.count * size + b.level ≤ 2 * total + size

variable {size total : ℕ} {b : Bins}

theorem packed_none (size : ℕ) : Packed size 0 .none :=
  ⟨Or.inl rfl, by simp [Bins.none]⟩

/-- A new bin is paid for by the item that opens it and by the bin that had no room. -/
theorem Packed.place (h : Packed size total b) (item : ℕ) :
    Packed size (total + item) (place size b item) := by
  obtain ⟨hroom, hspent⟩ := h
  unfold NextFit.place
  split
  · have hmax := le_max_left size item
    refine ⟨Or.inr (by dsimp only; omega), ?_⟩
    dsimp only
    rw [Nat.add_mul, Nat.one_mul]
    rcases hroom with hcount | hroom
    · rw [hcount, Nat.zero_mul]
      omega
    · omega
  · refine ⟨?_, by dsimp only; omega⟩
    rcases hroom with hcount | hroom
    · exact Or.inl hcount
    · right
      dsimp only
      omega

theorem Packed.foldl (h : Packed size total b) (items : List ℕ) :
    Packed size (total + items.sum) (items.foldl (NextFit.place size) b) := by
  induction items generalizing b total with
  | nil => exact h
  | cons item rest ih =>
    rw [List.sum_cons, ← Nat.add_assoc]
    exact ih (h.place item)

/-- Twice the bins the items would fill, and one. -/
theorem Packed.count_le (h : Packed size total b) (hsize : 0 < size) :
    b.count ≤ 2 * total / size + 1 := by
  have hspent := h.spent
  have hcount : (b.count - 1) * size ≤ 2 * total := by
    rw [Nat.sub_mul, Nat.one_mul]
    omega
  have := (Nat.le_div_iff_mul_le hsize).mpr hcount
  omega

end NextFit
