import Mathlib.Data.Nat.Notation
import Mathlib.Tactic.Common

/-!
A countdown latch. It starts with a number of outstanding units and an armed
notification; each release takes some units off, and the release that takes the
last ones fires the notification. `Tracks` says that a latch agrees with a count
of the units released so far, and is what every release preserves.
-/
namespace Countdown

structure Latch where
  remaining : ℕ
  armed : Bool
  fired : ℕ
deriving DecidableEq, Repr

namespace Latch

def new (total : ℕ) : Latch := ⟨total, true, 0⟩

/-- Take `count` units off, firing when they were all the outstanding ones. -/
def release (l : Latch) (count : ℕ) : Latch :=
  if l.remaining = count ∧ l.armed = true then ⟨l.remaining - count, false, l.fired + 1⟩
  else ⟨l.remaining - count, l.armed, l.fired⟩

/-- `counted` of `total` units have been released, and the notification has been
sent once if they were all of them and not at all otherwise. -/
structure Tracks (l : Latch) (total counted : ℕ) : Prop where
  sum : l.remaining + counted = total
  armed : l.armed = true ↔ counted < total
  fired : l.fired = if counted = total then 1 else 0

theorem tracks_new {total : ℕ} (h : 0 < total) : Tracks (new total) total 0 where
  sum := Nat.add_zero total
  armed := by simp [new, h]
  fired := by simp [new, Nat.ne_of_lt h]

theorem Tracks.release {l : Latch} {total counted count : ℕ} (h : Tracks l total counted)
    (hpos : 0 < count) (hle : counted + count ≤ total) :
    Tracks (l.release count) total (counted + count) := by
  have hsum := h.sum
  have harmed : l.armed = true := h.armed.mpr (by omega)
  have hfired : l.fired = 0 := by rw [h.fired, if_neg (by omega)]
  by_cases hlast : l.remaining = count
  · have hrelease : l.release count = ⟨0, false, 1⟩ := by
      simp [Latch.release, hlast, harmed, hfired]
    rw [hrelease]
    exact ⟨by simp only; omega, by simp; omega, by simp only; rw [if_pos (by omega)]⟩
  · have hrelease : l.release count = ⟨l.remaining - count, true, 0⟩ := by
      simp [Latch.release, hlast, harmed, hfired]
    rw [hrelease]
    exact ⟨by simp only; omega, by simp only [true_iff]; omega,
      by simp only; rw [if_neg (by omega)]⟩

/-- The notification has been sent exactly when nothing is outstanding. -/
theorem Tracks.fired_iff {l : Latch} {total counted : ℕ} (h : Tracks l total counted) :
    l.fired = 1 ↔ l.remaining = 0 := by
  have hsum := h.sum
  rw [h.fired]
  by_cases heq : counted = total
  · simp only [heq, if_true, true_iff]
    omega
  · simp only [heq, if_false, Nat.zero_ne_one, false_iff]
    omega

theorem Tracks.fired_le_one {l : Latch} {total counted : ℕ} (h : Tracks l total counted) :
    l.fired ≤ 1 := by
  rw [h.fired]
  split <;> omega

end Latch

end Countdown
