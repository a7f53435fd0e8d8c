import Mathlib.Algebra.Order.Ring.Int
import Mathlib.Data.Nat.Notation
import Mathlib.Tactic.Common

/-!
Spans of time as seconds and nanoseconds of fixed width, and the arithmetic on them that
can overflow. Every operation is related to the number of nanoseconds.
-/
namespace Clock

def nanosPerSec : ℕ := 10 ^ 9

structure Duration where
  secs : ℕ
  nanos : ℕ
  secs_lt : secs < 2 ^ 64
  nanos_lt : nanos < nanosPerSec
deriving DecidableEq, Repr

namespace Duration

def toNanos (d : Duration) : ℕ := d.secs * nanosPerSec + d.nanos

def fromMillis (millis : ℕ) (h : millis < 2 ^ 64) : Duration where
  secs := millis / 1000
  nanos := millis % 1000 * 10 ^ 6
  secs_lt := by omega
  nanos_lt := by
    rw [nanosPerSec]
    omega

/-- The nanoseconds carry into the seconds; `none` where the seconds overflow. -/
def mul (d : Duration) (k : ℕ) : Option Duration :=
  if h : d.secs * k + d.nanos * k / nanosPerSec < 2 ^ 64 then
    some ⟨d.secs * k + d.nanos * k / nanosPerSec, d.nanos * k % nanosPerSec, h,
      Nat.mod_lt _ (by decide)⟩
  else none

/-- The order of the seconds, then of the nanoseconds. -/
def le (d e : Duration) : Bool :=
  decide (d.secs < e.secs ∨ d.secs = e.secs ∧ d.nanos ≤ e.nanos)

def min (d e : Duration) : Duration := if d.le e then d else e

variable {d e : Duration}

theorem le_iff : d.le e = true ↔ d.toNanos ≤ e.toNanos := by
  have hd := d.nanos_lt
  have he := e.nanos_lt
  simp only [le, decide_eq_true_eq, toNanos, nanosPerSec] at *
  omega

theorem toNanos_min : (d.min e).toNanos = Min.min d.toNanos e.toNanos := by
  unfold min
  split
  · next h => exact (Nat.min_eq_left (le_iff.mp h)).symm
  · next h =>
    rw [le_iff] at h
    exact (Nat.min_eq_right (by omega)).symm

@[simp] theorem toNanos_fromMillis (millis : ℕ) (h : millis < 2 ^ 64) :
    (fromMillis millis h).toNanos = millis * 10 ^ 6 := by
  simp only [toNanos, fromMillis, nanosPerSec]
  omega

theorem ext_toNanos (h : d.toNanos = e.toNanos) : d = e := by
  obtain ⟨secs, nanos, hsecs, hnanos⟩ := d
  obtain ⟨secs', nanos', hsecs', hnanos'⟩ := e
  simp only [toNanos, nanosPerSec] at h hnanos hnanos'
  obtain ⟨rfl, rfl⟩ : secs = secs' ∧ nanos = nanos' := by omega
  rfl

theorem carry_eq (d : Duration) (k : ℕ) :
    (d.secs * k + d.nanos * k / nanosPerSec) * nanosPerSec + d.nanos * k % nanosPerSec =
      d.toNanos * k := by
  have hdiv := Nat.div_add_mod (d.nanos * k) nanosPerSec
  rw [toNanos, Nat.add_mul, Nat.add_mul, Nat.mul_right_comm, Nat.add_assoc,
    Nat.mul_comm (d.nanos * k / nanosPerSec), hdiv]

/-- A product that is a duration is computed. -/
theorem mul_eq_some (k : ℕ) (h : d.toNanos * k < 2 ^ 64 * nanosPerSec) :
    ∃ product, d.mul k = some product ∧ product.toNanos = d.toNanos * k := by
  have hcarry := carry_eq d k
  have hsecs : d.secs * k + d.nanos * k / nanosPerSec < 2 ^ 64 := by
    rw [← hcarry] at h
    exact Nat.lt_of_mul_lt_mul_right (Nat.lt_of_le_of_lt (Nat.le_add_right _ _) h)
  rw [mul, dif_pos hsecs]
  exact ⟨_, rfl, hcarry⟩

/-- Doubling a duration of 64-bit milliseconds never overflows, and up to a limit of such
milliseconds it is the doubling of the milliseconds. -/
theorem double_fromMillis {millis limit : ℕ} (h : millis < 2 ^ 64) (hlimit : limit < 2 ^ 64)
    (hnext : Min.min (millis * 2) limit < 2 ^ 64) :
    ((fromMillis millis h).mul 2).map (min · (fromMillis limit hlimit)) =
      some (fromMillis (Min.min (millis * 2) limit) hnext) := by
  have hfits : (fromMillis millis h).toNanos * 2 < 2 ^ 64 * nanosPerSec := by
    rw [toNanos_fromMillis, nanosPerSec]
    omega
  obtain ⟨product, hproduct, hnanos⟩ := mul_eq_some 2 hfits
  rw [hproduct, Option.map_some]
  congr 1
  apply ext_toNanos
  rw [toNanos_min, hnanos, toNanos_fromMillis, toNanos_fromMillis, toNanos_fromMillis]
  omega

end Duration

/-- A reading of a monotonic clock. -/
structure Instant where
  secs : ℤ
  nanos : ℕ
  secs_min : -2 ^ 63 ≤ secs
  secs_max : secs < 2 ^ 63
  nanos_lt : nanos < nanosPerSec
deriving DecidableEq, Repr

namespace Instant

/-- The instant of that reading; `none` where the seconds do not fit. -/
def ofParts (secs : ℤ) (nanos : ℕ) (hnanos : nanos < nanosPerSec) : Option Instant :=
  if h : -2 ^ 63 ≤ secs ∧ secs < 2 ^ 63 then some ⟨secs, nanos, h.1, h.2, hnanos⟩ else none

/-- The seconds are added first, then the carry of the nanoseconds. -/
def add (t : Instant) (d : Duration) : Option Instant :=
  if t.secs + d.secs < 2 ^ 63 then
    if h : t.nanos + d.nanos < nanosPerSec then ofParts (t.secs + d.secs) (t.nanos + d.nanos) h
    else ofParts (t.secs + d.secs + 1) ((t.nanos + d.nanos) % nanosPerSec)
      (Nat.mod_lt _ (by decide))
  else none

theorem isSome_ofParts {secs : ℤ} {nanos : ℕ} {hnanos : nanos < nanosPerSec}
    (hmin : -2 ^ 63 ≤ secs) (hmax : secs < 2 ^ 63) : (ofParts secs nanos hnanos).isSome := by
  rw [ofParts, dif_pos ⟨hmin, hmax⟩]
  rfl

theorem isSome_add {t : Instant} {d : Duration} (h : t.secs + d.secs + 1 < 2 ^ 63) :
    (t.add d).isSome := by
  have hmin := t.secs_min
  rw [add, if_pos (by omega)]
  split
  · exact isSome_ofParts (by omega) (by omega)
  · exact isSome_ofParts (by omega) h

end Instant

end Clock
