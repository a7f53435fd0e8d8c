import Mathlib.Algebra.Order.Field.Rat
import Mathlib.Data.List.TakeWhile
import Mathlib.Tactic.Ring

/-!
JSON numbers: their spelling, the rational they stand for, and a scanner that reads one
off the front of a text.
-/
namespace Json

/-- The natural number a row of decimal digits stands for. -/
def ofDigits (digits : List Char) : ℕ := Nat.ofDigitChars 10 digits 0

inductive ExponentSign
  | none | plus | minus
deriving DecidableEq, Repr

def ExponentSign.lexeme : ExponentSign → List Char
  | none => []
  | plus => ['+']
  | minus => ['-']

structure Exponent where
  capital : Bool
  sign : ExponentSign
  digits : List Char
deriving DecidableEq, Repr

namespace Exponent

def lexeme (e : Exponent) : List Char :=
  (if e.capital then 'E' else 'e') :: (e.sign.lexeme ++ e.digits)

def value (e : Exponent) : ℤ :=
  if e.sign = .minus then -(ofDigits e.digits : ℤ) else ofDigits e.digits

end Exponent

/-- The parts of a number, not yet checked. -/
structure Numeral where
  negative : Bool
  whole : List Char
  fraction : Option (List Char)
  exponent : Option Exponent
deriving DecidableEq, Repr

def Digits (digits : List Char) : Prop := digits ≠ [] ∧ ∀ c ∈ digits, c.isDigit = true

instance (digits : List Char) : Decidable (Digits digits) := inferInstanceAs (Decidable (_ ∧ _))

namespace Numeral

/-- No part is without digits, and only a single zero leads. -/
def Valid (n : Numeral) : Prop :=
  Digits n.whole ∧ (n.whole.head? = some '0' → n.whole = ['0']) ∧
    (∀ f ∈ n.fraction, Digits f) ∧ ∀ e ∈ n.exponent, Digits e.digits

instance (n : Numeral) : Decidable n.Valid := inferInstanceAs (Decidable (_ ∧ _ ∧ _ ∧ _))

def lexeme (n : Numeral) : List Char :=
  (if n.negative then ['-'] else []) ++ n.whole ++ n.fraction.elim [] ('.' :: ·) ++
    n.exponent.elim [] Exponent.lexeme

def value (n : Numeral) : ℚ :=
  let fraction := n.fraction.getD []
  (if n.negative then -1 else 1) *
    (ofDigits n.whole + ofDigits fraction / 10 ^ fraction.length) *
    10 ^ (n.exponent.elim 0 Exponent.value)

/-- An integer as it is commonly spelt. -/
def ofInt (z : ℤ) : Numeral :=
  ⟨decide (z < 0), Nat.toDigits 10 z.natAbs, none, none⟩

end Numeral

abbrev Number := { n : Numeral // n.Valid }

def scanSign : List Char → Bool × List Char
  | '-' :: rest => (true, rest)
  | rest => (false, rest)

def scanFraction : List Char → Option (List Char) × List Char
  | '.' :: rest => (some (rest.takeWhile Char.isDigit), rest.dropWhile Char.isDigit)
  | rest => (none, rest)

def scanExponentSign : List Char → ExponentSign × List Char
  | '+' :: rest => (.plus, rest)
  | '-' :: rest => (.minus, rest)
  | rest => (.none, rest)

def scanExponent : List Char → Option Exponent × List Char
  | [] => (none, [])
  | c :: rest =>
    if c = 'e' ∨ c = 'E' then
      let (sign, digits) := scanExponentSign rest
      (some ⟨c = 'E', sign, digits.takeWhile Char.isDigit⟩, digits.dropWhile Char.isDigit)
    else (none, c :: rest)

def scanNumber (s : List Char) : Option (Number × List Char) :=
  let (negative, s) := scanSign s
  let whole := s.takeWhile Char.isDigit
  let (fraction, s) := scanFraction (s.dropWhile Char.isDigit)
  let (exponent, s) := scanExponent s
  let n : Numeral := ⟨negative, whole, fraction, exponent⟩
  if h : n.Valid then some (⟨n, h⟩, s) else none

/-- What may follow a number without being taken for a part of it. -/
def EndsNumber (rest : List Char) : Prop :=
  ∀ c ∈ rest.head?, c.isDigit = false ∧ c ≠ '.' ∧ c ≠ 'e' ∧ c ≠ 'E'

section Digits

variable {digits rest : List Char}

theorem takeWhile_digits (h : ∀ c ∈ digits, c.isDigit = true)
    (hrest : ∀ c ∈ rest.head?, c.isDigit = false) :
    (digits ++ rest).takeWhile Char.isDigit = digits := by
  have hnil : rest.takeWhile Char.isDigit = [] := by
    cases rest with
    | nil => rfl
    | cons c rest =>
      have hc := hrest c rfl
      simp [hc]
  rw [List.takeWhile_append_of_pos h, hnil, List.append_nil]

theorem dropWhile_digits (h : ∀ c ∈ digits, c.isDigit = true)
    (hrest : ∀ c ∈ rest.head?, c.isDigit = false) :
    (digits ++ rest).dropWhile Char.isDigit = rest := by
  rw [List.dropWhile_append_of_pos h]
  cases rest with
  | nil => rfl
  | cons c rest =>
    have hc := hrest c rfl
    simp [hc]

end Digits

section Scan

variable {rest : List Char}

theorem scanSign_lexeme (negative : Bool) (h : rest.head? ≠ some '-') :
    scanSign ((if negative then ['-'] else []) ++ rest) = (negative, rest) := by
  cases negative with
  | true => rfl
  | false =>
    cases rest with
    | nil => rfl
    | cons c rest =>
      have hc : c ≠ '-' := by simpa using h
      simp [scanSign, hc]

theorem scanFraction_lexeme (f : Option (List Char)) (hf : ∀ f' ∈ f, Digits f')
    (hrest : ∀ c ∈ rest.head?, c.isDigit = false ∧ c ≠ '.') :
    scanFraction (f.elim [] ('.' :: ·) ++ rest) = (f, rest) := by
  have hdigit : ∀ c ∈ rest.head?, c.isDigit = false := fun c hc => (hrest c hc).1
  cases f with
  | some digits =>
    have hd := (hf digits rfl).2
    simp only [Option.elim_some, List.cons_append, scanFraction, takeWhile_digits hd hdigit,
      dropWhile_digits hd hdigit]
  | none =>
    cases rest with
    | nil => rfl
    | cons c rest =>
      have hc := (hrest c rfl).2
      simp [scanFraction, hc]

theorem scanExponentSign_lexeme (sign : ExponentSign)
    (h : ∀ c ∈ rest.head?, c.isDigit = true) :
    scanExponentSign (sign.lexeme ++ rest) = (sign, rest) := by
  cases sign with
  | plus => rfl
  | minus => rfl
  | none =>
    cases rest with
    | nil => rfl
    | cons c rest =>
      have hc := h c rfl
      have hplus : c ≠ '+' := by rintro rfl; contradiction
      have hminus : c ≠ '-' := by rintro rfl; contradiction
      simp [ExponentSign.lexeme, scanExponentSign, hplus, hminus]

theorem head_digits {digits : List Char} (h : Digits digits) (rest : List Char) :
    ∀ c ∈ (digits ++ rest).head?, c.isDigit = true := by
  obtain ⟨hne, hall⟩ := h
  cases digits with
  | nil => contradiction
  | cons d digits =>
    intro c hc
    cases hc
    exact hall d List.mem_cons_self

theorem scanExponent_lexeme (e : Option Exponent) (he : ∀ e' ∈ e, Digits e'.digits)
    (hrest : EndsNumber rest) :
    scanExponent (e.elim [] Exponent.lexeme ++ rest) = (e, rest) := by
  have hdigit : ∀ c ∈ rest.head?, c.isDigit = false := fun c hc => (hrest c hc).1
  cases e with
  | some e =>
    obtain ⟨capital, sign, digits⟩ := e
    have hd := he _ rfl
    have hsign := scanExponentSign_lexeme sign (head_digits hd rest)
    cases capital <;>
      simp [Exponent.lexeme, scanExponent, hsign, takeWhile_digits hd.2 hdigit,
        dropWhile_digits hd.2 hdigit]
  | none =>
    cases rest with
    | nil => rfl
    | cons c rest =>
      have hc := hrest c rfl
      simp [scanExponent, hc.2.2]

theorem head_exponent (e : Option Exponent) (hrest : EndsNumber rest) :
    ∀ c ∈ (e.elim [] Exponent.lexeme ++ rest).head?, c.isDigit = false ∧ c ≠ '.' := by
  cases e with
  | none => exact fun c hc => ⟨(hrest c hc).1, (hrest c hc).2.1⟩
  | some e =>
    obtain ⟨capital, sign, digits⟩ := e
    cases capital <;> simp [Exponent.lexeme]

theorem head_fraction (f : Option (List Char))
    (hrest : ∀ c ∈ rest.head?, c.isDigit = false ∧ c ≠ '.') :
    ∀ c ∈ (f.elim [] ('.' :: ·) ++ rest).head?, c.isDigit = false := by
  cases f with
  | none => exact fun c hc => (hrest c hc).1
  | some digits => simp

theorem head_number (n : Number) (rest : List Char) :
    ∀ c ∈ (n.val.lexeme ++ rest).head?, c = '-' ∨ c.isDigit = true := by
  obtain ⟨⟨negative, whole, fraction, exponent⟩, hwhole, -⟩ := n
  intro c hc
  cases negative with
  | true =>
    cases hc
    exact Or.inl rfl
  | false =>
    simp only [Numeral.lexeme, List.append_assoc] at hc
    exact Or.inr (head_digits hwhole _ c hc)

/-- The scanner takes the whole of a number when nothing that could belong to it follows. -/
theorem scanNumber_lexeme (n : Number) (hrest : EndsNumber rest) :
    scanNumber (n.val.lexeme ++ rest) = some (n, rest) := by
  obtain ⟨⟨negative, whole, fraction, exponent⟩, hvalid⟩ := n
  obtain ⟨hwhole, hzero, hfraction, hexponent⟩ := id hvalid
  have hafter := head_exponent exponent hrest
  have hbefore := head_fraction fraction hafter
  have hminus : (whole ++ (fraction.elim [] ('.' :: ·) ++
      (exponent.elim [] Exponent.lexeme ++ rest))).head? ≠ some '-' := by
    intro h
    have := head_digits hwhole _ _ h
    contradiction
  simp only [Numeral.lexeme, List.append_assoc, scanNumber, scanSign_lexeme negative hminus,
    takeWhile_digits hwhole.2 hbefore, dropWhile_digits hwhole.2 hbefore,
    scanFraction_lexeme fraction hfraction hafter, scanExponent_lexeme exponent hexponent hrest,
    dif_pos hvalid]

end Scan

namespace Numeral

theorem toDigits_head (n : ℕ) (h : (Nat.toDigits 10 n).head? = some '0') :
    Nat.toDigits 10 n = ['0'] := by
  induction n using Nat.strongRecOn with
  | _ n ih =>
    rcases Nat.lt_or_ge n 10 with hlt | hge
    · rw [Nat.toDigits_of_lt_base hlt] at h ⊢
      simpa using h
    · rw [Nat.toDigits_of_base_le (by decide) hge] at h
      rw [List.head?_append, List.head?_eq_some_head Nat.toDigits_ne_nil, Option.some_or,
        ← List.head?_eq_some_head] at h
      have hzero := congrArg (Nat.ofDigitChars 10 · 0) (ih (n / 10) (by omega) h)
      simp only [Nat.ofDigitChars_ten_toDigits] at hzero
      have : n / 10 = 0 := hzero
      omega

theorem ofInt_valid (z : ℤ) : (ofInt z).Valid := by
  have hdigits : Digits (Nat.toDigits 10 z.natAbs) :=
    ⟨Nat.toDigits_ne_nil, fun c hc => Nat.isDigit_of_mem_toDigits (by decide) (by decide) hc⟩
  exact ⟨hdigits, toDigits_head _, by simp [ofInt], by simp [ofInt]⟩

@[simp] theorem ofInt_value (z : ℤ) : (ofInt z).value = z := by
  have hdigits : ofDigits (Nat.toDigits 10 z.natAbs) = z.natAbs :=
    Nat.ofDigitChars_ten_toDigits
  have hnil : ofDigits [] = 0 := rfl
  have habs : (if z < 0 then -1 else 1 : ℚ) * (z.natAbs : ℤ) = z := by
    rcases lt_or_ge z 0 with hz | hz
    · rw [if_pos hz, Int.ofNat_natAbs_of_nonpos hz.le, Int.cast_neg]
      ring
    · rw [if_neg hz.not_gt, Int.natAbs_of_nonneg hz, one_mul]
  simpa [value, ofInt, hdigits, hnil] using habs

end Numeral

end Json
