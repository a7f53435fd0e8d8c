import Rustper.Library.JsonString

/-!
When two names of a JSON text are the same: after unescaping, as sequences of UTF-16 code
units, so that names with lone surrogates are compared too.
-/
namespace Json

/-- The UTF-16 code units of a character. -/
def utf16 (c : Char) : List ℕ :=
  if c.toNat < 0x10000 then [c.toNat]
  else [0xD800 + (c.toNat - 0x10000) / 0x400, 0xDC00 + (c.toNat - 0x10000) % 0x400]

def Piece.units : Piece → List ℕ
  | plain c _ => utf16 c
  | escape e => utf16 e.meaning
  | unicode a b c d => [unit a b c d]

/-- The code units a literal stands for. -/
def Literal.units (s : Literal) : List ℕ := s.flatMap Piece.units

section Characters

variable {c c' : Char} {n : ℕ}

theorem toNat_ofNat (h : n.isValidChar) : (Char.ofNat n).toNat = n := by
  rw [Char.ofNat, dif_pos h]
  rfl

/-- A character is no surrogate. -/
theorem toNat_valid (c : Char) : c.toNat < 0xD800 ∨ 0xDFFF < c.toNat ∧ c.toNat < 0x110000 :=
  c.valid

theorem HexDigit.value_lt (d : HexDigit) : d.value < 16 := by
  have h := of_decide_eq_true d.isHex
  simp only [Char.le_def, UInt32.le_iff_toNat_le] at h
  simp only [value, Char.le_def, UInt32.le_iff_toNat_le, Char.toNat]
  simp at h
  split
  · next h1 => simp at h1 ⊢; omega
  · next h1 =>
    split
    · next h2 => simp at h1 h2 ⊢; omega
    · next h2 => simp at h1 h2 ⊢; omega

theorem unit_lt (a b c d : HexDigit) : unit a b c d < 0x10000 := by
  have ha := a.value_lt
  have hb := b.value_lt
  have hc := c.value_lt
  have hd := d.value_lt
  rw [unit]
  omega

theorem utf16_basic (h : n < 0xD800 ∨ 0xDFFF < n) (hlt : n < 0x10000) :
    utf16 (Char.ofNat n) = [n] := by
  have hvalid : n.isValidChar := h.imp_right (fun hn => ⟨hn, by omega⟩)
  rw [utf16, toNat_ofNat hvalid, if_pos hlt]

theorem utf16_pair {high low : ℕ} (hhigh : isHighSurrogate high = true)
    (hlow : isLowSurrogate low = true) :
    utf16 (Char.ofNat (0x10000 + (high - 0xD800) * 0x400 + (low - 0xDC00))) = [high, low] := by
  have hh := of_decide_eq_true hhigh
  have hl := of_decide_eq_true hlow
  have hvalid : (0x10000 + (high - 0xD800) * 0x400 + (low - 0xDC00)).isValidChar :=
    Or.inr ⟨by omega, by omega⟩
  rw [utf16, toNat_ofNat hvalid, if_neg (by omega), List.cons.injEq, List.cons.injEq]
  exact ⟨by omega, by omega, rfl⟩

/-- Texts with the same code units are the same. -/
theorem utf16_injective : Function.Injective (fun t : List Char => t.flatMap utf16) := by
  have hne : ∀ c : Char, utf16 c ≠ [] := by
    intro c
    rw [utf16]
    split <;> simp
  intro t
  induction t with
  | nil =>
    intro t' h
    cases t' with
    | nil => rfl
    | cons c t' =>
      exact absurd (List.append_eq_nil_iff.mp h.symm).1 (hne c)
  | cons c t ih =>
    intro t' h
    cases t' with
    | nil => exact absurd (List.append_eq_nil_iff.mp h).1 (hne c)
    | cons c' t' =>
      have hc := toNat_valid c
      have hc' := toNat_valid c'
      have hsame : c = c' ∧ t.flatMap utf16 = t'.flatMap utf16 := by
        have h : utf16 c ++ t.flatMap utf16 = utf16 c' ++ t'.flatMap utf16 := h
        rw [utf16, utf16] at h
        split at h <;> split at h <;>
          simp only [List.cons_append, List.nil_append, List.cons.injEq] at h
        · exact ⟨Char.ext (UInt32.toNat_inj.mp h.1), h.2⟩
        · omega
        · omega
        · refine ⟨Char.ext (UInt32.toNat_inj.mp ?_), h.2.2⟩
          show c.toNat = c'.toNat
          omega
      rw [hsame.1, ih hsame.2]

end Characters

/-- A literal that stands for a text has the code units of the text. -/
theorem Literal.units_of_text? {s : Literal} {t : List Char} (h : s.text? = some t) :
    s.units = t.flatMap utf16 := by
  fun_induction Literal.text? s generalizing t with
  | case1 =>
    obtain rfl := Option.some.inj h
    rfl
  | case2 c hplain rest ih =>
    obtain ⟨t', hrest, rfl⟩ := Option.map_eq_some_iff.mp h
    exact congrArg (utf16 c ++ ·) (ih hrest)
  | case3 e rest ih =>
    obtain ⟨t', hrest, rfl⟩ := Option.map_eq_some_iff.mp h
    exact congrArg (utf16 e.meaning ++ ·) (ih hrest)
  | case4 a b c d high hhigh a' b' c' d' rest low hlow =>
    rename_i ih
    obtain ⟨t', hrest, rfl⟩ := Option.map_eq_some_iff.mp h
    rw [List.flatMap_cons, utf16_pair hhigh hlow, ← ih hrest]
    rfl
  | case5 => contradiction
  | case6 => contradiction
  | case7 => contradiction
  | case8 a b c d rest high hhigh hlow =>
    rename_i ih
    obtain ⟨t', hrest, rfl⟩ := Option.map_eq_some_iff.mp h
    have hlt : high < 0x10000 := unit_lt a b c d
    have hvalid : high < 0xD800 ∨ 0xDFFF < high := by
      simp only [isHighSurrogate, isLowSurrogate, decide_eq_true_eq] at hhigh hlow
      omega
    rw [List.flatMap_cons, utf16_basic hvalid hlt, ← ih hrest]
    rfl

end Json
