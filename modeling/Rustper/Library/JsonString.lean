import Mathlib.Data.List.Basic

/-!
JSON string literals: their spelling, the text they stand for, and a scanner that reads
one off the front of a text. A lone surrogate is well formed and stands for no text.
-/
namespace Json

/-- The escapes of one letter. -/
inductive Escape
  | quote | backslash | slash | backspace | formFeed | newline | carriageReturn | tab
deriving DecidableEq, Repr

namespace Escape

def letter : Escape → Char
  | quote => '"'
  | backslash => '\\'
  | slash => '/'
  | backspace => 'b'
  | formFeed => 'f'
  | newline => 'n'
  | carriageReturn => 'r'
  | tab => 't'

def meaning : Escape → Char
  | quote => '"'
  | backslash => '\\'
  | slash => '/'
  | backspace => '\x08'
  | formFeed => '\x0C'
  | newline => '\n'
  | carriageReturn => '\r'
  | tab => '\t'

def ofLetter? (c : Char) : Option Escape :=
  [quote, backslash, slash, backspace, formFeed, newline, carriageReturn, tab].find?
    (fun e => e.letter = c)

@[simp] theorem ofLetter?_letter (e : Escape) : ofLetter? e.letter = some e := by
  cases e <;> decide

theorem letter_ne_u (e : Escape) : e.letter ≠ 'u' := by
  cases e <;> decide

end Escape

def isHexDigit (c : Char) : Bool :=
  decide (('0' ≤ c ∧ c ≤ '9') ∨ ('a' ≤ c ∧ c ≤ 'f') ∨ ('A' ≤ c ∧ c ≤ 'F'))

structure HexDigit where
  char : Char
  isHex : isHexDigit char = true
deriving DecidableEq, Repr

def HexDigit.value (d : HexDigit) : ℕ :=
  if d.char ≤ '9' then d.char.toNat - '0'.toNat
  else if d.char ≤ 'F' then d.char.toNat - 'A'.toNat + 10
  else d.char.toNat - 'a'.toNat + 10

def HexDigit.ofNat (n : ℕ) (h : n < 16) : HexDigit :=
  ⟨Nat.digitChar n, by revert n; decide⟩

@[simp] theorem HexDigit.value_ofNat (n : ℕ) (h : n < 16) : (ofNat n h).value = n := by
  revert n
  decide

/-- What may stand in a literal without an escape. -/
def isPlain (c : Char) : Bool := decide (0x20 ≤ c.toNat ∧ c ≠ '"' ∧ c ≠ '\\')

inductive Piece
  | plain (c : Char) (h : isPlain c = true)
  | escape (e : Escape)
  | unicode (a b c d : HexDigit)
deriving DecidableEq, Repr

/-- What stands between the quotes. -/
abbrev Literal := List Piece

def Piece.lexeme : Piece → List Char
  | plain c _ => [c]
  | escape e => ['\\', e.letter]
  | unicode a b c d => ['\\', 'u', a.char, b.char, c.char, d.char]

theorem HexDigit.printable (d : HexDigit) : 0x20 ≤ d.char.toNat := by
  have hle : ∀ c : Char, c ≤ d.char → c.toNat ≤ d.char.toNat := fun c h => h
  rcases of_decide_eq_true d.isHex with h | h | h
  · exact Nat.le_trans (by decide) (hle _ h.1)
  · exact Nat.le_trans (by decide) (hle _ h.1)
  · exact Nat.le_trans (by decide) (hle _ h.1)

theorem Piece.lexeme_printable (p : Piece) : ∀ c ∈ p.lexeme, 0x20 ≤ c.toNat := by
  cases p with
  | plain c h => simpa [lexeme] using (of_decide_eq_true h).1
  | escape e => cases e <;> simp [lexeme, Escape.letter]
  | unicode a b c d => simp [lexeme, a.printable, b.printable, c.printable, d.printable]

namespace Literal

def body (s : Literal) : List Char := s.flatMap Piece.lexeme

def lexeme (s : Literal) : List Char := '"' :: (s.body ++ ['"'])

@[simp] theorem body_nil : body [] = [] := rfl

@[simp] theorem body_cons (p : Piece) (s : Literal) : body (p :: s) = p.lexeme ++ body s := rfl

end Literal

/-- No control character stands in a literal. -/
theorem Literal.lexeme_printable (s : Literal) : ∀ c ∈ s.lexeme, 0x20 ≤ c.toNat := by
  intro c hc
  simp only [lexeme, List.mem_cons, List.mem_append, List.not_mem_nil, or_false, body,
    List.mem_flatMap] at hc
  rcases hc with rfl | ⟨p, -, hp⟩ | rfl
  · decide
  · exact p.lexeme_printable c hp
  · decide

def unit (a b c d : HexDigit) : ℕ :=
  ((a.value * 16 + b.value) * 16 + c.value) * 16 + d.value

def isHighSurrogate (u : ℕ) : Bool := decide (0xD800 ≤ u ∧ u ≤ 0xDBFF)

def isLowSurrogate (u : ℕ) : Bool := decide (0xDC00 ≤ u ∧ u ≤ 0xDFFF)

/-- The text a literal stands for, with surrogate pairs combined. -/
def Literal.text? : Literal → Option (List Char)
  | [] => some []
  | .plain c _ :: rest => (text? rest).map (c :: ·)
  | .escape e :: rest => (text? rest).map (e.meaning :: ·)
  | .unicode a b c d :: rest =>
    let high := unit a b c d
    if isHighSurrogate high = true then
      match rest with
      | .unicode a' b' c' d' :: rest' =>
        let low := unit a' b' c' d'
        if isLowSurrogate low = true then
          (text? rest').map
            (Char.ofNat (0x10000 + (high - 0xD800) * 0x400 + (low - 0xDC00)) :: ·)
        else none
      | _ => none
    else if isLowSurrogate high = true then none
    else (text? rest).map (Char.ofNat high :: ·)

theorem Literal.text?_unicode {a b c d : HexDigit} (rest : Literal)
    (hhigh : isHighSurrogate (unit a b c d) = false)
    (hlow : isLowSurrogate (unit a b c d) = false) :
    text? (.unicode a b c d :: rest) =
      (text? rest).map (Char.ofNat (unit a b c d) :: ·) := by
  rw [text?.eq_def]
  simp only [hhigh, hlow, Bool.false_eq_true, if_false]

def scanPiece : List Char → Option (Piece × List Char)
  | '\\' :: 'u' :: a :: b :: c :: d :: rest =>
    if h : isHexDigit a = true ∧ isHexDigit b = true ∧ isHexDigit c = true ∧
        isHexDigit d = true then
      some (.unicode ⟨a, h.1⟩ ⟨b, h.2.1⟩ ⟨c, h.2.2.1⟩ ⟨d, h.2.2.2⟩, rest)
    else none
  | '\\' :: e :: rest => (Escape.ofLetter? e).map fun e => (.escape e, rest)
  | c :: rest => if h : isPlain c = true then some (.plain c h, rest) else none
  | [] => none

/-- Reads pieces up to the closing quote. The fuel is a bound on their number. -/
def scanPieces : ℕ → List Char → Option (Literal × List Char)
  | 0, _ => none
  | fuel + 1, s =>
    if s.head? = some '"' then some ([], s.tail)
    else do
      let (p, rest) ← scanPiece s
      let (ps, left) ← scanPieces fuel rest
      some (p :: ps, left)

def scanLiteral : List Char → Option (Literal × List Char)
  | '"' :: rest => scanPieces rest.length rest
  | _ => none

theorem scanPiece_lexeme (p : Piece) (rest : List Char) :
    scanPiece (p.lexeme ++ rest) = some (p, rest) := by
  cases p with
  | plain c h =>
    have hc : c ≠ '"' ∧ c ≠ '\\' := (of_decide_eq_true h).2
    simp [Piece.lexeme, scanPiece, hc.2, h]
  | escape e =>
    have hu := e.letter_ne_u
    simp [Piece.lexeme, scanPiece, hu]
  | unicode a b c d =>
    simp [Piece.lexeme, scanPiece, a.isHex, b.isHex, c.isHex, d.isHex]

theorem lexeme_head_ne_quote (p : Piece) (rest : List Char) :
    (p.lexeme ++ rest).head? ≠ some '"' := by
  cases p with
  | plain c h =>
    have hc : c ≠ '"' ∧ c ≠ '\\' := (of_decide_eq_true h).2
    simpa [Piece.lexeme] using hc.1
  | escape e => simp [Piece.lexeme]
  | unicode a b c d => simp [Piece.lexeme]

theorem scanPieces_body (s : Literal) (rest : List Char) (fuel : ℕ) (h : s.length < fuel) :
    scanPieces fuel (s.body ++ '"' :: rest) = some (s, rest) := by
  induction s generalizing fuel with
  | nil =>
    cases fuel with
    | zero => contradiction
    | succ fuel => rfl
  | cons p s ih =>
    cases fuel with
    | zero => contradiction
    | succ fuel =>
      have hs : s.length < fuel := by simpa using h
      have hhead := lexeme_head_ne_quote p (Literal.body s ++ '"' :: rest)
      rw [Literal.body_cons, List.append_assoc, scanPieces, if_neg hhead, scanPiece_lexeme]
      simp only [Option.bind_eq_bind, Option.bind_some, ih fuel hs]

theorem length_le_body (s : Literal) : s.length ≤ s.body.length := by
  induction s with
  | nil => exact Nat.le_refl _
  | cons p s ih =>
    have hp : 1 ≤ p.lexeme.length := by cases p <;> simp [Piece.lexeme]
    rw [Literal.body_cons, List.length_append, List.length_cons]
    omega

/-- The scanner takes the whole of a literal and leaves what follows. -/
@[simp] theorem scanLiteral_lexeme (s : Literal) (rest : List Char) :
    scanLiteral (s.lexeme ++ rest) = some (s, rest) := by
  have hlen := length_le_body s
  have h := scanPieces_body s rest (s.body ++ '"' :: rest).length (by simp; omega)
  simpa [Literal.lexeme, scanLiteral] using h

end Json
