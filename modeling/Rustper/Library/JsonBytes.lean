import Rustper.Library.JsonString
import Rustper.Library.Utf8

/-!
JSON string literals as bytes: where a literal is closed, which needs no decoding since
no byte above ASCII is a quote or a backslash, and a reader for the text it stands for.
-/
namespace Json

def quoteByte : UInt8 := '"'.toUInt8

def backslashByte : UInt8 := '\\'.toUInt8

/-- Where the first quote stands that no backslash escapes. The flag says whether the
byte before was such a backslash. -/
def closingQuote : Bool → List UInt8 → Option ℕ
  | _, [] => none
  | true, _ :: rest => (closingQuote false rest).map (· + 1)
  | false, b :: rest =>
    if b = quoteByte then some 0
    else (closingQuote (decide (b = backslashByte)) rest).map (· + 1)

/-- Reads the text of a literal off the front of UTF-8 bytes, and gives back the text
behind it. -/
def readString (bytes : List UInt8) : Option (List Char × List Char) := do
  let text ← Utf8.decode? bytes
  let (s, rest) ← scanLiteral text
  let value ← s.text?
  some (value, rest)

theorem readString_lexeme {s : Literal} {value : List Char} (h : s.text? = some value)
    (rest : List Char) : readString (Utf8.encode s.lexeme ++ Utf8.encode rest) =
      some (value, rest) := by
  rw [readString, ← Utf8.encode_append, Utf8.decode?_encode]
  simp [h]

section ClosingQuote

variable {bytes rest : List UInt8}

theorem closingQuote_plain (h : ∀ b ∈ bytes, b ≠ quoteByte ∧ b ≠ backslashByte) :
    closingQuote false (bytes ++ rest) =
      (closingQuote false rest).map (· + bytes.length) := by
  induction bytes with
  | nil => exact Option.map_id'.symm
  | cons b bytes ih =>
    obtain ⟨hquote, hbackslash⟩ := h b List.mem_cons_self
    have hrest := ih fun b hb => h b (List.mem_cons_of_mem _ hb)
    rw [List.cons_append, closingQuote, if_neg hquote, decide_eq_false hbackslash, hrest,
      Option.map_map]
    rfl

theorem closingQuote_escaped (b : UInt8) : closingQuote false (backslashByte :: b :: rest) =
    (closingQuote false rest).map (· + 2) := by
  rw [closingQuote, if_neg (by decide), decide_eq_true rfl, closingQuote, Option.map_map]
  rfl

theorem byte_ne_of_char_ne {c d : Char} (hd : d.toNat < 0x80) (h : c ≠ d) {b : UInt8}
    (hb : b ∈ String.utf8EncodeChar c) : b ≠ d.toUInt8 := by
  have hvalue : d.toUInt8.toNat = d.toNat := Utf8.toNat_toUInt8 (by omega)
  intro heq
  rcases Utf8.mem_encodeChar hb with hchar | hhigh
  · rw [heq, hvalue] at hchar
    exact h (Char.ext (UInt32.toNat_inj.mp hchar.symm))
  · rw [heq, hvalue] at hhigh
    omega

theorem encode_plain {text : List Char} (h : ∀ c ∈ text, c ≠ '"' ∧ c ≠ '\\') :
    ∀ b ∈ Utf8.encode text, b ≠ quoteByte ∧ b ≠ backslashByte := by
  intro b hb
  obtain ⟨c, hc, hbyte⟩ := List.mem_flatMap.mp hb
  obtain ⟨hquote, hbackslash⟩ := h c hc
  exact ⟨byte_ne_of_char_ne (by decide) hquote hbyte,
    byte_ne_of_char_ne (by decide) hbackslash hbyte⟩

theorem HexDigit.not_special (d : HexDigit) : d.char ≠ '"' ∧ d.char ≠ '\\' := by
  have hdigit := d.isHex
  constructor
  · intro h
    rw [h] at hdigit
    contradiction
  · intro h
    rw [h] at hdigit
    contradiction

theorem Escape.encode_letter (e : Escape) : Utf8.encode [e.letter] = [e.letter.toUInt8] := by
  cases e <;> rfl

/-- No piece of a literal closes it. -/
theorem closingQuote_piece (p : Piece) : closingQuote false (Utf8.encode p.lexeme ++ rest) =
    (closingQuote false rest).map (· + (Utf8.encode p.lexeme).length) := by
  cases p with
  | plain c h =>
    apply closingQuote_plain
    apply encode_plain
    intro d hd
    rw [List.mem_singleton.mp hd]
    exact (of_decide_eq_true h).2
  | escape e =>
    have hbytes : Utf8.encode (Piece.escape e).lexeme = [backslashByte, e.letter.toUInt8] := by
      rw [Piece.lexeme, Utf8.encode_cons, e.encode_letter]
      rfl
    rw [hbytes]
    exact closingQuote_escaped _
  | unicode a b c d =>
    have hbytes : Utf8.encode (Piece.unicode a b c d).lexeme =
        backslashByte :: 'u'.toUInt8 :: Utf8.encode [a.char, b.char, c.char, d.char] := rfl
    have hdigits : ∀ x ∈ [a.char, b.char, c.char, d.char], x ≠ '"' ∧ x ≠ '\\' := by
      simp [a.not_special, b.not_special, c.not_special, d.not_special]
    rw [hbytes, List.cons_append, List.cons_append, closingQuote_escaped,
      closingQuote_plain (encode_plain hdigits), Option.map_map]
    rfl

theorem closingQuote_body (s : Literal) : closingQuote false (Utf8.encode s.body ++ rest) =
    (closingQuote false rest).map (· + (Utf8.encode s.body).length) := by
  induction s with
  | nil => exact Option.map_id'.symm
  | cons p s ih =>
    rw [Literal.body_cons, Utf8.encode_append, List.append_assoc, closingQuote_piece, ih,
      Option.map_map, List.length_append]
    congr 1
    funext n
    simp only [Function.comp_apply]
    omega

/-- Behind its opening quote, a literal is closed by its last byte and no earlier. -/
theorem closingQuote_lexeme (s : Literal) (rest : List UInt8) :
    closingQuote false ((Utf8.encode s.lexeme).tail ++ rest) =
      some ((Utf8.encode s.lexeme).length - 2) := by
  have hbytes : Utf8.encode s.lexeme = quoteByte :: (Utf8.encode s.body ++ [quoteByte]) := by
    rw [Literal.lexeme, Utf8.encode_cons, Utf8.encode_append]
    rfl
  rw [hbytes, List.tail_cons, List.append_assoc, closingQuote_body]
  simp [closingQuote]

end ClosingQuote

end Json
