import Mathlib.Data.List.Basic

/-!
UTF-8 text as lists of bytes: encoding, and decoding that replaces each maximal part of
an ill-formed sequence by one U+FFFD.
-/
namespace Utf8

def encode (text : List Char) : List UInt8 := text.flatMap String.utf8EncodeChar

@[simp] theorem encode_nil : encode [] = [] := rfl

@[simp] theorem encode_append (s t : List Char) : encode (s ++ t) = encode s ++ encode t :=
  List.flatMap_append

theorem encode_cons (c : Char) (t : List Char) :
    encode (c :: t) = String.utf8EncodeChar c ++ encode t := rfl

theorem encodeChar_ascii {c : Char} (h : c.toNat < 0x80) :
    String.utf8EncodeChar c = [c.toUInt8] := by
  have hval : c.val ≤ 0x7F := by
    rw [UInt32.le_iff_toNat_le]
    exact Nat.lt_succ_iff.mp h
  exact String.utf8EncodeChar_eq_singleton (if_pos hval)

theorem toNat_toUInt8 {c : Char} (h : c.toNat < 0x100) : c.toUInt8.toNat = c.toNat := by
  show c.val.toUInt8.toNat = c.val.toNat
  rw [UInt32.toNat_toUInt8]
  exact Nat.mod_eq_of_lt h

/-- A byte of a character is the character itself or lies above ASCII. -/
theorem mem_encodeChar {c : Char} {b : UInt8} (h : b ∈ String.utf8EncodeChar c) :
    b.toNat = c.toNat ∨ 0x80 ≤ b.toNat := by
  by_cases hc : c.val.toNat < 0x80
  · rw [encodeChar_ascii hc, List.mem_singleton] at h
    left
    rw [h]
    exact toNat_toUInt8 (Nat.lt_trans hc (by decide))
  · right
    have hval : ¬ c.val.toNat ≤ 0x7F := by omega
    simp only [String.utf8EncodeChar, if_neg hval] at h
    split at h
    · simp only [List.mem_cons, List.not_mem_nil, or_false] at h
      rcases h with rfl | rfl <;> rw [UInt8.toNat_ofNat'] <;> omega
    · split at h <;> simp only [List.mem_cons, List.not_mem_nil, or_false] at h
      · rcases h with rfl | rfl | rfl <;> rw [UInt8.toNat_ofNat'] <;> omega
      · rcases h with rfl | rfl | rfl | rfl <;> rw [UInt8.toNat_ofNat'] <;> omega

/-- A text without control characters is encoded without control bytes. -/
theorem le_of_mem_encode {text : List Char} (h : ∀ c ∈ text, 0x20 ≤ c.toNat) {b : UInt8}
    (hb : b ∈ encode text) : 0x20 ≤ b.toNat := by
  obtain ⟨c, hc, hbyte⟩ := List.mem_flatMap.mp hb
  have hchar := h c hc
  rcases mem_encodeChar hbyte with heq | hle
  · omega
  · omega

/-- The scalar value whose encoding the bytes start with. -/
def first? (bytes : List UInt8) : Option Char := bytes.toByteArray.utf8DecodeChar? 0

theorem first?_encode (c : Char) (rest : List UInt8) :
    first? (String.utf8EncodeChar c ++ rest) = some c := by
  rw [first?, List.toByteArray_append]
  exact ByteArray.utf8DecodeChar?_utf8EncodeChar_append

def isTail (b : UInt8) : Bool := decide (0x80 ≤ b ∧ b ≤ 0xBF)

/-- Whether `b` may follow the first byte of a sequence of three or four bytes. -/
def isSecond (first b : UInt8) : Bool :=
  if first = 0xE0 then decide (0xA0 ≤ b ∧ b ≤ 0xBF)
  else if first = 0xED then decide (0x80 ≤ b ∧ b ≤ 0x9F)
  else if first = 0xF0 then decide (0x90 ≤ b ∧ b ≤ 0xBF)
  else if first = 0xF4 then decide (0x80 ≤ b ∧ b ≤ 0x8F)
  else decide (0xE1 ≤ first ∧ first ≤ 0xF3) && isTail b

/-- The length of the maximal part of an ill-formed sequence: as far as the bytes could
still have been those of some scalar value, and one byte at least. -/
def illFormed : List UInt8 → ℕ
  | first :: second :: third :: _ =>
    if isSecond first second = true then
      if 0xF0 ≤ first ∧ isTail third = true then 3 else 2
    else 1
  | [first, second] => if isSecond first second = true then 2 else 1
  | _ => 1

/-- The fuel is a bound on the number of bytes left. -/
def decodeLossy : ℕ → List UInt8 → List Char
  | 0, _ => []
  | _ + 1, [] => []
  | fuel + 1, b :: rest =>
    match first? (b :: rest) with
    | some c => c :: decodeLossy fuel ((b :: rest).drop c.utf8Size)
    | none => '\uFFFD' :: decodeLossy fuel ((b :: rest).drop (illFormed (b :: rest)))

/-- The text of the bytes, whatever they are. -/
def lossy (bytes : List UInt8) : List Char := decodeLossy bytes.length bytes

theorem decodeLossy_encode (text : List Char) (fuel : ℕ) (h : (encode text).length ≤ fuel) :
    decodeLossy fuel (encode text) = text := by
  induction text generalizing fuel with
  | nil => cases fuel <;> rfl
  | cons c rest ih =>
    have hlen := String.length_utf8EncodeChar c
    have hpos := c.utf8Size_pos
    have hfirst := first?_encode c (encode rest)
    have hdrop : (String.utf8EncodeChar c ++ encode rest).drop c.utf8Size = encode rest := by
      rw [← hlen, List.drop_left]
    rw [encode_cons] at h ⊢
    rw [List.length_append] at h
    cases fuel with
    | zero => omega
    | succ fuel =>
      cases hbytes : String.utf8EncodeChar c ++ encode rest with
      | nil =>
        have := congrArg List.length hbytes
        rw [List.length_append, List.length_nil] at this
        omega
      | cons b more =>
        rw [hbytes] at hfirst hdrop
        simp only [decodeLossy, hfirst, hdrop]
        rw [ih fuel (by omega)]

/-- Well-formed text is left as it is. -/
@[simp] theorem lossy_encode (text : List Char) : lossy (encode text) = text :=
  decodeLossy_encode text _ (Nat.le_refl _)

theorem encode_injective : Function.Injective encode :=
  Function.LeftInverse.injective lossy_encode

/-- The text of well-formed bytes only. -/
def decode? (bytes : List UInt8) : Option (List Char) :=
  if encode (lossy bytes) = bytes then some (lossy bytes) else none

@[simp] theorem decode?_encode (text : List Char) : decode? (encode text) = some text := by
  simp [decode?]

example : lossy [0xFF, 0xE2, 0x82, 0x6F, 0xC3, 0xA9] = ['\uFFFD', '\uFFFD', 'o', 'é'] := by decide

end Utf8
