import Rustper.Library.JsonNumber
import Rustper.Library.JsonString

/-!
JSON texts: values, and the grammar that says which texts stand for a value. An object
keeps its members in order and may repeat a name.
-/
namespace Json

inductive Value
  | null
  | bool (b : Bool)
  | number (n : Number)
  | string (s : Literal)
  | array (values : List Value)
  | object (members : List (Literal × Value))

abbrev Member := Literal × Value

/-- Insignificant whitespace. -/
def isSpace (c : Char) : Bool := decide (c = ' ' ∨ c = '\t' ∨ c = '\n' ∨ c = '\r')

def Spaces (w : List Char) : Prop := ∀ c ∈ w, isSpace c = true

instance (w : List Char) : Decidable (Spaces w) :=
  decidable_of_iff (w.all isSpace = true) List.all_eq_true

theorem Spaces.nil : Spaces [] := by decide

/-- What a stretch of text may stand for. An element is a value with the whitespace
around it. -/
inductive Phrase
  | value (v : Value)
  | element (v : Value)
  | elements (values : List Value)
  | member (m : Member)
  | members (members : List Member)

inductive Derives : Phrase → List Char → Prop
  | null : Derives (.value .null) ['n', 'u', 'l', 'l']
  | yes : Derives (.value (.bool true)) ['t', 'r', 'u', 'e']
  | no : Derives (.value (.bool false)) ['f', 'a', 'l', 's', 'e']
  | number (n : Number) : Derives (.value (.number n)) n.val.lexeme
  | string (s : Literal) : Derives (.value (.string s)) s.lexeme
  | emptyArray {w} (hw : Spaces w) : Derives (.value (.array [])) ('[' :: (w ++ [']']))
  | array {vs t} (h : Derives (.elements vs) t) :
    Derives (.value (.array vs)) ('[' :: (t ++ [']']))
  | emptyObject {w} (hw : Spaces w) : Derives (.value (.object [])) ('{' :: (w ++ ['}']))
  | object {ms t} (h : Derives (.members ms) t) :
    Derives (.value (.object ms)) ('{' :: (t ++ ['}']))
  | element {v t w w'} (hw : Spaces w) (h : Derives (.value v) t) (hw' : Spaces w') :
    Derives (.element v) (w ++ t ++ w')
  | lastElement {v t} (h : Derives (.element v) t) : Derives (.elements [v]) t
  | nextElement {v vs t u} (h : Derives (.element v) t) (hrest : Derives (.elements vs) u) :
    Derives (.elements (v :: vs)) (t ++ ',' :: u)
  | member {s v t w w'} (hw : Spaces w) (hw' : Spaces w') (h : Derives (.element v) t) :
    Derives (.member (s, v)) (w ++ (Literal.lexeme s ++ w' ++ ':' :: t))
  | lastMember {m t} (h : Derives (.member m) t) : Derives (.members [m]) t
  | nextMember {m ms t u} (h : Derives (.member m) t) (hrest : Derives (.members ms) u) :
    Derives (.members (m :: ms)) (t ++ ',' :: u)

/-- A JSON text is one value with whitespace around it. -/
def IsText (v : Value) (text : List Char) : Prop := Derives (.element v) text

section Trim

/-- Whether `c` is visible ASCII, so no whitespace of any kind and one byte long. -/
def isGraphic (c : Char) : Bool := decide (0x21 ≤ c.toNat ∧ c.toNat ≤ 0x7E)

/-- No whitespace stands at either end. -/
def Tight (t : List Char) : Prop :=
  (∃ c, t.head? = some c ∧ isGraphic c = true) ∧ ∃ c, t.getLast? = some c ∧ isGraphic c = true

theorem tight_of_all {t : List Char} (hne : t ≠ []) (h : t.all isGraphic = true) : Tight t := by
  rw [List.all_eq_true] at h
  exact ⟨⟨t.head hne, List.head?_eq_some_head hne, h _ (List.head_mem hne)⟩,
    ⟨t.getLast hne, List.getLast?_eq_some_getLast hne, h _ (List.getLast_mem hne)⟩⟩

theorem tight_between {c d : Char} (t : List Char) (hc : isGraphic c = true)
    (hd : isGraphic d = true) : Tight (c :: (t ++ [d])) :=
  ⟨⟨c, rfl, hc⟩, ⟨d, by rw [← List.cons_append, List.getLast?_concat], hd⟩⟩

theorem isGraphic_digit {c : Char} (h : c.isDigit = true) : isGraphic c = true := by
  simp only [Char.isDigit, Bool.and_eq_true, decide_eq_true_eq, ge_iff_le,
    UInt32.le_iff_toNat_le] at h
  have hlow : '0'.val.toNat = 48 := rfl
  have hhigh : '9'.val.toNat = 57 := rfl
  have : 0x21 ≤ c.toNat ∧ c.toNat ≤ 0x7E := by
    show 0x21 ≤ c.val.toNat ∧ c.val.toNat ≤ 0x7E
    omega
  exact decide_eq_true this

theorem isGraphic_digits {digits : List Char} (h : Digits digits) :
    digits.all isGraphic = true :=
  List.all_eq_true.mpr fun c hc => isGraphic_digit (h.2 c hc)

theorem isGraphic_number (n : Number) : n.val.lexeme.all isGraphic = true := by
  have hminus : ∀ b, (if b = true then ['-'] else []).all isGraphic = true := by decide
  have hmark : ∀ b, isGraphic (if b = true then 'E' else 'e') = true := by decide
  have hsign : ∀ sign : ExponentSign, sign.lexeme.all isGraphic = true := by
    intro sign
    cases sign <;> decide
  obtain ⟨⟨negative, whole, fraction, exponent⟩, hwhole, -, hfraction, hexponent⟩ := n
  simp only [Numeral.lexeme, List.all_append, Bool.and_eq_true]
  refine ⟨⟨⟨hminus negative, isGraphic_digits hwhole⟩, ?_⟩, ?_⟩
  · cases fraction with
    | none => rfl
    | some digits =>
      rw [Option.elim_some, List.all_cons, isGraphic_digits (hfraction digits rfl)]
      decide
  · cases exponent with
    | none => rfl
    | some e =>
      obtain ⟨capital, sign, digits⟩ := e
      rw [Option.elim_some, Exponent.lexeme, List.all_cons, List.all_append, hmark capital,
        hsign sign, isGraphic_digits (hexponent _ rfl)]
      rfl

theorem number_ne_nil (n : Number) : n.val.lexeme ≠ [] := by
  have hwhole := n.property.1.1
  simp [Numeral.lexeme, hwhole]

theorem tight_literal (s : Literal) : Tight s.lexeme :=
  tight_between _ (by decide) (by decide)

/-- A value starts and ends with visible characters. -/
theorem Derives.tight {v : Value} {t : List Char} (h : Derives (.value v) t) : Tight t := by
  cases h with
  | null => exact tight_of_all (by simp) (by decide)
  | yes => exact tight_of_all (by simp) (by decide)
  | no => exact tight_of_all (by simp) (by decide)
  | number n => exact tight_of_all (number_ne_nil n) (isGraphic_number n)
  | string s => exact tight_literal s
  | emptyArray => exact tight_between _ (by decide) (by decide)
  | array => exact tight_between _ (by decide) (by decide)
  | emptyObject => exact tight_between _ (by decide) (by decide)
  | object => exact tight_between _ (by decide) (by decide)

end Trim

section Members

variable {ms : List Member} {t u : List Char}

/-- Members side by side, with a comma between. -/
theorem Derives.members_append {ns : List Member} (h : Derives (.members ms) t)
    (h' : Derives (.members ns) u) : Derives (.members (ms ++ ns)) (t ++ ',' :: u) := by
  induction ms generalizing t with
  | nil => cases h
  | cons m ms ih =>
    cases h with
    | lastMember hm => exact .nextMember hm h'
    | nextMember hm hrest =>
      rw [List.append_assoc, List.cons_append]
      exact .nextMember hm (ih hrest)

theorem Derives.member_trim {m : Member} (h : Derives (.member m) t) :
    ∃ w t', t = w ++ t' ∧ Spaces w ∧ Derives (.member m) t' ∧ t'.head? = some '"' := by
  cases h with
  | member hw hw' h => exact ⟨_, _, rfl, hw, .member (w := []) .nil hw' h, rfl⟩

/-- Members without the whitespace before the first one. -/
theorem Derives.trim_left (h : Derives (.members ms) t) :
    ∃ w t', t = w ++ t' ∧ Spaces w ∧ Derives (.members ms) t' ∧ t'.head? = some '"' := by
  cases h with
  | lastMember hm =>
    obtain ⟨w, t', rfl, hw, hm', hhead⟩ := hm.member_trim
    exact ⟨w, t', rfl, hw, .lastMember hm', hhead⟩
  | nextMember hm hrest =>
    obtain ⟨w, t', rfl, hw, hm', hhead⟩ := hm.member_trim
    refine ⟨w, _, List.append_assoc .., hw, .nextMember hm' hrest, ?_⟩
    rw [List.head?_append, hhead]
    rfl

theorem Derives.element_trim {v : Value} (h : Derives (.element v) t) :
    ∃ t' w, t = t' ++ w ∧ Spaces w ∧ Derives (.element v) t' ∧
      ∃ c, t'.getLast? = some c ∧ isGraphic c = true := by
  cases h with
  | element hw h hw' =>
    obtain ⟨c, hc, hgraphic⟩ := h.tight.2
    have helement := Derives.element hw h .nil
    rw [List.append_nil] at helement
    exact ⟨_, _, rfl, hw', helement, c, by rw [List.getLast?_append, hc]; rfl, hgraphic⟩

theorem Derives.member_trim_right {m : Member} (h : Derives (.member m) t) :
    ∃ t' w, t = t' ++ w ∧ Spaces w ∧ Derives (.member m) t' ∧
      ∃ c, t'.getLast? = some c ∧ isGraphic c = true := by
  cases h with
  | member hw hw' h =>
    obtain ⟨t', w'', rfl, hw'', h', c, hc, hgraphic⟩ := h.element_trim
    refine ⟨_, w'', by simp, hw'', .member hw hw' h', c, ?_, hgraphic⟩
    simp [List.getLast?_cons, hc]

/-- Members without the whitespace after the last one. -/
theorem Derives.trim_right (h : Derives (.members ms) t) :
    ∃ t' w, t = t' ++ w ∧ Spaces w ∧ Derives (.members ms) t' ∧
      ∃ c, t'.getLast? = some c ∧ isGraphic c = true := by
  induction ms generalizing t with
  | nil => cases h
  | cons m ms ih =>
    cases h with
    | lastMember hm =>
      obtain ⟨t', w, rfl, hw, hm', hlast⟩ := hm.member_trim_right
      exact ⟨t', w, rfl, hw, .lastMember hm', hlast⟩
    | nextMember hm hrest =>
      obtain ⟨u', w, rfl, hw, hrest', c, hc, hgraphic⟩ := ih hrest
      refine ⟨_, w, by simp, hw, .nextMember hm hrest', c, ?_, hgraphic⟩
      simp [List.getLast?_cons, hc]

/-- Members without the whitespace around them. -/
theorem Derives.trim (h : Derives (.members ms) t) :
    ∃ w t' w', t = w ++ t' ++ w' ∧ Spaces w ∧ Spaces w' ∧ Derives (.members ms) t' ∧
      Tight t' := by
  obtain ⟨t₁, w', rfl, hw', h₁, c, hc, hgraphic⟩ := h.trim_right
  obtain ⟨w, t', rfl, hw, h', hhead⟩ := h₁.trim_left
  have hne : t' ≠ [] := by
    intro hnil
    rw [hnil] at hhead
    contradiction
  have hlast : t'.getLast? = some c := by
    rw [List.getLast?_append, List.getLast?_eq_some_getLast hne, Option.some_or,
      ← List.getLast?_eq_some_getLast hne] at hc
    exact hc
  exact ⟨w, t', w', rfl, hw, hw', h', ⟨'"', hhead, by decide⟩, c, hlast, hgraphic⟩

end Members

section Start

variable {v : Value} {t : List Char}

/-- The characters a value of each kind starts with. -/
def Value.StartsWith : Value → Char → Prop
  | .null, c => c = 'n'
  | .bool b, c => c = if b then 't' else 'f'
  | .number _, c => c = '-' ∨ c.isDigit = true
  | .string _, c => c = '"'
  | .array _, c => c = '['
  | .object _, c => c = '{'

theorem Derives.start (h : Derives (.value v) t) : ∃ c, t.head? = some c ∧ v.StartsWith c := by
  cases h with
  | number n =>
    obtain ⟨c, hc, -⟩ := (Derives.number n).tight.1
    exact ⟨c, hc, head_number n [] c (by rw [List.append_nil]; exact hc)⟩
  | null | yes | no | string | emptyArray | array | emptyObject | object => exact ⟨_, rfl, rfl⟩

theorem Value.object_of_startsWith (h : v.StartsWith '{') : ∃ ms, v = .object ms := by
  cases v with
  | object ms => exact ⟨ms, rfl⟩
  | bool b => cases b <;> simp [StartsWith] at h
  | null | number | string | array => simp [StartsWith, Char.isDigit] at h

theorem Value.not_startsWith_bracket (v : Value) : ¬ v.StartsWith ']' := by
  intro h
  cases v with
  | bool b => cases b <;> simp [StartsWith] at h
  | null | number | string | array | object => simp [StartsWith, Char.isDigit] at h

/-- Only an object starts with a brace. -/
theorem Derives.head_ne_brace (h : Derives (.value v) t) (hv : ∀ ms, v ≠ .object ms) :
    t.head? ≠ some '{' := by
  obtain ⟨c, hc, hstart⟩ := h.start
  rw [hc]
  intro hbrace
  rw [Option.some.inj hbrace] at hstart
  obtain ⟨ms, hms⟩ := Value.object_of_startsWith hstart
  exact hv ms hms

theorem Derives.head_ne_bracket (h : Derives (.value v) t) : t.head? ≠ some ']' := by
  obtain ⟨c, hc, hstart⟩ := h.start
  rw [hc]
  intro hbracket
  rw [Option.some.inj hbracket] at hstart
  exact v.not_startsWith_bracket hstart

end Start

end Json
