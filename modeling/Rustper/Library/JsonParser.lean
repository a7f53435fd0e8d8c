import Rustper.Library.Json

/-!
A parser for JSON texts. It accepts every text the grammar derives, with the value the
text was derived for, and so no text stands for two values.
-/
namespace Json

def skip (s : List Char) : List Char := s.dropWhile isSpace

/-- One or more items with commas between, up to the closing bracket. -/
def parseRow {α : Type} (item : List Char → Option (α × List Char)) (close : Char) :
    ℕ → List Char → Option (List α × List Char)
  | 0, _ => none
  | fuel + 1, s => do
    let (a, rest) ← item s
    if rest.head? = some ',' then
      let (as, left) ← parseRow item close fuel rest.tail
      some (a :: as, left)
    else if rest.head? = some close then some ([a], rest.tail)
    else none

def parseElement (value : List Char → Option (Value × List Char)) (s : List Char) :
    Option (Value × List Char) := do
  let (v, rest) ← value (skip s)
  some (v, skip rest)

def parseMember (value : List Char → Option (Value × List Char)) (s : List Char) :
    Option (Member × List Char) := do
  let (name, rest) ← scanLiteral (skip s)
  if (skip rest).head? = some ':' then
    let (v, left) ← parseElement value (skip rest).tail
    some ((name, v), left)
  else none

/-- The fuel is a bound on the length of the value's text. -/
def parseValue : ℕ → List Char → Option (Value × List Char)
  | 0, _ => none
  | fuel + 1, s =>
    match s with
    | 'n' :: 'u' :: 'l' :: 'l' :: rest => some (.null, rest)
    | 't' :: 'r' :: 'u' :: 'e' :: rest => some (.bool true, rest)
    | 'f' :: 'a' :: 'l' :: 's' :: 'e' :: rest => some (.bool false, rest)
    | '"' :: _ => (scanLiteral s).map fun (l, rest) => (.string l, rest)
    | '[' :: rest =>
      if (skip rest).head? = some ']' then some (.array [], (skip rest).tail)
      else
        (parseRow (parseElement (parseValue fuel)) ']' fuel rest).map
          fun (vs, left) => (.array vs, left)
    | '{' :: rest =>
      if (skip rest).head? = some '}' then some (.object [], (skip rest).tail)
      else
        (parseRow (parseMember (parseValue fuel)) '}' fuel rest).map
          fun (ms, left) => (.object ms, left)
    | s => (scanNumber s).map fun (n, rest) => (.number n, rest)

def parse (text : List Char) : Option Value :=
  match parseElement (parseValue text.length) text with
  | some (v, []) => some v
  | _ => none

section Follow

variable {w rest : List Char}

/-- What may follow an element. -/
def Stops (rest : List Char) : Prop := ∀ c ∈ rest.head?, c = ',' ∨ c = ']' ∨ c = '}'

/-- What may follow a value. -/
def Follows (rest : List Char) : Prop :=
  ∀ c ∈ rest.head?, isSpace c = true ∨ c = ',' ∨ c = ']' ∨ c = '}'

theorem Stops.follows (h : Stops rest) (hw : Spaces w) : Follows (w ++ rest) := by
  intro c hc
  cases w with
  | nil => exact Or.inr (h c hc)
  | cons d w =>
    cases hc
    exact Or.inl (hw c List.mem_cons_self)

theorem Follows.endsNumber (h : Follows rest) : EndsNumber rest := by
  intro c hc
  rcases h c hc with hspace | rfl | rfl | rfl
  · simp only [isSpace, decide_eq_true_eq] at hspace
    rcases hspace with rfl | rfl | rfl | rfl <;> decide
  · decide
  · decide
  · decide

theorem skip_append (hw : Spaces w) (h : ∀ c ∈ rest.head?, isSpace c = false) :
    skip (w ++ rest) = rest := by
  rw [skip, List.dropWhile_append_of_pos hw]
  cases rest with
  | nil => rfl
  | cons c rest => simp [h c rfl]

theorem Stops.skip (h : Stops rest) (hw : Spaces w) : skip (w ++ rest) = rest := by
  refine skip_append hw fun c hc => ?_
  rcases h c hc with rfl | rfl | rfl <;> decide

theorem isSpace_graphic {c : Char} (h : isGraphic c = true) : isSpace c = false := by
  by_contra hspace
  simp only [isSpace, Bool.not_eq_false, decide_eq_true_eq] at hspace
  rcases hspace with rfl | rfl | rfl | rfl <;> contradiction

theorem Tight.skip {t : List Char} (h : Tight t) (hw : Spaces w) (rest : List Char) :
    skip (w ++ (t ++ rest)) = t ++ rest := by
  obtain ⟨c, hc, hgraphic⟩ := h.1
  refine skip_append hw fun d hd => ?_
  rw [List.head?_append, hc, Option.some_or] at hd
  cases hd
  exact isSpace_graphic hgraphic

end Follow

section Complete

/-- What completeness says of each kind of phrase. -/
def Parsed : Phrase → List Char → Prop
  | .value v, t => ∀ fuel rest, t.length ≤ fuel + 1 → Follows rest →
    parseValue (fuel + 1) (t ++ rest) = some (v, rest)
  | .element v, t => ∀ fuel rest, t.length ≤ fuel → Stops rest →
    parseElement (parseValue fuel) (t ++ rest) = some (v, rest)
  | .elements vs, t => ∀ fuel n rest, t.length ≤ fuel → t.length ≤ n →
    parseRow (parseElement (parseValue fuel)) ']' n (t ++ ']' :: rest) = some (vs, rest)
  | .member m, t => ∀ fuel rest, t.length ≤ fuel → Stops rest →
    parseMember (parseValue fuel) (t ++ rest) = some (m, rest)
  | .members ms, t => ∀ fuel n rest, t.length ≤ fuel → t.length ≤ n →
    parseRow (parseMember (parseValue fuel)) '}' n (t ++ '}' :: rest) = some (ms, rest)

section Row

variable {α : Type} {item : List Char → Option (α × List Char)} {close : Char}

theorem parseRow_last {a : α} {s rest : List Char} {n : ℕ} (hn : 0 < n) (hclose : close ≠ ',')
    (h : item s = some (a, close :: rest)) : parseRow item close n s = some ([a], rest) := by
  obtain ⟨m, rfl⟩ := Nat.exists_eq_add_one.mpr hn
  simp [parseRow, h, hclose]

theorem parseRow_next {a : α} {as : List α} {s rest left : List Char} {n : ℕ} (hn : 0 < n)
    (h : item s = some (a, ',' :: rest))
    (hrest : parseRow item close (n - 1) rest = some (as, left)) :
    parseRow item close n s = some (a :: as, left) := by
  obtain ⟨m, rfl⟩ := Nat.exists_eq_add_one.mpr hn
  rw [Nat.add_sub_cancel] at hrest
  simp [parseRow, h, hrest]

end Row

theorem parseValue_number {c : Char} {s : List Char} {fuel : ℕ}
    (h : c = '-' ∨ c.isDigit = true) :
    parseValue (fuel + 1) (c :: s) =
      (scanNumber (c :: s)).map fun (n, rest) => (.number n, rest) := by
  have hne : c ≠ 'n' ∧ c ≠ 't' ∧ c ≠ 'f' ∧ c ≠ '"' ∧ c ≠ '[' ∧ c ≠ '{' := by
    refine ⟨?_, ?_, ?_, ?_, ?_, ?_⟩ <;> (rintro rfl; rcases h with h | h <;> contradiction)
  obtain ⟨hn, ht, hf, hs, ha, ho⟩ := hne
  simp [parseValue, hn, ht, hf, hs, ha, ho]

theorem Derives.value_ne_nil {v : Value} {t : List Char} (h : Derives (.value v) t) :
    t ≠ [] := by
  intro hnil
  obtain ⟨c, hc, -⟩ := h.start
  rw [hnil] at hc
  contradiction

theorem Derives.element_pos {v : Value} {t : List Char} (h : Derives (.element v) t) :
    0 < t.length := by
  cases h with
  | element hw hv hw' =>
    have := List.length_pos_iff.mpr hv.value_ne_nil
    simp only [List.length_append]
    omega

theorem Derives.member_pos {m : Member} {t : List Char} (h : Derives (.member m) t) :
    0 < t.length := by
  cases h with
  | member => simp [Literal.lexeme]

theorem Derives.members_ne_nil {ms : List Member} {t : List Char}
    (h : Derives (.members ms) t) : t ≠ [] := by
  obtain ⟨w, u, rfl, -, -, hhead⟩ := h.trim_left
  intro hnil
  rw [(List.append_eq_nil_iff.mp hnil).2] at hhead
  contradiction

theorem Derives.elements_head {vs : List Value} {t : List Char} (h : Derives (.elements vs) t)
    (rest : List Char) : (Json.skip (t ++ rest)).head? ≠ some ']' := by
  have helement : ∀ v u s, Derives (.element v) u → (Json.skip (u ++ s)).head? ≠ some ']' := by
    intro v u s hu
    cases hu with
    | element hw hv hw' =>
      obtain ⟨c, hc, -⟩ := hv.start
      have hne := hv.head_ne_bracket
      rw [List.append_assoc, List.append_assoc, hv.tight.skip hw, List.head?_append, hc]
      rwa [hc] at hne
  cases h with
  | lastElement hv => exact helement _ _ _ hv
  | nextElement hv hrest =>
    rw [List.append_assoc]
    exact helement _ _ _ hv

theorem Derives.members_head {ms : List Member} {t : List Char} (h : Derives (.members ms) t)
    (rest : List Char) : (Json.skip (t ++ rest)).head? ≠ some '}' := by
  obtain ⟨w, t', rfl, hw, -, hhead⟩ := h.trim_left
  have hskip : Json.skip (w ++ (t' ++ rest)) = t' ++ rest := by
    refine skip_append hw fun c hc => ?_
    rw [List.head?_append, hhead] at hc
    cases hc
    decide
  rw [List.append_assoc, hskip, List.head?_append, hhead]
  simp

theorem stops_cons {c : Char} (h : c = ',' ∨ c = ']' ∨ c = '}') (rest : List Char) :
    Stops (c :: rest) := by
  intro d hd
  cases hd
  exact h

/-- By induction on the derivation: the parser takes just the text of the phrase and
leaves what follows. -/
theorem Derives.parsed {p : Phrase} {t : List Char} (h : Derives p t) : Parsed p t := by
  induction h with
  | null | yes | no =>
    intro fuel rest hfuel hrest
    rfl
  | number n =>
    intro fuel rest hfuel hrest
    obtain ⟨c, hc, hstart⟩ := (Derives.number n).start
    obtain ⟨s, hs⟩ := List.head?_eq_some_iff.mp hc
    have hscan := scanNumber_lexeme n hrest.endsNumber
    rw [hs, List.cons_append] at hscan
    rw [hs, List.cons_append, parseValue_number hstart, hscan]
    rfl
  | string s =>
    intro fuel rest hfuel hrest
    have hscan := scanLiteral_lexeme s rest
    simp only [Literal.lexeme, List.cons_append] at hscan ⊢
    simp only [parseValue, hscan, Option.map_some]
  | @emptyArray w hw =>
    intro fuel rest hfuel hrest
    have hskip : Json.skip (w ++ ']' :: rest) = ']' :: rest :=
      (stops_cons (by simp) rest).skip hw
    simp [parseValue, hskip]
  | @array vs t h ih =>
    intro fuel rest hfuel hrest
    have hlen : t.length ≤ fuel := by
      simp only [List.length_cons, List.length_append] at hfuel
      omega
    have hhead := h.elements_head (']' :: rest)
    have hrow := ih fuel fuel rest hlen hlen
    simp [parseValue, hhead, hrow]
  | @emptyObject w hw =>
    intro fuel rest hfuel hrest
    have hskip : Json.skip (w ++ '}' :: rest) = '}' :: rest :=
      (stops_cons (by simp) rest).skip hw
    simp [parseValue, hskip]
  | @object ms t h ih =>
    intro fuel rest hfuel hrest
    have hlen : t.length ≤ fuel := by
      simp only [List.length_cons, List.length_append] at hfuel
      omega
    have hhead := h.members_head ('}' :: rest)
    have hrow := ih fuel fuel rest hlen hlen
    simp [parseValue, hhead, hrow]
  | @element v t w w' hw h hw' ih =>
    intro fuel rest hfuel hrest
    have hpos : 0 < t.length := List.length_pos_iff.mpr h.value_ne_nil
    have hlen : t.length ≤ fuel := by
      simp only [List.length_append] at hfuel
      omega
    obtain ⟨m, rfl⟩ : ∃ m, fuel = m + 1 := Nat.exists_eq_add_one.mpr (by omega)
    have hvalue := ih m (w' ++ rest) hlen (hrest.follows hw')
    rw [List.append_assoc, List.append_assoc, parseElement, h.tight.skip hw]
    simp [hvalue, hrest.skip hw']
  | @lastElement v t h ih =>
    intro fuel n rest hfuel hn
    have hpos := h.element_pos
    exact parseRow_last (by omega) (by decide) (ih fuel _ hfuel (stops_cons (by simp) rest))
  | @nextElement v vs t u h hrest ih ihrest =>
    intro fuel n rest hfuel hn
    simp only [List.length_append, List.length_cons] at hfuel hn
    rw [List.append_assoc, List.cons_append]
    exact parseRow_next (by omega) (ih fuel _ (by omega) (stops_cons (by simp) _))
      (ihrest fuel (n - 1) rest (by omega) (by omega))
  | @member s v t w w' hw hw' h ih =>
    intro fuel rest hfuel hrest
    have hlen : t.length ≤ fuel := by
      simp only [List.length_append, List.length_cons] at hfuel
      omega
    have hname := scanLiteral_lexeme s (w' ++ ':' :: (t ++ rest))
    have hcolon : skip (w' ++ ':' :: (t ++ rest)) = ':' :: (t ++ rest) :=
      skip_append hw' fun c hc => by cases hc; decide
    have hvalue := ih fuel rest hlen hrest
    have htext : w ++ (s.lexeme ++ w' ++ ':' :: t) ++ rest =
        w ++ (s.lexeme ++ (w' ++ ':' :: (t ++ rest))) := by
      simp
    rw [htext, parseMember, (tight_literal s).skip hw]
    simp [hname, hcolon, hvalue]
  | @lastMember m t h ih =>
    intro fuel n rest hfuel hn
    have hpos := h.member_pos
    exact parseRow_last (by omega) (by decide) (ih fuel _ hfuel (stops_cons (by simp) rest))
  | @nextMember m ms t u h hrest ih ihrest =>
    intro fuel n rest hfuel hn
    simp only [List.length_append, List.length_cons] at hfuel hn
    rw [List.append_assoc, List.cons_append]
    exact parseRow_next (by omega) (ih fuel _ (by omega) (stops_cons (by simp) _))
      (ihrest fuel (n - 1) rest (by omega) (by omega))

/-- The parser accepts every JSON text. -/
theorem parse_complete {v : Value} {text : List Char} (h : IsText v text) :
    parse text = some v := by
  have helement := h.parsed text.length [] (Nat.le_refl _) (by simp [Stops])
  rw [List.append_nil] at helement
  simp only [parse, helement]

/-- No text stands for two values. -/
theorem IsText.unique {v w : Value} {text : List Char} (h : IsText v text)
    (h' : IsText w text) : v = w := by
  have := (parse_complete h).symm.trans (parse_complete h')
  exact Option.some.inj this

theorem IsText.iff {v : Value} {text : List Char} (h : IsText v text) (w : Value) :
    IsText w text ↔ w = v := by
  constructor
  · intro hw
    exact hw.unique h
  · intro hw
    rw [hw]
    exact h

end Complete

end Json
