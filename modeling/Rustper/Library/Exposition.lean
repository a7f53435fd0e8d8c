import Rustper.Library.JsonNumber
import Rustper.Library.Lines

/-!
The text exposition format: lines with the help text and the type of a metric, and lines
with its samples. A reader for the whole format, with the conditions it puts on the order
of the lines, and how a label value that it read was spelt.
-/
namespace Exposition

/-- What the spelling of a sample's value stands for. -/
inductive Value
  | finite (q : ℚ)
  | infinite (negative : Bool)
  | nan
deriving DecidableEq

structure Sample where
  name : List Char
  labels : List (List Char × List Char)
  value : Value
  timestamp : Option ℤ
deriving DecidableEq

inductive Entry
  | blank
  | comment
  | help (name text : List Char)
  | type (name kind : List Char)
  | sample (s : Sample)
deriving DecidableEq

section read

def isBlank (c : Char) : Bool := c == ' ' || c == '\t'

def skip (text : List Char) : List Char := text.dropWhile isBlank

/-- The characters up to the next blank, and what follows them. -/
def token (text : List Char) : List Char × List Char :=
  (text.takeWhile (fun c => !isBlank c), text.dropWhile (fun c => !isBlank c))

def nameStart (c : Char) : Bool := c.isAlpha || c == '_' || c == ':'

def nameRest (c : Char) : Bool := nameStart c || c.isDigit

def labelStart (c : Char) : Bool := c.isAlpha || c == '_'

def labelRest (c : Char) : Bool := labelStart c || c.isDigit

def validName : List Char → Bool
  | [] => false
  | c :: rest => nameStart c && rest.all nameRest

def validLabel : List Char → Bool
  | [] => false
  | c :: rest => labelStart c && rest.all labelRest

def readSign : List Char → Bool × List Char
  | c :: rest =>
    if c = '+' then (false, rest) else if c = '-' then (true, rest) else (false, c :: rest)
  | [] => (false, [])

/-- Decimal floating-point numerals with an optional sign, and three words. -/
def readValue (text : List Char) : Option Value :=
  if text = ['N', 'a', 'N'] then some .nan
  else
    let (negative, rest) := readSign text
    if rest = ['I', 'n', 'f'] then some (.infinite negative)
    else
      let whole := rest.takeWhile Char.isDigit
      let (fraction, rest) := Json.scanFraction (rest.dropWhile Char.isDigit)
      let (exponent, rest) := Json.scanExponent rest
      if rest = [] ∧ whole ++ fraction.getD [] ≠ [] ∧ ∀ e ∈ exponent, Json.Digits e.digits then
        some (.finite (Json.Numeral.value ⟨negative, whole, fraction, exponent⟩))
      else none

def readTimestamp (text : List Char) : Option ℤ :=
  let (negative, digits) := Json.scanSign text
  if Json.Digits digits then
    some (if negative = true then -(Json.ofDigits digits : ℤ) else Json.ofDigits digits)
  else none

/-- What the character behind a backslash stands for in a label value. -/
def unescape (c : Char) : Option Char :=
  if c = '\\' then some '\\' else if c = '"' then some '"' else if c = 'n' then some '\n' else none

/-- Reads a label value up to its closing quote. -/
def readLabelValue : List Char → Option (List Char × List Char)
  | [] => none
  | c :: rest =>
    if c = '"' then some ([], rest)
    else if c = '\\' then
      match rest with
      | [] => none
      | e :: rest =>
        match unescape e, readLabelValue rest with
        | some x, some (value, rest) => some (x :: value, rest)
        | _, _ => none
    else
      match readLabelValue rest with
      | some (value, rest) => some (c :: value, rest)
      | none => none

/-- Reads one label and its value. -/
def readLabel (text : List Char) : Option ((List Char × List Char) × List Char) :=
  let name := text.takeWhile labelRest
  if validLabel name = true then
    match skip (text.dropWhile labelRest) with
    | '=' :: rest =>
      match skip rest with
      | '"' :: rest => (readLabelValue rest).map (fun read => ((name, read.1), read.2))
      | _ => none
    | _ => none
  else none

/-- Reads labels up to the closing brace; a comma may stand in front of it. -/
def readLabels : ℕ → List Char → Option (List (List Char × List Char) × List Char)
  | 0, _ => none
  | fuel + 1, text =>
    match skip text with
    | '}' :: rest => some ([], rest)
    | text =>
      match readLabel text with
      | none => none
      | some (label, rest) =>
        match skip rest with
        | ',' :: rest => (readLabels fuel rest).map (fun read => (label :: read.1, read.2))
        | '}' :: rest => some ([label], rest)
        | _ => none

/-- Reads the value of a sample and its timestamp, if there is one. -/
def readSampleEnd (name : List Char) (labels : List (List Char × List Char)) (text : List Char) :
    Option Sample :=
  let (value, rest) := token (skip text)
  match readValue value with
  | none => none
  | some value =>
    match skip rest with
    | [] => some ⟨name, labels, value, none⟩
    | rest =>
      let (time, rest) := token rest
      match readTimestamp time with
      | none => none
      | some time => if skip rest = [] then some ⟨name, labels, value, some time⟩ else none

def readSample (text : List Char) : Option Sample :=
  let name := text.takeWhile nameRest
  if validName name = true then
    match skip (text.dropWhile nameRest) with
    | '{' :: rest =>
      (readLabels (rest.length + 1) rest).bind (fun read => readSampleEnd name read.1 read.2)
    | rest => readSampleEnd name [] rest
  else none

/-- Help texts escape backslashes and line feeds. -/
def readHelp : List Char → Option (List Char)
  | [] => some []
  | c :: rest =>
    if c = '\\' then
      match rest with
      | [] => none
      | e :: rest =>
        if e = '\\' then (readHelp rest).map ('\\' :: ·)
        else if e = 'n' then (readHelp rest).map ('\n' :: ·)
        else none
    else (readHelp rest).map (c :: ·)

def kinds : List (List Char) :=
  ["counter".toList, "gauge".toList, "histogram".toList, "summary".toList, "untyped".toList]

def helpKeyword : List Char := ['H', 'E', 'L', 'P']

def typeKeyword : List Char := ['T', 'Y', 'P', 'E']

/-- What follows a hash: two keywords have a meaning, anything else is a comment. -/
def readComment (text : List Char) : Option Entry :=
  let (keyword, rest) := token (skip text)
  if keyword = helpKeyword then
    let (name, rest) := token (skip rest)
    if validName name = true then (readHelp (skip rest)).map (.help name) else none
  else if keyword = typeKeyword then
    let (name, rest) := token (skip rest)
    let (kind, rest) := token (skip rest)
    if validName name = true ∧ kind ∈ kinds ∧ skip rest = [] then some (.type name kind) else none
  else some .comment

def readLine (line : List Char) : Option Entry :=
  match skip line with
  | [] => some .blank
  | '#' :: rest => readComment rest
  | text => (readSample text).map .sample

/-- Whether a line may come after another: help, type and samples are given once, and the
type before the samples. -/
def follows : Entry → Entry → Bool
  | .help name _, .help name' _ => name != name'
  | .type name _, .type name' _ => name != name'
  | .sample s, .type name _ => s.name != name
  | .sample s, .sample s' => (s.name, s.labels) != (s'.name, s'.labels)
  | _, _ => true

/-- The entries of a text that obeys the format. -/
def read (text : List Char) : Option (List Entry) :=
  ((Lines.split? '\n' text).bind (·.mapM readLine)).bind (fun entries =>
    if entries.Pairwise (fun e e' => follows e e' = true) then some entries else none)

end read

section words

variable {p : Char → Bool} {word rest text : List Char} {c : Char}

theorem takeWhile_word (rest : List Char) (hword : ∀ c ∈ word, p c = true)
    (hstop : ∀ c ∈ rest.head?, p c = false) :
    (word ++ rest).takeWhile p = word ∧ (word ++ rest).dropWhile p = rest := by
  rw [List.takeWhile_append_of_pos hword, List.dropWhile_append_of_pos hword]
  cases rest with
  | nil => simp
  | cons c rest =>
    have hc : ¬ p c = true := by
      rw [hstop c rfl]
      exact Bool.false_ne_true
    rw [List.takeWhile_cons_of_neg hc, List.dropWhile_cons_of_neg hc, List.append_nil]
    exact ⟨rfl, rfl⟩

theorem skip_of_head (h : ∀ c ∈ text.head?, isBlank c = false) : skip text = text := by
  cases text with
  | nil => rfl
  | cons c text =>
    refine List.dropWhile_cons_of_neg ?_
    rw [h c rfl]
    exact Bool.false_ne_true

theorem skip_blank : skip (' ' :: text) = skip text := List.dropWhile_cons_of_pos rfl

theorem token_word (hword : ∀ c ∈ word, isBlank c = false)
    (hstop : ∀ c ∈ rest.head?, isBlank c = true) : token (word ++ rest) = (word, rest) := by
  have hinside : ∀ c ∈ word, (!isBlank c) = true := fun c hc => by rw [hword c hc]; rfl
  have houtside : ∀ c ∈ rest.head?, (!isBlank c) = false := fun c hc => by rw [hstop c hc]; rfl
  obtain ⟨htake, hdrop⟩ := takeWhile_word rest hinside houtside
  rw [token, htake, hdrop]

theorem not_blank (h : c ≠ ' ' ∧ c ≠ '\t') : isBlank c = false := by
  simp [isBlank, h.1, h.2]

theorem nameRest_not_blank (h : nameRest c = true) : isBlank c = false := by
  apply not_blank
  constructor
  · rintro rfl
    exact absurd h (by decide)
  · rintro rfl
    exact absurd h (by decide)

theorem labelRest_not_blank (h : labelRest c = true) : isBlank c = false := by
  apply nameRest_not_blank
  simp only [labelRest, labelStart, nameRest, nameStart, Bool.or_eq_true] at h ⊢
  tauto

theorem isDigit_not_blank (h : c.isDigit = true) : isBlank c = false := by
  apply nameRest_not_blank
  rw [nameRest, h, Bool.or_true]

theorem validName_iff {name : List Char} :
    validName name = true ↔ ∃ c rest, name = c :: rest ∧ nameStart c = true ∧
      ∀ d ∈ name, nameRest d = true := by
  cases name with
  | nil => simp [validName]
  | cons c rest =>
    simp only [validName, Bool.and_eq_true, List.all_eq_true, List.mem_cons, forall_eq_or_imp]
    constructor
    · intro h
      exact ⟨c, rest, rfl, h.1, by rw [nameRest, h.1, Bool.true_or], h.2⟩
    · rintro ⟨c', rest', heq, hstart, -, hrest⟩
      obtain ⟨rfl, rfl⟩ := List.cons.inj heq
      exact ⟨hstart, hrest⟩

theorem validLabel_iff {label : List Char} :
    validLabel label = true ↔ ∃ c rest, label = c :: rest ∧ labelStart c = true ∧
      ∀ d ∈ label, labelRest d = true := by
  cases label with
  | nil => simp [validLabel]
  | cons c rest =>
    simp only [validLabel, Bool.and_eq_true, List.all_eq_true, List.mem_cons, forall_eq_or_imp]
    constructor
    · intro h
      exact ⟨c, rest, rfl, h.1, by rw [labelRest, h.1, Bool.true_or], h.2⟩
    · rintro ⟨c', rest', heq, hstart, -, hrest⟩
      obtain ⟨rfl, rfl⟩ := List.cons.inj heq
      exact ⟨hstart, hrest⟩

theorem not_mem_name {name : List Char} (h : validName name = true) (hc : nameRest c = false) :
    c ∉ name := by
  obtain ⟨-, -, -, -, hall⟩ := validName_iff.mp h
  intro hmem
  rw [hall c hmem] at hc
  contradiction

theorem not_mem_label {label : List Char} (h : validLabel label = true)
    (hc : labelRest c = false) : c ∉ label := by
  obtain ⟨-, -, -, -, hall⟩ := validLabel_iff.mp h
  intro hmem
  rw [hall c hmem] at hc
  contradiction

theorem readHelp_plain {text : List Char} (h : '\\' ∉ text) : readHelp text = some text := by
  induction text with
  | nil => rfl
  | cons c text ih =>
    rw [List.mem_cons, not_or] at h
    rw [readHelp.eq_def]
    simp only [if_neg (Ne.symm h.1), ih h.2, Option.map_some]

/-- A word of a comment, behind a blank. -/
theorem token_skip {word : List Char} (rest : List Char) (hword : ∀ c ∈ word, isBlank c = false)
    (hne : word ≠ []) (hstop : ∀ c ∈ rest.head?, isBlank c = true) :
    token (skip (' ' :: (word ++ rest))) = (word, rest) := by
  have hhead : ∀ c ∈ (word ++ rest).head?, isBlank c = false := by
    intro c hc
    cases word with
    | nil => exact absurd rfl hne
    | cons d word =>
      obtain rfl : d = c := Option.some.inj hc
      exact hword d List.mem_cons_self
  rw [skip_blank, skip_of_head hhead, token_word hword hstop]

end words

section value

/-- What a label value was spelt as: itself, or a longer text with a backslash in it. -/
theorem readLabelValue_eq_some {text value rest : List Char}
    (h : readLabelValue text = some (value, rest)) :
    ∃ spelling, text = spelling ++ '"' :: rest ∧
      (spelling = value ∧ '\\' ∉ value ∧ '"' ∉ value ∨
        '\\' ∈ spelling ∧ value.length < spelling.length) := by
  induction text using readLabelValue.induct generalizing value with
  | case1 => contradiction
  | case2 text =>
    rw [readLabelValue.eq_def] at h
    obtain ⟨rfl, rfl⟩ := Prod.mk.inj (Option.some.inj h)
    exact ⟨[], rfl, Or.inl ⟨rfl, List.not_mem_nil, List.not_mem_nil⟩⟩
  | case3 => contradiction
  | case4 e text x tail rest' htail hx hne ih =>
    rw [readLabelValue.eq_def] at h
    simp only [if_neg hne, if_true, hx, htail] at h
    obtain ⟨rfl, rfl⟩ := Prod.mk.inj (Option.some.inj h)
    obtain ⟨spelling, rfl, hspelling⟩ := ih htail
    refine ⟨'\\' :: e :: spelling, rfl, Or.inr ⟨List.mem_cons_self, ?_⟩⟩
    simp only [List.length_cons]
    rcases hspelling with ⟨rfl, -, -⟩ | ⟨-, hlength⟩ <;> omega
  | case5 e text hnone hne ih =>
    rw [readLabelValue.eq_def] at h
    simp only [if_neg hne, if_true] at h
    contradiction
  | case6 c text hquote hslash tail rest' htail ih =>
    rw [readLabelValue.eq_def] at h
    simp only [if_neg hquote, if_neg hslash, htail] at h
    obtain ⟨rfl, rfl⟩ := Prod.mk.inj (Option.some.inj h)
    obtain ⟨spelling, rfl, hspelling⟩ := ih htail
    refine ⟨c :: spelling, rfl, ?_⟩
    rcases hspelling with ⟨rfl, hnoSlash, hnoQuote⟩ | ⟨hmem, hlength⟩
    · refine Or.inl ⟨rfl, ?_, ?_⟩
      · simp [Ne.symm hslash, hnoSlash]
      · simp [Ne.symm hquote, hnoQuote]
    · refine Or.inr ⟨List.mem_cons_of_mem _ hmem, ?_⟩
      simp only [List.length_cons]
      omega
  | case7 c text hquote hslash hnone ih =>
    rw [readLabelValue.eq_def] at h
    simp only [if_neg hquote, if_neg hslash, hnone] at h
    contradiction

theorem skip_suffix (text : List Char) : skip text <:+ text := List.dropWhile_suffix _

theorem readLabel_eq_some {text value rest : List Char} {label : List Char}
    (h : readLabel text = some ((label, value), rest)) :
    ∃ behind, '"' :: behind <:+ text ∧ readLabelValue behind = some (value, rest) := by
  rw [readLabel] at h
  split at h
  · split at h
    · next behind hequals =>
      split at h
      · next behind' hquote =>
        obtain ⟨⟨value', rest'⟩, hread, heq⟩ := Option.map_eq_some_iff.mp h
        obtain ⟨hlabel, rfl⟩ := Prod.mk.inj heq
        obtain ⟨-, rfl⟩ := Prod.mk.inj hlabel
        refine ⟨behind', ?_, hread⟩
        rw [← hquote]
        have hname : '=' :: behind <:+ text := by
          rw [← hequals]
          exact (skip_suffix _).trans (List.dropWhile_suffix _)
        exact (skip_suffix _).trans ((List.suffix_cons _ _).trans hname)
      · contradiction
    · contradiction
  · contradiction

/-- Each value that is read follows a quote in the text. -/
theorem readLabels_eq_some {fuel : ℕ} {text rest : List Char}
    {labels : List (List Char × List Char)} (h : readLabels fuel text = some (labels, rest)) :
    ∀ x ∈ labels, ∃ behind rest', '"' :: behind <:+ text ∧
      readLabelValue behind = some (x.2, rest') := by
  induction fuel generalizing text labels with
  | zero => contradiction
  | succ fuel ih =>
    rw [readLabels] at h
    split at h
    · obtain ⟨rfl, rfl⟩ := Prod.mk.inj (Option.some.inj h)
      simp
    · split at h
      · contradiction
      · next label behindLabel hlabel =>
        obtain ⟨behind, hquote, hvalue⟩ := readLabel_eq_some hlabel
        have hquote' : '"' :: behind <:+ text := hquote.trans (skip_suffix text)
        split at h
        · next more hcomma =>
          obtain ⟨⟨labels', rest'⟩, hread, heq⟩ := Option.map_eq_some_iff.mp h
          obtain ⟨rfl, rfl⟩ := Prod.mk.inj heq
          have hmore : more <:+ text := by
            obtain ⟨spelling, hbehind, -⟩ := readLabelValue_eq_some hvalue
            calc more <:+ ',' :: more := List.suffix_cons _ _
              _ <:+ behindLabel := by rw [← hcomma]; exact skip_suffix _
              _ <:+ behind := by
                rw [hbehind]
                exact (List.suffix_cons _ _).trans (List.suffix_append _ _)
              _ <:+ '"' :: behind := List.suffix_cons _ _
              _ <:+ text := hquote'
          intro x hx
          rcases List.mem_cons.mp hx with rfl | hx
          · exact ⟨behind, behindLabel, hquote', hvalue⟩
          · obtain ⟨behind', rest'', hsuffix, hread'⟩ := ih hread x hx
            exact ⟨behind', rest'', hsuffix.trans hmore, hread'⟩
        · obtain ⟨rfl, rfl⟩ := Prod.mk.inj (Option.some.inj h)
          intro x hx
          rcases List.mem_singleton.mp hx with rfl
          exact ⟨behind, behindLabel, hquote', hvalue⟩
        · contradiction

theorem readSampleEnd_labels {name text : List Char} {labels : List (List Char × List Char)}
    {s : Sample} (h : readSampleEnd name labels text = some s) : s.labels = labels := by
  simp only [readSampleEnd] at h
  split at h
  · contradiction
  · split at h
    · rw [← Option.some.inj h]
    · split at h
      · contradiction
      · split at h
        · rw [← Option.some.inj h]
        · contradiction

theorem readSample_eq_some {text : List Char} {s : Sample} (h : readSample text = some s) :
    ∀ x ∈ s.labels, ∃ behind rest, '"' :: behind <:+ text ∧
      readLabelValue behind = some (x.2, rest) := by
  rw [readSample] at h
  split at h
  · split at h
    · next behindName hbrace =>
      obtain ⟨⟨labels, rest⟩, hlabels, hend⟩ := Option.bind_eq_some_iff.mp h
      have hsuffix : behindName <:+ text := by
        calc behindName <:+ '{' :: behindName := List.suffix_cons _ _
          _ <:+ text.dropWhile nameRest := by rw [← hbrace]; exact skip_suffix _
          _ <:+ text := List.dropWhile_suffix _
      rw [readSampleEnd_labels hend]
      intro x hx
      obtain ⟨behind, rest', hquote, hvalue⟩ := readLabels_eq_some hlabels x hx
      exact ⟨behind, rest', hquote.trans hsuffix, hvalue⟩
    · rw [readSampleEnd_labels h]
      simp
  · contradiction

theorem readComment_ne_sample (text : List Char) (s : Sample) :
    readComment text ≠ some (.sample s) := by
  intro h
  simp only [readComment] at h
  split at h
  · split at h
    · obtain ⟨help, -, heq⟩ := Option.map_eq_some_iff.mp h
      contradiction
    · contradiction
  · split at h
    · split at h <;> simp at h
    · simp at h

/-- A label value is spelt between two quotes of the line. -/
theorem readLine_sample {line : List Char} {s : Sample} (h : readLine line = some (.sample s)) :
    ∀ x ∈ s.labels, ∃ spelling, '"' :: (spelling ++ ['"']) <:+: line ∧
      (spelling = x.2 ∧ '\\' ∉ x.2 ∧ '"' ∉ x.2 ∨
        '\\' ∈ spelling ∧ x.2.length < spelling.length) := by
  have hsample : readSample (skip line) = some s := by
    rw [readLine] at h
    split at h
    · simp at h
    · exact absurd h (readComment_ne_sample _ s)
    · obtain ⟨s', hs', heq⟩ := Option.map_eq_some_iff.mp h
      rwa [← Entry.sample.inj heq]
  intro x hx
  obtain ⟨behind, rest, hquote, hvalue⟩ := readSample_eq_some hsample x hx
  obtain ⟨spelling, rfl, hspelling⟩ := readLabelValue_eq_some hvalue
  refine ⟨spelling, ?_, hspelling⟩
  have hprefix : '"' :: (spelling ++ ['"']) <:+: '"' :: (spelling ++ '"' :: rest) :=
    ⟨[], rest, by simp⟩
  exact hprefix.trans (hquote.trans (skip_suffix line)).isInfix

end value

end Exposition
