import Mathlib.Data.Finset.Max
import Rustper.Library.Exposition
import Rustper.Library.Fallible

/-!
Texts of the exposition format whose label values were printed as they are. They are read
back exactly when no label value has a character that the format escapes: of the longest
value that has one there is no sample, whatever the rest of the text is read as.
-/
namespace Exposition

/-- A metric with one label, and its value for each value of the label. -/
structure Family where
  name : List Char
  help : List Char
  kind : List Char
  label : List Char
  samples : List (List Char × ℕ)

/-- The parts that do not vary need no escapes. -/
structure Family.Valid (f : Family) : Prop where
  name : validName f.name = true
  label : validLabel f.label = true
  kind : f.kind ∈ kinds
  help : '\\' ∉ f.help ∧ '"' ∉ f.help ∧ '\n' ∉ f.help
  helpHead : skip f.help = f.help

namespace Family

def helpLine (f : Family) : List Char :=
  '#' :: ' ' :: (helpKeyword ++ ' ' :: (f.name ++ ' ' :: f.help))

def typeLine (f : Family) : List Char :=
  '#' :: ' ' :: (typeKeyword ++ ' ' :: (f.name ++ ' ' :: f.kind))

/-- The label value is printed as it is. -/
def sampleLine (f : Family) (x : List Char × ℕ) : List Char :=
  f.name ++ '{' :: (f.label ++ '=' :: '"' :: (x.1 ++ '"' :: '}' :: ' ' :: Nat.toDigits 10 x.2))

def sample (f : Family) (x : List Char × ℕ) : Sample :=
  ⟨f.name, [(f.label, x.1)], .finite x.2, none⟩

/-- The lines of the family, each with what it should be read as. -/
def printed (f : Family) : List (List Char × Entry) :=
  (f.helpLine, .help f.name f.help) :: (f.typeLine, .type f.name f.kind) ::
    f.samples.map (fun x => (f.sampleLine x, .sample (f.sample x)))

end Family

/-- The text with the lines of these families. -/
def print (families : List Family) : List Char :=
  Lines.join '\n' ((families.flatMap Family.printed).map Prod.fst)

theorem print_append (families more : List Family) :
    print (families ++ more) = print families ++ print more := by
  simp only [print, Lines.join, List.flatMap_append, List.map_append]

theorem print_cons (f : Family) (families : List Family) :
    print (f :: families) = print [f] ++ print families :=
  print_append [f] families

/-- No character of the label value is one that the format escapes. -/
def Clean (value : List Char) : Prop := '\\' ∉ value ∧ '"' ∉ value ∧ '\n' ∉ value

instance (value : List Char) : Decidable (Clean value) := inferInstanceAs (Decidable (_ ∧ _ ∧ _))

section lines

variable {f : Family} {x : List Char × ℕ}

theorem Family.Valid.name_word (h : f.Valid) :
    f.name ≠ [] ∧ ∀ c ∈ f.name, isBlank c = false := by
  obtain ⟨c, rest, hname, -, hall⟩ := validName_iff.mp h.name
  exact ⟨by rw [hname]; exact List.cons_ne_nil _ _, fun d hd => nameRest_not_blank (hall d hd)⟩

theorem readLine_helpLine (h : f.Valid) : readLine f.helpLine = some (.help f.name f.help) := by
  obtain ⟨hne, hword⟩ := h.name_word
  have hkeyword : token (skip (' ' :: (helpKeyword ++ ' ' :: (f.name ++ ' ' :: f.help)))) =
      (helpKeyword, ' ' :: (f.name ++ ' ' :: f.help)) :=
    token_skip _ (by simp [helpKeyword, isBlank]) (by simp [helpKeyword]) (by simp [isBlank])
  have hname : token (skip (' ' :: (f.name ++ ' ' :: f.help))) = (f.name, ' ' :: f.help) :=
    token_skip _ hword hne (by simp [isBlank])
  rw [readLine, Family.helpLine, skip_of_head (by simp [isBlank])]
  simp only [readComment, hkeyword, hname, h.name, if_true]
  rw [skip_blank, h.helpHead, readHelp_plain h.help.1, Option.map_some]

theorem kinds_word : ∀ kind ∈ kinds, kind ≠ [] ∧ ∀ c ∈ kind, isBlank c = false := by
  have hall : (kinds.all fun kind => !kind.isEmpty && kind.all fun c => !isBlank c) = true := by
    decide
  intro kind hkind
  have hthis := List.all_eq_true.mp hall kind hkind
  simp only [Bool.and_eq_true, List.all_eq_true, Bool.not_eq_true', List.isEmpty_eq_false_iff]
    at hthis
  exact hthis

theorem readLine_typeLine (h : f.Valid) : readLine f.typeLine = some (.type f.name f.kind) := by
  obtain ⟨hne, hword⟩ := h.name_word
  obtain ⟨hkindNe, hkindWord⟩ := kinds_word f.kind h.kind
  have hkeyword : token (skip (' ' :: (typeKeyword ++ ' ' :: (f.name ++ ' ' :: f.kind)))) =
      (typeKeyword, ' ' :: (f.name ++ ' ' :: f.kind)) :=
    token_skip _ (by simp [typeKeyword, isBlank]) (by simp [typeKeyword]) (by simp [isBlank])
  have hname : token (skip (' ' :: (f.name ++ ' ' :: f.kind))) = (f.name, ' ' :: f.kind) :=
    token_skip _ hword hne (by simp [isBlank])
  have hkind : token (skip (' ' :: f.kind)) = (f.kind, []) := by
    have hskip := token_skip [] hkindWord hkindNe (by simp)
    rwa [List.append_nil] at hskip
  have hother : typeKeyword ≠ helpKeyword := by decide
  rw [readLine, Family.typeLine, skip_of_head (by simp [isBlank])]
  simp only [readComment, hkeyword, hname, hkind, if_neg hother, if_true]
  exact if_pos ⟨h.name, h.kind, rfl⟩

theorem readLabelValue_clean {value rest : List Char} (hslash : '\\' ∉ value)
    (hquote : '"' ∉ value) : readLabelValue (value ++ '"' :: rest) = some (value, rest) := by
  induction value with
  | nil =>
    rw [List.nil_append, readLabelValue.eq_def]
    exact if_pos rfl
  | cons c value ih =>
    rw [List.mem_cons, not_or] at hslash hquote
    rw [List.cons_append, readLabelValue.eq_def]
    simp only [if_neg (Ne.symm hquote.1), if_neg (Ne.symm hslash.1), ih hslash.2 hquote.2]

theorem readLabel_clean {label value rest : List Char} (hlabel : validLabel label = true)
    (hslash : '\\' ∉ value) (hquote : '"' ∉ value) :
    readLabel (label ++ '=' :: '"' :: (value ++ '"' :: rest)) = some ((label, value), rest) := by
  obtain ⟨-, -, -, -, hall⟩ := validLabel_iff.mp hlabel
  obtain ⟨htake, hdrop⟩ := takeWhile_word ('=' :: '"' :: (value ++ '"' :: rest)) hall
    (by simp [labelRest, labelStart])
  have hequals : skip ('=' :: '"' :: (value ++ '"' :: rest)) =
      '=' :: '"' :: (value ++ '"' :: rest) := skip_of_head (by simp [isBlank])
  have hopen : skip ('"' :: (value ++ '"' :: rest)) = '"' :: (value ++ '"' :: rest) :=
    skip_of_head (by simp [isBlank])
  rw [readLabel, htake, hdrop]
  simp only [hlabel, if_true, hequals, hopen, readLabelValue_clean hslash hquote,
    Option.map_some]

theorem readLabels_clean {label value rest : List Char} (fuel : ℕ)
    (hlabel : validLabel label = true) (hslash : '\\' ∉ value) (hquote : '"' ∉ value) :
    readLabels (fuel + 1) (label ++ '=' :: '"' :: (value ++ '"' :: '}' :: rest)) =
      some ([(label, value)], rest) := by
  obtain ⟨c, tail, rfl, hstart, hall⟩ := validLabel_iff.mp hlabel
  have hblank : isBlank c = false := labelRest_not_blank (hall c List.mem_cons_self)
  have hskip : skip (c :: tail ++ '=' :: '"' :: (value ++ '"' :: '}' :: rest)) =
      c :: tail ++ '=' :: '"' :: (value ++ '"' :: '}' :: rest) :=
    skip_of_head (by simpa using hblank)
  rw [readLabels, hskip]
  split
  · rename_i hbrace
    rw [List.cons_append] at hbrace
    rw [(List.cons.inj hbrace).1] at hstart
    exact absurd hstart (by decide)
  · rw [readLabel_clean hlabel hslash hquote]
    have hclose : skip ('}' :: rest) = '}' :: rest := skip_of_head (by simp [isBlank])
    simp only [hclose]

theorem digit_of_mem_toDigits {n : ℕ} {c : Char} (hc : c ∈ Nat.toDigits 10 n) :
    c.isDigit = true :=
  Nat.isDigit_of_mem_toDigits (by decide) (by decide) hc

theorem readSign_toDigits (n : ℕ) : readSign (Nat.toDigits 10 n) = (false, Nat.toDigits 10 n) := by
  cases hdigits : Nat.toDigits 10 n with
  | nil => rfl
  | cons c rest =>
    have hc : c.isDigit = true := digit_of_mem_toDigits (by rw [hdigits]; exact List.mem_cons_self)
    have hplus : c ≠ '+' := by
      rintro rfl
      exact absurd hc (by decide)
    have hminus : c ≠ '-' := by
      rintro rfl
      exact absurd hc (by decide)
    rw [readSign, if_neg hplus, if_neg hminus]

theorem not_mem_toDigits {n : ℕ} {c : Char} (hc : c.isDigit = false) :
    c ∉ Nat.toDigits 10 n := by
  intro hmem
  rw [digit_of_mem_toDigits hmem] at hc
  contradiction

theorem toDigits_ne_word {n : ℕ} {c : Char} {word : List Char} (hc : c.isDigit = false) :
    Nat.toDigits 10 n ≠ c :: word := by
  intro heq
  refine not_mem_toDigits hc (n := n) ?_
  rw [heq]
  exact List.mem_cons_self

theorem readValue_toDigits (n : ℕ) : readValue (Nat.toDigits 10 n) = some (.finite n) := by
  have hdigits : ∀ c ∈ Nat.toDigits 10 n, c.isDigit = true := fun _ => digit_of_mem_toDigits
  have hwhole : (Nat.toDigits 10 n).takeWhile Char.isDigit = Nat.toDigits 10 n := by
    rw [List.takeWhile_eq_self_iff]
    exact hdigits
  have hrest : (Nat.toDigits 10 n).dropWhile Char.isDigit = [] := by
    rw [List.dropWhile_eq_nil_iff]
    exact hdigits
  have hvalue : Json.Numeral.value ⟨false, Nat.toDigits 10 n, none, none⟩ = n := by
    have hint := Json.Numeral.ofInt_value (n : ℤ)
    rw [Json.Numeral.ofInt, Int.natAbs_natCast, decide_eq_false (by omega)] at hint
    exact hint
  rw [readValue, if_neg (toDigits_ne_word (by decide)), readSign_toDigits]
  simp only [if_neg (toDigits_ne_word (by decide) : Nat.toDigits 10 n ≠ ['I', 'n', 'f'])]
  simp only [hwhole, hrest, Json.scanFraction, Json.scanExponent, hvalue]
  exact if_pos ⟨trivial, by simp, by simp⟩

theorem readSampleEnd_toDigits (name : List Char) (labels : List (List Char × List Char)) (n : ℕ) :
    readSampleEnd name labels (' ' :: Nat.toDigits 10 n) =
      some ⟨name, labels, .finite n, none⟩ := by
  have hword : ∀ c ∈ Nat.toDigits 10 n, isBlank c = false :=
    fun c hc => isDigit_not_blank (digit_of_mem_toDigits hc)
  have htoken : token (skip (' ' :: Nat.toDigits 10 n)) = (Nat.toDigits 10 n, []) := by
    have hskip := token_skip [] hword Nat.toDigits_ne_nil (by simp)
    rwa [List.append_nil] at hskip
  have hend : skip [] = [] := rfl
  rw [readSampleEnd, htoken]
  simp only [readValue_toDigits, hend]

theorem readLine_sampleLine (h : f.Valid) (hclean : Clean x.1) :
    readLine (f.sampleLine x) = some (.sample (f.sample x)) := by
  obtain ⟨c, tail, hname, hstart, hall⟩ := validName_iff.mp h.name
  obtain ⟨htake, hdrop⟩ := takeWhile_word ('{' :: (f.label ++ '=' :: '"' ::
    (x.1 ++ '"' :: '}' :: ' ' :: Nat.toDigits 10 x.2))) hall (by simp [nameRest, nameStart])
  have hsample : readSample (f.sampleLine x) = some (f.sample x) := by
    rw [readSample, Family.sampleLine, htake, hdrop]
    simp only [h.name, if_true]
    rw [skip_of_head (by simp [isBlank])]
    simp only [readLabels_clean _ h.label hclean.1 hclean.2.1, Option.bind_some]
    exact readSampleEnd_toDigits _ _ _
  have hblank : ∀ d ∈ (f.sampleLine x).head?, isBlank d = false := by
    rw [Family.sampleLine, hname]
    simpa using nameRest_not_blank (hall c (by rw [hname]; exact List.mem_cons_self))
  rw [readLine, skip_of_head hblank]
  split
  · rename_i hnil
    rw [Family.sampleLine, hname] at hnil
    contradiction
  · rename_i hhash
    rw [Family.sampleLine, hname] at hhash
    rw [(List.cons.inj hhash).1] at hstart
    exact absurd hstart (by decide)
  · rw [hsample]
    rfl

/-- Every line with its entry is read as that entry. -/
theorem readLine_printed (h : f.Valid) (hclean : ∀ x ∈ f.samples, Clean x.1) :
    ∀ line ∈ f.printed, readLine line.1 = some line.2 := by
  intro line hline
  simp only [Family.printed, List.mem_cons, List.mem_map] at hline
  rcases hline with rfl | rfl | ⟨x, hx, rfl⟩
  · exact readLine_helpLine h
  · exact readLine_typeLine h
  · exact readLine_sampleLine h (hclean x hx)

theorem printed_one_line (h : f.Valid) (hclean : ∀ x ∈ f.samples, Clean x.1) :
    ∀ line ∈ f.printed, '\n' ∉ line.1 := by
  have hname : '\n' ∉ f.name := not_mem_name h.name (by decide)
  have hlabel : '\n' ∉ f.label := not_mem_label h.label (by decide)
  have hkind : '\n' ∉ f.kind := by
    have hkinds : ∀ kind ∈ kinds, '\n' ∉ kind := by decide
    exact hkinds f.kind h.kind
  intro line hline
  simp only [Family.printed, List.mem_cons, List.mem_map] at hline
  rcases hline with rfl | rfl | ⟨x, hx, rfl⟩
  · simp [Family.helpLine, helpKeyword, hname, h.help.2.2]
  · simp [Family.typeLine, typeKeyword, hname, hkind]
  · have hdigits : '\n' ∉ Nat.toDigits 10 x.2 := not_mem_toDigits (by decide)
    simp [Family.sampleLine, hname, hlabel, (hclean x hx).2.2, hdigits]

end lines

/-- What the text of these families should be read as. -/
def entries (families : List Family) : List Entry :=
  (families.flatMap Family.printed).map Prod.snd

section clean

variable {families : List Family}

/-- No two lines of a family break the order, and no sample is given twice. -/
theorem printed_follows {f : Family} (hnodup : (f.samples.map Prod.fst).Nodup) :
    f.printed.Pairwise (fun line line' => follows line.2 line'.2 = true) := by
  simp only [Family.printed, List.pairwise_cons, List.mem_cons, List.mem_map, List.pairwise_map]
  refine ⟨?_, ?_, ?_⟩
  · intro line hline
    rcases hline with rfl | ⟨x, -, rfl⟩ <;> rfl
  · intro line hline
    obtain ⟨x, -, rfl⟩ := hline
    rfl
  · rw [List.Nodup, List.pairwise_map] at hnodup
    refine hnodup.imp (fun {x y} hne => ?_)
    simp only [follows, Family.sample, bne_iff_ne, ne_eq, Prod.mk.injEq, List.cons.injEq, true_and,
      and_true]
    exact hne

theorem printed_follows_other {f g : Family} (hne : f.name ≠ g.name) :
    ∀ line ∈ f.printed, ∀ line' ∈ g.printed, follows line.2 line'.2 = true := by
  intro line hline line' hline'
  simp only [Family.printed, List.mem_cons, List.mem_map] at hline hline'
  rcases hline with rfl | rfl | ⟨x, -, rfl⟩ <;> rcases hline' with rfl | rfl | ⟨y, -, rfl⟩ <;>
    simp [follows, Family.sample, hne]

theorem read_print (hvalid : ∀ f ∈ families, f.Valid) (hnames : (families.map Family.name).Nodup)
    (hvalues : ∀ f ∈ families, (f.samples.map Prod.fst).Nodup)
    (hclean : ∀ f ∈ families, ∀ x ∈ f.samples, Clean x.1) :
    read (print families) = some (entries families) := by
  have hsplit : Lines.split? '\n' (print families) =
      some ((families.flatMap Family.printed).map Prod.fst) := by
    refine Lines.split?_join (fun line hline => ?_)
    obtain ⟨printed, hprinted, rfl⟩ := List.mem_map.mp hline
    obtain ⟨f, hf, hmem⟩ := List.mem_flatMap.mp hprinted
    exact printed_one_line (hvalid f hf) (hclean f hf) printed hmem
  have hlines : ((families.flatMap Family.printed).map Prod.fst).mapM readLine =
      some (entries families) := by
    rw [List.mapM_map]
    refine Fallible.mapM_eq_some (fun printed hprinted => ?_)
    obtain ⟨f, hf, hmem⟩ := List.mem_flatMap.mp hprinted
    exact readLine_printed (hvalid f hf) (hclean f hf) printed hmem
  have horder : (entries families).Pairwise (fun e e' => follows e e' = true) := by
    rw [entries, List.pairwise_map, List.pairwise_flatMap]
    refine ⟨fun f hf => printed_follows (hvalues f hf), ?_⟩
    rw [List.Nodup, List.pairwise_map] at hnames
    exact hnames.imp (fun hne => printed_follows_other hne)
  rw [read, hsplit, Option.bind_some, hlines, Option.bind_some, if_pos horder]

end clean

section quotes

variable {α : Type} {quote : α} {before within behind piece : List α}

/-- What follows a quote lies behind the first of them. -/
theorem suffix_behind_first {x z w : List α} (hbefore : quote ∉ before)
    (h : x ++ quote :: z = before ++ quote :: w) : z <:+ w := by
  rcases List.append_eq_append_iff.mp h with ⟨as, rfl, heq⟩ | ⟨bs, rfl, heq⟩
  · cases as with
    | nil =>
      obtain ⟨-, rfl⟩ := List.cons.inj heq
      exact List.suffix_refl z
    | cons a as =>
      obtain ⟨rfl, -⟩ := List.cons.inj heq
      simp at hbefore
  · cases bs with
    | nil =>
      obtain ⟨-, rfl⟩ := List.cons.inj heq
      exact List.suffix_refl w
    | cons b bs =>
      obtain ⟨-, rfl⟩ := List.cons.inj heq
      exact (List.suffix_cons quote z).trans (List.suffix_append bs _)

theorem prefix_before_last {y z w : List α} (hbehind : quote ∉ behind)
    (h : z ++ quote :: y = w ++ quote :: behind) : z <+: w := by
  have hbehind' : quote ∉ behind.reverse := by
    rwa [List.mem_reverse]
  have hreverse : y.reverse ++ quote :: z.reverse = behind.reverse ++ quote :: w.reverse := by
    simpa using congrArg List.reverse h
  rw [← List.reverse_suffix]
  exact suffix_behind_first hbehind' hreverse

theorem infix_of_quoted (hbefore : quote ∉ before) (hbehind : quote ∉ behind)
    (h : quote :: (piece ++ [quote]) <:+: before ++ quote :: (within ++ quote :: behind)) :
    piece <:+: within := by
  obtain ⟨x, y, h⟩ := h
  have hfirst : x ++ quote :: (piece ++ quote :: y) =
      before ++ quote :: (within ++ quote :: behind) := by
    simpa using h
  obtain ⟨v, hv⟩ := suffix_behind_first hbefore hfirst
  have hlast : (v ++ piece) ++ quote :: y = within ++ quote :: behind := by
    simpa using hv
  exact (List.suffix_append v piece).isInfix.trans (prefix_before_last hbehind hlast).isInfix

end quotes

section unclean

variable {families : List Family}

/-- Two quotes on a line are a part of one sample, around a part of its label value. -/
theorem infix_of_quoted_line (hvalid : ∀ f ∈ families, f.Valid) {line spelling : List Char}
    (hline : line ∈ (families.flatMap Family.printed).map Prod.fst)
    (hquoted : '"' :: (spelling ++ ['"']) <:+: line) :
    ∃ f ∈ families, ∃ x ∈ f.samples, spelling <:+: x.1 := by
  obtain ⟨printed, hprinted, rfl⟩ := List.mem_map.mp hline
  obtain ⟨f, hf, hmem⟩ := List.mem_flatMap.mp hprinted
  have hquote : '"' ∈ printed.1 := hquoted.subset List.mem_cons_self
  have hname : '"' ∉ f.name := not_mem_name (hvalid f hf).name (by decide)
  have hlabel : '"' ∉ f.label := not_mem_label (hvalid f hf).label (by decide)
  simp only [Family.printed, List.mem_cons, List.mem_map] at hmem
  rcases hmem with rfl | rfl | ⟨x, hx, rfl⟩
  · simp [Family.helpLine, helpKeyword, hname, (hvalid f hf).help.2.1] at hquote
  · have hkinds : ∀ kind ∈ kinds, '"' ∉ kind := by decide
    simp [Family.typeLine, typeKeyword, hname, hkinds f.kind (hvalid f hf).kind] at hquote
  · refine ⟨f, hf, x, hx, ?_⟩
    have hbefore : '"' ∉ f.name ++ '{' :: (f.label ++ ['=']) := by
      simp [hname, hlabel]
    have hbehind : '"' ∉ '}' :: ' ' :: Nat.toDigits 10 x.2 := by
      have hdigits : '"' ∉ Nat.toDigits 10 x.2 := not_mem_toDigits (by decide)
      simp [hdigits]
    refine infix_of_quoted hbefore hbehind ?_
    simpa [Family.sampleLine] using hquoted

/-- A sample that is read has a label value that is clean, or one that is shorter than a
printed one with a backslash. -/
theorem value_of_read (hvalid : ∀ f ∈ families, f.Valid) {out : List Entry} {s : Sample}
    (h : read (print families) = some out) (hs : .sample s ∈ out) :
    ∀ l ∈ s.labels, Clean l.2 ∨
      ∃ f ∈ families, ∃ x ∈ f.samples, '\\' ∈ x.1 ∧ l.2.length < x.1.length := by
  obtain ⟨out', hlines, hif⟩ := Option.bind_eq_some_iff.mp h
  obtain ⟨physical, hsplit, hread⟩ := Option.bind_eq_some_iff.mp hlines
  obtain rfl : out' = out := Option.some.inj (Option.ite_none_right_eq_some.mp hif).2
  obtain ⟨piece, hpiece, hsample⟩ := Fallible.exists_of_mem_mapM hread hs
  intro l hl
  obtain ⟨spelling, hquoted, hspelling⟩ := readLine_sample hsample l hl
  obtain ⟨line, hline, hinfix⟩ := Lines.infix_of_split?_join hsplit hpiece
  rcases hspelling with ⟨rfl, hslash, hquote⟩ | ⟨hslash, hlength⟩
  · refine Or.inl ⟨hslash, hquote, fun hmem => ?_⟩
    refine (Lines.join_split? hsplit).2 piece hpiece (hquoted.subset ?_)
    exact List.mem_cons_of_mem _ (List.mem_append_left _ hmem)
  · obtain ⟨f, hf, x, hx, hwithin⟩ :=
      infix_of_quoted_line hvalid hline (hquoted.trans hinfix)
    have hshorter : l.2.length < x.1.length := Nat.lt_of_lt_of_le hlength hwithin.length_le
    exact Or.inr ⟨f, hf, x, hx, hwithin.subset hslash, hshorter⟩

/-- A text with every sample it should have has clean label values only: the longest value
that is not clean would have to be read from an even longer one. -/
theorem clean_of_read (hvalid : ∀ f ∈ families, f.Valid) {out : List Entry}
    (h : read (print families) = some out)
    (hout : ∀ f ∈ families, ∀ x ∈ f.samples, .sample (f.sample x) ∈ out) :
    ∀ f ∈ families, ∀ x ∈ f.samples, Clean x.1 := by
  let values := families.flatMap (fun f => f.samples.map Prod.fst)
  have hvalues : ∀ value, value ∈ values ↔ ∃ f ∈ families, ∃ x ∈ f.samples, x.1 = value := by
    intro value
    simp only [values, List.mem_flatMap, List.mem_map]
  let unclean := values.toFinset.filter (fun value => ¬ Clean value)
  have hempty : ¬ unclean.Nonempty := by
    intro hnonempty
    obtain ⟨longest, hlongest, hmax⟩ := unclean.exists_max_image List.length hnonempty
    obtain ⟨hmem, hnotClean⟩ := Finset.mem_filter.mp hlongest
    obtain ⟨f, hf, x, hx, rfl⟩ := (hvalues longest).mp (List.mem_toFinset.mp hmem)
    rcases value_of_read hvalid h (hout f hf x hx) (f.label, x.1) List.mem_cons_self with
      hclean | ⟨g, hg, y, hy, hslash, hlonger⟩
    · exact hnotClean hclean
    · have hy' : y.1 ∈ unclean := by
        refine Finset.mem_filter.mpr ⟨List.mem_toFinset.mpr ?_, fun hclean => hclean.1 hslash⟩
        exact (hvalues y.1).mpr ⟨g, hg, y, hy, rfl⟩
      exact absurd (hmax y.1 hy') (Nat.not_le_of_lt hlonger)
  intro f hf x hx
  by_contra hnotClean
  refine hempty ⟨x.1, Finset.mem_filter.mpr ⟨List.mem_toFinset.mpr ?_, hnotClean⟩⟩
  exact (hvalues x.1).mpr ⟨f, hf, x, hx, rfl⟩

end unclean

/-- The entries give the help text and the type of the metric before its first sample. -/
def Introduced (name help kind : List Char) (out : List Entry) : Prop :=
  ∃ before behind, out = before ++ behind ∧ .help name help ∈ before ∧ .type name kind ∈ before ∧
    ∀ s, .sample s ∈ before → s.name ≠ name

def samplesOf (out : List Entry) : List Sample :=
  out.filterMap (fun e => match e with
    | .sample s => some s
    | _ => none)

section meaning

variable {families : List Family}

theorem samplesOf_printed (f : Family) :
    samplesOf (f.printed.map Prod.snd) = f.samples.map f.sample := by
  simp only [samplesOf, Family.printed, List.map_cons, List.filterMap_cons, List.map_map,
    List.filterMap_map]
  exact congrFun (List.filterMap_eq_map (f := f.sample)) f.samples

theorem samplesOf_entries :
    samplesOf (entries families) = families.flatMap (fun f => f.samples.map f.sample) := by
  induction families with
  | nil => rfl
  | cons f families ih =>
    have hentries : entries (f :: families) = f.printed.map Prod.snd ++ entries families := by
      simp [entries]
    rw [hentries, samplesOf, List.filterMap_append, List.flatMap_cons, ← ih, ← samplesOf_printed]
    rfl

theorem mem_samplesOf {out : List Entry} {s : Sample} : s ∈ samplesOf out ↔ .sample s ∈ out := by
  rw [samplesOf, List.mem_filterMap]
  constructor
  · rintro ⟨e, he, hsome⟩
    cases e <;> simp at hsome
    rwa [hsome] at he
  · intro h
    exact ⟨.sample s, h, rfl⟩

theorem introduced_entries (hnames : (families.map Family.name).Nodup) {f : Family}
    (hf : f ∈ families) : Introduced f.name f.help f.kind (entries families) := by
  obtain ⟨earlier, later, rfl⟩ := List.append_of_mem hf
  refine ⟨entries earlier ++ [.help f.name f.help, .type f.name f.kind],
    f.samples.map (fun x => .sample (f.sample x)) ++ entries later, ?_, ?_, ?_, ?_⟩
  · simp [entries, Family.printed]
  · simp
  · simp
  · intro s hs
    have hs' : s ∈ samplesOf (entries earlier) := by
      rw [mem_samplesOf]
      simpa using hs
    rw [samplesOf_entries] at hs'
    obtain ⟨g, hg, hmem⟩ := List.mem_flatMap.mp hs'
    obtain ⟨x, -, rfl⟩ := List.mem_map.mp hmem
    rw [List.map_append, List.map_cons, List.nodup_append] at hnames
    exact hnames.2.2 g.name (List.mem_map_of_mem hg) f.name List.mem_cons_self

/-- The text is read as exactly the samples of the families, each behind the help text and
the type of its metric, just when no label value needs an escape. -/
theorem read_print_iff (hvalid : ∀ f ∈ families, f.Valid)
    (hnames : (families.map Family.name).Nodup)
    (hvalues : ∀ f ∈ families, (f.samples.map Prod.fst).Nodup) :
    (∃ out, read (print families) = some out ∧
        (samplesOf out).Perm (families.flatMap (fun f => f.samples.map f.sample)) ∧
        ∀ f ∈ families, Introduced f.name f.help f.kind out) ↔
      ∀ f ∈ families, ∀ x ∈ f.samples, Clean x.1 := by
  constructor
  · intro h
    obtain ⟨out, hread, hsamples, -⟩ := h
    refine clean_of_read hvalid hread (fun f hf x hx => ?_)
    rw [← mem_samplesOf, hsamples.mem_iff]
    exact List.mem_flatMap.mpr ⟨f, hf, List.mem_map_of_mem hx⟩
  · intro hclean
    refine ⟨entries families, read_print hvalid hnames hvalues hclean, ?_, ?_⟩
    · rw [samplesOf_entries]
    · intro f hf
      exact introduced_entries hnames hf

end meaning

end Exposition
