import Mathlib.Data.List.Infix

/-!
Texts that are made of lines, each of which ends with a terminator.
-/
namespace Lines

variable {α : Type} {terminator a : α} {text line : List α} {lines : List (List α)}

/-- The text that has these lines. -/
def join (terminator : α) (lines : List (List α)) : List α :=
  lines.flatMap (fun line => line ++ [terminator])

@[simp] theorem join_nil : join terminator [] = [] := rfl

@[simp] theorem join_cons :
    join terminator (line :: lines) = line ++ terminator :: join terminator lines := by
  simp [join]

variable [DecidableEq α]

/-- The lines of a text, without their terminators; `none` if the last one has none. -/
def split? (terminator : α) : List α → Option (List (List α))
  | [] => some []
  | a :: rest =>
    if a = terminator then (split? terminator rest).map ([] :: ·)
    else
      match split? terminator rest with
      | some (line :: lines) => some ((a :: line) :: lines)
      | _ => none

theorem join_split? (h : split? terminator text = some lines) :
    text = join terminator lines ∧ ∀ line ∈ lines, terminator ∉ line := by
  induction text generalizing lines with
  | nil =>
    obtain rfl : [] = lines := Option.some.inj h
    exact ⟨rfl, by simp⟩
  | cons a rest ih =>
    rw [split?] at h
    by_cases ha : a = terminator
    · rw [if_pos ha] at h
      obtain ⟨lines', hrest, rfl⟩ := Option.map_eq_some_iff.mp h
      obtain ⟨htext, hclean⟩ := ih hrest
      refine ⟨by rw [ha, htext]; rfl, fun line hline => ?_⟩
      rcases List.mem_cons.mp hline with rfl | hline
      · exact List.not_mem_nil
      · exact hclean line hline
    · rw [if_neg ha] at h
      split at h
      · next line lines' hrest =>
        obtain rfl := Option.some.inj h
        obtain ⟨htext, hclean⟩ := ih hrest
        refine ⟨by rw [htext, join_cons, join_cons, List.cons_append], fun l hl => ?_⟩
        rcases List.mem_cons.mp hl with rfl | hl
        · have hline := hclean line List.mem_cons_self
          simp only [List.mem_cons, not_or]
          exact ⟨fun heq => ha heq.symm, hline⟩
        · exact hclean l (List.mem_cons_of_mem _ hl)
      · contradiction

/-- A logical line that has terminators in it is read as several lines: the first is a prefix
of it and all lie within it. -/
theorem split?_append {physical : List (List α)}
    (h : split? terminator (line ++ terminator :: text) = some physical) :
    ∃ first more others, physical = first :: more ++ others ∧
      split? terminator text = some others ∧ first <+: line ∧ ∀ piece ∈ more, piece <:+: line := by
  induction line generalizing physical with
  | nil =>
    rw [List.nil_append, split?, if_pos rfl] at h
    obtain ⟨others, hothers, rfl⟩ := Option.map_eq_some_iff.mp h
    exact ⟨[], [], others, rfl, hothers, List.nil_prefix, by simp⟩
  | cons a line ih =>
    rw [List.cons_append, split?] at h
    by_cases ha : a = terminator
    · rw [if_pos ha] at h
      obtain ⟨pieces, hpieces, rfl⟩ := Option.map_eq_some_iff.mp h
      obtain ⟨first, more, others, rfl, hothers, hfirst, hmore⟩ := ih hpieces
      refine ⟨[], first :: more, others, rfl, hothers, List.nil_prefix, fun piece hpiece => ?_⟩
      rcases List.mem_cons.mp hpiece with rfl | hpiece
      · exact hfirst.isInfix.trans (List.suffix_cons a line).isInfix
      · exact (hmore piece hpiece).trans (List.suffix_cons a line).isInfix
    · rw [if_neg ha] at h
      split at h
      · next _ piece pieces hpieces =>
        obtain rfl := Option.some.inj h
        obtain ⟨first, more, others, hlist, hothers, hfirst, hmore⟩ := ih hpieces
        obtain ⟨rfl, rfl⟩ := List.cons.inj hlist
        refine ⟨a :: piece, more, others, rfl, hothers, ?_, fun piece hpiece => ?_⟩
        · rw [List.cons_prefix_cons]
          exact ⟨rfl, hfirst⟩
        · exact (hmore piece hpiece).trans (List.suffix_cons a line).isInfix
      · contradiction

/-- Every line that is read lies within one of the logical lines. -/
theorem infix_of_split?_join {physical : List (List α)} {piece : List α}
    (h : split? terminator (join terminator lines) = some physical) (hpiece : piece ∈ physical) :
    ∃ line ∈ lines, piece <:+: line := by
  induction lines generalizing physical with
  | nil =>
    obtain rfl : [] = physical := Option.some.inj h
    contradiction
  | cons line lines ih =>
    rw [join_cons] at h
    obtain ⟨first, more, others, rfl, hothers, hfirst, hmore⟩ := split?_append h
    rcases List.mem_append.mp hpiece with hpiece | hpiece
    · refine ⟨line, List.mem_cons_self, ?_⟩
      rcases List.mem_cons.mp hpiece with rfl | hpiece
      · exact hfirst.isInfix
      · exact hmore piece hpiece
    · obtain ⟨other, hother, hinfix⟩ := ih hothers hpiece
      exact ⟨other, List.mem_cons_of_mem _ hother, hinfix⟩

theorem split?_line (hline : terminator ∉ line) :
    split? terminator (line ++ terminator :: text) =
      (split? terminator text).map (line :: ·) := by
  induction line with
  | nil => rw [List.nil_append, split?, if_pos rfl]
  | cons a line ih =>
    simp only [List.mem_cons, not_or] at hline
    rw [List.cons_append, split?, if_neg (fun heq => hline.1 heq.symm), ih hline.2]
    cases split? terminator text <;> rfl

theorem split?_join (h : ∀ line ∈ lines, terminator ∉ line) :
    split? terminator (join terminator lines) = some lines := by
  induction lines with
  | nil => rfl
  | cons line lines ih =>
    rw [join_cons, split?_line (h line List.mem_cons_self),
      ih (fun l hl => h l (List.mem_cons_of_mem _ hl))]
    rfl

end Lines
