import Mathlib.Data.List.Basic

/-!
Back-quoted identifiers as bytes. A backslash and the byte behind it form an escape; what
escapes stand for is a matter of the dialect, apart from those of the two bytes that have
a meaning of their own.
-/
namespace Quoted

def quote : UInt8 := 0x60

def backslash : UInt8 := 0x5C

/-- What a backslash and the byte behind it stand for. -/
inductive Escape
  | byte (b : UInt8)
  | nothing
  | hex
  | kept
deriving DecidableEq, Repr

structure Dialect where
  escape : UInt8 → Escape
  escape_quote : escape quote = .byte quote
  escape_backslash : escape backslash = .byte backslash

def hexValue (b : UInt8) : Option ℕ :=
  if 0x30 ≤ b ∧ b ≤ 0x39 then some (b.toNat - 0x30)
  else if 0x61 ≤ b ∧ b ≤ 0x66 then some (b.toNat - 0x61 + 10)
  else if 0x41 ≤ b ∧ b ≤ 0x46 then some (b.toNat - 0x41 + 10)
  else none

/-- Prepends to what a scanner has read. -/
def prepend (bytes : List UInt8) (read : List UInt8 × List UInt8) : List UInt8 × List UInt8 :=
  (bytes ++ read.1, read.2)

namespace Dialect

/-- Reads up to the first quote that is not escaped, and leaves what follows it. -/
def scan (d : Dialect) : List UInt8 → Option (List UInt8 × List UInt8)
  | [] => none
  | b :: rest =>
    if b = quote then some ([], rest)
    else if b = backslash then
      match rest with
      | [] => none
      | c :: rest =>
        match d.escape c with
        | .byte b => (scan d rest).map (prepend [b])
        | .nothing => scan d rest
        | .kept => (scan d rest).map (prepend [backslash, c])
        | .hex =>
          match rest with
          | high :: low :: rest =>
            match hexValue high, hexValue low with
            | some h, some l => (scan d rest).map (prepend [UInt8.ofNat (16 * h + l)])
            | _, _ => none
          | _ => none
    else (scan d rest).map (prepend [b])

/-- Reads an identifier off the front of a text. -/
def lex (d : Dialect) : List UInt8 → Option (List UInt8 × List UInt8)
  | b :: rest => if b = quote then d.scan rest else none
  | [] => none

end Dialect

/-- Quotes get a backslash, backslashes do not. -/
def escapeQuotes (name : List UInt8) : List UInt8 :=
  name.flatMap (fun b => if b = quote then [backslash, quote] else [b])

/-- Every backslash stands for itself. -/
def Inert (d : Dialect) (name : List UInt8) : Prop :=
  ∀ before behind, name = before ++ backslash :: behind →
    ∃ c rest, behind = c :: rest ∧ d.escape c = .kept

section Scan

variable {d : Dialect} {b c : UInt8} {text rest name out left : List UInt8}

theorem scan_quote : d.scan (quote :: rest) = some ([], rest) := by
  rw [Dialect.scan.eq_def]
  exact if_pos rfl

theorem scan_plain (hq : b ≠ quote) (hs : b ≠ backslash) :
    d.scan (b :: rest) = (d.scan rest).map (prepend [b]) := by
  rw [Dialect.scan.eq_def]
  simp only [hq, hs, if_false]

theorem backslash_ne_quote : backslash ≠ quote := by decide

theorem scan_byte (h : d.escape c = .byte b) :
    d.scan (backslash :: c :: rest) = (d.scan rest).map (prepend [b]) := by
  rw [Dialect.scan.eq_def]
  simp only [backslash_ne_quote, if_false, if_true, h]

theorem scan_nothing (h : d.escape c = .nothing) :
    d.scan (backslash :: c :: rest) = d.scan rest := by
  rw [Dialect.scan.eq_def]
  simp only [backslash_ne_quote, if_false, if_true, h]

theorem scan_kept (h : d.escape c = .kept) :
    d.scan (backslash :: c :: rest) = (d.scan rest).map (prepend [backslash, c]) := by
  rw [Dialect.scan.eq_def]
  simp only [backslash_ne_quote, if_false, if_true, h]

theorem map_prepend {read : Option (List UInt8 × List UInt8)} {bytes : List UInt8}
    (h : read.map (prepend bytes) = some (out, left)) :
    ∃ out', read = some (out', left) ∧ out = bytes ++ out' := by
  obtain ⟨⟨out', left'⟩, hread, hpair⟩ := Option.map_eq_some_iff.mp h
  obtain ⟨rfl, rfl⟩ := Prod.mk.inj hpair
  exact ⟨out', hread, rfl⟩

/-- What is read off the front is gone. -/
theorem length_scan (h : d.scan text = some (out, left)) : left.length < text.length := by
  fun_induction Dialect.scan d text generalizing out left with
  | case1 => contradiction
  | case2 rest =>
    obtain ⟨-, rfl⟩ := Prod.mk.inj (Option.some.inj h)
    exact Nat.lt_succ_self _
  | case3 => contradiction
  | case4 c rest b hc hne ih =>
    obtain ⟨out', hread, -⟩ := map_prepend h
    exact Nat.lt_trans (ih hread) (by simp only [List.length_cons]; omega)
  | case5 c rest hc hne ih =>
    exact Nat.lt_trans (ih h) (by simp only [List.length_cons]; omega)
  | case6 c rest hc hne ih =>
    obtain ⟨out', hread, -⟩ := map_prepend h
    exact Nat.lt_trans (ih hread) (by simp only [List.length_cons]; omega)
  | case7 c hc high low rest x y hy hx hne ih =>
    obtain ⟨out', hread, -⟩ := map_prepend h
    exact Nat.lt_trans (ih hread) (by simp only [List.length_cons]; omega)
  | case8 => contradiction
  | case9 => contradiction
  | case10 b rest hq hs ih =>
    obtain ⟨out', hread, -⟩ := map_prepend h
    exact Nat.lt_trans (ih hread) (by simp only [List.length_cons]; omega)

theorem scan_hex (hc : d.escape c = .hex)
    (h : d.scan (backslash :: c :: text) = some (out, left)) :
    ∃ high low rest b out', text = high :: low :: rest ∧ (hexValue high).isSome = true ∧
      (hexValue low).isSome = true ∧ d.scan rest = some (out', left) ∧ out = b :: out' := by
  rw [Dialect.scan.eq_def] at h
  simp only [backslash_ne_quote, if_false, if_true, hc] at h
  split at h
  · next high low rest =>
    split at h
    · next x y hx hy =>
      obtain ⟨out', hread, rfl⟩ := map_prepend h
      exact ⟨high, low, rest, _, out', rfl, by rw [hx]; rfl, by rw [hy]; rfl, hread, rfl⟩
    · contradiction
  · contradiction

theorem escape_ne (h : d.escape c = .kept) : c ≠ quote ∧ c ≠ backslash := by
  constructor
  · intro hc
    rw [hc, d.escape_quote] at h
    contradiction
  · intro hc
    rw [hc, d.escape_backslash] at h
    contradiction

end Scan

section Inert

variable {d : Dialect} {b c : UInt8} {name : List UInt8}

theorem inert_nil : Inert d [] := by
  intro before behind h
  exact absurd h (by simp)

theorem inert_cons (hb : b ≠ backslash) : Inert d (b :: name) ↔ Inert d name := by
  constructor
  · intro h before behind hname
    exact h (b :: before) behind (by rw [hname, List.cons_append])
  · intro h before behind hname
    cases before with
    | nil => exact absurd (List.cons.inj hname).1 hb
    | cons a before => exact h before behind (List.cons.inj hname).2

theorem inert_escape (hc : c ≠ backslash) :
    Inert d (backslash :: c :: name) ↔ d.escape c = .kept ∧ Inert d name := by
  constructor
  · intro h
    obtain ⟨c', rest, hrest, hkept⟩ := h [] (c :: name) rfl
    obtain ⟨rfl, -⟩ := List.cons.inj hrest
    refine ⟨hkept, fun before behind hname => ?_⟩
    exact h (backslash :: c :: before) behind (by rw [hname]; rfl)
  · intro ⟨hkept, h⟩ before behind hname
    cases before with
    | nil => exact ⟨c, name, (List.cons.inj hname).2.symm, hkept⟩
    | cons a before =>
      obtain ⟨-, hname⟩ := List.cons.inj hname
      exact (inert_cons hc).mpr h before behind hname

end Inert

section RoundTrip

variable {d : Dialect} {b : UInt8} {name rest out : List UInt8}

@[simp] theorem escapeQuotes_nil : escapeQuotes [] = [] := rfl

@[simp] theorem escapeQuotes_quote :
    escapeQuotes (quote :: name) = backslash :: quote :: escapeQuotes name := rfl

theorem escapeQuotes_cons (hb : b ≠ quote) :
    escapeQuotes (b :: name) = b :: escapeQuotes name := by
  rw [escapeQuotes, List.flatMap_cons, if_neg hb]
  rfl

/-- A name whose backslashes stand for themselves is read back, whatever follows it. -/
theorem scan_escapeQuotes (h : Inert d name) :
    d.scan (escapeQuotes name ++ quote :: rest) = some (name, rest) := by
  induction hlen : name.length using Nat.strongRecOn generalizing name with
  | ind n ih =>
    cases name with
    | nil => exact scan_quote
    | cons b name =>
      subst hlen
      by_cases hq : b = quote
      · subst hq
        have hname := (inert_cons (by decide)).mp h
        rw [escapeQuotes_quote, List.cons_append, List.cons_append, scan_byte d.escape_quote,
          ih _ (by simp) hname rfl]
        rfl
      by_cases hs : b = backslash
      · subst hs
        obtain ⟨c, behind, rfl, hkept⟩ := h [] name rfl
        obtain ⟨hcq, hcs⟩ := escape_ne hkept
        have hbehind := ((inert_escape hcs).mp h).2
        rw [escapeQuotes_cons hq, escapeQuotes_cons hcq, List.cons_append, List.cons_append,
          scan_kept hkept, ih _ (by simp only [List.length_cons]; omega) hbehind rfl]
        rfl
      · have hname := (inert_cons hs).mp h
        rw [escapeQuotes_cons hq, List.cons_append, scan_plain hq hs, ih _ (by simp) hname rfl]
        rfl

theorem hexValue_ne (h : (hexValue b).isSome = true) : b ≠ quote ∧ b ≠ backslash := by
  constructor
  · intro hb
    rw [hb] at h
    contradiction
  · intro hb
    rw [hb] at h
    contradiction

theorem escapeQuotes_head {name : List UInt8} {text : List UInt8}
    (h : escapeQuotes name ++ quote :: rest = b :: text) (hq : b ≠ quote) (hs : b ≠ backslash) :
    ∃ behind, name = b :: behind ∧ text = escapeQuotes behind ++ quote :: rest := by
  cases name with
  | nil => exact absurd (List.cons.inj h).1.symm hq
  | cons a behind =>
    by_cases ha : a = quote
    · rw [ha, escapeQuotes_quote] at h
      exact absurd (List.cons.inj h).1.symm hs
    · rw [escapeQuotes_cons ha] at h
      obtain ⟨rfl, rfl⟩ := List.cons.inj h
      exact ⟨behind, rfl, rfl⟩

/-- A backslash of the name is read as itself, or a byte is lost. -/
theorem scan_backslash
    (h : d.scan (backslash :: (escapeQuotes name ++ quote :: rest)) = some (out, rest)) :
    (∃ c behind out', name = c :: behind ∧ d.escape c = .kept ∧ out = backslash :: c :: out' ∧
      d.scan (escapeQuotes behind ++ quote :: rest) = some (out', rest)) ∨
    ∃ behind out', behind.length < name.length ∧ out.length ≤ out'.length + 1 ∧
      d.scan (escapeQuotes behind ++ quote :: rest) = some (out', rest) := by
  cases name with
  | nil =>
    rw [escapeQuotes_nil, List.nil_append, scan_byte d.escape_quote] at h
    obtain ⟨out', hread, -⟩ := map_prepend h
    exact absurd (length_scan hread) (Nat.lt_irrefl _)
  | cons c name =>
    by_cases hq : c = quote
    · rw [hq, escapeQuotes_quote, List.cons_append, List.cons_append,
        scan_byte d.escape_backslash, scan_quote] at h
      have hrest := congrArg List.length (Prod.mk.inj (Option.some.inj h)).2
      simp only [List.length_append, List.length_cons] at hrest
      omega
    rw [escapeQuotes_cons hq, List.cons_append] at h
    cases hc : d.escape c with
    | byte b =>
      rw [scan_byte hc] at h
      obtain ⟨out', hread, rfl⟩ := map_prepend h
      exact Or.inr ⟨name, out', Nat.lt_succ_self _, by simp, hread⟩
    | nothing =>
      rw [scan_nothing hc] at h
      exact Or.inr ⟨name, out, Nat.lt_succ_self _, Nat.le_succ _, h⟩
    | kept =>
      rw [scan_kept hc] at h
      obtain ⟨out', hread, rfl⟩ := map_prepend h
      exact Or.inl ⟨c, name, out', rfl, hc, rfl, hread⟩
    | hex =>
      obtain ⟨high, low, text, b, out', htext, hhigh, hlow, hread, rfl⟩ := scan_hex hc h
      obtain ⟨name', rfl, htext'⟩ :=
        escapeQuotes_head htext (hexValue_ne hhigh).1 (hexValue_ne hhigh).2
      obtain ⟨behind, rfl, rfl⟩ :=
        escapeQuotes_head htext'.symm (hexValue_ne hlow).1 (hexValue_ne hlow).2
      refine Or.inr ⟨behind, out', ?_, Nat.le_refl _, hread⟩
      simp only [List.length_cons]
      omega

/-- Reading back never gains a byte, and loses one unless every backslash stands for
itself. -/
theorem scan_escapeQuotes_le (h : d.scan (escapeQuotes name ++ quote :: rest) = some (out, rest)) :
    out.length ≤ name.length ∧ (out.length = name.length → Inert d name) := by
  induction hlen : name.length using Nat.strongRecOn generalizing name out with
  | ind n ih =>
    cases name with
    | nil =>
      rw [escapeQuotes_nil, List.nil_append, scan_quote] at h
      obtain ⟨rfl, -⟩ := Prod.mk.inj (Option.some.inj h)
      exact ⟨Nat.zero_le _, fun _ => inert_nil⟩
    | cons b name =>
      subst hlen
      by_cases hq : b = quote
      · subst hq
        rw [escapeQuotes_quote, List.cons_append, List.cons_append,
          scan_byte d.escape_quote] at h
        obtain ⟨out', hread, rfl⟩ := map_prepend h
        obtain ⟨hle, hinert⟩ := ih _ (by simp) hread rfl
        simp only [List.length_cons, List.length_append, List.length_nil]
        exact ⟨by omega, fun heq => (inert_cons (by decide)).mpr (hinert (by omega))⟩
      by_cases hs : b = backslash
      · subst hs
        rw [escapeQuotes_cons hq, List.cons_append] at h
        obtain ⟨c, behind, out', rfl, hc, rfl, hread⟩ | ⟨behind, out', hlt, hout, hread⟩ :=
          scan_backslash h
        · obtain ⟨hle, hinert⟩ := ih _ (by simp only [List.length_cons]; omega) hread rfl
          simp only [List.length_cons]
          refine ⟨by omega, fun heq => ?_⟩
          exact (inert_escape (escape_ne hc).2).mpr ⟨hc, hinert (by omega)⟩
        · obtain ⟨hle, -⟩ := ih _ (by simp only [List.length_cons]; omega) hread rfl
          simp only [List.length_cons]
          exact ⟨by omega, fun heq => absurd heq (by omega)⟩
      · rw [escapeQuotes_cons hq, List.cons_append, scan_plain hq hs] at h
        obtain ⟨out', hread, rfl⟩ := map_prepend h
        obtain ⟨hle, hinert⟩ := ih _ (by simp) hread rfl
        simp only [List.length_cons, List.length_append, List.length_nil]
        exact ⟨by omega, fun heq => (inert_cons hs).mpr (hinert (by omega))⟩

/-- A name is read back, and nothing else with it, exactly if its backslashes stand for
themselves. -/
theorem lex_escapeQuotes_iff :
    d.lex (quote :: (escapeQuotes name ++ quote :: rest)) = some (name, rest) ↔
      Inert d name := by
  rw [Dialect.lex, if_pos rfl]
  exact ⟨fun h => (scan_escapeQuotes_le h).2 rfl, scan_escapeQuotes⟩

end RoundTrip

/-- The documented escapes: a few letters have a meaning, any other byte stands for
itself. -/
def documented : Dialect where
  escape b :=
    if b = 0x78 then .hex
    else .byte (((([(0x62, 0x08), (0x66, 0x0C), (0x72, 0x0D), (0x6E, 0x0A), (0x74, 0x09),
      (0x30, 0x00), (0x61, 0x07), (0x76, 0x0B)] : List (UInt8 × UInt8)).lookup b)).getD b)
  escape_quote := rfl
  escape_backslash := rfl

/-- Then no backslash stands for itself. -/
theorem inert_documented {name : List UInt8} : Inert documented name ↔ backslash ∉ name := by
  constructor
  · intro h hmem
    obtain ⟨before, behind, rfl⟩ := List.append_of_mem hmem
    obtain ⟨c, rest, -, hkept⟩ := h before behind rfl
    simp only [documented] at hkept
    split at hkept <;> contradiction
  · intro h before behind hname
    exact absurd (hname ▸ List.mem_append_right before List.mem_cons_self) h

end Quoted
