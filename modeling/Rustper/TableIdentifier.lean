import Rustper.ClickhouseSink
import Rustper.Library.Quoted

/-!
The table name in the INSERT statement, read back as ClickHouse reads a back-quoted
identifier. `escape_identifier` gives quotes a backslash and leaves backslashes alone.
-/
namespace Rustper.Clickhouse

open Quoted (Dialect Inert)

/-- An ASCII byte of a character that is not that byte. -/
theorem encodeChar_quote {c : Char} {b : UInt8} (hc : c ≠ '`')
    (h : b ∈ String.utf8EncodeChar c) : b ≠ Quoted.quote := by
  intro hb
  rcases Utf8.mem_encodeChar h with heq | hle
  · rw [hb] at heq
    exact hc (Char.ext (UInt32.toNat_inj.mp heq.symm))
  · rw [hb] at hle
    exact absurd hle (by decide)

theorem escapeQuotes_append (name more : Bytes) :
    Quoted.escapeQuotes (name ++ more) =
      Quoted.escapeQuotes name ++ Quoted.escapeQuotes more :=
  List.flatMap_append

theorem escapeQuotes_clean {bytes : Bytes} (h : ∀ b ∈ bytes, b ≠ Quoted.quote) :
    Quoted.escapeQuotes bytes = bytes := by
  induction bytes with
  | nil => rfl
  | cons b bytes ih =>
    obtain ⟨hb, hbytes⟩ := List.forall_mem_cons.mp h
    rw [Quoted.escapeQuotes_cons hb, ih hbytes]

/-- The identifier as bytes: the escaped bytes of the name between quotes. -/
theorem encode_escapeIdentifier (name : List Char) :
    Utf8.encode (escapeIdentifier name) =
      Quoted.quote :: (Quoted.escapeQuotes (Utf8.encode name) ++ [Quoted.quote]) := by
  have hquote : String.utf8EncodeChar '`' = [Quoted.quote] := rfl
  have hbody : Utf8.encode (name.flatMap (fun c => if c = '`' then ['\\', '`'] else [c])) =
      Quoted.escapeQuotes (Utf8.encode name) := by
    induction name with
    | nil => rfl
    | cons c name ih =>
      rw [List.flatMap_cons, Utf8.encode_append, ih, Utf8.encode_cons, escapeQuotes_append]
      by_cases hc : c = '`'
      · rw [if_pos hc, hc]
        rfl
      · rw [if_neg hc, escapeQuotes_clean (fun b hb => encodeChar_quote hc hb), Utf8.encode_cons,
          Utf8.encode_nil, List.append_nil]
  rw [escapeIdentifier, Utf8.encode_cons, Utf8.encode_append, hbody, hquote]
  rfl

/-- The quoted name is read back as a whole, alone and in the INSERT statement. -/
def ReadsBack (d : Dialect) (table : String) : Prop :=
  d.lex (Utf8.encode (escapeIdentifier table.toList)) = some (asBytes table, []) ∧
  ∃ text, Utf8.encode (insertStatement table) = asBytes "INSERT INTO " ++ text ∧
    d.lex text = some (asBytes table, asBytes " FORMAT JSONEachRow")

theorem encode_insertStatement (table : String) :
    Utf8.encode (insertStatement table) = asBytes "INSERT INTO " ++
      (Utf8.encode (escapeIdentifier table.toList) ++ asBytes " FORMAT JSONEachRow") := by
  unfold insertStatement asBytes
  -- the texts around the name are long terms and stay closed
  generalize "INSERT INTO ".toList = front
  generalize " FORMAT JSONEachRow".toList = behind
  rw [Utf8.encode_append, Utf8.encode_append, List.append_assoc]

theorem lex_escapeIdentifier_iff (d : Dialect) (table : String) (behind : Bytes) :
    d.lex (Utf8.encode (escapeIdentifier table.toList) ++ behind) =
      some (asBytes table, behind) ↔ Inert d (asBytes table) := by
  rw [encode_escapeIdentifier, List.cons_append, List.append_assoc]
  exact Quoted.lex_escapeQuotes_iff

/-- A table name survives its quoting exactly if no backslash in it escapes anything. -/
theorem readsBack_iff_inert (d : Dialect) (table : String) :
    ReadsBack d table ↔ Inert d (asBytes table) := by
  have halone := lex_escapeIdentifier_iff d table []
  rw [List.append_nil] at halone
  constructor
  · intro h
    exact halone.mp h.1
  · intro h
    exact ⟨halone.mpr h, _, encode_insertStatement table,
      (lex_escapeIdentifier_iff d table _).mpr h⟩

/-- The backslash escapes the closing quote, so the identifier has no end. -/
theorem trailingBackslash_not_readsBack : ¬ ReadsBack Quoted.documented "t\\" := by
  intro h
  have hinert : Inert Quoted.documented (asBytes "t\\") := by
    rw [← lex_escapeIdentifier_iff Quoted.documented "t\\" [], List.append_nil]
    exact h.1
  rw [Quoted.inert_documented] at hinert
  exact hinert (by decide)

/-- A backslash before a quote ends the identifier there. -/
example : Quoted.documented.lex (Utf8.encode (escapeIdentifier ['a', '\\', '`', ' ', 'b'])) =
    some (Utf8.encode ['a', '\\'], Utf8.encode [' ', 'b', '`']) := by
  decide

end Rustper.Clickhouse
