import Raoui.Lexer.Settled

/-!
# Raoui.Editor.PathLiteral

`quote_r_string` of `lib/backslash_effect_runner.ml`: the string literal a picked path is inserted
as.

* `quoteRString_lexes`: the literal is one token, and R reads the path back from it.
-/

namespace Raoui
namespace BackslashEffectRunner

open RLexer Utf8

def quoteByte (c : UInt8) : Bytes :=
  if c = 92 then bytes "\\\\"
  else if c = 34 then bytes "\\\""
  else if c = 10 then bytes "\\n"
  else if c = 13 then bytes "\\r"
  else if c = 9 then bytes "\\t"
  else [c]

def quoteRString (s : Bytes) : Bytes := bytes "\"" ++ s.flatMap quoteByte ++ bytes "\""

/-! ## The escapes of R -/

/-- What a backslash makes of the byte behind it. The escapes by number are left out. -/
def escapedByte (c : UInt8) : Option UInt8 :=
  if c = 97 then some 7
  else if c = 98 then some 8
  else if c = 102 then some 12
  else if c = 110 then some 10
  else if c = 114 then some 13
  else if c = 116 then some 9
  else if c = 118 then some 11
  else if c = 92 ∨ c = 34 ∨ c = 39 ∨ c = 96 ∨ c = 32 ∨ c = 10 then some c
  else none

/-- The string that the contents of a literal stand for in R. -/
def unescape : Bytes → Option Bytes
  | [] => some []
  | c :: s =>
    if c = 92 then
      match s with
      | [] => none
      | e :: s => do return (← escapedByte e) :: (← unescape s)
    else (unescape s).map fun s => c :: s

theorem quoteByte_cases (c : UInt8) :
    (∃ e, quoteByte c = [92, e] ∧ escapedByte e = some c) ∨ (quoteByte c = [c] ∧ c ≠ 92) := by
  unfold quoteByte
  by_cases hbackslash : c = 92
  · subst hbackslash
    exact .inl ⟨92, by decide, by decide⟩
  by_cases hquote : c = 34
  · subst hquote
    exact .inl ⟨34, by decide, by decide⟩
  by_cases hnewline : c = 10
  · subst hnewline
    exact .inl ⟨110, by decide, by decide⟩
  by_cases hreturn : c = 13
  · subst hreturn
    exact .inl ⟨114, by decide, by decide⟩
  by_cases htab : c = 9
  · subst htab
    exact .inl ⟨116, by decide, by decide⟩
  · refine .inr ⟨?_, hbackslash⟩
    rw [if_neg hbackslash, if_neg hquote, if_neg hnewline, if_neg hreturn, if_neg htab]

theorem unescape_quoteByte (c : UInt8) (s : Bytes) :
    unescape (quoteByte c ++ s) = (unescape s).map fun s => c :: s := by
  obtain ⟨e, hc, he⟩ | ⟨hc, hne⟩ := quoteByte_cases c
  · rw [hc, List.cons_append, List.cons_append, List.nil_append, unescape.eq_def]
    simp only [if_true, he]
    cases unescape s <;> rfl
  · rw [hc, List.cons_append, List.nil_append, unescape.eq_def]
    simp only [if_neg hne]

theorem unescape_quoted (s : Bytes) : unescape (s.flatMap quoteByte) = some s := by
  induction s with
  | nil => rfl
  | cons c s ih => rw [List.flatMap_cons, unescape_quoteByte, ih, Option.map_some]

/-! ## The literal in the lexer -/

/-- `quoteByte` on code points. -/
def quoteChar (c : Char) : List Char :=
  if c = '\\' then ['\\', '\\']
  else if c = '"' then ['\\', '"']
  else if c = '\n' then ['\\', 'n']
  else if c = '\r' then ['\\', 'r']
  else if c = '\t' then ['\\', 't']
  else [c]

theorem quoteRString_encode (cs : List Char) :
    quoteRString (encode cs) = encode ('"' :: (cs.flatMap quoteChar ++ ['"'])) := by
  have hlow : ∀ n < 128, quoteByte (UInt8.ofNat n) = encode (quoteChar (Char.ofNat n)) := by
    decide
  have hflat := encode_flatMap (f := quoteByte) (g := quoteChar) (fun c hc => ?_) (fun b hb => ?_)
    (fun c hc => ?_) cs
  · rw [quoteRString, hflat, encode_cons, encode_append, List.append_assoc]
    rfl
  · rw [hlow _ hc, Char.ofNat_toNat]
  · have hne (d : UInt8) (hd : d < 128) : b ≠ d := fun h => UInt8.not_le.mpr hd (h ▸ hb)
    rw [quoteByte, if_neg (hne _ (by decide)), if_neg (hne _ (by decide)), if_neg (hne _ (by decide)),
      if_neg (hne _ (by decide)), if_neg (hne _ (by decide))]
  · have hne (d : Char) (hd : d.toNat < 128) : c ≠ d := fun h => Nat.not_le.mpr hd (h ▸ hc)
    rw [quoteChar, if_neg (hne _ (by decide)), if_neg (hne _ (by decide)), if_neg (hne _ (by decide)),
      if_neg (hne _ (by decide)), if_neg (hne _ (by decide))]

theorem quoteChar_cases (c : Char) :
    (∃ e, quoteChar c = ['\\', e]) ∨ (quoteChar c = [c] ∧ c ≠ '\\' ∧ c ≠ '"') := by
  unfold quoteChar
  split
  · exact .inl ⟨_, rfl⟩
  · split
    · exact .inl ⟨_, rfl⟩
    · split
      · exact .inl ⟨_, rfl⟩
      · split
        · exact .inl ⟨_, rfl⟩
        · split
          · exact .inl ⟨_, rfl⟩
          · exact .inr ⟨rfl, ‹_›, ‹_›⟩

/-- The loop takes an escape as one unit, so the literal ends at the quote behind the path. -/
theorem readQuotedLoop_quoteChar {tok : Bytes → Token} {mode : Bytes → RLexer.Mode} {start : Bytes}
    (acc : List Bytes) (cs : List Char) :
    readQuotedLoop '"' tok mode start acc (cs.flatMap quoteChar ++ ['"']) =
      (tok (joined acc ++ encode (cs.flatMap quoteChar ++ ['"'])), .normal, []) := by
  induction cs generalizing acc with
  | nil => rfl
  | cons c cs ih =>
    rw [List.flatMap_cons, List.append_assoc]
    obtain ⟨e, hc⟩ | ⟨hc, hbackslash, hquote⟩ := quoteChar_cases c
    · rw [hc, List.cons_append, List.cons_append, List.nil_append, readQuotedLoop, ih, joined_cons,
        List.append_assoc, ← encode_append]
      rfl
    · rw [hc, List.cons_append, List.nil_append, readQuotedLoop_cons hbackslash, if_neg hquote, ih,
        joined_cons, List.append_assoc, ← encode_append]
      rfl

theorem choose_doubleQuote (c : Char) (cs : List Char) :
    Pattern.choose rules ('"' :: c :: cs) = some (1, .doubleQuote) :=
  Pattern.settle_spec (w := ['"', c]) rfl cs

variable [Ucd]

/-- A quoted path is one string token, whatever the path, and R reads the path back from it. -/
theorem quoteRString_lexes (cs : List Char) : ∃ contents,
    quoteRString (encode cs) = bytes "\"" ++ contents ++ bytes "\"" ∧
    unescape contents = some (encode cs) ∧
    lexLine .normal (quoteRString (encode cs)) =
      .ok ([.string (quoteRString (encode cs))], .normal) := by
  refine ⟨_, rfl, unescape_quoted _, ?_⟩
  obtain ⟨d, ds, hds⟩ : ∃ d ds, cs.flatMap quoteChar ++ ['"'] = d :: ds :=
    List.exists_cons_of_ne_nil (by simp)
  have htoken : token .normal ('"' :: (cs.flatMap quoteChar ++ ['"'])) =
      .ok (.string (quoteRString (encode cs)), .normal, []) := by
    have hchoose := choose_doubleQuote d ds
    rw [← hds] at hchoose
    rw [token, readNormal_of_choose hchoose (List.cons_ne_nil _ _), quoteRString_encode]
    exact congrArg Except.ok (readQuotedLoop_quoteChar [bytes "\""] cs)
  rw [lexLine, quoteRString_encode, decode_encode, ← quoteRString_encode]
  have hlexes := Lexes.next htoken (fun h => by cases h) (.eof rfl)
  exact (lexLoop_eq hlexes 1002 [] (by simp)).1 (by simp [Token.expand])

end BackslashEffectRunner
end Raoui
