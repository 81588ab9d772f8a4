import Raoui.Lexer.Line

/-!
# Raoui.Lexer.Settled

Text whose tokens are the same whatever stands behind it.

* `settled`: the tokens of a fixed text, by evaluation.
* `settled_spec`: every line that starts with the text starts with these tokens.
-/

namespace Raoui
namespace RLexer

open Utf8 (encode)

/-- The token of a rule whose action reads nothing past the lexeme. -/
def Rule.plain (rule : Rule) (lexeme : List Char) : Option Token :=
  let s := encode lexeme
  match rule with
  | .lambda => some .lambda
  | .number => some (.number s)
  | .leftParen => some .leftParen
  | .rightParen => some .rightParen
  | .leftBracket => some .leftBracket
  | .rightBracket => some .rightBracket
  | .leftBrace => some .leftBrace
  | .rightBrace => some .rightBrace
  | .operator => some (.operator s)
  | .punctuation => some (.punctuation s)
  | .whitespace => some (.whitespace s)
  | .constant => some (.constant s)
  | .ident =>
    match keywordOfString s with
    | some kw => some (.keyword kw)
    | none => some (.ident s)
  | _ => none

/-- The first token of any line that starts with `cs`, and what is left of `cs` behind it. -/
def settledToken (cs : List Char) : Option (Token × List Char) :=
  match Pattern.settle rules cs with
  | some (some (n, .doubleQuote)) =>
    match readDoubleQuote (bytes "\"") (cs.drop n) with
    | (t, .normal, rest) => some (t, rest)
    | _ => none
  | some (some (n, rule)) => (rule.plain (cs.take n)).map fun t => (t, cs.drop n)
  | _ => none

/-- The tokens of `cs` in front of `look`, the known beginning of what follows. -/
def settled (look : List Char) : Nat → List Char → Option (List Token)
  | 0, _ => none
  | fuel + 1, cs =>
    if cs = look then some []
    else
      match settledToken cs with
      | some (t, rest) =>
        if t = .eof then none else (settled look fuel rest).map fun ts => t.expand ++ ts
      | none => none

/-! ## Literals that close -/

theorem readQuotedLoop_cons {quote c : Char} {tok : Bytes → Token} {mode : Bytes → Mode}
    {start : Bytes} (hc : c ≠ '\\') (acc : List Bytes) (cs : List Char) :
    readQuotedLoop quote tok mode start acc (c :: cs) =
      if c = quote then (tok (joined acc ++ encode [quote]), .normal, cs)
      else readQuotedLoop quote tok mode start (encode [c] :: acc) cs := by
  rw [readQuotedLoop.eq_def]
  split
  · rename_i heq
    cases heq
  · rename_i heq
    exact absurd (List.cons.inj heq).1 hc
  · rename_i heq
    cases heq
    rfl

theorem readQuotedLoop_nil_mode {quote : Char} {tok : Bytes → Token} {mode : Bytes → Mode}
    {start : Bytes} (hmode : ∀ s, mode s ≠ .normal) (acc : List Bytes) :
    (readQuotedLoop quote tok mode start acc []).2.1 ≠ .normal := by
  rw [readQuotedLoop]
  split <;> exact hmode _

/-- A literal that is closed stays closed at the same place in front of more text. -/
theorem readQuotedLoop_append {quote : Char} {tok : Bytes → Token} {mode : Bytes → Mode}
    {start : Bytes} (hquote : quote ≠ '\\') (hmode : ∀ s, mode s ≠ .normal) {acc : List Bytes}
    {cs rest : List Char} {t : Token}
    (h : readQuotedLoop quote tok mode start acc cs = (t, .normal, rest)) (v : List Char) :
    readQuotedLoop quote tok mode start acc (cs ++ v) = (t, .normal, rest ++ v) := by
  have hnil {acc : List Bytes} : readQuotedLoop quote tok mode start acc [] ≠ (t, .normal, rest) := by
    intro h
    exact readQuotedLoop_nil_mode hmode acc (by rw [h])
  induction acc, cs using readQuotedLoop.induct quote start with
  | case1 => exact absurd h hnil
  | case2 => exact absurd h hnil
  | case3 acc c cs ih =>
    simp only [readQuotedLoop, List.cons_append] at h ⊢
    exact ih h
  | case4 acc cs =>
    rw [readQuotedLoop_cons hquote, if_pos rfl] at h
    cases h
    rw [List.cons_append, readQuotedLoop_cons hquote, if_pos rfl]
  | case5 acc c cs hesc hne ih =>
    by_cases hc : c = '\\'
    · subst hc
      cases cs with
      | nil =>
        rw [readQuotedLoop.eq_def] at h
        simp only [if_neg hne] at h
        exact absurd h hnil
      | cons d cs => exact absurd rfl (hesc d cs rfl)
    · rw [readQuotedLoop_cons hc, if_neg hne] at h
      rw [List.cons_append, readQuotedLoop_cons hc, if_neg hne]
      exact ih h

/-! ## Lines that start with a settled text -/

section
variable [Ucd]

theorem action_plain {rule : Rule} {w : List Char} {t : Token} (h : rule.plain w = some t)
    (cs : List Char) : action rule w cs = .ok (t, .normal, cs) := by
  cases rule with
  | ident =>
    cases hkw : keywordOfString (encode w) with
    | some kw =>
      simp only [Rule.plain, hkw] at h
      cases h
      simp only [action, hkw]
    | none =>
      simp only [Rule.plain, hkw] at h
      cases h
      simp only [action, hkw]
  | _ => cases h <;> rfl

theorem readNormal_of_choose {cs : List Char} {n : Nat} {rule : Rule}
    (h : Pattern.choose rules cs = some (n, rule)) (hcs : cs ≠ []) :
    readNormal cs = action rule (cs.take n) (cs.drop n) := by
  unfold readNormal
  split
  · exact absurd rfl hcs
  · rw [h]

/-- What `settledToken` says of `cs` is what `token` does on every line that starts with it. -/
theorem token_settled {cs rest : List Char} {t : Token} (h : settledToken cs = some (t, rest))
    (v : List Char) : token .normal (cs ++ v) = .ok (t, .normal, rest ++ v) := by
  have hnormal {n : Nat} {rule : Rule} (hn : Pattern.settle rules cs = some (some (n, rule))) :
      token .normal (cs ++ v) = action rule (cs.take n) (cs.drop n ++ v) := by
    have hchoose := Pattern.settle_spec hn v
    have hle : n ≤ cs.length := by
      obtain ⟨r, hr, hl⟩ := Pattern.choose_spec (Pattern.settle_spec hn [])
      simpa using hl.le
    have hcs : cs ++ v ≠ [] := by
      intro hnil
      rw [hnil] at hchoose
      cases hchoose
    rw [token, readNormal_of_choose hchoose hcs, List.take_append_of_le_length hle,
      List.drop_append_of_le_length hle]
  unfold settledToken at h
  split at h
  · rename_i n hn
    split at h
    · rename_i t' rest' hread
      cases h
      rw [hnormal hn]
      refine congrArg Except.ok (readQuotedLoop_append (by decide) (fun s h => ?_) hread v)
      cases h
    · cases h
  · rename_i n rule _ hn
    obtain ⟨t', ht', heq⟩ := Option.map_eq_some_iff.mp h
    cases heq
    rw [hnormal hn, action_plain ht']
  · cases h

theorem settled_spec {look v : List Char} {us : List Token} {m : Mode}
    (hv : Lexes .normal (look ++ v) us m) {fuel : Nat} {cs : List Char} {ts : List Token}
    (h : settled look fuel cs = some ts) : Lexes .normal (cs ++ v) (ts ++ us) m := by
  induction fuel generalizing cs ts with
  | zero => cases h
  | succ fuel ih =>
    rw [settled] at h
    split at h
    · rename_i hlook
      cases h
      rw [hlook]
      exact hv
    · split at h
      · rename_i t rest ht
        split at h
        · cases h
        · rename_i hne
          obtain ⟨ts', hts', heq⟩ := Option.map_eq_some_iff.mp h
          cases heq
          rw [List.append_assoc]
          exact .next (token_settled ht v) hne (ih hts')
      · cases h

end

end RLexer
end Raoui
