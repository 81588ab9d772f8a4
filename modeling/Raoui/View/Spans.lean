import Raoui.View.Pieces

/-!
# Raoui.View.Spans

`lib/r_highlight.ml`: the spans of lexed code that is shown without a cache. An interpolated
expression is lexed, and its tokens are styled one by one.

* `tokensToSpans_returns_iff`: code has spans when its interpolations can be lexed.
* `tokensToSpans_glyphs`: the styles that the spans give.
-/

namespace Raoui
namespace RHighlight

open Outcome (bind_eq_ok bind_returns_iff bind_pure_returns_iff)
open RLexer (Token lexLine tokenToLexeme)
open TerminalOps (Span)

def tokenToSpan (token : Token) : Span := (styleOfToken token, tokenToLexeme token)

section
variable [Ucd]

def parseInterpolation (s : Bytes) (start : Nat) : Res (List Span × Nat) :=
  match findClose 1 start (s.drop start) with
  | none => return ([(.string, openBrace :: s.drop start)], s.length)
  | some closePos => do
    let expr := (s.drop start).take (closePos - start)
    let (exprTokens, _) ← lexLine .normal expr
    let exprSpans := exprTokens.map tokenToSpan
    return ([(.bracket, [openBrace])] ++ exprSpans ++ [(.bracket, [closeBrace])], closePos + 1)

/-- `parse` in `parse_glue_string`. Every round moves on, so the fuel given there does not run
out. -/
def parseSpans (inner : Bytes) : Nat → Nat → Res (List Span)
  | 0, _ => return []
  | fuel + 1, pos =>
    match inner.drop pos with
    | [] => return []
    | c :: rest =>
      if c = openBrace then
        if rest.head? = some openBrace then do
          return (.string, [openBrace, openBrace]) :: (← parseSpans inner fuel (pos + 2))
        else do
          let (spans, nextPos) ← parseInterpolation inner (pos + 1)
          return spans ++ (← parseSpans inner fuel nextPos)
      else if c = closeBrace then
        if rest.head? = some closeBrace then do
          return (.string, [closeBrace, closeBrace]) :: (← parseSpans inner fuel (pos + 2))
        else do
          return (.string, [closeBrace]) :: (← parseSpans inner fuel (pos + 1))
      else do
        let endPos := findBrace pos (c :: rest)
        return (.string, (inner.drop pos).take (endPos - pos)) :: (← parseSpans inner fuel endPos)

def parseGlueString (s : Bytes) : Res (List Span) :=
  if !isDoubleQuoted s then return [(.string, s)]
  else do
    let inner :=
      if hasClose s then (s.drop 1).take (s.length - 2) else (s.drop 1).take (s.length - 1)
    let innerSpans ← parseSpans inner s.length 0
    return (.string, [doubleQuote]) :: innerSpans ++
      (if hasClose s then [(.string, [doubleQuote])] else [])

def tokensToSpans : List Token → Res (List Span)
  | [] => return []
  | .ident f :: .leftParen :: .string s :: tl =>
    if isGlue f then do
      let glueSpans ← parseGlueString s
      return (.function, f) :: (.bracket, bytes "(") :: (glueSpans ++ (← tokensToSpans tl))
    else do
      return (.function, f) :: (.bracket, bytes "(") :: (← tokensToSpans (.string s :: tl))
  | .ident funcName :: .leftParen :: tl => do
    return (.function, funcName) :: (.bracket, bytes "(") :: (← tokensToSpans tl)
  | hd :: tl => do return tokenToSpan hd :: (← tokensToSpans tl)

/-! ## The pieces of a literal -/

def Piece.spans : Piece → Res (List Span)
  | .chars s => return [(.string, s)]
  | .expr e => do
    let (exprTokens, _) ← lexLine .normal e
    return [(.bracket, [openBrace])] ++ exprTokens.map tokenToSpan ++ [(.bracket, [closeBrace])]

def piecesSpans : List Piece → Res (List Span)
  | [] => return []
  | p :: ps => do
    let spans ← p.spans
    return spans ++ (← piecesSpans ps)

theorem parseSpans_end (inner : Bytes) (fuel : Nat) :
    parseSpans inner fuel inner.length = .ok [] := by
  cases fuel with
  | zero => rfl
  | succ fuel =>
    rw [parseSpans, List.drop_length]
    rfl

/-- `parse` takes the inside of a literal piece by piece. -/
theorem parseSpans_eq (inner : Bytes) (fuel pos : Nat) :
    parseSpans inner fuel pos = piecesSpans (piecesOf fuel (inner.drop pos)) := by
  induction fuel generalizing pos with
  | zero => rfl
  | succ fuel ih =>
    unfold parseSpans
    cases hu : inner.drop pos with
    | nil => rfl
    | cons c rest =>
      have hdrop (j : Nat) := drop_of_cons hu j
      have hrest : inner.drop (pos + 1) = rest := hdrop 0
      have hclose := findClose_add 1 0 (pos + 1) rest
      have hbrace := findBrace_add 0 pos (c :: rest)
      rw [Nat.zero_add] at hclose hbrace
      unfold piecesOf
      dsimp only
      split
      · rename_i hc
        split
        · rw [ih, show pos + 2 = pos + 1 + 1 from rfl, hdrop, hc]
          rfl
        · rw [parseInterpolation, hrest, hclose]
          cases findClose 1 0 rest with
          | none =>
            dsimp only [Option.map_none]
            rw [hc]
            show (do
              let more ← parseSpans inner fuel inner.length
              return [(.string, openBrace :: rest)] ++ more : Res (List Span)) = _
            rw [parseSpans_end]
            rfl
          | some k =>
            dsimp only [Option.map_some]
            rw [Nat.add_sub_cancel, piecesSpans, ← hdrop (k + 1), ← ih, Piece.spans]
            cases lexLine .normal (rest.take k) with
            | error e => rfl
            | ok r =>
              rw [show pos + 1 + (k + 1) = k + (pos + 1) + 1 by omega]
              rfl
      · split
        · rename_i hc
          split
          · rw [ih, show pos + 2 = pos + 1 + 1 from rfl, hdrop, hc]
            rfl
          · rw [ih, hrest, hc]
            rfl
        · rw [ih, hbrace, Nat.add_sub_cancel, Nat.add_comm, ← List.drop_drop, hu]
          rfl

theorem parseGlueString_eq (s : Bytes) :
    parseGlueString s =
      if isDoubleQuoted s then do
        let innerSpans ← piecesSpans (pieces s)
        return (.string, [doubleQuote]) :: innerSpans ++
          (if hasClose s then [(.string, [doubleQuote])] else [])
      else return [(.string, s)] := by
  have hinner : (if hasClose s then (s.drop 1).take (s.length - 2)
      else (s.drop 1).take (s.length - 1)) = (s.take (innerEnd s)).drop 1 := by
    rw [innerEnd, List.drop_take]
    split
    · rfl
    · rfl
  unfold parseGlueString
  cases isDoubleQuoted s with
  | false => rfl
  | true =>
    dsimp only [Bool.not_true]
    rw [hinner, parseSpans_eq]
    rfl

theorem piecesSpans_returns_iff (ps : List Piece) :
    (∃ spans, piecesSpans ps = .ok spans) ↔
      ∀ expr ∈ ps.filterMap Piece.expr?, ∃ r, lexLine .normal expr = .ok r := by
  induction ps with
  | nil => exact ⟨fun _ => List.forall_mem_nil _, fun _ => ⟨[], rfl⟩⟩
  | cons p ps ih =>
    have hcons : (∃ spans, piecesSpans (p :: ps) = .ok spans) ↔
        (∃ spans, p.spans = .ok spans) ∧ ∃ spans, piecesSpans ps = .ok spans :=
      bind_returns_iff fun _ => bind_pure_returns_iff
    rw [hcons, ih]
    cases p with
    | chars s => exact and_iff_right ⟨_, rfl⟩
    | expr e =>
      have hlexed : (∃ spans, (Piece.expr e).spans = .ok spans) ↔
          ∃ r, lexLine .normal e = .ok r := bind_pure_returns_iff
      rw [hlexed, exprs_cons, List.forall_mem_cons]

theorem parseGlueString_returns_iff (s : Bytes) :
    (∃ spans, parseGlueString s = .ok spans) ↔
      ∀ expr ∈ interpolations s, ∃ r, lexLine .normal expr = .ok r := by
  rw [parseGlueString_eq, interpolations]
  split
  · rw [exprsFrom_eq]
    exact bind_pure_returns_iff.trans (piecesSpans_returns_iff (pieces s))
  · exact ⟨fun _ => List.forall_mem_nil _, fun _ => ⟨_, rfl⟩⟩

/-! ## The tokens of a line -/

theorem tokensToSpans_glue {f : Bytes} (hf : isGlue f = true) (s : Bytes) (ts : List Token) :
    tokensToSpans (.ident f :: .leftParen :: .string s :: ts) = do
      let glueSpans ← parseGlueString s
      return (.function, f) :: (.bracket, bytes "(") :: (glueSpans ++ (← tokensToSpans ts)) := by
  rw [tokensToSpans, if_pos hf]

theorem tokensToSpans_token {t : Token} {ts : List Token} (hg : ¬ GlueCall t ts) :
    tokensToSpans (t :: ts) = do
      return (tokenStyle t ts, tokenToLexeme t) :: (← tokensToSpans ts) := by
  -- the parenthesis of a call is styled like any other
  have hcall (f : Bytes) (more : Res (List Span)) :
      (do return (.function, f) :: (.bracket, bytes "(") :: (← more) : Res (List Span)) =
        (more >>= fun spans => pure (tokenToSpan .leftParen :: spans)) >>= fun spans =>
          pure ((.function, f) :: spans) := by
    cases more with
    | error e => rfl
    | ok spans => rfl
  cases t with
  | ident f =>
    cases ts with
    | nil => rfl
    | cons t₁ ts =>
      cases t₁ with
      | leftParen =>
        cases ts with
        | nil => rfl
        | cons t₂ ts =>
          cases t₂ with
          | string s =>
            rw [tokensToSpans, if_neg fun hf => hg ⟨f, s, ts, rfl, rfl, hf⟩]
            exact hcall f _
          | _ => exact hcall f _
      | _ => rfl
  | _ => rfl

theorem tokensToSpans_returns_iff (ts : List Token) :
    (∃ spans, tokensToSpans ts = .ok spans) ↔
      ∀ s, GlueArgument ts s → ∀ expr ∈ interpolations s, ∃ r, lexLine .normal expr = .ok r := by
  induction ts using glueInduction with
  | nil => exact ⟨fun _ s hs => (by cases hs), fun _ => ⟨[], rfl⟩⟩
  | glue f s ts hf ih =>
    rw [tokensToSpans_glue hf]
    simp only [glueArgument_cons_iff hf, forall_eq_or_imp]
    rw [← parseGlueString_returns_iff, ← ih]
    exact bind_returns_iff fun _ => bind_pure_returns_iff
  | token t ts hg ih =>
    rw [tokensToSpans_token hg]
    simp only [glueArgument_cons_token_iff hg]
    exact bind_pure_returns_iff.trans ih

/-- `highlight_line`: the spans of a line and the mode it ends in. -/
def highlightLine (mode : RLexer.Mode) (line : Bytes) : Res (List Span × RLexer.Mode) := do
  let (tokens, modeOut) ← lexLine mode line
  return (← tokensToSpans tokens, modeOut)

end

/-! ## Glyphs -/

def spanGlyphs (spans : List Span) : List Glyph := spans.flatMap fun (style, s) => inStyle style s

/-- Tokens styled one by one. -/
def tokenGlyphs (ts : List Token) : List Glyph := spanGlyphs (ts.map tokenToSpan)

theorem spanGlyphs_cons (span : Span) (spans : List Span) :
    spanGlyphs (span :: spans) = inStyle span.1 span.2 ++ spanGlyphs spans := rfl

@[simp] theorem spanGlyphs_append (u v : List Span) :
    spanGlyphs (u ++ v) = spanGlyphs u ++ spanGlyphs v := List.flatMap_append

theorem text_tokenGlyphs (ts : List Token) : text (tokenGlyphs ts) = RLexer.lexemes ts := by
  induction ts with
  | nil => rfl
  | cons t ts ih =>
    rw [RLexer.lexemes_cons, ← ih, tokenGlyphs, List.map_cons, spanGlyphs_cons, text_append,
      text_inStyle]
    rfl

section
variable [Ucd]

/-- An expression with the styles that its spans give it. -/
def lexedGlyphs (expr : Bytes) : List Glyph :=
  match lexLine .normal expr with
  | .ok (exprTokens, _) => tokenGlyphs exprTokens
  | .error _ => []

theorem lexedGlyphs_of_lexLine {expr : Bytes} {ts : List Token} {m : RLexer.Mode}
    (h : lexLine .normal expr = .ok (ts, m)) : lexedGlyphs expr = tokenGlyphs ts := by
  rw [lexedGlyphs, h]

theorem piecesSpans_glyphs {ps : List Piece} {spans : List Span} (h : piecesSpans ps = .ok spans) :
    spanGlyphs spans = ps.flatMap (Piece.glyphs lexedGlyphs) := by
  induction ps generalizing spans with
  | nil =>
    cases h
    rfl
  | cons p ps ih =>
    obtain ⟨first, hfirst, h⟩ := bind_eq_ok.mp h
    obtain ⟨more, hmore, h⟩ := bind_eq_ok.mp h
    cases h
    rw [spanGlyphs_append, List.flatMap_cons, ih hmore]
    congr 1
    cases p with
    | chars s =>
      cases hfirst
      exact List.append_nil _
    | expr e =>
      obtain ⟨⟨exprTokens, m⟩, hlex, hfirst⟩ := bind_eq_ok.mp hfirst
      cases hfirst
      rw [Piece.glyphs, lexedGlyphs_of_lexLine hlex, spanGlyphs_append, spanGlyphs_append]
      rfl

theorem parseGlueString_glyphs {s : Bytes} {spans : List Span} (h : parseGlueString s = .ok spans) :
    spanGlyphs spans = glueGlyphs lexedGlyphs s := by
  rw [parseGlueString_eq] at h
  unfold glueGlyphs
  split at h
  · rename_i hquoted
    obtain ⟨inner, hinner, h⟩ := bind_eq_ok.mp h
    cases h
    rw [if_pos hquoted, spanGlyphs_append, spanGlyphs_cons, piecesSpans_glyphs hinner]
    congr 1
    split
    · rfl
    · rfl
  · rename_i hquoted
    cases h
    rw [if_neg hquoted]
    exact List.append_nil _

theorem tokensToSpans_glyphs {ts : List Token} {spans : List Span}
    (h : tokensToSpans ts = .ok spans) :
    spanGlyphs spans = lineGlyphs (glueGlyphs lexedGlyphs) ts := by
  induction ts using glueInduction generalizing spans with
  | nil =>
    cases h
    rfl
  | glue f s ts hf ih =>
    rw [tokensToSpans_glue hf] at h
    obtain ⟨argument, hargument, h⟩ := bind_eq_ok.mp h
    obtain ⟨tail, htail, h⟩ := bind_eq_ok.mp h
    cases h
    rw [lineGlyphs_glue _ hf, spanGlyphs_cons, spanGlyphs_cons, spanGlyphs_append, ih htail,
      parseGlueString_glyphs hargument]
    simp only [List.append_assoc]
  | token t ts hg ih =>
    rw [tokensToSpans_token hg] at h
    obtain ⟨tail, htail, h⟩ := bind_eq_ok.mp h
    cases h
    rw [lineGlyphs_token _ hg, spanGlyphs_cons, ih htail]

end

end RHighlight
end Raoui
