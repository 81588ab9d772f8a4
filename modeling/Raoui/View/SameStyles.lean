import Raoui.Lexer.Literal
import Raoui.View.Partition
import Raoui.View.Spans

/-!
# Raoui.View.SameStyles

The two highlighters side by side: the spans of code that is shown without a cache, and the ranges
of a cached line. Both style the tokens of the line alike, and both cut a literal given to `glue`
into the same pieces; inside an interpolated expression only the ranges tell calls apart.

* `lineGlyphs_map_eq_iff`: lines that differ in how expressions are styled.
* `sameStyles_iff`: the highlighters agree exactly on lines without calls in interpolations.
-/

namespace Raoui
namespace RHighlight

open Outcome (bind_eq_ok)
open RLexer (Token tokenToLexeme lexemes lexLine)
open TerminalOps (Style Span)
open Tiling

/-! ## Lines that differ in their expressions -/

/-- If a `c` follows both lists, they are equal or differ in front of it. -/
def EndsApart {α : Type} (c : α) (u v : List α) : Prop := ∀ x y, u ++ c :: x = v ++ c :: y → u = v

theorem endsApart_of_length {α : Type} {c : α} {u v : List α} (h : u.length = v.length) :
    EndsApart c u v := fun _ _ hxy => (List.append_inj hxy h).1

theorem EndsApart.append_cons_iff {α : Type} {c : α} {u v : List α} (h : EndsApart c u v)
    {x y : List α} : u ++ c :: x = v ++ c :: y ↔ u = v ∧ x = y := by
  constructor
  · intro hxy
    obtain rfl := h x y hxy
    exact ⟨rfl, (List.cons.inj (List.append_cancel_left hxy)).2⟩
  · rintro ⟨rfl, rfl⟩
    rfl

section
variable {α : Type} {g : Glyph → α} {E E' : Bytes → List Glyph}

/-- The expressions end apart in front of the brace that closes them. -/
def Apart (g : Glyph → α) (E E' : Bytes → List Glyph) (expr : Bytes) : Prop :=
  EndsApart (g (.bracket, closeBrace)) ((E expr).map g) ((E' expr).map g)

theorem pieces_map_eq_iff {ps : List Piece}
    (hapart : ∀ expr ∈ ps.filterMap Piece.expr?, Apart g E E' expr) {x y : List α} :
    (ps.flatMap (Piece.glyphs E)).map g ++ x = (ps.flatMap (Piece.glyphs E')).map g ++ y ↔
      (∀ expr ∈ ps.filterMap Piece.expr?, (E expr).map g = (E' expr).map g) ∧ x = y := by
  induction ps with
  | nil => exact (and_iff_right (List.forall_mem_nil _)).symm
  | cons p ps ih =>
    rw [List.flatMap_cons, List.flatMap_cons, List.map_append, List.map_append, List.append_assoc,
      List.append_assoc]
    cases p with
    | chars s =>
      exact List.append_right_inj _ |>.trans (ih hapart)
    | expr e =>
      rw [exprs_cons] at hapart ⊢
      obtain ⟨he, hps⟩ := List.forall_mem_cons.mp hapart
      have hglyphs (F : Bytes → List Glyph) (z : List α) :
          ((Piece.expr e).glyphs F).map g ++ z =
            g (.bracket, openBrace) :: ((F e).map g ++ g (.bracket, closeBrace) :: z) := by
        rw [Piece.glyphs, List.map_append, List.map_append, List.append_assoc, List.append_assoc]
        rfl
      rw [hglyphs, hglyphs, List.cons_inj_right, he.append_cons_iff, ih hps, List.forall_mem_cons,
        and_assoc]

theorem glueGlyphs_map_eq_iff {s : Bytes} (hapart : ∀ expr ∈ interpolations s, Apart g E E' expr)
    {x y : List α} :
    (glueGlyphs E s).map g ++ x = (glueGlyphs E' s).map g ++ y ↔
      (∀ expr ∈ interpolations s, (E expr).map g = (E' expr).map g) ∧ x = y := by
  unfold interpolations at hapart ⊢
  unfold glueGlyphs
  split
  · rename_i hquoted
    rw [if_pos hquoted, exprsFrom_eq] at hapart
    rw [exprsFrom_eq]
    simp only [List.map_append, List.append_assoc, List.append_right_inj]
    exact (pieces_map_eq_iff hapart).trans (and_congr_right' (List.append_right_inj _))
  · rw [List.append_right_inj]
    exact (and_iff_right (List.forall_mem_nil _)).symm

/-- Of two ways to style expressions, seen through `g`: the lines are equal when the interpolated
expressions are. -/
theorem lineGlyphs_map_eq_iff {ts : List Token}
    (hapart : ∀ s, GlueArgument ts s → ∀ expr ∈ interpolations s, Apart g E E' expr) :
    (lineGlyphs (glueGlyphs E) ts).map g = (lineGlyphs (glueGlyphs E') ts).map g ↔
      ∀ s, GlueArgument ts s → ∀ expr ∈ interpolations s, (E expr).map g = (E' expr).map g := by
  induction ts using glueInduction with
  | nil => exact ⟨fun _ s hs => (by cases hs), fun _ => rfl⟩
  | glue f s ts hf ih =>
    rw [lineGlyphs_glue _ hf, lineGlyphs_glue _ hf]
    simp only [List.map_append, List.append_assoc, List.append_right_inj]
    rw [glueGlyphs_map_eq_iff (hapart s (.here hf)),
      ih fun s' hs' => hapart s' (.later (.later (.later hs')))]
    simp only [glueArgument_cons_iff hf, forall_eq_or_imp]
  | token t ts hg ih =>
    simp only [glueArgument_cons_token_iff hg] at hapart ⊢
    rw [lineGlyphs_token _ hg, lineGlyphs_token _ hg, List.map_append, List.map_append,
      List.append_right_inj, ih hapart]

end

/-! ## Calls -/

/-- A name stands in front of a parenthesis. -/
inductive Calls : List Token → Prop where
  | here {f : Bytes} {ts : List Token} : Calls (.ident f :: .leftParen :: ts)
  | later {t : Token} {ts : List Token} : Calls ts → Calls (t :: ts)

theorem GlueArgument.calls {ts : List Token} {s : Bytes} (h : GlueArgument ts s) : Calls ts := by
  induction h with
  | here _ => exact .here
  | later _ ih => exact .later ih

/-- Only the name of a function called is styled by what follows it. -/
theorem tokenStyle_eq_or (t : Token) (ts : List Token) :
    tokenStyle t ts = styleOfToken t ∨
      (tokenStyle t ts = .function ∧ styleOfToken t = .ident ∧ Calls (t :: ts)) := by
  cases t with
  | ident f =>
    cases ts with
    | nil => exact .inl rfl
    | cons t₁ ts =>
      cases t₁ with
      | leftParen => exact .inr ⟨rfl, rfl, .here⟩
      | _ => exact .inl rfl
  | _ => exact .inl rfl

theorem calls_cons_iff {t : Token} {ts : List Token} (h : tokenStyle t ts = styleOfToken t) :
    Calls (t :: ts) ↔ Calls ts := by
  refine ⟨fun hcalls => ?_, .later⟩
  cases hcalls with
  | here => cases h
  | later hcalls => exact hcalls

theorem styles_inStyle_append_ne {style style' : Style} (h : style ≠ style') {s : Bytes}
    (hs : s ≠ []) (u v : List Style) :
    styles (inStyle style s) ++ u ≠ styles (inStyle style' s) ++ v := by
  obtain ⟨c, s, rfl⟩ := List.exists_cons_of_ne_nil hs
  exact fun heq => h (List.cons.inj heq).1

/-- Tokens styled one by one have the styles of a line exactly when nothing is called in it. -/
theorem styles_tokenGlyphs_eq_iff {glue : Bytes → List Glyph} {ts : List Token}
    (hne : ∀ t ∈ ts, tokenToLexeme t ≠ []) :
    styles (tokenGlyphs ts) = styles (lineGlyphs glue ts) ↔ ¬ Calls ts := by
  have hcons (t : Token) (ts : List Token) :
      styles (tokenGlyphs (t :: ts)) =
        styles (inStyle (styleOfToken t) (tokenToLexeme t)) ++ styles (tokenGlyphs ts) :=
    styles_append _ _
  have hdiffer : Style.ident ≠ Style.function := by decide
  induction ts using glueInduction with
  | nil => exact ⟨fun _ hcalls => (by cases hcalls), fun _ => rfl⟩
  | glue f s ts hf ih =>
    refine ⟨fun h => ?_, fun hno => absurd .here hno⟩
    rw [hcons, lineGlyphs_glue glue hf, List.append_assoc, List.append_assoc, styles_append] at h
    exact absurd h (styles_inStyle_append_ne hdiffer (hne _ List.mem_cons_self) _ _)
  | token t ts hg ih =>
    obtain ⟨ht, hts⟩ := List.forall_mem_cons.mp hne
    rw [hcons, lineGlyphs_token _ hg, styles_append]
    obtain hstyle | ⟨hfunction, hident, hcalls⟩ := tokenStyle_eq_or t ts
    · rw [hstyle, List.append_right_inj, calls_cons_iff hstyle]
      exact ih hts
    · rw [hfunction, hident]
      exact ⟨fun h => absurd h (styles_inStyle_append_ne hdiffer ht _ _),
        fun hno => absurd hcalls hno⟩

/-! ## Interpolated expressions -/

section
variable [Ucd]

/-- An expression that is lexed without loss, and in which nothing is called. -/
def CallFree (expr : Bytes) : Prop :=
  ∃ ts m, lexLine .normal expr = .ok (ts, m) ∧ lexemes ts = expr ∧ ¬ Calls ts

theorem apart_text {expr : Bytes} {ts : List Token} {m : RLexer.Mode}
    (h : lexLine .normal expr = .ok (ts, m)) :
    Apart Prod.snd lexedGlyphs (inStyle .plain) expr := by
  obtain ⟨cs, hcs, hlexes⟩ := RLexer.lexLine_lexes h
  obtain ⟨extra, hextra, hhead⟩ := hlexes.lexemes_line rfl
  rw [Utf8.encode_of_decode hcs] at hextra
  have hlexed : (lexedGlyphs expr).map Prod.snd = lexemes ts := by
    rw [lexedGlyphs_of_lexLine h]
    exact text_tokenGlyphs ts
  have hplain : (inStyle .plain expr).map Prod.snd = expr := text_inStyle .plain expr
  intro x y hxy
  rw [hlexed, hplain] at hxy ⊢
  -- what is missing or stands twice does not start with a brace
  have hempty {u v : Bytes} (huv : closeBrace :: u = extra ++ closeBrace :: v) : extra = [] := by
    cases extra with
    | nil => rfl
    | cons c extra =>
      have hc := hhead c rfl
      rw [← (List.cons.inj huv).1] at hc
      exact absurd hc (by decide)
  obtain hextra | hextra := hextra
  · rw [hextra, List.append_assoc, List.append_right_inj] at hxy
    rw [hextra, hempty hxy, List.append_nil]
  · rw [hextra, List.append_assoc, List.append_right_inj] at hxy
    rw [hextra, hempty hxy.symm, List.append_nil]

/-- The ranges of an expression that is lexed without loss style it as a line of its own. -/
theorem styles_exprGlyphs {depth : Nat} {expr : Bytes} {ts : List Token} {m : RLexer.Mode}
    (hlex : lexLine .normal expr = .ok (ts, m)) (hlossless : lexemes ts = expr)
    {ranges : List StyledRange} (h : exprRanges (depth + 1) expr = .ok ranges) :
    styles (exprGlyphs (depth + 1) expr) =
      styles (lineGlyphs (glueGlyphs (exprGlyphs depth)) ts) := by
  obtain ⟨⟨ts', m'⟩, hlex', h'⟩ := bind_eq_ok.mp h
  rw [hlex] at hlex'
  cases hlex'
  obtain ⟨l, hl, h'⟩ := bind_eq_ok.mp h'
  cases h'
  obtain ⟨hlays, hlength⟩ := rangesAt_lays hl
  rw [hlossless] at hlength
  exact (exprGlyphs_lays h (exprRanges_tiles _ h)).1.unique (normalizeRanges_lays hlays hlength)

/-- Spans and ranges style an expression alike exactly when nothing is called in it. -/
theorem exprGlyphs_eq_iff {depth : Nat} {expr : Bytes} {ranges : List StyledRange}
    (h : exprRanges (depth + 1) expr = .ok ranges) :
    (text (lexedGlyphs expr) = expr ∧
      styles (lexedGlyphs expr) = styles (exprGlyphs (depth + 1) expr)) ↔ CallFree expr := by
  obtain ⟨⟨ts, m⟩, hlex, -⟩ := bind_eq_ok.mp h
  obtain ⟨cs, -, hlexes⟩ := RLexer.lexLine_lexes hlex
  have hcalls (hlossless : lexemes ts = expr) :
      styles (tokenGlyphs ts) = styles (exprGlyphs (depth + 1) expr) ↔ ¬ Calls ts := by
    rw [styles_exprGlyphs hlex hlossless h]
    exact styles_tokenGlyphs_eq_iff hlexes.lexeme_ne_nil
  rw [lexedGlyphs_of_lexLine hlex, text_tokenGlyphs]
  constructor
  · rintro ⟨hlossless, hstyles⟩
    exact ⟨ts, m, hlex, hlossless, (hcalls hlossless).mp hstyles⟩
  · rintro ⟨ts', m', hlex', hlossless, hno⟩
    rw [hlex] at hlex'
    cases hlex'
    exact ⟨hlossless, (hcalls hlossless).mpr hno⟩

/-! ## Lines -/

/-- The spans of the tokens and their normalized ranges give every byte of the line one style. -/
def SameStyles (line : Bytes) (ts : List Token) : Prop :=
  ∃ spans ranges, tokensToSpans ts = .ok spans ∧ rangesForTokens ts = .ok ranges ∧
    text (spanGlyphs spans) = line ∧
    ∀ i style, Paints (normalizeRanges line.length ranges) i style ↔
      (styles (spanGlyphs spans))[i]? = some style

/-- Highlighting does not fail where no interpolation calls anything. -/
theorem highlights_of_callFree {ts : List Token}
    (h : ∀ s, GlueArgument ts s → ∀ expr ∈ interpolations s, CallFree expr) : Highlights ts := by
  refine .intro (fun s expr hs hexpr => ?_) fun s expr exprTokens m hs hexpr hlex => ?_
  · obtain ⟨ts', m', hlex, -⟩ := h s hs expr hexpr
    exact ⟨_, hlex⟩
  · obtain ⟨ts', m', hlex', -, hno⟩ := h s hs expr hexpr
    rw [hlex] at hlex'
    cases hlex'
    exact .intro (fun s' _ hs' => absurd hs'.calls hno) fun s' _ _ _ hs' => absurd hs'.calls hno

theorem paints_iff_styles_eq {line : Bytes} {ts : List Token} (hline : lexemes ts = line)
    {ranges : List StyledRange} (h : rangesForTokens ts = .ok ranges) (ls : List Style) :
    (∀ i style, Paints (normalizeRanges line.length ranges) i style ↔ ls[i]? = some style) ↔
      ls = styles (lineGlyphs (glueGlyphs (exprGlyphs line.length)) ts) := by
  rw [← hline]
  obtain ⟨hlays, hlength⟩ := rangesAt_lays h
  have hnormal := normalizeRanges_lays hlays hlength
  constructor
  · intro hpaints
    refine List.ext_getElem? fun i => Option.ext fun style => ?_
    rw [← hpaints, hnormal.paints]
    exact and_iff_right (Nat.zero_le i)
  · rintro rfl i style
    rw [hnormal.paints]
    exact and_iff_right (Nat.zero_le i)

theorem text_lexed_iff {ts : List Token}
    (h : ∀ s, GlueArgument ts s → ∀ expr ∈ interpolations s, ∃ r, lexLine .normal expr = .ok r) :
    text (lineGlyphs (glueGlyphs lexedGlyphs) ts) = lexemes ts ↔
      ∀ s, GlueArgument ts s → ∀ expr ∈ interpolations s, text (lexedGlyphs expr) = expr := by
  have hplain (expr : Bytes) : text (inStyle .plain expr) = expr := text_inStyle .plain expr
  have hapart : ∀ s, GlueArgument ts s → ∀ expr ∈ interpolations s,
      Apart Prod.snd lexedGlyphs (inStyle .plain) expr := fun s hs expr he => by
    obtain ⟨⟨ts', m⟩, hlex⟩ := h s hs expr he
    exact apart_text hlex
  have hiff : text (lineGlyphs (glueGlyphs lexedGlyphs) ts) =
      text (lineGlyphs (glueGlyphs (inStyle .plain)) ts) ↔
        ∀ s, GlueArgument ts s → ∀ expr ∈ interpolations s,
          text (lexedGlyphs expr) = text (inStyle .plain expr) := lineGlyphs_map_eq_iff hapart
  rw [lineGlyphs_text hplain] at hiff
  simp only [hplain] at hiff
  exact hiff

theorem styles_lexed_iff {depth : Nat} {ts : List Token}
    (htext : ∀ s, GlueArgument ts s → ∀ expr ∈ interpolations s, text (lexedGlyphs expr) = expr)
    (h : ∀ s, GlueArgument ts s → ∀ expr ∈ interpolations s, ∃ r, exprRanges depth expr = .ok r) :
    styles (lineGlyphs (glueGlyphs lexedGlyphs) ts) =
      styles (lineGlyphs (glueGlyphs (exprGlyphs depth)) ts) ↔
        ∀ s, GlueArgument ts s → ∀ expr ∈ interpolations s,
          styles (lexedGlyphs expr) = styles (exprGlyphs depth expr) := by
  have hapart : ∀ s, GlueArgument ts s → ∀ expr ∈ interpolations s,
      Apart Prod.fst lexedGlyphs (exprGlyphs depth) expr := fun s hs expr he => by
    obtain ⟨r, hr⟩ := h s hs expr he
    have hlexed := length_styles (lexedGlyphs expr)
    rw [htext s hs expr he] at hlexed
    exact endsApart_of_length (hlexed.trans (exprGlyphs_lays hr (exprRanges_tiles depth hr)).2.symm)
  exact lineGlyphs_map_eq_iff hapart

/-- The highlighters agree on a line exactly when nothing is called in its interpolations, and none
of them ends in what the lexer drops or reads twice. -/
theorem sameStyles_iff {line : Bytes} {ts : List Token} (hline : lexemes ts = line) :
    SameStyles line ts ↔
      ∀ s, GlueArgument ts s → ∀ expr ∈ interpolations s, CallFree expr := by
  have hexprs {ranges : List StyledRange} (h : rangesForTokens ts = .ok ranges) :
      ∀ s, GlueArgument ts s → ∀ expr ∈ interpolations s,
        ∃ r, exprRanges line.length expr = .ok r := by
    rw [← hline]
    exact (rangesLoop_returns_iff ts 0).mp ⟨ranges, h⟩
  -- a line with an interpolation is not empty, so its expressions are styled one level below it
  have hexpr {ranges : List StyledRange} (h : rangesForTokens ts = .ok ranges) {s expr : Bytes}
      (hs : GlueArgument ts s) (he : expr ∈ interpolations s) :
      (text (lexedGlyphs expr) = expr ∧
        styles (lexedGlyphs expr) = styles (exprGlyphs line.length expr)) ↔ CallFree expr := by
    have hshort := interpolations_length_lt he
    have hlong : s.length ≤ line.length := hline ▸ string_length_le hs.string_mem
    obtain ⟨r, hr⟩ := hexprs h s hs expr he
    obtain ⟨depth, hdepth⟩ := Nat.exists_eq_succ_of_ne_zero (show line.length ≠ 0 by omega)
    rw [hdepth] at hr ⊢
    exact exprGlyphs_eq_iff hr
  constructor
  · rintro ⟨spans, ranges, hspans, hranges, htext, hpaints⟩ s hs expr he
    have hstyles := (paints_iff_styles_eq hline hranges _).mp hpaints
    rw [tokensToSpans_glyphs hspans] at htext hstyles
    have hlexed := (tokensToSpans_returns_iff ts).mp ⟨spans, hspans⟩
    have htexts := (text_lexed_iff hlexed).mp (htext.trans hline.symm)
    have hstyles := (styles_lexed_iff htexts (hexprs hranges)).mp hstyles
    exact (hexpr hranges hs he).mp ⟨htexts s hs expr he, hstyles s hs expr he⟩
  · intro hfree
    have hlexed : ∀ s, GlueArgument ts s → ∀ expr ∈ interpolations s,
        ∃ r, lexLine .normal expr = .ok r := fun s hs expr he => by
      obtain ⟨ts', m, hlex, -⟩ := hfree s hs expr he
      exact ⟨_, hlex⟩
    obtain ⟨spans, hspans⟩ := (tokensToSpans_returns_iff ts).mpr hlexed
    obtain ⟨ranges, hranges⟩ := (rangesForTokens_returns_iff ts).mpr (highlights_of_callFree hfree)
    have hboth := fun s hs expr he => (hexpr hranges hs he).mpr (hfree s hs expr he)
    have htexts := fun s hs expr he => (hboth s hs expr he).1
    refine ⟨spans, ranges, hspans, hranges, ?_, ?_⟩
    · rw [tokensToSpans_glyphs hspans, (text_lexed_iff hlexed).mpr htexts, hline]
    · refine (paints_iff_styles_eq hline hranges _).mpr ?_
      rw [tokensToSpans_glyphs hspans]
      exact (styles_lexed_iff htexts (hexprs hranges)).mpr fun s hs expr he =>
        (hboth s hs expr he).2

end

/-! ## A call in an interpolation, and none -/

attribute [local instance] asciiUcd

def interpolatedCall : Bytes := bytes "glue(\"\x7bf(x)\x7d\")"

/-- `f` is the name of a function to the ranges and a name to the spans. -/
theorem sameStyles_interpolatedCall : ∃ ts m, lexLine .normal interpolatedCall = .ok (ts, m) ∧
    lexemes ts = interpolatedCall ∧ ¬ SameStyles interpolatedCall ts := by
  obtain ⟨ts, m, hlex, hlexemes, ⟨spans, hspans, hident⟩, ranges, range, hranges, hrange, hcovers,
      hfunction⟩ : ∃ ts m, lexLine .normal interpolatedCall = .ok (ts, m) ∧
        lexemes ts = interpolatedCall ∧
        (∃ spans, tokensToSpans ts = .ok spans ∧ (styles (spanGlyphs spans))[7]? = some .ident) ∧
        ∃ ranges range, rangesForTokens ts = .ok ranges ∧
          range ∈ normalizeRanges interpolatedCall.length ranges ∧ Covers range 7 ∧
          Tile.label range = .function := by
    refine ⟨_, _, rfl, rfl, ⟨_, rfl, rfl⟩, _, ⟨7, 8, .function⟩, rfl, ?_, ⟨?_, ?_⟩, rfl⟩
    · decide
    · decide
    · decide
  refine ⟨ts, m, hlex, hlexemes, ?_⟩
  rintro ⟨spans', ranges', hspans', hranges', -, hpaints⟩
  obtain rfl := Except.ok.inj (hspans.symm.trans hspans')
  obtain rfl := Except.ok.inj (hranges.symm.trans hranges')
  have hstyle := (hpaints 7 .function).mp ⟨range, hrange, hcovers, hfunction⟩
  rw [hident] at hstyle
  cases hstyle

def interpolatedName : Bytes := bytes "glue(\"a\x7bx\x7d\")"

theorem sameStyles_interpolatedName : ∃ ts m, lexLine .normal interpolatedName = .ok (ts, m) ∧
    SameStyles interpolatedName ts := by
  have hlex : lexLine .normal interpolatedName = .ok ([.ident (bytes "glue"), .leftParen,
    .string (bytes "\"a\x7bx\x7d\""), .rightParen], .normal) := rfl
  have hname : CallFree (bytes "x") := by
    refine ⟨[.ident (bytes "x")], .normal, rfl, rfl, ?_⟩
    rintro (_ | hcalls)
    cases hcalls
  refine ⟨_, _, hlex, (sameStyles_iff rfl).mpr fun s hs expr he => ?_⟩
  obtain rfl | hs := (glueArgument_cons_iff (by decide)).mp hs
  · have hexprs : interpolations (bytes "\"a\x7bx\x7d\"") = [bytes "x"] := by decide
    rw [hexprs, List.mem_singleton] at he
    rw [he]
    exact hname
  · cases hs.string_mem with
    | tail _ hmem => cases hmem

end RHighlight
end Raoui
