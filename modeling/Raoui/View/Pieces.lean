import Raoui.View.Highlights
import Raoui.View.Painting

/-!
# Raoui.View.Pieces

The styles of a line, byte by byte: what both highlighters aim at. A literal given to `glue` is cut
into pieces of text and interpolated expressions; how an expression is styled is a parameter.

* `pieces_text`, `exprsFrom_eq`: the pieces are the literal, and their expressions those that are
  lexed.
* `lineGlyphs_text`: styling keeps the text.
* `rangesLoop_lays`: the ranges of the tokens have these styles.
-/

namespace Raoui
namespace RHighlight

open Outcome (bind_eq_ok)
open RLexer (Token tokenToLexeme lexemes lexemes_cons)
open TerminalOps (Style)
open Tiling

/-- A byte in a style. -/
abbrev Glyph := Style × UInt8

def inStyle (style : Style) (s : Bytes) : List Glyph := s.map fun c => (style, c)

def styles (glyphs : List Glyph) : List Style := glyphs.map Prod.fst

def text (glyphs : List Glyph) : Bytes := glyphs.map Prod.snd

@[simp] theorem text_append (u v : List Glyph) : text (u ++ v) = text u ++ text v := List.map_append

@[simp] theorem styles_append (u v : List Glyph) : styles (u ++ v) = styles u ++ styles v :=
  List.map_append

@[simp] theorem text_inStyle (style : Style) (s : Bytes) : text (inStyle style s) = s := by
  rw [text, inStyle, List.map_map]
  exact List.map_id s

@[simp] theorem styles_inStyle (style : Style) (s : Bytes) :
    styles (inStyle style s) = List.replicate s.length style := by
  rw [styles, inStyle, List.map_map]
  exact List.map_const'

theorem length_styles (glyphs : List Glyph) : (styles glyphs).length = (text glyphs).length := by
  rw [styles, text, List.length_map, List.length_map]

/-! ## The pieces of a literal -/

inductive Piece where
  | chars (s : Bytes)
  | expr (e : Bytes)

/-- The pieces of the inside of a literal, as `parse` finds them. -/
def piecesOf : Nat → Bytes → List Piece
  | 0, _ => []
  | _ + 1, [] => []
  | fuel + 1, c :: rest =>
    if c = openBrace then
      if rest.head? = some openBrace then .chars [c, openBrace] :: piecesOf fuel (rest.drop 1)
      else
        match findClose 1 0 rest with
        | none => [.chars (c :: rest)]
        | some k => .expr (rest.take k) :: piecesOf fuel (rest.drop (k + 1))
    else if c = closeBrace then
      if rest.head? = some closeBrace then .chars [c, closeBrace] :: piecesOf fuel (rest.drop 1)
      else .chars [c] :: piecesOf fuel rest
    else
      let n := findBrace 0 (c :: rest)
      .chars ((c :: rest).take n) :: piecesOf fuel ((c :: rest).drop n)

def pieces (s : Bytes) : List Piece := piecesOf s.length ((s.take (innerEnd s)).drop 1)

def Piece.text : Piece → Bytes
  | .chars s => s
  | .expr e => openBrace :: e ++ [closeBrace]

def Piece.expr? : Piece → Option Bytes
  | .chars _ => none
  | .expr e => some e

theorem exprs_cons (e : Bytes) (ps : List Piece) :
    (Piece.expr e :: ps).filterMap Piece.expr? = e :: ps.filterMap Piece.expr? := rfl

def Piece.glyphs (E : Bytes → List Glyph) : Piece → List Glyph
  | .chars s => inStyle .string s
  | .expr e => inStyle .bracket [openBrace] ++ E e ++ inStyle .bracket [closeBrace]

theorem findClose_add (depth pos k : Nat) (s : Bytes) :
    findClose depth (pos + k) s = (findClose depth pos s).map (· + k) := by
  induction s generalizing depth pos with
  | nil => rfl
  | cons c s ih =>
    unfold findClose
    rw [Nat.add_right_comm, ih, ih, ih]
    split
    · rfl
    · split
      · split
        · rfl
        · rfl
      · rfl

theorem findClose_closes {depth k : Nat} {s : Bytes} (h : findClose depth 0 s = some k) :
    s = s.take k ++ closeBrace :: s.drop (k + 1) := by
  induction s generalizing depth k with
  | nil => cases h
  | cons c s ih =>
    have hlater {d : Nat} (hd : findClose d 1 s = some k) :
        c :: s = (c :: s).take k ++ closeBrace :: (c :: s).drop (k + 1) := by
      rw [show (1 : Nat) = 0 + 1 from rfl, findClose_add, Option.map_eq_some_iff] at hd
      obtain ⟨j, hj, rfl⟩ := hd
      rw [List.take_succ_cons, List.drop_succ_cons, List.cons_append, ← ih hj]
    unfold findClose at h
    split at h
    · exact hlater h
    · split at h
      · rename_i hclose
        split at h
        · cases h
          rw [hclose]
          rfl
        · exact hlater h
      · exact hlater h

theorem findBrace_add (pos k : Nat) (s : Bytes) : findBrace (pos + k) s = findBrace pos s + k := by
  induction s generalizing pos with
  | nil => rfl
  | cons c s ih =>
    unfold findBrace
    rw [Nat.add_right_comm, ih]
    split
    · rfl
    · rfl

theorem findBrace_le (s : Bytes) : findBrace 0 s ≤ s.length := by
  induction s with
  | nil => exact Nat.le_refl 0
  | cons c s ih =>
    unfold findBrace
    split
    · exact Nat.zero_le _
    · rw [show (0 : Nat) + 1 = 0 + 1 from rfl, findBrace_add, List.length_cons]
      omega

theorem findBrace_pos {c : UInt8} (h : ¬ c = openBrace) (h' : ¬ c = closeBrace) (s : Bytes) :
    0 < findBrace 0 (c :: s) := by
  rw [findBrace, if_neg (not_or.mpr ⟨h, h'⟩), findBrace_add]
  omega

/-- The pieces put together again. -/
theorem piecesOf_text {fuel : Nat} {u : Bytes} (h : u.length ≤ fuel) :
    (piecesOf fuel u).flatMap Piece.text = u := by
  induction fuel generalizing u with
  | zero =>
    rw [List.length_eq_zero_iff.mp (Nat.le_zero.mp h)]
    rfl
  | succ fuel ih =>
    cases u with
    | nil => rfl
    | cons c rest =>
      rw [List.length_cons] at h
      have hdouble {b : UInt8} (hb : rest.head? = some b) :
          c :: b :: (rest.drop 1) = c :: rest := by
        obtain ⟨rest', rfl⟩ := List.head?_eq_some_iff.mp hb
        rfl
      unfold piecesOf
      split
      · rename_i hc
        split
        · rename_i hb
          rw [List.flatMap_cons, ih (by rw [List.length_drop]; omega)]
          exact hdouble hb
        · split
          · exact List.append_nil _
          · rename_i k hclose
            rw [List.flatMap_cons, ih (by rw [List.length_drop]; omega), Piece.text, hc,
              List.cons_append, List.cons_append, List.append_assoc, List.singleton_append,
              ← findClose_closes hclose]
      · split
        · split
          · rename_i hb
            rw [List.flatMap_cons, ih (by rw [List.length_drop]; omega)]
            exact hdouble hb
          · rw [List.flatMap_cons, ih (by omega)]
            rfl
        · rename_i hopen hclose
          have hpos := findBrace_pos hopen hclose rest
          dsimp only
          rw [List.flatMap_cons, ih (by rw [List.length_drop, List.length_cons]; omega)]
          exact List.take_append_drop _ _

theorem pieces_text {s : Bytes} (h : isDoubleQuoted s = true) :
    doubleQuote :: (pieces s).flatMap Piece.text ++ (if hasClose s then [doubleQuote] else []) =
      s := by
  rw [isDoubleQuoted, Bool.and_eq_true, decide_eq_true_eq, decide_eq_true_eq] at h
  obtain ⟨hlen, hhead⟩ := h
  obtain ⟨rest, rfl⟩ := List.head?_eq_some_iff.mp hhead
  rw [List.length_cons] at hlen
  rw [pieces, piecesOf_text (by rw [List.length_drop, List.length_take]; omega), innerEnd]
  split
  · rename_i hclose
    obtain ⟨init, hinit⟩ := List.getLast?_eq_some_iff.mp (of_decide_eq_true hclose)
    rw [hinit, List.length_append, List.length_singleton, Nat.add_sub_cancel, List.take_left]
    cases init with
    | nil =>
      cases hinit
      exact absurd hlen (by decide)
    | cons c init =>
      obtain rfl : doubleQuote = c := (List.cons.inj hinit).1
      rfl
  · rw [List.take_length, List.append_nil]
    rfl

/-- What is left from `pos` on, after `j` bytes more. -/
theorem drop_of_cons {u rest : Bytes} {pos : Nat} {c : UInt8} (h : u.drop pos = c :: rest)
    (j : Nat) :
    u.drop (pos + 1 + j) = rest.drop j := by
  rw [Nat.add_assoc, ← List.drop_drop, h, Nat.add_comm, List.drop_succ_cons]

theorem exprsFrom_eq (s : Bytes) (inner fuel pos : Nat) :
    exprsFrom s inner fuel pos =
      (piecesOf fuel ((s.take inner).drop pos)).filterMap Piece.expr? := by
  induction fuel generalizing pos with
  | zero => rfl
  | succ fuel ih =>
    unfold exprsFrom
    cases hu : (s.take inner).drop pos with
    | nil => rfl
    | cons c rest =>
      have hdrop (j : Nat) := drop_of_cons hu j
      have hclose := findClose_add 1 0 (pos + 1) rest
      have hbrace := findBrace_add 0 pos (c :: rest)
      rw [Nat.zero_add] at hclose hbrace
      unfold piecesOf
      dsimp only
      split
      · split
        · rw [ih, show pos + 2 = pos + 1 + 1 from rfl, hdrop]
          rfl
        · rw [hclose]
          cases findClose 1 0 rest with
          | none => rfl
          | some k =>
            dsimp only [Option.map_some]
            rw [ih, Nat.add_sub_cancel, show k + (pos + 1) + 1 = pos + 1 + (k + 1) by omega, hdrop]
            rfl
      · split
        · split
          · rw [ih, show pos + 2 = pos + 1 + 1 from rfl, hdrop]
            rfl
          · rw [ih, show pos + 1 = pos + 1 + 0 from rfl, hdrop]
            rfl
        · rw [ih, hbrace, Nat.add_comm, ← List.drop_drop, hu]
          rfl

/-! ## Glyphs -/

def glueGlyphs (E : Bytes → List Glyph) (s : Bytes) : List Glyph :=
  if isDoubleQuoted s then
    inStyle .string [doubleQuote] ++ (pieces s).flatMap (Piece.glyphs E) ++
      inStyle .string (if hasClose s then [doubleQuote] else [])
  else inStyle .string s

/-- The glyphs of a line, where `glue` gives those of a literal that is given to it. -/
def lineGlyphs (glue : Bytes → List Glyph) : List Token → List Glyph
  | [] => []
  | .ident f :: .leftParen :: .string s :: ts =>
    if isGlue f then
      inStyle .function f ++ inStyle .bracket (bytes "(") ++ glue s ++ lineGlyphs glue ts
    else inStyle .function f ++ lineGlyphs glue (.leftParen :: .string s :: ts)
  | t :: ts => inStyle (tokenStyle t ts) (tokenToLexeme t) ++ lineGlyphs glue ts

theorem lays_range {a startByte endByte : Nat} (style : Style) {s : Bytes} (hstart : startByte = a)
    (hend : endByte = a + s.length) :
    Lays a (styles (inStyle style s)) [(⟨startByte, endByte, style⟩ : StyledRange)] := by
  have hrange : Tile.stop (⟨startByte, endByte, style⟩ : StyledRange) = a + s.length := hend
  rw [styles_inStyle]
  exact .single hstart hrange

/-- The ranges of an expression between those of its braces. -/
theorem lays_expr {E : Bytes → List Glyph} {expr : Bytes} {r : List StyledRange}
    (hlays : Lays 0 (styles (E expr)) r) (hlength : (styles (E expr)).length = expr.length)
    {a openPos openEnd exprStart closePos closeEnd : Nat} (hopen : openPos = a)
    (hopenEnd : openEnd = a + 1) (hstart : exprStart = a + 1)
    (hclose : closePos = a + 1 + expr.length) (hcloseEnd : closeEnd = closePos + 1) :
    Lays a (styles (Piece.glyphs E (.expr expr)))
      ([⟨openPos, openEnd, .bracket⟩] ++ r.map (shiftRange exprStart) ++
        [⟨closePos, closeEnd, .bracket⟩]) := by
  have hinside : Lays (a + 1) (styles (E expr)) (r.map (shiftRange exprStart)) := by
    have hshift := hlays.shift (f := shiftRange exprStart) fun _ => ⟨rfl, rfl, rfl⟩
    rw [Nat.zero_add] at hshift
    rwa [← hstart]
  have hfirst : Lays a (styles (inStyle .bracket [openBrace]))
      [(⟨openPos, openEnd, .bracket⟩ : StyledRange)] := lays_range .bracket hopen hopenEnd
  have hboth := hfirst.append hinside
  rw [← styles_append] at hboth
  have hlast : Lays (a + (styles (inStyle .bracket [openBrace] ++ E expr)).length)
      (styles (inStyle .bracket [closeBrace]))
      [(⟨closePos, closeEnd, .bracket⟩ : StyledRange)] := by
    have hbefore : closePos = a + (styles (inStyle .bracket [openBrace] ++ E expr)).length := by
      rw [styles_append, List.length_append, hlength, hclose, styles_inStyle, List.length_replicate,
        List.length_singleton, Nat.add_assoc]
    rw [← hbefore]
    exact lays_range .bracket rfl hcloseEnd
  have hall := hboth.append hlast
  rwa [← styles_append] at hall

/-- The ranges found in a literal style its pieces. -/
theorem parseGlue_lays {e : Bytes → Res (List StyledRange)} {E : Bytes → List Glyph}
    (hE : ∀ expr r, e expr = .ok r →
      Lays 0 (styles (E expr)) r ∧ (styles (E expr)).length = expr.length)
    {startByte a inner fuel pos : Nat} {s : Bytes} (hinner : inner ≤ s.length) {ls : List Style}
    {acc l : List StyledRange} (hacc : Lays a ls acc) (hpos : a + ls.length = startByte + pos)
    (h : parseGlue e startByte s inner fuel acc pos = .ok l) :
    Lays a (ls ++ styles ((piecesOf fuel ((s.take inner).drop pos)).flatMap (Piece.glyphs E)))
      l := by
  induction fuel generalizing acc ls pos with
  | zero =>
    cases h
    rw [piecesOf, List.flatMap_nil]
    exact (List.append_nil ls).symm ▸ hacc
  | succ fuel ih =>
    unfold parseGlue at h
    cases hu : (s.take inner).drop pos with
    | nil =>
      rw [hu] at h
      cases h
      rw [piecesOf, List.flatMap_nil]
      exact (List.append_nil ls).symm ▸ hacc
    | cons c rest =>
      rw [hu] at h
      dsimp only at h
      have hdrop (j : Nat) := drop_of_cons hu j
      have hlen := congrArg List.length hu
      rw [List.length_drop, List.length_take, List.length_cons] at hlen
      -- a piece of text is one range, and the search goes on behind it
      have hchars {chars : Bytes} {stop pos' : Nat} {u : Bytes}
          (hstop : stop = startByte + pos + chars.length) (hpos' : pos' = pos + chars.length)
          (hnext : (s.take inner).drop pos' = u)
          (h : parseGlue e startByte s inner fuel (⟨startByte + pos, stop, .string⟩ :: acc) pos' =
            .ok l) :
          Lays a
            (ls ++ styles ((Piece.chars chars :: piecesOf fuel u).flatMap (Piece.glyphs E))) l := by
        have hrange : Lays (a + ls.length) (styles (inStyle .string chars))
            [(⟨startByte + pos, stop, .string⟩ : StyledRange)] := by
          exact lays_range _ hpos.symm (by rw [hpos, hstop])
        have hgo := ih (hacc.push hrange) (by
          rw [List.length_append, styles_inStyle, List.length_replicate]
          omega) h
        rw [hnext, List.append_assoc, ← styles_append] at hgo
        exact hgo
      have hclose := findClose_add 1 0 (pos + 1) rest
      have hbrace := findBrace_add 0 pos (c :: rest)
      rw [Nat.zero_add] at hclose hbrace
      unfold piecesOf
      split at h
      · rename_i hopen
        rw [if_pos hopen]
        split at h
        · rename_i hdouble
          rw [if_pos hdouble]
          exact hchars rfl rfl (hdrop 1) h
        · rename_i hdouble
          rw [if_neg hdouble]
          rw [hclose] at h
          cases hk : findClose 1 0 rest with
          | none =>
            rw [hk] at h
            cases h
            have hrest : startByte + inner = a + ls.length + (c :: rest).length := by
              rw [List.length_cons]
              omega
            rw [List.flatMap_cons, List.flatMap_nil, List.append_nil]
            exact hacc.push (lays_range .string hpos.symm hrest)
          | some k =>
            rw [hk] at h
            dsimp only [Option.map_some] at h
            obtain ⟨r, hr, h⟩ := bind_eq_ok.mp h
            obtain ⟨hlays, hlength⟩ := hE _ r hr
            rw [Nat.add_sub_cancel] at hlays hlength
            obtain ⟨hle, hlt⟩ := findClose_spec hk
            have hexpr : (rest.take k).length = k := by
              rw [List.length_take]
              omega
            have hrest : (s.take inner).drop (k + (pos + 1) + 1) = rest.drop (k + 1) := by
              rw [← hdrop]
              congr 1
              omega
            dsimp only
            rw [List.flatMap_cons, styles_append, ← List.append_assoc, ← hrest]
            refine ih (hacc.push (lays_expr hlays hlength hpos.symm ?_ ?_ ?_ rfl)) ?_ h
            · rw [hpos]
            · rw [hpos, Nat.add_assoc]
            · rw [hpos, hexpr]
              omega
            · rw [List.length_append, Piece.glyphs, styles_append, styles_append, styles_inStyle,
                styles_inStyle, List.length_append, List.length_append, hlength, hexpr]
              simp only [List.length_replicate, List.length_singleton]
              omega
      · rename_i hopen
        rw [if_neg hopen]
        split at h
        · rename_i hc
          rw [if_pos hc]
          split at h
          · rename_i hdouble
            rw [if_pos hdouble]
            exact hchars rfl rfl (hdrop 1) h
          · rename_i hdouble
            rw [if_neg hdouble]
            exact hchars rfl rfl (hdrop 0) h
        · rename_i hc
          rw [if_neg hc]
          have hle := findBrace_le (c :: rest)
          rw [List.length_cons] at hle
          have htaken : ((c :: rest).take (findBrace 0 (c :: rest))).length =
              findBrace 0 (c :: rest) := by
            rw [List.length_take, List.length_cons]
            omega
          refine hchars ?_ ?_ ?_ h
          · rw [hbrace, htaken]
            omega
          · rw [hbrace, htaken]
            omega
          · rw [hbrace, Nat.add_comm, ← List.drop_drop, hu]

/-- Expressions that keep their length leave the pieces their lengths. -/
theorem length_pieceGlyphs {E : Bytes → List Glyph} {ps : List Piece}
    (h : ∀ expr ∈ ps.filterMap Piece.expr?, (styles (E expr)).length = expr.length) :
    (styles (ps.flatMap (Piece.glyphs E))).length = (ps.flatMap Piece.text).length := by
  induction ps with
  | nil => rfl
  | cons p ps ih =>
    rw [List.flatMap_cons, List.flatMap_cons, styles_append, List.length_append, List.length_append]
    cases p with
    | chars s =>
      rw [ih h, Piece.glyphs, styles_inStyle, List.length_replicate]
      rfl
    | expr e =>
      rw [exprs_cons] at h
      obtain ⟨he, hps⟩ := List.forall_mem_cons.mp h
      rw [ih hps, Piece.glyphs, styles_append, styles_append, List.length_append,
        List.length_append, he, styles_inStyle, styles_inStyle, Piece.text, List.length_append]
      simp only [List.length_replicate, List.length_cons, List.length_nil]
      omega

theorem length_glueGlyphs {E : Bytes → List Glyph} {s : Bytes}
    (h : ∀ expr ∈ interpolations s, (styles (E expr)).length = expr.length) :
    (styles (glueGlyphs E s)).length = s.length := by
  unfold glueGlyphs
  split
  · rename_i hquoted
    rw [interpolations, if_pos hquoted, exprsFrom_eq] at h
    have htext := congrArg List.length (pieces_text hquoted)
    rw [List.length_append, List.length_cons] at htext
    have hpieces := length_pieceGlyphs h
    rw [styles_append, styles_append, List.length_append, List.length_append, styles_inStyle,
      styles_inStyle, List.length_replicate, List.length_replicate, List.length_singleton]
    have hsame : pieces s = piecesOf s.length ((s.take (innerEnd s)).drop 1) := rfl
    rw [← hsame] at hpieces
    omega
  · rw [styles_inStyle, List.length_replicate]

theorem glueStringRanges_lays {e : Bytes → Res (List StyledRange)} {E : Bytes → List Glyph}
    (hE : ∀ expr r, e expr = .ok r →
      Lays 0 (styles (E expr)) r ∧ (styles (E expr)).length = expr.length)
    {startByte : Nat} {s : Bytes} {l : List StyledRange}
    (h : glueStringRanges e startByte s = .ok l) :
    Lays startByte (styles (glueGlyphs E s)) l ∧ (styles (glueGlyphs E s)).length = s.length := by
  have hexprs (expr : Bytes) (hexpr : expr ∈ interpolations s) :
      (styles (E expr)).length = expr.length := by
    obtain ⟨r, hr⟩ := (glueStringRanges_returns_iff startByte s).mp ⟨l, h⟩ expr hexpr
    exact (hE expr r hr).2
  have hlength := length_glueGlyphs hexprs
  refine ⟨?_, hlength⟩
  unfold glueStringRanges at h
  unfold glueGlyphs at hlength ⊢
  split at h
  · rename_i hquoted
    cases h
    rw [if_neg (by simpa using hquoted)]
    exact lays_range .string rfl rfl
  · rename_i hquoted
    obtain ⟨acc, hacc, h⟩ := bind_eq_ok.mp h
    cases h
    have hquoted : isDoubleQuoted s = true := by simpa using hquoted
    rw [if_pos hquoted] at hlength ⊢
    have hinner : innerEnd s ≤ s.length := by
      unfold innerEnd
      split
      · exact Nat.sub_le ..
      · exact Nat.le_refl _
    have hfirst : Lays startByte (styles (inStyle .string [doubleQuote]))
      [(⟨startByte, startByte + 1, .string⟩ : StyledRange)] := lays_range .string rfl rfl
    have hpos : startByte + (styles (inStyle .string [doubleQuote])).length = startByte + 1 := rfl
    have hparsed : Lays startByte (styles (inStyle .string [doubleQuote] ++
        (pieces s).flatMap (Piece.glyphs E))) acc := by
      rw [styles_append]
      exact parseGlue_lays hE hinner hfirst hpos hacc
    rw [styles_append, List.length_append, styles_inStyle, List.length_replicate] at hlength
    refine Lays.merge ?_
    rw [styles_append]
    split
    · rename_i hclose
      rw [if_pos hclose, List.length_singleton] at hlength
      exact hparsed.push (lays_range .string (by omega) (by rw [List.length_singleton]; omega))
    · refine (hparsed.append (.nil _)).congr fun r => ?_
      rw [List.append_nil, List.mem_reverse]

theorem lineGlyphs_glue (glue : Bytes → List Glyph) {f : Bytes} (hf : isGlue f = true) (s : Bytes)
    (ts : List Token) : lineGlyphs glue (.ident f :: .leftParen :: .string s :: ts) =
      inStyle .function f ++ inStyle .bracket (bytes "(") ++ glue s ++ lineGlyphs glue ts := by
  rw [lineGlyphs, if_pos hf]

theorem lineGlyphs_token (glue : Bytes → List Glyph) {t : Token} {ts : List Token}
    (hg : ¬ GlueCall t ts) : lineGlyphs glue (t :: ts) =
      inStyle (tokenStyle t ts) (tokenToLexeme t) ++ lineGlyphs glue ts := by
  cases t with
  | ident f =>
    cases ts with
    | nil => rfl
    | cons t₁ ts =>
      cases t₁ with
      | leftParen =>
        cases ts with
        | nil => rfl
        | cons t₂ ts =>
          cases t₂ with
          | string s =>
            rw [lineGlyphs, if_neg fun hf => hg ⟨f, s, ts, rfl, rfl, hf⟩]
            rfl
          | _ => rfl
      | _ => rfl
  | _ => rfl

/-- Styling keeps the text. -/
theorem lineGlyphs_text {E : Bytes → List Glyph} (hE : ∀ expr, text (E expr) = expr)
    (ts : List Token) : text (lineGlyphs (glueGlyphs E) ts) = lexemes ts := by
  have hpieces (ps : List Piece) : text (ps.flatMap (Piece.glyphs E)) = ps.flatMap Piece.text := by
    induction ps with
    | nil => rfl
    | cons p ps ih =>
      rw [List.flatMap_cons, List.flatMap_cons, text_append, ih]
      congr 1
      cases p with
      | chars s => exact text_inStyle .string s
      | expr e =>
        rw [Piece.glyphs, text_append, text_append, hE]
        rfl
  have hglue (s : Bytes) : text (glueGlyphs E s) = s := by
    unfold glueGlyphs
    split
    · rename_i hquoted
      rw [text_append, text_append, hpieces, text_inStyle, text_inStyle]
      exact pieces_text hquoted
    · exact text_inStyle .string s
  induction ts using glueInduction with
  | nil => rfl
  | glue f s ts hf ih =>
    rw [lineGlyphs_glue _ hf, text_append, text_append, text_append, hglue, ih, text_inStyle,
      text_inStyle, List.append_assoc, List.append_assoc]
    rfl
  | token t ts hg ih =>
    rw [lineGlyphs_token _ hg, text_append, text_inStyle, ih]
    rfl

theorem rangesLoop_lays {glueRanges : Nat → Bytes → Res (List StyledRange)}
    {glue : Bytes → List Glyph}
    (hglue : ∀ startByte s l, glueRanges startByte s = .ok l →
      Lays startByte (styles (glue s)) l ∧ (styles (glue s)).length = s.length) (ts : List Token) :
    ∀ pos l, rangesLoop glueRanges (positions pos ts) = .ok l →
      Lays pos (styles (lineGlyphs glue ts)) l ∧
        (styles (lineGlyphs glue ts)).length = (lexemes ts).length := by
  induction ts using glueInduction with
  | nil =>
    intro pos l h
    cases h
    exact ⟨.nil pos, rfl⟩
  | glue f s ts hf ih =>
    intro pos l h
    rw [rangesLoop_glue _ _ hf] at h
    obtain ⟨argument, hargument, h⟩ := bind_eq_ok.mp h
    obtain ⟨tail, htail, h⟩ := bind_eq_ok.mp h
    cases h
    obtain ⟨hargument, hargumentLen⟩ := hglue _ s argument hargument
    obtain ⟨htail, htailLen⟩ := ih _ tail htail
    have hname : (styles (inStyle .function f)).length = f.length := by
      rw [styles_inStyle, List.length_replicate]
    have hcall : Lays pos (styles (inStyle .function f) ++ styles (inStyle .bracket (bytes "(")))
        [(⟨pos, pos + f.length, .function⟩ : StyledRange),
          ⟨pos + f.length, pos + f.length + 1, .bracket⟩] := by
      have hparen : Lays (pos + (styles (inStyle .function f)).length)
          (styles (inStyle .bracket (bytes "(")))
          [(⟨pos + f.length, pos + f.length + 1, .bracket⟩ : StyledRange)] :=
        lays_range _ (by rw [hname]) (by rw [hname]; rfl)
      exact (lays_range .function rfl rfl).append hparen
    have hcallLen : (styles (inStyle .function f) ++ styles (inStyle .bracket (bytes "("))).length =
        f.length + 1 := by
      rw [List.length_append, hname]
      rfl
    have hboth := hcall.append (by rw [hcallLen, ← Nat.add_assoc]; exact hargument)
    have hbothLen : pos + ((styles (inStyle .function f) ++
        styles (inStyle .bracket (bytes "("))) ++ styles (glue s)).length =
        pos + f.length + 1 + s.length := by
      rw [List.length_append, hcallLen, hargumentLen]
      omega
    rw [lineGlyphs_glue glue hf, styles_append, styles_append, styles_append]
    refine ⟨hboth.append (by rw [hbothLen]; exact htail), ?_⟩
    rw [List.length_append, List.length_append, hcallLen, hargumentLen, htailLen, lexemes_cons,
      lexemes_cons, lexemes_cons, List.length_append, List.length_append, List.length_append]
    show f.length + 1 + s.length + _ = f.length + (1 + (s.length + _))
    omega
  | token t ts hg ih =>
    intro pos l h
    rw [rangesLoop_token _ _ hg] at h
    obtain ⟨tail, htail, h⟩ := bind_eq_ok.mp h
    cases h
    obtain ⟨htail, htailLen⟩ := ih _ tail htail
    have hfirst : Lays pos (styles (inStyle (tokenStyle t ts) (tokenToLexeme t)))
        [(⟨pos, pos + (tokenToLexeme t).length, tokenStyle t ts⟩ : StyledRange)] :=
      lays_range _ rfl rfl
    have hlen : (styles (inStyle (tokenStyle t ts) (tokenToLexeme t))).length =
        (tokenToLexeme t).length := by rw [styles_inStyle, List.length_replicate]
    rw [lineGlyphs_token glue hg, styles_append, List.length_append, htailLen, hlen]
    exact ⟨hfirst.append (hlen.symm ▸ htail), (List.length_append ..).symm⟩

end RHighlight
end Raoui
