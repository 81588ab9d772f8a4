import Raoui.Md.Outline
import Raoui.Md.Tty
import Raoui.View.SameStyles

/-!
# Raoui.Md.Render

`highlight_code` and `render` of `lib/md_tty.ml`: the rows that go to the terminal. Code in R, and
code that is not said to be in another language, is highlighted; a code block then stands behind
blanks, and a blank row parts two blocks.

* `highlightCode_returns_iff`: code can be shown when its lines can be lexed.
* `highlightCode_text`: what the lexer keeps is shown as it stands.
* `render_text`: the rows of a document, as text.
-/

namespace Raoui

open Outcome (bind_eq_ok bind_returns_iff bind_pure_returns_iff)

namespace MdTty

open RLexer (Token lexLine lexemes)
open RHighlight (highlightLine tokensToSpans interpolations GlueArgument)
open TerminalOps (Span)

section
variable [Ucd]

/-- The spans of the lines from one on that the lexer enters in `mode`. -/
def highlightLines (mode : RLexer.Mode) : List Bytes → Res (List (List Span))
  | [] => return []
  | line :: lines => do
    let (spans, mode') ← highlightLine mode line
    return spans :: (← highlightLines mode' lines)

/-- The fence says R, or nothing. -/
def isR (info : Bytes) : Bool :=
  let lang := lowercaseAscii (trim info)
  lang = bytes "r" || lang = []

def highlightCode (info code : Bytes) : Res (List (List Span)) :=
  let lines := splitOnChar newline code
  if isR info then highlightLines .normal lines
  else return lines.map fun line => [(.plain, line)]

/-- The rows of code behind their blanks. -/
def indentRows (indent : Int) (hl : List (List Span)) : List (List Span) :=
  if indent ≤ 0 then hl
  else hl.map fun line => (.plain, List.replicate indent.toNat MdLayout.space) :: line

def linesOfBlock (theme : Theme.T) : MdLayout.Block → Res (List (List Span))
  | .lines ls => return ls.map fun line => line.map (spanOf theme)
  | .code c => do
    return indentRows c.indent (← highlightCode c.info c.code)

/-- `join`. -/
def joinBlocks {α : Type} : List (List (List α)) → List (List α)
  | [] => []
  | [x] => x
  | x :: rest => x ++ [[]] ++ joinBlocks rest

def blocksRows (theme : Theme.T) : List MdLayout.Block → Res (List (List (List Span)))
  | [] => return []
  | b :: blocks => do
    let rows ← linesOfBlock theme b
    return rows :: (← blocksRows theme blocks)

def render (width : Int) (theme : Theme.T) (doc : MdLayout.Doc) : Res (List (List Span)) := do
  return joinBlocks (← blocksRows theme (MdLayout.render measure width doc))

end

/-! ## Code -/

def rowText (row : List Span) : Bytes := row.flatMap fun s => s.2

section
variable [Ucd]

/-- The lines can be lexed one after the other, and so can the expressions in their literals. -/
def CanShow (mode : RLexer.Mode) : List Bytes → Prop
  | [] => True
  | line :: lines => ∃ ts m, lexLine mode line = .ok (ts, m) ∧
      (∀ s, GlueArgument ts s → ∀ expr ∈ interpolations s, ∃ r, lexLine .normal expr = .ok r) ∧
      CanShow m lines

/-- The lexer keeps the text of the lines, and of the expressions in their literals. -/
def Keeps (mode : RLexer.Mode) : List Bytes → Prop
  | [] => True
  | line :: lines => ∀ ts m, lexLine mode line = .ok (ts, m) → lexemes ts = line ∧
      (∀ s, GlueArgument ts s → ∀ expr ∈ interpolations s, ∀ ts' m',
        lexLine .normal expr = .ok (ts', m') → lexemes ts' = expr) ∧
      Keeps m lines

theorem highlightLines_returns_iff (mode : RLexer.Mode) (lines : List Bytes) :
    (∃ rows, highlightLines mode lines = .ok rows) ↔ CanShow mode lines := by
  induction lines generalizing mode with
  | nil => exact ⟨fun _ => trivial, fun _ => ⟨[], rfl⟩⟩
  | cons line lines ih =>
    constructor
    · rintro ⟨rows, h⟩
      obtain ⟨⟨spans, m⟩, hline, h⟩ := bind_eq_ok.mp h
      obtain ⟨rest, hrest, -⟩ := bind_eq_ok.mp h
      obtain ⟨⟨ts, m'⟩, hlex, hline⟩ := bind_eq_ok.mp hline
      obtain ⟨spans', hspans, hline⟩ := bind_eq_ok.mp hline
      cases hline
      exact ⟨ts, m, hlex, (RHighlight.tokensToSpans_returns_iff ts).mp ⟨_, hspans⟩,
        (ih m).mp ⟨rest, hrest⟩⟩
    · rintro ⟨ts, m, hlex, hexprs, hlines⟩
      obtain ⟨spans, hspans⟩ := (RHighlight.tokensToSpans_returns_iff ts).mpr hexprs
      obtain ⟨rest, hrest⟩ := (ih m).mpr hlines
      refine ⟨spans :: rest, ?_⟩
      rw [highlightLines, highlightLine, hlex]
      show (tokensToSpans ts >>= fun spans => pure (spans, m)) >>= _ = _
      rw [hspans]
      show (highlightLines m lines >>= _) = _
      rw [hrest]
      rfl

omit [Ucd] in
theorem text_spanGlyphs (spans : List Span) :
    RHighlight.text (RHighlight.spanGlyphs spans) = rowText spans := by
  induction spans with
  | nil => rfl
  | cons span spans ih =>
    rw [RHighlight.spanGlyphs_cons, RHighlight.text_append, RHighlight.text_inStyle, ih]
    rfl

theorem tokensToSpans_text {ts : List Token} {spans : List Span}
    (hspans : tokensToSpans ts = .ok spans)
    (hkeeps : ∀ s, GlueArgument ts s → ∀ expr ∈ interpolations s, ∀ ts' m',
      lexLine .normal expr = .ok (ts', m') → lexemes ts' = expr) :
    rowText spans = lexemes ts := by
  have hexprs := (RHighlight.tokensToSpans_returns_iff ts).mp ⟨_, hspans⟩
  rw [← text_spanGlyphs, RHighlight.tokensToSpans_glyphs hspans]
  refine (RHighlight.text_lexed_iff hexprs).mpr fun s hs expr hexpr => ?_
  obtain ⟨⟨ts', m'⟩, hlex'⟩ := hexprs s hs expr hexpr
  rw [RHighlight.lexedGlyphs_of_lexLine hlex', RHighlight.text_tokenGlyphs]
  exact hkeeps s hs expr hexpr ts' m' hlex'

theorem highlightLines_text {mode : RLexer.Mode} {lines : List Bytes} {rows : List (List Span)}
    (h : highlightLines mode lines = .ok rows) (hkeeps : Keeps mode lines) :
    rows.map rowText = lines := by
  induction lines generalizing mode rows with
  | nil =>
    cases h
    rfl
  | cons line lines ih =>
    obtain ⟨⟨spans, m⟩, hline, h⟩ := bind_eq_ok.mp h
    obtain ⟨rest, hrest, h⟩ := bind_eq_ok.mp h
    obtain ⟨⟨ts, m'⟩, hlex, hline⟩ := bind_eq_ok.mp hline
    obtain ⟨spans', hspans, hline⟩ := bind_eq_ok.mp hline
    cases hline
    cases h
    obtain ⟨htext, hexprs, hlines⟩ := hkeeps ts m hlex
    rw [List.map_cons, tokensToSpans_text hspans hexprs, htext, ih hrest hlines]

theorem highlightCode_returns_iff (info code : Bytes) :
    (∃ rows, highlightCode info code = .ok rows) ↔
      (isR info = true → CanShow .normal (splitOnChar newline code)) := by
  unfold highlightCode
  dsimp only
  split
  · rename_i hr
    rw [highlightLines_returns_iff]
    exact ⟨fun h _ => h, fun h => h hr⟩
  · rename_i hr
    exact ⟨fun _ h => absurd h hr, fun _ => ⟨_, rfl⟩⟩

theorem highlightCode_text {info code : Bytes} {rows : List (List Span)}
    (h : highlightCode info code = .ok rows)
    (hkeeps : isR info = true → Keeps .normal (splitOnChar newline code)) :
    rows.map rowText = splitOnChar newline code := by
  unfold highlightCode at h
  dsimp only at h
  split at h
  · rename_i hr
    exact highlightLines_text h (hkeeps hr)
  · cases h
    rw [List.map_map]
    refine (List.map_congr_left fun line _ => ?_).trans (List.map_id _)
    show line ++ [] = line
    rw [List.append_nil]

/-! ## Blocks -/

/-- The text of a block, row by row. -/
def blockText : MdLayout.Block → List Bytes
  | .lines ls => ls.map MdLayout.plainText
  | .code c => (splitOnChar newline c.code).map (List.replicate c.indent.toNat MdLayout.space ++ ·)

/-- The block can be shown, if it is one of code. -/
def BlockCanShow : MdLayout.Block → Prop
  | .lines _ => True
  | .code c => isR c.info = true → CanShow .normal (splitOnChar newline c.code)

def BlockKeeps : MdLayout.Block → Prop
  | .lines _ => True
  | .code c => isR c.info = true → Keeps .normal (splitOnChar newline c.code)

omit [Ucd] in
theorem rowText_spanOf (theme : Theme.T) (line : MdLayout.Line) :
    rowText (line.map (spanOf theme)) = MdLayout.plainText line := by
  rw [rowText, List.flatMap_map]
  rfl

theorem linesOfBlock_returns_iff (theme : Theme.T) (b : MdLayout.Block) :
    (∃ rows, linesOfBlock theme b = .ok rows) ↔ BlockCanShow b := by
  cases b with
  | lines ls => exact ⟨fun _ => trivial, fun _ => ⟨_, rfl⟩⟩
  | code c =>
    rw [BlockCanShow, ← highlightCode_returns_iff]
    exact bind_pure_returns_iff

theorem linesOfBlock_text {theme : Theme.T} {b : MdLayout.Block} {rows : List (List Span)}
    (h : linesOfBlock theme b = .ok rows) (hkeeps : BlockKeeps b) :
    rows.map rowText = blockText b := by
  cases b with
  | lines ls =>
    cases h
    rw [List.map_map]
    exact List.map_congr_left fun line _ => rowText_spanOf theme line
  | code c =>
    obtain ⟨hl, hhl, h⟩ := bind_eq_ok.mp h
    cases h
    rw [blockText, ← highlightCode_text hhl hkeeps, indentRows]
    split
    · rename_i hindent
      rw [Int.toNat_of_nonpos hindent]
      exact (List.map_id _).symm
    · rw [List.map_map, List.map_map]
      rfl

theorem blocksRows_returns_iff (theme : Theme.T) (blocks : List MdLayout.Block) :
    (∃ rows, blocksRows theme blocks = .ok rows) ↔ ∀ b ∈ blocks, BlockCanShow b := by
  induction blocks with
  | nil => exact ⟨fun _ => List.forall_mem_nil _, fun _ => ⟨[], rfl⟩⟩
  | cons b blocks ih =>
    rw [List.forall_mem_cons, ← ih, ← linesOfBlock_returns_iff theme]
    exact bind_returns_iff fun _ => bind_pure_returns_iff

theorem blocksRows_text {theme : Theme.T} {blocks : List MdLayout.Block}
    {rows : List (List (List Span))} (h : blocksRows theme blocks = .ok rows)
    (hkeeps : ∀ b ∈ blocks, BlockKeeps b) :
    rows.map (List.map rowText) = blocks.map blockText := by
  induction blocks generalizing rows with
  | nil =>
    cases h
    rfl
  | cons b blocks ih =>
    obtain ⟨hb, hrest⟩ := List.forall_mem_cons.mp hkeeps
    obtain ⟨first, hfirst, h⟩ := bind_eq_ok.mp h
    obtain ⟨rest, hmore, h⟩ := bind_eq_ok.mp h
    cases h
    rw [List.map_cons, List.map_cons, linesOfBlock_text hfirst hb, ih hmore hrest]

omit [Ucd] in
theorem joinBlocks_map (xs : List (List (List Span))) :
    (joinBlocks xs).map rowText = joinBlocks (xs.map (List.map rowText)) := by
  induction xs with
  | nil => rfl
  | cons x xs ih =>
    cases xs with
    | nil => rfl
    | cons y xs =>
      show (x ++ [[]] ++ joinBlocks (y :: xs)).map rowText =
        x.map rowText ++ [[]] ++ joinBlocks ((y :: xs).map (List.map rowText))
      rw [List.map_append, List.map_append, ih]
      rfl

end

end MdTty

/-! ## The code of a document -/

namespace MdLayout

def Block.code? : Block → Option (Bytes × Bytes)
  | .lines _ => none
  | .code c => some (c.info, c.code)

mutual
/-- The code blocks of a document, each with what its fence says. -/
def Doc.codes : Doc → List (Bytes × Bytes)
  | .blocks all => Doc.allCodes all
  | .blockQuote block => block.codes
  | .list _ items => Doc.allCodes items
  | .codeBlock info code => [(trim (info.getD []), concatWith [newline] code)]
  | .paragraph _ | .heading _ _ | .extTable _ | .thematicBreak | .other => []

def Doc.allCodes : List Doc → List (Bytes × Bytes)
  | [] => []
  | doc :: docs => doc.codes ++ Doc.allCodes docs
end

theorem mergeLines_codes (blocks : List Block) :
    (mergeLines blocks).filterMap Block.code? = blocks.filterMap Block.code? := by
  induction blocks with
  | nil => rfl
  | cons b blocks ih =>
    show (mergeBlock b (mergeLines blocks)).filterMap Block.code? = _
    generalize mergeLines blocks = merged at ih
    rw [List.filterMap_cons, ← ih]
    cases b with
    | code c => rfl
    | lines ls =>
      cases merged with
      | nil => rfl
      | cons b' merged => cases b' <;> rfl

theorem overlayMarker_codes (pos : Nat) (marker : Span) (blocks : List Block) :
    (overlayMarker pos marker blocks).filterMap Block.code? = blocks.filterMap Block.code? := by
  induction blocks with
  | nil => rfl
  | cons b blocks ih =>
    cases b with
    | code c =>
      rw [overlayMarker, List.filterMap_cons, List.filterMap_cons, ih]
    | lines ls =>
      cases ls with
      | nil =>
        rw [overlayMarker, List.filterMap_cons, List.filterMap_cons, ih]
      | cons first rest => rfl

theorem renderTable_codes (measure : Bytes → Int) (width : Int) (margin : List Span) (tbl : Table) :
    (renderTable measure width margin tbl).filterMap Block.code? = [] := by
  unfold renderTable
  split <;> rfl

mutual
theorem renderBlock_codes (measure : Bytes → Int) (width : Int) (margin : List Span) :
    (doc : Doc) → (renderBlock measure width margin doc).filterMap Block.code? = doc.codes
  | .blocks all => by
    rw [renderBlock, Doc.codes]
    exact renderBlocks_codes measure width margin all
  | .paragraph inline => by rw [renderBlock]; rfl
  | .heading level inline => by rw [renderBlock]; rfl
  | .blockQuote block => by
    rw [renderBlock, Doc.codes]
    exact renderBlock_codes measure width (margin ++ [bar]) block
  | .codeBlock info code => by rw [renderBlock]; rfl
  | .list start items => by
    rw [renderBlock, Doc.codes, mergeLines_codes]
    exact renderItems_codes measure width margin start 0 items
  | .extTable tbl => by
    rw [renderBlock, Doc.codes]
    exact renderTable_codes measure width margin tbl
  | .thematicBreak => by rw [renderBlock]; rfl
  | .other => by rw [renderBlock]; rfl

theorem renderBlocks_codes (measure : Bytes → Int) (width : Int) (margin : List Span) :
    (all : List Doc) →
      (renderBlocks measure width margin all).filterMap Block.code? = Doc.allCodes all
  | [] => by rw [renderBlocks]; rfl
  | block :: all => by
    rw [renderBlocks, Doc.allCodes, List.filterMap_append,
      renderBlock_codes measure width margin block, renderBlocks_codes measure width margin all]

theorem renderItems_codes (measure : Bytes → Int) (width : Int) (margin : List Span)
    (start : Option Int) (i : Nat) : (items : List Doc) →
      (renderItems measure width margin start i items).filterMap Block.code? = Doc.allCodes items
  | [] => by rw [renderItems]; rfl
  | item :: items => by
    rw [renderItems, Doc.allCodes, List.filterMap_append, overlayMarker_codes,
      renderBlock_codes measure width _ item,
      renderItems_codes measure width margin start (i + 1) items]
end

/-- What holds of the code of a document holds of the code blocks of its layout. -/
theorem forall_code_iff (measure : Bytes → Int) (width : Int) {doc : Doc}
    {P : Bytes × Bytes → Prop} {Q : Block → Prop} (hlines : ∀ ls, Q (.lines ls))
    (hcode : ∀ c, Q (.code c) ↔ P (c.info, c.code)) :
    (∀ b ∈ MdLayout.render measure width doc, Q b) ↔ ∀ c ∈ doc.codes, P c := by
  rw [← renderBlock_codes measure width [] doc]
  simp only [List.mem_filterMap, forall_exists_index, and_imp]
  constructor
  · intro h c b hb hc
    cases b with
    | lines ls => cases hc
    | code block =>
      cases hc
      exact (hcode block).mp (h _ hb)
  · intro h b hb
    cases b with
    | lines ls => exact hlines ls
    | code block => exact (hcode block).mpr (h _ _ hb rfl)

end MdLayout

namespace MdTty

variable [Ucd]

/-- Whatever the width, a document can be shown when the lines of its R code can be lexed. If the
lexer keeps their text the rows are those of the layout, with code as it stands in the document. -/
theorem render_text (width : Int) (theme : Theme.T) (doc : MdLayout.Doc) :
    ((∃ rows, render width theme doc = .ok rows) ↔
      ∀ c ∈ doc.codes, isR c.1 = true → CanShow .normal (splitOnChar newline c.2)) ∧
    ((∀ c ∈ doc.codes, isR c.1 = true → Keeps .normal (splitOnChar newline c.2)) →
      ∀ rows, render width theme doc = .ok rows →
        rows.map rowText = joinBlocks ((MdLayout.render measure width doc).map blockText)) := by
  constructor
  · rw [← MdLayout.forall_code_iff measure width (Q := BlockCanShow) (fun _ => trivial)
      fun _ => Iff.rfl, ← blocksRows_returns_iff theme]
    exact bind_pure_returns_iff
  · intro hkeeps rows h
    have hblocks := (MdLayout.forall_code_iff measure width (Q := BlockKeeps)
      (fun _ => trivial) fun _ => Iff.rfl).mpr hkeeps
    obtain ⟨blocks, hrows, h⟩ := bind_eq_ok.mp h
    cases h
    rw [joinBlocks_map, blocksRows_text hrows hblocks]

end MdTty

namespace MdTty

open RLexer (Token lexLine)
open RHighlight (interpolations GlueArgument)

attribute [local instance] asciiUcd

/-- Code in R and in another language, one below the other. -/
def listings : MdLayout.Doc :=
  .blocks [.codeBlock (some (bytes " R ")) [bytes "f(x)", bytes "2"],
    .list none [.codeBlock (some (bytes "c")) [bytes "int x;"]]]

theorem listings_r {c : Bytes × Bytes} (hc : c ∈ listings.codes) (hr : isR c.1 = true) :
    splitOnChar newline c.2 = [bytes "f(x)", bytes "2"] := by
  obtain rfl | hc := List.mem_cons.mp hc
  · rfl
  · obtain rfl := List.mem_singleton.mp hc
    cases hr

theorem lexLine_call : lexLine .normal (bytes "f(x)") =
    .ok ([.ident (bytes "f"), .leftParen, .ident (bytes "x"), .rightParen], .normal) := rfl

theorem lexLine_two : lexLine .normal (bytes "2") = .ok ([.number (bytes "2")], .normal) := rfl

theorem no_interpolation {ts : List Token} (hts : ∀ s, .string s ∉ ts) {P : Bytes → Prop} :
    ∀ s, GlueArgument ts s → ∀ expr ∈ interpolations s, P expr :=
  fun s hs => absurd hs.string_mem (hts s)

theorem render_text_listings (theme : Theme.T) : ∃ rows, render 80 theme listings = .ok rows ∧
    rows.map rowText = joinBlocks ((MdLayout.render measure 80 listings).map blockText) := by
  obtain ⟨hshow, htext⟩ := render_text 80 theme listings
  obtain ⟨rows, hrows⟩ := hshow.mpr fun c hc hr => by
    rw [listings_r hc hr]
    exact ⟨_, _, lexLine_call, no_interpolation (by simp), _, _, lexLine_two,
      no_interpolation (by simp), trivial⟩
  refine ⟨rows, hrows, htext (fun c hc hr => ?_) rows hrows⟩
  rw [listings_r hc hr]
  intro ts m hlex
  cases hlex.symm.trans lexLine_call
  refine ⟨rfl, no_interpolation (by simp), fun ts m hlex => ?_⟩
  cases hlex.symm.trans lexLine_two
  exact ⟨rfl, no_interpolation (by simp), trivial⟩

end MdTty
end Raoui
