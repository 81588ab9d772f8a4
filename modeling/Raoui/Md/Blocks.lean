import Raoui.Ffi.Backend
import Raoui.Md.Table

/-!
# Raoui.Md.Blocks

The block walk of `lib/md_layout.ml`: paragraphs and headings are wrapped behind the margin of the
blocks around them, quotes and list items add to the margin, and the marker of an item goes over the
blanks its margin starts with. As in `Md.Table` the parsed document is data of the `cmarkit` package.
-/

namespace Raoui
namespace MdLayout

/-- `Cmarkit.Block.t`; what is not rendered is `other`. A list item is the block in it. -/
inductive Doc where
  | blocks (all : List Doc)
  | paragraph (inline : Inline)
  | heading (level : Int) (inline : Inline)
  | blockQuote (block : Doc)
  | codeBlock (info : Option Bytes) (code : List Bytes)
  | list (start : Option Int) (items : List Doc)
  | extTable (tbl : Table)
  | thematicBreak
  | other

/-- The bar of a block quote, `│` and a space. -/
def bar : Span := (⟨.marker, noEmphasis⟩, [226, 148, 130, space])

/-- `•` and a space. -/
def bullet : Bytes := [226, 128, 162, space]

def markerSpan (marker : Bytes) : Span := (⟨.marker, noEmphasis⟩, marker)

/-- The marker of item `i`: numbers count from the list's start. -/
def itemMarker (start : Option Int) (i : Nat) : Bytes :=
  match start with
  | some n => Ffi.decimalInt (n + i) ++ bytes ". "
  | none => bullet

/-- A block before merged ones. -/
def mergeBlock : Block → List Block → List Block
  | .lines a, .lines b :: rest => .lines (a ++ b) :: rest
  | blk, acc => blk :: acc

/-- Neighbouring `Lines` become one block. -/
def mergeLines (blocks : List Block) : List Block := blocks.foldr mergeBlock []

/-- Puts the marker over the span at index `at` of the first line there is. -/
def overlayMarker (pos : Nat) (marker : Span) : List Block → List Block
  | [] => []
  | .code c :: blocks => .code c :: overlayMarker pos marker blocks
  | .lines [] :: blocks => .lines [] :: overlayMarker pos marker blocks
  | .lines (first :: rest) :: blocks =>
    .lines (first.mapIdx (fun i sp => if i = pos then marker else sp) :: rest) :: blocks

section
variable (measure : Bytes → Int) (width : Int)

def wrapRuns (margin : List Span) (runs : List Span) : List Block :=
  [.lines (wrapWords measure width margin margin (wordsOfRuns measure runs))]

def codeBlock (margin : List Span) (info : Option Bytes) (code : List Bytes) : CodeBlock where
  info := trim (info.getD [])
  code := concatWith [newline] code
  indent := widthOfSpans measure margin

def breakLine (margin : List Span) : Line :=
  let avail := max 0 (width - widthOfSpans measure margin)
  margin ++ [markerSpan (List.replicate (min avail 40).toNat 45)]

/-- The margin inside a list item: blanks as wide as its marker. -/
def itemMargin (margin : List Span) (marker : Bytes) : List Span :=
  margin ++ [spaces (measure marker)]

mutual
def renderBlock (margin : List Span) : Doc → List Block
  | .blocks all => renderBlocks margin all
  | .paragraph inline => wrapRuns measure width margin (inlineRuns .body noEmphasis inline)
  | .heading level inline =>
    wrapRuns measure width margin (inlineRuns (.heading level) noEmphasis inline)
  | .blockQuote block => renderBlock (margin ++ [bar]) block
  | .codeBlock info code => [.code (codeBlock measure margin info code)]
  | .list start items => mergeLines (renderItems margin start 0 items)
  | .extTable tbl => renderTable measure width margin tbl
  | .thematicBreak => [.lines [breakLine measure width margin]]
  | .other => []

def renderBlocks (margin : List Span) : List Doc → List Block
  | [] => []
  | block :: all => renderBlock margin block ++ renderBlocks margin all

/-- The items of `render_list` from number `i` on. -/
def renderItems (margin : List Span) (start : Option Int) (i : Nat) : List Doc → List Block
  | [] => []
  | item :: items =>
    overlayMarker margin.length (markerSpan (itemMarker start i))
      (renderBlock (itemMargin measure margin (itemMarker start i)) item) ++
      renderItems margin start (i + 1) items
end

def renderListItem (margin : List Span) (marker : Bytes) (item : Doc) : List Block :=
  overlayMarker margin.length (markerSpan marker)
    (renderBlock measure width (itemMargin measure margin marker) item)

/-- `render`, given the parsed document. -/
def render (doc : Doc) : List Block := renderBlock measure width [] doc

end

end MdLayout
end Raoui
