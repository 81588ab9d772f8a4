import Raoui.Editor.FrontendTypes
import Raoui.Editor.SearchPager
import Raoui.View.RHighlight

/-!
# Raoui.View.View

`lib/view.ml`: the operations that draw a model. The queue they are put in is a list, and a branch
that raises answers with its exception.
-/

namespace Raoui
namespace View

open TerminalOps (Style Span Op)
open RHighlight (StyledRange)

def completionMaxWidth : Int := 30
def readlinePromptMaxLength : Nat := 20
def inputPrompt : Bytes := bytes "input: "
def shellPrompt : Bytes := bytes "shell> "
def aiPrompt : Bytes := bytes "ai> "
def searchPromptPrefix : Bytes := bytes "r-search: "

def renderedReadlinePrompt (rlPrompt : Bytes) : Bytes :=
  if rlPrompt = [] ∨ rlPrompt = bytes "input" then inputPrompt
  else if rlPrompt.length ≤ readlinePromptMaxLength then rlPrompt
  else inputPrompt

def promptWidthForMode : Mode → Nat
  | .readline rlPrompt => (renderedReadlinePrompt rlPrompt).length
  | .shell => shellPrompt.length
  | .ai => aiPrompt.length
  | .normal => prompt.length
  | .historySearch s => searchPromptPrefix.length + s.search.displayWidth

def absoluteCursorPos (m : Model) (cursorRow cursorCol : Int) : Int × Int :=
  (m.layout.promptTopRow + cursorRow, promptWidthForMode m.input.mode + cursorCol + 1)

/-- `String.make`, of blanks. -/
def blanks (n : Int) : Bytes := List.replicate n.toNat 32

def printCompletionLine (line : Bytes) (selected : Bool) (maxWidth : Int) : Op :=
  let line := if maxWidth ≤ 0 then [] else line.take maxWidth.toNat
  let line := line ++ blanks (maxWidth - line.length)
  .print [(if selected then .completionSelected else .completion, line)]

def awaitingFirstOutputChunk (m : Model) : Bool :=
  let (outRow, outCol) := m.repl.replCursor
  m.repl.awaitingResponse && outCol = 1 && m.layout.promptTopRow = outRow + 1

def shouldShowCompletions (m : Model) : Bool :=
  m.input.mode = .normal &&
    match m.input.completion with
    | none => false
    | some cs => cs.filtered ≠ []

/-! ## Rows of the prompt -/

structure StyledSegment where
  style : Style
  startByte : Nat
  endByte : Nat
  deriving DecidableEq, Repr

/-- A row is built with its last segment first. -/
def addSegment (row : List StyledSegment) (style : Style) (startByte endByte : Nat) :
    List StyledSegment :=
  if startByte = endByte then row
  else
    match row with
    | [] => [⟨style, startByte, endByte⟩]
    | prev :: rest =>
      if prev.style = style ∧ prev.endByte = startByte then { prev with endByte } :: rest
      else ⟨style, startByte, endByte⟩ :: prev :: rest

def advanceRanges (byte : Nat) : List StyledRange → List StyledRange
  | [] => []
  | range :: rest => if range.endByte ≤ byte then advanceRanges byte rest else range :: rest

def styleAt (byte : Nat) : List StyledRange → Style
  | [] => .plain
  | range :: _ => if byte ≥ range.startByte ∧ byte < range.endByte then range.style else .plain

def rangesToSegments (ranges : List StyledRange) : List StyledSegment :=
  ranges.map fun range => ⟨range.style, range.startByte, range.endByte⟩

/-- The variables of the loop of `wrap_styled_line`. -/
structure Wrapping where
  rowsRev : List (List StyledSegment)
  rowRev : List StyledSegment
  rowWidth : Int
  activeRanges : List StyledRange

def Wrapping.flushRow (w : Wrapping) : Wrapping :=
  { w with rowsRev := w.rowRev.reverse :: w.rowsRev, rowRev := [], rowWidth := 0 }

/-- The loop of `wrap_styled_line`, over the clusters from `i` on. -/
def wrapFrom (width : Int) (line : UnicodeString) : Nat → Nat → Wrapping → Res Wrapping
  | 0, _, w => return w
  | n + 1, i, w => do
    let clusterWidth ← line.widthAt i
    let w := if w.rowWidth = width then w.flushRow else w
    let w := if w.rowWidth > 0 ∧ w.rowWidth + clusterWidth > width then w.flushRow else w
    let (startByte, endByte) ← line.byteRangeAt i
    let activeRanges := advanceRanges startByte w.activeRanges
    let style := styleAt startByte activeRanges
    let w := { w with
      activeRanges
      rowRev := addSegment w.rowRev style startByte endByte
      rowWidth := w.rowWidth + clusterWidth }
    wrapFrom width line n (i + 1) (if w.rowWidth > width then w.flushRow else w)

def wrapStyledLine (width : Int) (line : UnicodeString) (ranges : List StyledRange) :
    Res (List (List StyledSegment)) :=
  if width ≤ 0 then return [rangesToSegments ranges]
  else if line.isEmpty then return [[]]
  else do
    let totalWidth := line.displayWidth
    let w ← wrapFrom width line line.length 0 ⟨[], [], 0, ranges⟩
    let w := if w.rowRev ≠ [] then w.flushRow else w
    let rows := w.rowsRev.reverse
    return if totalWidth > 0 ∧ (totalWidth : Int) % width = 0 then rows ++ [[]] else rows

def spansOfSegments (line : UnicodeString) (segments : List StyledSegment) : Res (List Span) :=
  segments.mapM fun segment => do
    return (segment.style, ← line.sliceBytes segment.startByte segment.endByte)

/-! ## Completions -/

/-- The loop of `view_completions`, at screen row `row`. -/
def completionRows (termHeight colOffset maxWidth : Int) (selected : Option Int) :
    Int → Int → List Completion.Item → List Op
  | _, _, [] => []
  | row, idx, item :: rest =>
    if row > termHeight then []
    else
      [.cursorTo row colOffset,
        printCompletionLine item.label (selected = some idx) maxWidth] ++
        completionRows termHeight colOffset maxWidth selected (row + 1) (idx + 1) rest

def viewCompletions (m : Model) (cursorAbsRow cursorAbsCol : Int) : List Op :=
  if !shouldShowCompletions m then []
  else
    match m.input.completion with
    | none => []
    | some cs =>
      let terminalRemaining := max 0 (m.layout.termWidth - cursorAbsCol + 1)
      completionRows m.layout.termHeight cursorAbsCol (min completionMaxWidth terminalRemaining)
        cs.selectedIndexInWindow (cursorAbsRow + 1) 0 cs.visibleItems

/-- `List.iteri` of a function that adds operations. -/
def iteri {α : Type} (f : Nat → α → Res (List Op)) : Nat → List α → Res (List Op)
  | _, [] => return []
  | i, a :: rest => do return (← f i a) ++ (← iteri f (i + 1) rest)

/-- `List.map2`. -/
def map2 {α β γ : Type} (f : α → β → Res γ) : List α → List β → Res (List γ)
  | [], [] => return []
  | a :: l, b :: l' => do return (← f a b) :: (← map2 f l l')
  | _, _ => .error (.invalidArgument (bytes "List.map2"))

/-! ## The search pager -/

section
variable [Ucd]

def rLineSpans (line : UnicodeString) (width : Int) : Res (List Span) := do
  match ← RLexCache.create [line] with
  | [entry] =>
    let ranges ← RHighlight.rangesForEntry entry
    match ← wrapStyledLine width line ranges with
    | first :: _ => spansOfSegments line first
    | [] => return []
  | [] | _ :: _ :: _ => return [(.plain, line.toBytes)]

end

/-- The badge of a row: on an entry's first row the prompt of the mode Enter switches to. -/
def rowBadge (modeString : Bytes) (row : SearchPager.Row) : Bytes × Style :=
  if !row.first then (continuedPrompt, .accent)
  else if modeString = bytes "shell" then (shellPrompt, .shellPrompt)
  else if modeString = bytes "ai" then (aiPrompt, .aiPrompt)
  else (prompt, .accent)

/-- How many lines of the entry are hidden. -/
def rowMarker (row : SearchPager.Row) : Bytes :=
  if row.hiddenLines > 0 then bytes " …+" ++ Ffi.decimal row.hiddenLines.toNat else []

/-- The ellipsis is three bytes but one column wide. -/
def markerWidth (marker : Bytes) : Int := if marker = [] then 0 else marker.length - 2

/-- The columns left for the text of a row. -/
def contentWidth (termWidth : Int) (modeString : Bytes) (row : SearchPager.Row) : Int :=
  max 1 (termWidth - (rowBadge modeString row).1.length - markerWidth (rowMarker row))

/-- The text of a row, cut to its columns. -/
def truncated (width : Int) (line : UnicodeString) : UnicodeString := (wrapLine width line).headD .empty

/-- Entries other than R code are drawn plain. -/
def isPlainMode (modeString : Bytes) : Bool :=
  modeString = bytes "shell" || modeString = bytes "ai"

section
variable [Ucd]

/-- Row `i` of the pager, below the query row. -/
def pagerRow (layout : Layout) (s : SearchState) (i : Nat) (row : SearchPager.Row) :
    Res (List Op) :=
  let absRow := layout.promptTopRow + 1 + i
  if absRow ≥ 1 ∧ absRow ≤ layout.termHeight then do
    let (modeString, _) ← nth s.found row.entryIndex
    let (badge, badgeStyle) := rowBadge modeString row
    let marker := rowMarker row
    let width := contentWidth layout.termWidth modeString row
    let lineUs ←
      match UnicodeString.ofString row.line with
      | .ok line => pure line
      | .error _ => .error History.resultGetOk
    let text := truncated width lineUs
    if (row.entryIndex : Int) = s.selected then
      let pad := layout.termWidth - (badge.length + text.displayWidth + markerWidth marker)
      return [.cursorTo absRow 1,
        .print [(.completionSelected, badge ++ text.toBytes ++ marker ++ blanks pad)]]
    else
      let contentSpans ←
        if isPlainMode modeString then pure [(Style.plain, text.toBytes)]
        else rLineSpans text width
      let markerSpans : List Span := if marker = [] then [] else [(.comment, marker)]
      return [.cursorTo absRow 1, .print ((badgeStyle, badge) :: contentSpans ++ markerSpans)]
  else return []

def viewSearchPager (m : Model) : Res (List Op) :=
  match m.input.mode with
  | .normal | .readline _ | .shell | .ai => return []
  | .historySearch s => do
    let rows ← SearchPager.viewRows (SearchPager.maxRows m.layout.termHeight) s.selected s.found
    iteri (pagerRow m.layout s) 0 rows

end

/-! ## The whole view -/

def viewportStart (m : Model) : Int := max 1 m.layout.promptTopRow

/-- The rows of the prompt above the screen. -/
def skipRows (m : Model) : Int := viewportStart m - m.layout.promptTopRow

/-- What is left of row `i` of the prompt. -/
def rowPrompt (mode : Mode) (i : Nat) (awaitingResponse : Bool) : Res Bytes :=
  match mode, i, awaitingResponse with
  | .readline rlPrompt, 0, _ => .ok (renderedReadlinePrompt rlPrompt)
  | .shell, 0, _ => .ok shellPrompt
  | .ai, 0, _ => .ok aiPrompt
  | .readline _, _ + 1, _ | .shell, _ + 1, _ | .ai, _ + 1, _ => .error .assertFailure
  | .historySearch s, 0, _ => .ok (searchPromptPrefix ++ s.search.toBytes)
  | .historySearch s, _ + 1, _ => .ok (blanks (promptWidthForMode (.historySearch s)))
  | .normal, 0, false => .ok prompt
  | .normal, 0, true => .ok pendingPrompt
  | .normal, _ + 1, _ => .ok continuedPrompt

def promptStyle : Mode → Style
  | .shell => .shellPrompt
  | .ai => .aiPrompt
  | _ => .accent

/-- Row `i` of the prompt, if it is on the screen. -/
def viewRow (m : Model) (totalRows : Nat) (i : Nat) (content : List Span) : Res (List Op) :=
  if (i : Int) ≥ skipRows m ∧ i < skipRows m + m.layout.termHeight then do
    let p ← rowPrompt m.input.mode i m.repl.awaitingResponse
    return [.clearToEol, .print ((promptStyle m.input.mode, p) :: content)] ++
      if i < skipRows m + m.layout.termHeight - 1 ∧ (i : Int) < totalRows - 1 then [.newline] else []
  else return []

def showCursor (m : Model) : Bool :=
  match m.input.mode with
  | .readline _ => true
  | .historySearch _ => false
  | _ => !m.repl.awaitingResponse

/-- Scrolls the terminal up by printing newlines on its last row. -/
def scrollOps (layout : Layout) : List Op :=
  if layout.scrollAmount < 0 then
    .cursorTo layout.termHeight 1 :: List.replicate (-layout.scrollAmount).toNat .newline
  else []

/-- Clears the screen rows from `first` on. -/
def clearRowsFrom (first termHeight : Int) : List Op :=
  (List.range (termHeight - first + 1).toNat).flatMap fun k => [.cursorTo (first + k) 1, .clearToEol]

/-- Before the first output arrives the row reserved for it is cleared. -/
def clearOutputRow (m : Model) : List Op :=
  let (outRow, _) := m.repl.replCursor
  if awaitingFirstOutputChunk m ∧ outRow ≥ 1 ∧ outRow ≤ m.layout.termHeight then
    [.cursorTo outRow 1, .clearToEol]
  else []

/-- Where the cursor is left: in the output during an evaluation, else in the prompt. -/
def placeCursor (m : Model) (cursorCol : Int) (cursorAbs : Int × Int) : Op :=
  match m.input.mode, m.repl.awaitingResponse with
  | .readline _, _ | .shell, _ | .ai, _ => .cursorTo cursorAbs.1 cursorAbs.2
  | .historySearch _, _ =>
    .cursorTo m.layout.promptTopRow (searchPromptPrefix.length + cursorCol + 1)
  | .normal, true => .cursorTo m.repl.replCursor.1 m.repl.replCursor.2
  | .normal, false => .cursorTo cursorAbs.1 cursorAbs.2

section
variable [Ucd]

/-- The rows of the prompt, wrapped and highlighted. -/
def wrappedRows (m : Model) : Res (List (List Span)) := do
  let highlightedRanges ← m.input.lexCache.mapM RHighlight.rangesForEntry
  let rows ← map2
    (fun line ranges => do
      (← wrapStyledLine m.effectiveWidth line ranges).mapM (spansOfSegments line))
    m.input.lines highlightedRanges
  return rows.flatten

def viewOps (m : Model) : Res (List Op) := do
  let (cursorRow, cursorCol) ← m.cursorTerminalPos
  let cursorAbs := absoluteCursorPos m cursorRow cursorCol
  let rows ← wrappedRows m
  let totalRows := rows.length
  let promptOps ← iteri (viewRow m totalRows) 0 rows
  let visibleRows := max 0 (min (totalRows - skipRows m) m.layout.termHeight)
  let cursorAfterRender := viewportStart m + visibleRows - 1
  let firstRowToClear := max (viewportStart m) (cursorAfterRender + 1)
  let pagerOps ← viewSearchPager m
  return [if showCursor m then .showCursor else .hideCursor] ++ scrollOps m.layout ++
    [.cursorTo (viewportStart m) 1] ++ promptOps ++
    clearRowsFrom firstRowToClear m.layout.termHeight ++ clearOutputRow m ++
    viewCompletions m cursorAbs.1 cursorAbs.2 ++ pagerOps ++ [placeCursor m cursorCol cursorAbs]

end

end View
end Raoui
