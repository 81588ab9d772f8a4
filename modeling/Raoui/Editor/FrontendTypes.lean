import Raoui.Editor.Completion
import Raoui.Editor.History
import Raoui.Lexer.Cache
import Raoui.Tty.Listener
import Raoui.View.TerminalOps

/-!
# Raoui.Editor.FrontendTypes

`lib/frontend_types.ml`: the model of the front end, and the conversion between a position in the
lines and a cell of the wrapped prompt. The theme and the fields nothing below reads are left out.
-/

namespace Raoui

open Ffi (ResponseChunk)

def prompt : Bytes := bytes "> "
def continuedPrompt : Bytes := bytes ". "
def pendingPrompt : Bytes := bytes "  "

/-- The state of the history search pager. -/
structure SearchState where
  search : UnicodeString
  /-- Mode and text of the entries found, newest first. -/
  found : List (Bytes × Bytes)
  selected : Int
  deriving DecidableEq, Repr

inductive Mode where
  | normal
  | readline (prompt : Bytes)
  | shell
  | ai
  | historySearch (s : SearchState)
  deriving DecidableEq, Repr

inductive ReplOutput where
  | outputText (spans : List TerminalOps.Span)
  | outputImage (image : Ffi.Image)
  | outputMarkdown (s : Bytes)
  deriving DecidableEq, Repr

def minPromptHeight : Int := 5
def defaultPromptTop (termHeight : Int) : Int := max 2 (termHeight - minPromptHeight + 1)

def clampPromptTop (termHeight row : Int) : Int := max 2 (min row (defaultPromptTop termHeight))

def fitPromptBelow (termHeight height anchorRow : Int) : Int × Int :=
  let bottom := anchorRow + height - 1
  let scrollAmount := if bottom > termHeight then termHeight - bottom else 0
  (anchorRow + scrollAmount, scrollAmount)

structure Input where
  lines : List UnicodeString
  lexCache : RLexCache.Cache
  cursorLine : Int
  /-- Counted in clusters of the cursor's line. -/
  cursorPos : Int
  previousKey : Option Tty.Key
  persistentCol : Int
  history : History
  flippingThroughHistory : Option Int
  completion : Option Completion
  mode : Mode
  deriving DecidableEq, Repr

structure Layout where
  promptTopRow : Int
  termWidth : Int
  termHeight : Int
  promptBoxHeight : Int
  previousPromptTopRow : Int
  scrollAmount : Int
  deriving DecidableEq, Repr

structure Repl where
  awaitingResponse : Bool
  backendResponse : Option ResponseChunk
  replOutput : Option ReplOutput
  /-- Code the AI suggested, kept until its response completes. -/
  pendingSuggestion : Option Bytes
  replCursor : Int × Int
  deriving DecidableEq, Repr

structure Model where
  input : Input
  layout : Layout
  repl : Repl
  deriving DecidableEq, Repr

/-! ## Coordinates -/

def wrapLine (width : Int) (line : UnicodeString) : List UnicodeString := line.wrap width

def wrapLines (width : Int) (lines : List UnicodeString) : List UnicodeString :=
  lines.flatMap (wrapLine width)

/-- The wrapped row that holds cluster `col`, and the display column in it. -/
def findRow (col : Int) : Int → Int → List UnicodeString → Int × Int
  | rowIdx, _, [] => (rowIdx, 0)
  | rowIdx, graphemesSoFar, chunk :: rest =>
    let endOfChunk := graphemesSoFar + chunk.length
    if col < endOfChunk ∨ (col = endOfChunk ∧ rest = []) then
      (rowIdx, chunk.prefixWidth (col - graphemesSoFar))
    else findRow col (rowIdx + 1) endOfChunk rest

def internalToTerminal (width : Int) (lines : List UnicodeString) (lineIdx col : Int) :
    Res (Int × Int) := do
  let rowsBefore := (wrapLines width (lines.take lineIdx.toNat)).length
  let line ← nth lines lineIdx
  let (rowInLine, colInLine) := findRow col 0 0 (wrapLine width line)
  return (rowsBefore + rowInLine, colInLine)

/-- Line `internalRow` on, whose first wrapped row is `currentTerminalRow`. -/
def terminalToInternalFrom (width row displayCol : Int) :
    Int → Int → List UnicodeString → Res (Int × Int)
  | _, _, [] => .error (.failure (bytes "terminal_to_internal: row out of bounds"))
  | internalRow, currentTerminalRow, line :: rest =>
    let wrapped := wrapLine width line
    let numRows := wrapped.length
    if row < currentTerminalRow + numRows ∨ (rest = [] ∧ row = currentTerminalRow + numRows) then
      let rowOffset := row - currentTerminalRow
      -- a negative offset is never zero, so the sum then runs through all rows
      let graphemesBefore := if rowOffset < 0 then (wrapped.map UnicodeString.length).sum
        else ((wrapped.take rowOffset.toNat).map UnicodeString.length).sum
      do
        let chunk ← if rowOffset < numRows then nth wrapped rowOffset else .ok .empty
        return (internalRow, graphemesBefore + chunk.graphemeAtWidth displayCol)
    else
      terminalToInternalFrom width row displayCol (internalRow + 1) (currentTerminalRow + numRows)
        rest

def terminalToInternal (width : Int) (lines : List UnicodeString) (row displayCol : Int) :
    Res (Int × Int) :=
  terminalToInternalFrom width row displayCol 0 0 lines

def updateLine (lines : List UnicodeString) (lineIdx : Int) (newLine : UnicodeString) :
    List UnicodeString :=
  lines.mapIdx fun i line => if (i : Int) = lineIdx then newLine else line

namespace Model

def effectiveWidth (m : Model) : Int := m.layout.termWidth - prompt.length

def cursorTerminalPos (m : Model) : Res (Int × Int) :=
  match m.input.mode with
  | .historySearch s => .ok (0, s.search.prefixWidth m.input.cursorPos)
  | _ => internalToTerminal m.effectiveWidth m.input.lines m.input.cursorLine m.input.cursorPos

/-- `assert_model_invariants`: the conditions, in the order they are asserted. -/
def invariants (m : Model) : Bool :=
  m.input.lines ≠ [] && 0 ≤ m.input.cursorLine && m.input.cursorLine < m.input.lines.length &&
    0 ≤ m.input.cursorPos &&
    match m.input.mode with
    | .historySearch s => m.input.cursorPos ≤ s.search.length
    | _ => m.input.cursorPos ≤ (m.input.lines.getD m.input.cursorLine.toNat .empty).length

def assertModelInvariants (m : Model) : Res Unit :=
  if m.invariants then .ok () else .error .assertFailure

end Model
end Raoui
