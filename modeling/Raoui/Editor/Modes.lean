import Raoui.Editor.CompletionController
import Raoui.Editor.Continuation
import Raoui.Editor.SearchPager

/-!
# Raoui.Editor.Modes

The key handlers: `lib/mode_common.ml`, `lib/history_search.ml`, `lib/normal_mode.ml`,
`lib/shell_mode.ml`, `lib/ai_mode.ml` and `lib/readline_mode.ml`, in this order.
-/

namespace Raoui

open Tty (Key)

/-! ## Common to the modes -/

def historyModeString : Mode → Res Bytes
  | .normal => .ok (bytes "r")
  | .shell => .ok (bytes "shell")
  | .ai => .ok (bytes "ai")
  | .readline _ | .historySearch _ => .error .assertFailure

def modeOfHistoryString (s : Bytes) : Res Mode :=
  if s = bytes "r" then .ok .normal
  else if s = bytes "shell" then .ok .shell
  else if s = bytes "ai" then .ok .ai
  else .error (.failure (bytes "unknown history mode: " ++ s))

namespace Model

def submitAlignedPromptTop (m : Model) : Int :=
  let totalRows := (wrapLines m.effectiveWidth m.input.lines).length
  min m.layout.promptTopRow (m.layout.termHeight - totalRows)

/-- The row the output goes to, the scroll amount and the new top of the prompt. -/
def scrollTerminalAfterSubmit (m : Model) : Int × Int × Int :=
  let promptTopRow := m.submitAlignedPromptTop
  let totalRows := (wrapLines m.effectiveWidth m.input.lines).length
  let outputRow := promptTopRow + totalRows
  let (newPromptTop, scrollAmount) := fitPromptBelow m.layout.termHeight 1 (outputRow + 1)
  (outputRow, scrollAmount, newPromptTop)

section
variable [Ucd]

def clearModelForSubmit (m : Model) : Res Model := do
  let (outputRow, scrollAmount, newPromptTop) := m.scrollTerminalAfterSubmit
  let lexCache ← RLexCache.create [.empty]
  return { m with
    repl.awaitingResponse := true
    repl.replCursor := (outputRow + scrollAmount, 1)
    layout.promptTopRow := newPromptTop
    layout.previousPromptTopRow := newPromptTop
    layout.promptBoxHeight := 1
    layout.scrollAmount := scrollAmount
    input.completion := none
    input.lines := [.empty]
    input.lexCache := lexCache
    input.cursorLine := 0
    input.cursorPos := 0 }

/-- Recalls an older entry for a positive amount, else a newer one, with the mode it has. -/
def shiftHistory (m : Model) (amount : Int) : Res Model := do
  let currentPrompt := (← historyModeString m.input.mode, m.input.lines)
  let recalled : Res (Option (Bytes × List UnicodeString) × History) :=
    if amount > 0 then m.input.history.goBack currentPrompt
    else m.input.history.goForwards currentPrompt
  let (result, history) ← recalled
  let m := { m with input.history := history }
  match result with
  | some (modeString, lines) =>
    let mode ← modeOfHistoryString modeString
    let lexCache ← RLexCache.create lines
    { m with
      input.mode := mode
      input.lines := lines
      input.lexCache := lexCache
      input.flippingThroughHistory := some 2 }.moveCursorToEnd
  | none => return m

/-- A blank prompt in mode `mode`. -/
def blankInput (m : Model) (mode : Mode) : Res Model := do
  let lexCache ← RLexCache.create [.empty]
  return { m with
    input.mode := mode
    input.lines := [.empty]
    input.lexCache := lexCache
    input.cursorLine := 0
    input.cursorPos := 0 }

def setModeNormalBlank (m : Model) : Res Model := m.blankInput .normal

end

end Model

/-! ## History search -/

/-- A handler without effects. -/
def withoutEffects (r : Res Model) : Res (Model × List Effect) := do return (← r, [])

namespace HistorySearch

def maxMatches : Nat := 50

def getState (m : Model) : Res SearchState :=
  match m.input.mode with
  | .historySearch s => .ok s
  | _ => .error .assertFailure

def getInput (m : Model) : Res UnicodeString := do return (← getState m).search

def freshState (history : History) (search : UnicodeString) : SearchState :=
  { search, found := history.searchMatches search.toBytes maxMatches, selected := 0 }

def searchAndUpdate (m : Model) : Res Model := do
  let state := freshState m.input.history (← getInput m)
  return { m with input.mode := .historySearch state }

def setSearch (m : Model) (newSearch : UnicodeString) : Res Model := do
  let state ← getState m
  return { m with input.mode := .historySearch { state with search := newSearch } }

def moveSelection (m : Model) (amount : Int) : Res Model := do
  let state ← getState m
  let n : Int := state.found.length
  if n = 0 then return m
  else
    let selected := max 0 (min (n - 1) (state.selected + amount))
    return { m with input.mode := .historySearch { state with selected } }

def moveLeft (m : Model) : Model :=
  if m.input.cursorPos > 0 then { m with input.cursorPos := m.input.cursorPos - 1 } else m

def moveRight (m : Model) : Res Model := do
  let search ← getInput m
  if m.input.cursorPos < search.length then
    return { m with input.cursorPos := m.input.cursorPos + 1 }
  else return m

def goToStart (m : Model) : Model := { m with input.cursorPos := 0 }

def goToEnd (m : Model) : Res Model := do
  return { m with input.cursorPos := (← getInput m).length }

/-- The loop of `go_to_next_word` over the clusters from `pos` on. -/
def nextWordFrom (search : UnicodeString) : Nat → Bool → Int → Res Int
  | 0, _, pos => return pos
  | fuel + 1, seenWord, pos => do
    if pos ≥ search.length then return pos
    else if ← isWordChar (← search.clusterAt pos) then nextWordFrom search fuel true (pos + 1)
    else if seenWord then return pos
    else nextWordFrom search fuel false (pos + 1)

def goToNextWord (m : Model) : Res Model := do
  let search ← getInput m
  let newPos ← nextWordFrom search (search.length - m.input.cursorPos).toNat false m.input.cursorPos
  return { m with input.cursorPos := newPos }

/-- The loop of `go_to_last_word` over the first `n` clusters. -/
def lastWordFrom (search : UnicodeString) : Nat → Bool → Res Int
  | 0, _ => return 0
  | n + 1, seenWord => do
    if ← isWordChar (← search.clusterAt n) then lastWordFrom search n true
    else if seenWord then return n + 1
    else lastWordFrom search n false

def goToLastWord (m : Model) : Res Model := do
  let search ← getInput m
  let newPos ← lastWordFrom search m.input.cursorPos.toNat false
  return { m with input.cursorPos := newPos }

section
variable [Ucd]

def enter (m : Model) : Res Model := do
  let lexCache ← RLexCache.create [.empty]
  return { m with
    input.mode := .historySearch (freshState m.input.history .empty)
    input.lines := [.empty]
    input.lexCache := lexCache
    input.cursorPos := 0
    input.cursorLine := 0
    input.completion := none }

def cancel (m : Model) : Res Model := m.blankInput .normal

def submit (m : Model) : Res Model := do
  let state ← getState m
  match ← nthOpt state.found state.selected with
  | none => cancel m
  | some (modeString, text) =>
    let lines ← (splitOnChar newline text).mapM History.toLine
    let lastLineIdx : Int := lines.length - 1
    let lastLine ← nth lines lastLineIdx
    let mode ← modeOfHistoryString modeString
    let lexCache ← RLexCache.create lines
    return { m with
      input.mode := mode
      input.lines := lines
      input.lexCache := lexCache
      input.cursorLine := lastLineIdx
      input.cursorPos := lastLine.length }

def insertChar (m : Model) (c : Bytes) : Res Model := do
  let search ← getInput m
  match search.insertString m.input.cursorPos c with
  | .error _ => return m
  | .ok newSearch =>
    let m ← setSearch m newSearch
    return { m with input.cursorPos := m.input.cursorPos + 1 }

def deleteChar (m : Model) : Res Model := do
  if m.input.cursorPos = 0 then return m
  else
    let search ← getInput m
    let m ← setSearch m (search.delete (m.input.cursorPos - 1))
    return { m with input.cursorPos := m.input.cursorPos - 1 }

def deleteCharAfter (m : Model) : Res Model := do
  let search ← getInput m
  if m.input.cursorPos ≥ search.length then return m
  else setSearch m (search.delete m.input.cursorPos)

def deleteBeforeCursor (m : Model) : Res Model := do
  let search ← getInput m
  let m ← setSearch m (search.deleteRange 0 m.input.cursorPos)
  return { m with input.cursorPos := 0 }

def insertPaste (m : Model) (text : Bytes) : Res Model := do
  let search ← getInput m
  let clean := (splitOnChar newline text).flatten
  match search.insertString m.input.cursorPos clean with
  | .error _ => return m
  | .ok newSearch =>
    let added : Int := newSearch.length - search.length
    let m' ← setSearch m newSearch
    return { m' with input.cursorPos := m.input.cursorPos + added }

/-- The handler of `Ctrl c`. -/
def ctrlKey (c : Char) (m : Model) : Res Model :=
  match c with
  | 'c' => cancel m
  | 'p' => moveSelection m (-1)
  | 'r' => moveSelection m 1
  | 'd' => do
    if (← getInput m).isEmpty then cancel m else searchAndUpdate (← deleteCharAfter m)
  | 'u' => do searchAndUpdate (← deleteBeforeCursor m)
  | 'a' => return goToStart m
  | 'e' => goToEnd m
  | _ => return m

def otherKey (name : String) (m : Model) : Res Model :=
  match name with
  | "next word" => goToNextWord m
  | "last word" => goToLastWord m
  | _ => return m

/-- The key handler; it has no effects. -/
def applyKey (key : Key) (m : Model) : Res (Model × List Effect) :=
  withoutEffects
    (match key with
    | .ctrl c => ctrlKey c m
    | .escape => cancel m
    | .enter => submit m
    | .up => moveSelection m (-1)
    | .down => moveSelection m 1
    | .other name => otherKey name m
    | .char c => do searchAndUpdate (← insertChar m c)
    | .backspace => do
      if (← getInput m).isEmpty then cancel m else searchAndUpdate (← deleteChar m)
    | .left => return moveLeft m
    | .right => moveRight m
    | .paste text => do searchAndUpdate (← insertPaste m text)
    | _ => return m)

end

end HistorySearch

/-- Typing anything but a completion key ends the cycling through completions. -/
def Model.leaveCompletion (m : Model) : Model :=
  if m.inCompletionMode then m.setCompletion none else m

/-! ## Normal mode -/

namespace NormalMode

variable [Ucd]

def insertSpaces : Nat → Model → Res Model
  | 0, m => return m
  | n + 1, m => do insertSpaces n (← m.insertChar (bytes " "))

def expandBraces (innerIndent outerIndent : Int) (m : Model) : Res Model := do
  let m ← insertSpaces innerIndent.toNat (← m.insertNewline)
  let m ← insertSpaces outerIndent.toNat (← m.insertNewline)
  (← m.moveUp).goToLineEnd

def submitNormalText (m : Model) : Res (Model × List Effect) := do
  let text := History.promptToString m.input.lines
  let m := { m with input.history := m.input.history.addToHistory (bytes "r") m.input.lines }
  if trim text = bytes "q()" then return (m, [.quit])
  else return (← m.clearModelForSubmit, [.submit text])

def submit (m : Model) : Res (Model × List Effect) := do
  match ← REnter.action m.input.lines m.input.cursorLine m.input.cursorPos m.input.lexCache with
  | .submit => submitNormalText m
  | .insertNewline indent => withoutEffects do insertSpaces indent.toNat (← m.insertNewline)
  | .expandBraces innerIndent outerIndent => withoutEffects (expandBraces innerIndent outerIndent m)

/-- Escape takes the cycling back to what was typed. -/
def escape (m : Model) : Res (Model × List Effect) :=
  match m.input.completion with
  | some cs =>
    if cs.isInCompletionMode then do
      let reverted ← m.replaceToken cs.tokenStart cs.originalToken
      return (reverted.setCompletion none, [])
    else return (m.setCompletion none, [])
  | none => return (m, [])

def enter (m : Model) : Res (Model × List Effect) := do
  match ← m.acceptBackslashCompletion with
  | some result => return result
  | none => submit m

/-- Recalling goes on while it lasts, else only from the first or the last line. -/
def flipping (m : Model) : Bool := m.input.flippingThroughHistory.isSome

/-- The handler of `Ctrl c`. -/
def ctrlKey (c : Char) (m : Model) : Res (Model × List Effect) :=
  match c with
  | 'c' => if m.repl.awaitingResponse then return (m, [.cancel]) else return (m, [])
  | 'p' => if m.repl.awaitingResponse then return (m, []) else withoutEffects (m.shiftHistory 1)
  | 'd' =>
    if m.isEmptyInput then return (m, [.quit]) else withoutEffects m.deleteCharAfterCursor
  | 'u' => withoutEffects m.deleteBeforeCursor
  | '\r' => withoutEffects m.insertNewline
  | 'r' => withoutEffects (HistorySearch.enter m)
  | 'a' => return (m.goToLineStart, [])
  | 'e' => withoutEffects m.goToLineEnd
  | _ => return (m, [])

def otherKey (name : String) (m : Model) : Res (Model × List Effect) :=
  match name with
  | "next word" => withoutEffects m.goToNextWord
  | "last word" => withoutEffects m.goToLastWord
  | _ => return (m, [])

/-- The keys that leave the completion list. -/
def textKey (key : Key) (m : Model) : Res (Model × List Effect) :=
  match key with
  | .ctrl c => ctrlKey c m
  | .other name => otherKey name m
  | .char c =>
    if c = bytes ";" && m.promptIsEmpty then return ({ m with input.mode := .shell }, [])
    else if c = bytes ":" && m.promptIsEmpty then return ({ m with input.mode := .ai }, [])
    else withoutEffects (m.userInputChar c)
  | .backspace => withoutEffects m.userInputDelete
  | .left => withoutEffects m.moveLeft
  | .right => withoutEffects m.moveRight
  | .up => withoutEffects (if m.atFirstLine || flipping m then m.shiftHistory 1 else m.moveUp)
  | .down =>
    withoutEffects (if m.atLastLine || flipping m then m.shiftHistory (-1) else m.moveDown)
  | .paste text => withoutEffects (m.insertPaste text)
  | _ => return (m, [])

def applyKey (key : Key) (m : Model) : Res (Model × List Effect) :=
  match key with
  | .tab => withoutEffects m.handleTab
  | .escape => escape m
  | .enter => enter m
  | _ => textKey key m.leaveCompletion

end NormalMode

/-! ## Shell mode -/

namespace ShellMode

variable [Ucd]

/-- `safe_guard`, from `n` dashes on. A guard longer than the text cannot close inside it, so
`text.length` rounds do. -/
def safeGuard (text : Bytes) : Nat → Nat → Bytes
  | 0, n => List.replicate n 45
  | fuel + 1, n =>
    if containsSubstring (bytes ")" ++ List.replicate n 45 ++ bytes "\"") text then
      safeGuard text fuel (n + 1)
    else List.replicate n 45

/-- The R call that runs `text` under the user's shell. -/
def shellCommand (text : Bytes) : Bytes :=
  let guard := safeGuard text text.length 1
  bytes "local(\x7b s <- Sys.getenv(\"SHELL\"); if (!nzchar(s)) s <- \"/bin/sh\"; " ++
    bytes "a <- if (basename(s) == \"fish\") c(\"--no-config\", \"-c\") else \"-c\"; " ++
    bytes "system2(s, c(a, shQuote(r\"" ++ guard ++ bytes "(" ++ text ++ bytes ")" ++ guard ++
    bytes "\"))) \x7d)"

def submit (m : Model) : Res (Model × List Effect) := do
  let text := (← m.currentLine).toBytes
  let m := { m with input.history := m.input.history.addToHistory (bytes "shell") m.input.lines }
  return (← { m with input.mode := .normal }.clearModelForSubmit, [.submit (shellCommand text)])

/-- The keys that Shell, Ai and Readline mode handle alike. -/
def editKey (key : Key) (m : Model) : Res (Model × List Effect) :=
  match key with
  | .ctrl c =>
    match c with
    | 'u' => withoutEffects m.deleteBeforeCursor
    | 'a' => return (m.goToLineStart, [])
    | 'e' => withoutEffects m.goToLineEnd
    | _ => return (m, [])
  | .other name => NormalMode.otherKey name m
  | .char c => withoutEffects (m.insertChar c)
  | .backspace => withoutEffects m.deleteChar
  | .left => withoutEffects m.moveLeft
  | .right => withoutEffects m.moveRight
  | .paste text => withoutEffects (m.insertPaste text)
  | _ => return (m, [])

/-- `Ctrl d` and Backspace on an empty prompt go back to Normal mode. -/
def deleteKey (key : Key) (m : Model) : Res (Model × List Effect) :=
  match key with
  | .ctrl 'd' =>
    if m.isEmptyInput then withoutEffects m.setModeNormalBlank
    else withoutEffects m.deleteCharAfterCursor
  | .backspace =>
    if m.promptIsEmpty then withoutEffects m.setModeNormalBlank else editKey key m
  | _ => editKey key m

def applyKey (key : Key) (m : Model) : Res (Model × List Effect) :=
  match key with
  | .ctrl 'c' => withoutEffects m.setModeNormalBlank
  | .ctrl 'p' | .up => withoutEffects (m.shiftHistory 1)
  | .down => withoutEffects (m.shiftHistory (-1))
  | .ctrl 'r' => withoutEffects (HistorySearch.enter m)
  | .enter => submit m
  | .tab | .escape => deleteKey key m
  | _ => deleteKey key m.leaveCompletion

end ShellMode

/-! ## Ai mode -/

namespace AiMode

variable [Ucd]

/-- Commands that are not sent to the AI. -/
def resetCommands : List Bytes := [bytes "/new", bytes "/reset", bytes "/clear"]

def submit (m : Model) : Res (Model × List Effect) := do
  let text := (← m.currentLine).toBytes
  let cleared ← { m with input.mode := .normal }.clearModelForSubmit
  if resetCommands.contains (trim text) then return (cleared, [.resetAiSession])
  else
    let history := m.input.history.addToHistory (bytes "ai") m.input.lines
    return ({ cleared with input.history := history }, [.submitAiQuery text])

def applyKey (key : Key) (m : Model) : Res (Model × List Effect) :=
  match key with
  | .ctrl 'c' => withoutEffects m.setModeNormalBlank
  | .ctrl 'p' | .up => withoutEffects (m.shiftHistory 1)
  | .down => withoutEffects (m.shiftHistory (-1))
  | .ctrl 'r' => withoutEffects (HistorySearch.enter m)
  | .enter => submit m
  | _ => ShellMode.deleteKey key m

end AiMode

/-! ## Readline mode -/

namespace ReadlineMode

variable [Ucd]

def submit (m : Model) : Res (Model × List Effect) := do
  let text := (← m.currentLine).toBytes
  return (← { m with input.mode := .normal }.clearModelForSubmit, [.submitReadlineInput text])

/-- The keys other than those that end or ignore the input. -/
def inputKey (key : Key) (m : Model) : Res (Model × List Effect) :=
  match key with
  | .ctrl 'd' =>
    if m.isEmptyInput then return (m, [.quit]) else withoutEffects m.deleteCharAfterCursor
  | _ => ShellMode.editKey key m

def applyKey (key : Key) (m : Model) : Res (Model × List Effect) :=
  match key with
  | .ctrl 'c' => do return (← m.setModeNormalBlank, [.submitReadlineInput []])
  | .ctrl 'p' | .up | .down => return (m, [])
  | .enter => submit m
  | .tab | .escape => inputKey key m
  | _ => inputKey key m.leaveCompletion

end ReadlineMode
end Raoui
