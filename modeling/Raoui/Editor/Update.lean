import Raoui.Editor.Modes

/-!
# Raoui.Editor.Update

`lib/update.ml`: one message of the event loop. An exception that escapes `update` ends the program.
-/

namespace Raoui

open Ffi (ResponseChunk)
open Tty (Key)

inductive Msg where
  | key (key : Key)
  | response (r : ResponseChunk)
  | backslashEffectResult (tokenStart : Int) (originalToken : Bytes) (insertedText : Option Bytes)
  | termResize (width height : Int)
  deriving DecidableEq, Repr

namespace Update

/-- `Printf.sprintf "options(width=%d)"`. -/
def widthOption (width : Int) : Bytes :=
  bytes "options(width=" ++ (if width < 0 then bytes "-" else []) ++ Ffi.decimal width.natAbs ++
    bytes ")"

/-- The rows the completion dropdown or the history pager takes below the input. -/
def dropdownRows (m : Model) : Res Int :=
  match m.input.mode with
  | .normal =>
    match m.input.completion with
    | some cs => return cs.visibleItems.length
    | none => return 0
  | .historySearch s => do
    return (← SearchPager.viewRows (SearchPager.maxRows m.layout.termHeight) s.selected s.found).length
  | .readline _ | .shell | .ai => return 0

def handleVerticalCursorMovement (m : Model) : Res Model := do
  let newHeight : Int :=
    (wrapLines m.effectiveWidth m.input.lines).length + (← dropdownRows m)
  let scrollsFromExpansion : Int :=
    if newHeight > m.layout.promptBoxHeight then
      let bottom := m.layout.promptTopRow + newHeight - 1
      if bottom > m.layout.termHeight then m.layout.termHeight - bottom else 0
    else 0
  let promptTopAfterExpansion := m.layout.promptTopRow + scrollsFromExpansion
  let (cursorRow, _) ← m.cursorTerminalPos
  let cursorTermRow := cursorRow + promptTopAfterExpansion
  let scrollsFromCursorMovement :=
    if cursorTermRow > m.layout.termHeight then m.layout.termHeight - cursorTermRow
    else if cursorTermRow < 1 then 1 - cursorTermRow
    else 0
  let proposed := m.layout.promptTopRow + scrollsFromExpansion + scrollsFromCursorMovement
  let promptTop :=
    if newHeight ≤ m.layout.termHeight then max (min proposed (m.layout.termHeight - newHeight + 1)) 1
    else proposed
  return { m with
    layout.promptBoxHeight := newHeight
    layout.promptTopRow := promptTop
    layout.scrollAmount := m.layout.scrollAmount + scrollsFromExpansion }

def handleResize (newWidth newHeight : Int) (m : Model) : Model :=
  if m.layout.termWidth = newWidth ∧ m.layout.termHeight = newHeight then m
  else
    { m with
      layout.termWidth := newWidth
      layout.termHeight := newHeight
      layout.promptTopRow := clampPromptTop newHeight m.layout.promptTopRow
      layout.promptBoxHeight := minPromptHeight }

/-- `flipping_through_history` after one more key. -/
def flippingAfterKey : Option Int → Option Int
  | none => none
  | some n => if n = 1 then none else some (n - 1)

section
variable [Ucd]

def applyKey (key : Key) (m : Model) : Res (Model × List Effect) :=
  match m.input.mode with
  | .readline _ => ReadlineMode.applyKey key m
  | .shell => ShellMode.applyKey key m
  | .ai => AiMode.applyKey key m
  | .normal => NormalMode.applyKey key m
  | .historySearch _ => HistorySearch.applyKey key m

def universalCorrections (key : Key) (m : Model) : Res Model := do
  let s ← handleVerticalCursorMovement (← m.filterCompletions)
  return { s with
    input.previousKey := some key
    input.flippingThroughHistory := flippingAfterKey m.input.flippingThroughHistory }

def handleKeyInput (key : Key) (m : Model) : Res (Model × List Effect) := do
  let (newModel, effects) ←
    applyKey key (handleResize m.layout.termWidth m.layout.termHeight m)
  return (← universalCorrections key newModel, effects)

def isBlank (u : UnicodeString) : Bool := trim u.toBytes = []

/-- Drops suggested code into the prompt, after the text that is there. -/
def placeSuggestion (code : Bytes) (m : Model) : Res Model := do
  let codeLines := (splitOnChar newline code).map readable
  let existing := m.input.lines
  let lines := if existing.all isBlank then codeLines else existing ++ codeLines
  let lexCache ← RLexCache.create lines
  { m with
    input.lines := lines
    input.lexCache := lexCache }.moveCursorToEnd

/-- What a response prints. -/
def responseReplOutput : ResponseChunk → ReplOutput
  | .stdout s => .outputText [(.raw, s)]
  | .result s => .outputText [(.raw, s)]
  | .rError s => .outputText [(.error, s)]
  | .internalError s => .outputText [(.error, bytes "Internal error: " ++ s)]
  | .restarted s => .outputText [(.error, s)]
  | .image image => .outputImage image
  | .aiOutput s => .outputMarkdown s
  | .aiToolCall name => .outputText [(.comment, bytes "→ " ++ name ++ [newline])]
  | .aiSuggestion _ | .aiDone | .done | .shutdown | .passthrough | .passthroughEnd
  | .completions _ _ | .readline _ => .outputText []

/-- Whether the prompt goes on waiting after a response. -/
def awaitingAfter (awaiting : Bool) : ResponseChunk → Bool
  | .stdout _ | .result _ | .rError _ | .readline _ | .image _ | .aiOutput _ | .aiToolCall _
  | .aiSuggestion _ => awaiting
  | .done | .shutdown | .internalError _ | .restarted _ | .passthrough | .passthroughEnd
  | .completions _ _ | .aiDone => false

def modeAfter (mode : Mode) : ResponseChunk → Mode
  | .readline prompt => .readline (if prompt = [] then bytes "input" else prompt)
  | .done => .normal
  | _ => mode

/-- The suggestion still pending, the output, and the code to place now. -/
def suggestionAfter (pending : Option Bytes) (response : ResponseChunk) :
    Option Bytes × Option ReplOutput × Option Bytes :=
  match response with
  | .aiSuggestion code =>
    let combined :=
      match pending with
      | some prev => prev ++ [newline, newline] ++ code
      | none => code
    (some combined, none, none)
  | .aiDone => (none, some (responseReplOutput response), pending)
  | _ => (pending, some (responseReplOutput response), none)

def processResponse (m : Model) : Res Model :=
  match m.repl.backendResponse with
  | none => .error (.failure (bytes "process_response called with no backend_response"))
  | some response =>
    let (pendingSuggestion, replOutput, toPlace) :=
      suggestionAfter m.repl.pendingSuggestion response
    let base := { m with
      repl.backendResponse := none
      repl.replOutput := replOutput
      repl.awaitingResponse := awaitingAfter m.repl.awaitingResponse response
      repl.pendingSuggestion := pendingSuggestion
      layout.scrollAmount := 0
      input.history := m.input.history.recordResponse response
      input.mode := modeAfter m.input.mode response }
    match toPlace with
    | some code => placeSuggestion code base
    | none => return base

/-- A completion list from the backend. -/
def completionsArrived (token : Bytes) (items : List Bytes) (m : Model) : Res Model :=
  match m.input.mode with
  | .historySearch _ => return m.setCompletion none
  | _ =>
    if m.inCompletionMode then return m
    else do
      let tokenStart := m.input.cursorPos - token.length
      let completion := Completion.create tokenStart (items.map Completion.backendItem)
      handleVerticalCursorMovement (← (m.setCompletion (some completion)).filterCompletions)

def responseStep (response : ResponseChunk) (m : Model) : Res (Model × List Effect) :=
  match response with
  | .shutdown => return (m, [.quit])
  | .passthrough => return (m, [.enterPassthrough])
  | .passthroughEnd => return (m, [])
  | .completions token items => withoutEffects (completionsArrived token items m)
  | .restarted _ => do
    let m' ← processResponse { m with repl.backendResponse := some response }
    return (m', [.backgroundSubmit (widthOption m.layout.termWidth)])
  | _ => withoutEffects (processResponse { m with repl.backendResponse := some response })

def keyStep (key : Key) (m : Model) : Res (Model × List Effect) := do
  let (m, effects) ← handleKeyInput key m
  match effects with
  | [] => m.completionFollowup
  | _ => return (m, effects)

/-- `grapheme_cluster_count`, of a text that `Result.get_ok` takes to be readable. -/
def graphemeClusterCount (text : Bytes) : Res Int :=
  match UnicodeString.ofString text with
  | .ok u => return u.length
  | .error _ => .error History.resultGetOk

def backslashResult (tokenStart : Int) (originalToken : Bytes) (insertedText : Option Bytes)
    (m : Model) : Res Model := do
  let tokenEnd := tokenStart + (← graphemeClusterCount originalToken)
  match insertedText with
  | none => return m.setCompletion none
  | some text => return (← m.replaceRange tokenStart tokenEnd text).setCompletion none

/-- The step for one message, between the two assertions. -/
def step (msg : Msg) (m : Model) : Res (Model × List Effect) :=
  match msg with
  | .key key => keyStep key m
  | .response response => responseStep response m
  | .backslashEffectResult tokenStart originalToken insertedText =>
    withoutEffects (backslashResult tokenStart originalToken insertedText m)
  | .termResize width height => do
    let m ← handleVerticalCursorMovement (handleResize width height m)
    return (m, [.backgroundSubmit (widthOption width)])

def update (msg : Msg) (m : Model) : Res (Model × List Effect) := do
  m.assertModelInvariants
  let result ← step msg { m with layout.scrollAmount := 0 }
  result.1.assertModelInvariants
  return result

/-- The model of `initial_model.ml`, at a terminal of this size with the cursor in `row`. -/
def initialModel (history : History) (row termWidth termHeight : Int) : Res Model := do
  let clamped := clampPromptTop termHeight row
  let lexCache ← RLexCache.create [.empty]
  return {
    input := {
      lines := [.empty]
      lexCache
      cursorLine := 0
      cursorPos := 0
      previousKey := none
      persistentCol := 0
      history
      flippingThroughHistory := none
      completion := none
      mode := .normal }
    layout := {
      promptTopRow := clamped
      termWidth
      termHeight
      promptBoxHeight := minPromptHeight
      previousPromptTopRow := row
      scrollAmount := 0 }
    repl := {
      awaitingResponse := false
      backendResponse := none
      replOutput := none
      pendingSuggestion := none
      replCursor := (clamped, 1) } }

end

end Update
end Raoui
