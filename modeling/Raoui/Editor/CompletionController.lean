import Raoui.Editor.TextEditor

/-!
# Raoui.Editor.CompletionController

`lib/completion_controller.ml` and the effects of `lib/repl_effect.ml`.
-/

namespace Raoui

inductive BackslashEffect where
  | pickFile (tokenStart : Int) (originalToken : Bytes)
  | pickFileFzf (tokenStart : Int) (originalToken : Bytes)
  deriving DecidableEq, Repr

inductive Effect where
  | submit (text : Bytes)
  | cancel
  | requestCompletions (text : Bytes) (cursorPos : Int)
  | submitReadlineInput (text : Bytes)
  | backgroundSubmit (text : Bytes)
  | submitAiQuery (query : Bytes)
  | resetAiSession
  | runBackslashEffect (cmd : BackslashEffect)
  | enterPassthrough
  | quit
  deriving DecidableEq, Repr

namespace Model

def setCompletion (m : Model) (completion : Option Completion) : Model :=
  { m with input.completion := completion }

/-- A completion is shown and the user cycles through it. -/
def inCompletionMode (m : Model) : Bool :=
  match m.input.completion with
  | some cs => cs.isInCompletionMode
  | none => false

def filterCompletions (m : Model) : Res Model :=
  match m.input.mode with
  | .historySearch _ => return m.setCompletion none
  | _ =>
    match m.input.completion with
    | none => return m
    | some cs =>
      if cs.isInCompletionMode then return m
      else do
        let line ← m.currentLine
        if cs.tokenStart > line.length ∨ cs.tokenStart > m.input.cursorPos then
          return m.setCompletion none
        else
          let typed := (line.sub cs.tokenStart (m.input.cursorPos - cs.tokenStart)).toBytes
          return m.setCompletion (cs.filter typed)

/-- The backslash command typed before the cursor: where it starts, its label and itself. -/
def fallbackExactCommand (m : Model) : Res (Option (Int × Bytes × Backslash.Command)) := do
  let line ← m.currentLine
  let found ←
    Backslash.exactCommandBeforeCursor Backslash.defaultRegistry line m.input.cursorPos
  return found.map fun (tokenStart, command) => (tokenStart, command.label, command)

def exactMatchItem (m : Model) (cs : Completion) : Res (Option Completion.Item) := do
  let line ← m.currentLine
  if cs.tokenStart > m.input.cursorPos then return none
  else
    let typedText := (line.sub cs.tokenStart (m.input.cursorPos - cs.tokenStart)).toBytes
    return cs.filtered.find? fun item => item.label = typedText

/-- The command `accept_backslash_completion` applies, if any. -/
def chosenCommand (m : Model) : Res (Option (Int × Bytes × Backslash.Command)) :=
  match m.input.completion with
  | none => m.fallbackExactCommand
  | some cs => do
    let chosenItem ←
      match cs.currentCompletion with
      | some item => pure (some item)
      | none => m.exactMatchItem cs
    match chosenItem with
    | some completionItem =>
      match completionItem.kind with
      | .backslash command => return some (cs.tokenStart, completionItem.label, command)
      | .backend => m.fallbackExactCommand
    | none => m.fallbackExactCommand

/-- The completion list with what was typed saved, when the cycling starts. -/
def withOriginal (m : Model) (cs : Completion) : Res Completion :=
  if cs.isInCompletionMode then return cs
  else do
    let line ← m.currentLine
    return cs.saveOriginalToken
      (line.sub cs.tokenStart (m.input.cursorPos - cs.tokenStart)).toBytes

section
variable [Ucd]

def handleTab (m : Model) : Res Model :=
  match m.input.completion with
  | none => return m
  | some cs =>
    if cs.filtered.length = 0 then return m
    else do
      let csCycled := (← m.withOriginal cs).cycleNext
      match csCycled.currentCompletion with
      | none => return m
      | some completionItem =>
        let inserted ← m.replaceToken csCycled.tokenStart completionItem.label
        return inserted.setCompletion (some csCycled)

/-- `apply_command`. -/
def applyCommand (m : Model) (tokenStart : Int) (label : Bytes) :
    Backslash.Command → Res (Model × List Effect)
  | .simple _ insertedText => do
    let replaced ← m.replaceRange tokenStart m.input.cursorPos insertedText
    return (replaced.setCompletion none, [])
  | .effectful _ .pickFile =>
    return (m.setCompletion none, [.runBackslashEffect (.pickFile tokenStart label)])
  | .effectful _ .pickFileFzf =>
    return (m.setCompletion none, [.runBackslashEffect (.pickFileFzf tokenStart label)])

def acceptBackslashCompletion (m : Model) : Res (Option (Model × List Effect)) := do
  match ← m.chosenCommand with
  | none => return none
  | some (tokenStart, label, command) => return some (← m.applyCommand tokenStart label command)

end

def makeBackslashCompletion (m : Model) (token : Backslash.Token) : Res Model :=
  let items := (Backslash.matchingCommands Backslash.defaultRegistry token.commandNamePrefix).map
    Completion.backslashItem
  if items = [] then return m.setCompletion none
  else (m.setCompletion (some (.create token.tokenStart items))).filterCompletions

/-- `normal_completion_token_length`: the word characters left of cluster `n`. -/
def normalCompletionTokenLength (line : UnicodeString) : Nat → Nat → Res Nat
  | 0, len => return len
  | n + 1, len => do
    let cluster ← line.clusterAt n
    if ← isWordChar cluster then normalCompletionTokenLength line n (len + 1) else return len

def completionFollowup (m : Model) : Res (Model × List Effect) :=
  match m.input.mode with
  | .historySearch _ => return (m.setCompletion none, [])
  | _ =>
    if !m.repl.awaitingResponse && !m.inCompletionMode then do
      match ← nthOpt m.input.lines m.input.cursorLine with
      | some line =>
        match ← Backslash.tokenInLine line m.input.cursorPos with
        | some token => return (← m.makeBackslashCompletion token, [])
        | none =>
          if (← normalCompletionTokenLength line m.input.cursorPos.toNat 0) < 2 then
            return (m.setCompletion none, [])
          else return (m, [.requestCompletions line.toBytes m.input.cursorPos])
      | none => return (m, [])
    else return (m, [])

end Model
end Raoui
