import Raoui.Editor.FrontendTypes

/-!
# Raoui.Editor.TextEditor

`lib/text_editor.ml`: editing the lines of the prompt. A function answers in `Res` where it indexes
a list or lexes a line.
-/

namespace Raoui
namespace Model

section
variable [Ucd]

def lexerUpdate (m : Model) (startLine endLine : Int) : Res Model :=
  match m.input.mode with
  | .normal | .historySearch _ => do
    let cache ← RLexCache.update startLine endLine m.input.lines m.input.lexCache
    return { m with input.lexCache := cache }
  | .shell | .readline _ | .ai =>
    return { m with input.lexCache := RLexCache.makeAllDefault m.input.lines }

end

def currentLine (m : Model) : Res UnicodeString := nth m.input.lines m.input.cursorLine

def lineLength (m : Model) : Res Int := do return (← m.currentLine).length

def charAt (m : Model) : Res (Option Bytes) := do
  let line ← m.currentLine
  if m.input.cursorPos ≥ line.length then return none
  else return some (← line.clusterAt m.input.cursorPos)

def charBefore (m : Model) : Res (Option Bytes) :=
  if m.input.cursorPos = 0 then return none
  else do
    let line ← m.currentLine
    return some (← line.clusterAt (m.input.cursorPos - 1))

def atLineStart (m : Model) : Bool := m.input.cursorPos = 0

def atLineEnd (m : Model) : Res Bool := do return m.input.cursorPos ≥ (← m.lineLength)

def shouldAutoPair (m : Model) : Res Bool := do
  match ← m.charAt with
  | none => return true
  | some s => return [bytes ")", bytes "]", bytes "\x7d", bytes " ", bytes "\t"].contains s

def atFirstLine (m : Model) : Bool := m.input.cursorLine = 0

def atLastLine (m : Model) : Bool := m.input.cursorLine ≥ m.input.lines.length - 1

def sameCursorPos (m₁ m₂ : Model) : Bool :=
  m₁.input.cursorLine = m₂.input.cursorLine && m₁.input.cursorPos = m₂.input.cursorPos

def promptIsEmpty (m : Model) : Bool := m.input.lines = [] || m.input.lines = [.empty]

def moveLeft (m : Model) : Res Model :=
  if !m.atLineStart then return { m with input.cursorPos := m.input.cursorPos - 1 }
  else if !m.atFirstLine then do
    let newLine := m.input.cursorLine - 1
    let prevLine ← nth m.input.lines newLine
    return { m with input.cursorLine := newLine, input.cursorPos := prevLine.length }
  else return m

def moveRight (m : Model) : Res Model := do
  if !(← m.atLineEnd) then return { m with input.cursorPos := m.input.cursorPos + 1 }
  else if !m.atLastLine then
    return { m with input.cursorLine := m.input.cursorLine + 1, input.cursorPos := 0 }
  else return m

/-- The column `move_up` and `move_down` aim at: the remembered one while moving vertically. -/
def targetCol (m : Model) (currentCol : Int) : Int :=
  match m.input.previousKey with
  | some .up | some .down => m.input.persistentCol
  | _ => currentCol

/-- What `move_up` and `move_down` do, to the wrapped row `newRow`. -/
def moveToRow (m : Model) (newRow currentCol : Int) : Res Model := do
  let width := m.effectiveWidth
  let col := m.targetCol currentCol
  let lineWidth := (← nth (wrapLines width m.input.lines) newRow).displayWidth
  let (newCursorLine, newCursorPos) ←
    terminalToInternal width m.input.lines newRow (min col lineWidth)
  return { m with
    input.cursorLine := newCursorLine
    input.cursorPos := newCursorPos
    input.persistentCol := col }

def moveUp (m : Model) : Res Model := do
  let (currentRow, currentCol) ← m.cursorTerminalPos
  if currentRow > 0 then m.moveToRow (currentRow - 1) currentCol else return m

def moveDown (m : Model) : Res Model := do
  let totalRows := (wrapLines m.effectiveWidth m.input.lines).length
  let (currentRow, currentCol) ← m.cursorTerminalPos
  if currentRow < totalRows - 1 then m.moveToRow (currentRow + 1) currentCol else return m

def moveCursorToEnd (m : Model) : Res Model := do
  let lastLineIdx : Int := m.input.lines.length - 1
  let lastLine ← nth m.input.lines lastLineIdx
  return { m with input.cursorLine := lastLineIdx, input.cursorPos := lastLine.length }

def goToLineStart (m : Model) : Model := { m with input.cursorPos := 0 }

def goToLineEnd (m : Model) : Res Model := do
  return { m with input.cursorPos := ← m.lineLength }

end Model

/-- The bytes `is_word_char` refuses: blanks, brackets, quotes and operators. -/
def wordSeparators : Bytes := bytes " \t/,=-+[]\x7b\x7d()|\\?<>`~!@#$%^&*;:'\""

def isWordChar (s : Bytes) : Res Bool :=
  if s.length > 1 then return true
  else do
    let c ← firstByte s
    return !wordSeparators.contains c

namespace Model

/-- The loop of `go_to_next_word`. Each round moves right in the line, so `fuel` clusters do. -/
def nextWordFrom : Nat → Bool → Model → Res Model
  | 0, _, m => return m
  | fuel + 1, seenWord, m => do
    if ← m.atLineEnd then return m
    else
      match ← m.charAt with
      | none => return m
      | some cursorChar =>
        if ← isWordChar cursorChar then
          let newMod ← m.moveRight
          if m.sameCursorPos newMod then return m else nextWordFrom fuel true newMod
        else if seenWord then return m
        else
          let newMod ← m.moveRight
          if m.sameCursorPos newMod then return m else nextWordFrom fuel false newMod

def goToNextWord (m : Model) : Res Model := do
  let len ← m.lineLength
  nextWordFrom (len - m.input.cursorPos).toNat false m

/-- The loop of `go_to_last_word`, which moves left in the line. -/
def lastWordFrom : Nat → Bool → Model → Res Model
  | 0, _, m => return m
  | fuel + 1, seenWord, m => do
    if m.atLineStart then return m
    else
      match ← m.charBefore with
      | none => return m
      | some cursorChar =>
        if ← isWordChar cursorChar then
          let newMod ← m.moveLeft
          if m.sameCursorPos newMod then return m else lastWordFrom fuel true newMod
        else if seenWord then return m
        else
          let newMod ← m.moveLeft
          if m.sameCursorPos newMod then return m else lastWordFrom fuel false newMod

def goToLastWord (m : Model) : Res Model := lastWordFrom m.input.cursorPos.toNat false m

def isEmptyInput (m : Model) : Bool :=
  match m.input.lines with
  | [line] => line.isEmpty
  | _ => false

end Model

/-- The lines with line `lineIdx` replaced by `inserted`. -/
def spliceLines (lines : List UnicodeString) (lineIdx : Int) (inserted : List UnicodeString) :
    List UnicodeString :=
  (lines.mapIdx fun i l => if (i : Int) = lineIdx then inserted else [l]).flatten

section
variable [Ucd]

/-- The `to_us` of `insert_paste`: a line that cannot be read is dropped. -/
def readable (s : Bytes) : UnicodeString :=
  match UnicodeString.ofString s with
  | .ok u => u
  | .error _ => .empty

namespace Model

/-- Sets the cursor's line and column and lexes it again. -/
def setCurrentLine (m : Model) (newLine : UnicodeString) (newPos : Int) : Res Model :=
  { m with
    input.lines := updateLine m.input.lines m.input.cursorLine newLine
    input.cursorPos := newPos }.lexerUpdate m.input.cursorLine m.input.cursorLine

def insertChar (m : Model) (s : Bytes) : Res Model := do
  let line ← m.currentLine
  match line.insertString m.input.cursorPos s with
  | .error _ => return m
  | .ok newLine => m.setCurrentLine newLine (m.input.cursorPos + 1)

def deleteChar (m : Model) : Res Model := do
  if m.atLineStart then
    if m.atFirstLine then return m
    else
      let prevLine ← nth m.input.lines (m.input.cursorLine - 1)
      let currLine ← m.currentLine
      let merged := prevLine.append currLine
      let newLineIdx := m.input.cursorLine - 1
      let newLines := updateLine (m.input.lines.eraseIdx m.input.cursorLine.toNat) newLineIdx merged
      { m with
        input.lines := newLines
        input.cursorLine := newLineIdx
        input.cursorPos := prevLine.length }.lexerUpdate newLineIdx (newLineIdx + 1)
  else
    let line ← m.currentLine
    m.setCurrentLine (line.delete (m.input.cursorPos - 1)) (m.input.cursorPos - 1)

def insertNewline (m : Model) : Res Model := do
  let line ← m.currentLine
  let (before, after) := line.split m.input.cursorPos
  let newLineIdx := m.input.cursorLine + 1
  { m with
    input.lines := spliceLines m.input.lines m.input.cursorLine [before, after]
    input.cursorLine := newLineIdx
    input.cursorPos := 0 }.lexerUpdate m.input.cursorLine newLineIdx

/-- The lines a paste puts in place of the cursor's line, and the column it leaves the cursor at. -/
def pastedLines (before after : UnicodeString) (cursorPos : Int) (pasteLines : List Bytes) :
    List UnicodeString × Int :=
  match pasteLines with
  | [] => ([before.append after], cursorPos)
  | [single] =>
    let singleUs := readable single
    ([.concat [before, singleUs, after]], cursorPos + singleUs.length)
  | first :: second :: rest =>
    let middle := (second :: rest).dropLast
    let last := (second :: rest).getLastD []
    let lastUs := readable last
    ((before.append (readable first) :: middle.map readable) ++ [lastUs.append after],
      lastUs.length)

def insertPaste (m : Model) (text : Bytes) : Res Model := do
  let text := text.take (5 * 1024)
  let line ← m.currentLine
  let (before, after) := line.split m.input.cursorPos
  let pasteLines := splitOnChar newline text
  let (inserted, finalPos) := pastedLines before after m.input.cursorPos pasteLines
  let finalLineIdx := m.input.cursorLine + pasteLines.length - 1
  { m with
    input.lines := spliceLines m.input.lines m.input.cursorLine inserted
    input.cursorLine := finalLineIdx
    input.cursorPos := finalPos }.lexerUpdate m.input.cursorLine finalLineIdx

/-- The bracket that closes one of `[`, `(` and `\x7b`. -/
def closingBracket (c : Bytes) : Option Bytes :=
  if c = bytes "[" then some (bytes "]")
  else if c = bytes "(" then some (bytes ")")
  else if c = bytes "\x7b" then some (bytes "\x7d")
  else none

def userInputChar (m : Model) (c : Bytes) : Res Model :=
  match closingBracket c with
  | some closing => do
    if !(← m.shouldAutoPair) then m.insertChar c
    else
      let after1 ← m.insertChar c
      (← after1.insertChar closing).moveLeft
  | none =>
    if [bytes "]", bytes "\x7d", bytes ")"].contains c then do
      if ← m.atLineEnd then m.insertChar c
      else
        match ← m.charAt with
        | some s => if s = c then m.moveRight else m.insertChar c
        | none => m.insertChar c
    else if [bytes "'", bytes "\""].contains c then do
      let typeQuote : Res Model := do
        if ← m.shouldAutoPair then (← (← m.insertChar c).insertChar c).moveLeft
        else m.insertChar c
      match ← m.charAt with
      | some s => if s = c then m.moveRight else typeQuote
      | none => typeQuote
    else m.insertChar c

/-- The bytes `user_input_delete` takes for a pair. -/
def isMatchedPair (b a : UInt8) : Bool :=
  [(40, 41), (91, 93), (123, 125), (34, 34), (39, 39)].contains (b, a)

def userInputDelete (m : Model) : Res Model := do
  if m.atLineStart then m.deleteChar
  else if ← m.atLineEnd then m.deleteChar
  else
    match ← m.charBefore, ← m.charAt with
    | some beforeS, some atS =>
      let b ← firstByte beforeS
      let a ← firstByte atS
      if isMatchedPair b a then
        (← (← m.moveRight).deleteChar).deleteChar
      else m.deleteChar
    | _, _ => m.deleteChar

def deleteBeforeCursor (m : Model) : Res Model := do
  if m.atLineStart then m.deleteChar
  else
    let line ← m.currentLine
    m.setCurrentLine (line.deleteRange 0 m.input.cursorPos) 0

def deleteCharAfterCursor (m : Model) : Res Model := do
  let afterMoveRight ← m.moveRight
  if m.sameCursorPos afterMoveRight then return m else afterMoveRight.deleteChar

def replaceRange (m : Model) (startPos endPos : Int) (text : Bytes) : Res Model := do
  let line ← m.currentLine
  let startPos := max 0 startPos
  let endPos := max startPos endPos
  let before := line.sub 0 startPos
  let afterStart := min endPos line.length
  let after := line.sub afterStart (line.length - afterStart)
  let textUs := readable text
  m.setCurrentLine (.concat [before, textUs, after]) (startPos + textUs.length)

def replaceToken (m : Model) (tokenStart : Int) (text : Bytes) : Res Model :=
  m.replaceRange tokenStart m.input.cursorPos text

end Model
end
end Raoui
