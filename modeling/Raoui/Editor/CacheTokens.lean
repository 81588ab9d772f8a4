import Raoui.Editor.Invariant
import Raoui.Lexer.Provenance

/-!
# Raoui.Editor.CacheTokens

The tokens of the prompt's cached lines, in every reachable model: each entry is a placeholder or
its text lexed from its start mode. The handlers build caches only with `create`, `update` and
`makeAllDefault`, so a walk through them carries `Genuine` along.

* `reachable_genuine`: along the runs of `update`.
-/

namespace Raoui

open Outcome (Meets)
open Tty (Key)
open Transition (Run)
open Ffi (ResponseChunk)

namespace Model

section
variable [Ucd] {m : Model}

def Genuine (m : Model) : Prop := RLexCache.Genuine m.input.lexCache

theorem SameText.genuine {m' : Model} (h : m.SameText m') (hg : m.Genuine) : m'.Genuine := by
  unfold Genuine
  rw [h.lexCache]
  exact hg

/-! ## Moving and editing -/

theorem Genuine.lexerUpdate (h : m.Genuine) (startLine endLine : Int) :
    Yields (m.lexerUpdate startLine endLine) Genuine := by
  have hupdate : Yields (do
      let cache ← RLexCache.update startLine endLine m.input.lines m.input.lexCache
      return { m with input.lexCache := cache }) Genuine :=
    Meets.bind (Yields.of_ok fun _ hcache => RLexCache.update_genuine h hcache) fun _ hcache => hcache
  unfold Model.lexerUpdate
  split
  · exact hupdate
  · exact hupdate
  · exact RLexCache.makeAllDefault_genuine _
  · exact RLexCache.makeAllDefault_genuine _
  · exact RLexCache.makeAllDefault_genuine _

theorem Genuine.moveLeft (h : m.Genuine) : Yields m.moveLeft Genuine := by
  unfold Model.moveLeft
  split
  · exact h
  · split
    · exact Yields.read fun _ => h
    · exact h

theorem Genuine.moveRight (h : m.Genuine) : Yields m.moveRight Genuine := by
  refine Yields.read fun _ => ?_
  split
  · exact h
  · split <;> exact h

theorem Genuine.moveToRow (h : m.Genuine) (newRow currentCol : Int) :
    Yields (m.moveToRow newRow currentCol) Genuine :=
  Yields.read fun _ => Yields.read fun _ => h

theorem Genuine.moveUp (h : m.Genuine) : Yields m.moveUp Genuine := by
  refine Yields.read fun p => ?_
  dsimp only
  split
  · exact h.moveToRow _ _
  · exact h

theorem Genuine.moveDown (h : m.Genuine) : Yields m.moveDown Genuine := by
  refine Yields.read fun p => ?_
  dsimp only
  split
  · exact h.moveToRow _ _
  · exact h

theorem Genuine.moveCursorToEnd (h : m.Genuine) : Yields m.moveCursorToEnd Genuine :=
  Yields.read fun _ => h

theorem Genuine.goToLineEnd (h : m.Genuine) : Yields m.goToLineEnd Genuine :=
  Yields.read fun _ => h

theorem Genuine.nextWordFrom (h : m.Genuine) (fuel : Nat) (seenWord : Bool) :
    Yields (Model.nextWordFrom fuel seenWord m) Genuine := by
  induction fuel generalizing m seenWord with
  | zero => exact h
  | succ fuel ih =>
    have hgo : ∀ seen, Yields (do
        let newMod ← m.moveRight
        if m.sameCursorPos newMod then return m else Model.nextWordFrom fuel seen newMod)
        Genuine := by
      intro seen
      refine h.moveRight.bind fun newMod hnew => ?_
      split
      · exact h
      · exact ih hnew seen
    unfold Model.nextWordFrom
    refine Yields.read fun atEnd => ?_
    split
    · exact h
    · refine Yields.read fun c => ?_
      split
      · exact h
      · refine Yields.read fun isWord => ?_
        split
        · exact hgo true
        · split
          · exact h
          · exact hgo false

theorem Genuine.lastWordFrom (h : m.Genuine) (fuel : Nat) (seenWord : Bool) :
    Yields (Model.lastWordFrom fuel seenWord m) Genuine := by
  induction fuel generalizing m seenWord with
  | zero => exact h
  | succ fuel ih =>
    have hgo : ∀ seen, Yields (do
        let newMod ← m.moveLeft
        if m.sameCursorPos newMod then return m else Model.lastWordFrom fuel seen newMod)
        Genuine := by
      intro seen
      refine h.moveLeft.bind fun newMod hnew => ?_
      split
      · exact h
      · exact ih hnew seen
    unfold Model.lastWordFrom
    show Yields (if _ then _ else _) _
    split
    · exact h
    · refine Yields.read fun c => ?_
      split
      · exact h
      · refine Yields.read fun isWord => ?_
        split
        · exact hgo true
        · split
          · exact h
          · exact hgo false

theorem Genuine.goToNextWord (h : m.Genuine) : Yields m.goToNextWord Genuine :=
  Yields.read fun _ => h.nextWordFrom _ _

theorem Genuine.goToLastWord (h : m.Genuine) : Yields m.goToLastWord Genuine :=
  h.lastWordFrom _ _

theorem Genuine.setCurrentLine (h : m.Genuine) (newLine : UnicodeString) (newPos : Int) :
    Yields (m.setCurrentLine newLine newPos) Genuine :=
  Genuine.lexerUpdate (m := { m with
    input.lines := updateLine m.input.lines m.input.cursorLine newLine
    input.cursorPos := newPos }) h _ _

theorem Genuine.insertChar (h : m.Genuine) (s : Bytes) : Yields (m.insertChar s) Genuine := by
  refine Yields.read fun line => ?_
  split
  · exact h
  · exact h.setCurrentLine _ _

theorem Genuine.deleteChar (h : m.Genuine) : Yields m.deleteChar Genuine := by
  unfold Model.deleteChar
  split
  · split
    · exact h
    · exact Yields.read fun prevLine => Yields.read fun currLine =>
        Genuine.lexerUpdate (m := { m with
          input.lines := updateLine (m.input.lines.eraseIdx m.input.cursorLine.toNat)
            (m.input.cursorLine - 1) (prevLine.append currLine)
          input.cursorLine := m.input.cursorLine - 1
          input.cursorPos := prevLine.length }) h _ _
  · exact Yields.read fun _ => h.setCurrentLine _ _

theorem Genuine.insertNewline (h : m.Genuine) : Yields m.insertNewline Genuine := by
  refine Yields.read fun line => ?_
  exact Genuine.lexerUpdate (m := { m with
    input.lines := spliceLines m.input.lines m.input.cursorLine _
    input.cursorLine := m.input.cursorLine + 1
    input.cursorPos := 0 }) h _ _

theorem Genuine.insertPaste (h : m.Genuine) (text : Bytes) :
    Yields (m.insertPaste text) Genuine := by
  refine Yields.read fun line => ?_
  exact Genuine.lexerUpdate (m := { m with
    input.lines := spliceLines m.input.lines m.input.cursorLine _
    input.cursorLine := _
    input.cursorPos := _ }) h _ _

/-- An opening character is typed with what closes it. -/
theorem Genuine.insertPair (h : m.Genuine) (c closing : Bytes) : Yields (do
    (← (← m.insertChar c).insertChar closing).moveLeft) Genuine :=
  (h.insertChar c).bind fun _ h₁ => (h₁.insertChar closing).bind fun _ h₂ => h₂.moveLeft

theorem Genuine.userInputChar (h : m.Genuine) (c : Bytes) :
    Yields (m.userInputChar c) Genuine := by
  unfold Model.userInputChar
  split
  · refine Yields.read fun pair => ?_
    split
    · exact h.insertChar c
    · exact h.insertPair c _
  · split
    · refine Yields.read fun atEnd => ?_
      split
      · exact h.insertChar c
      · refine Yields.read fun s => ?_
        split
        · split
          · exact h.moveRight
          · exact h.insertChar c
        · exact h.insertChar c
    · split
      · have hquote : Yields (do
            if ← m.shouldAutoPair then (← (← m.insertChar c).insertChar c).moveLeft
            else m.insertChar c) Genuine := by
          refine Yields.read fun pair => ?_
          split
          · exact h.insertPair c c
          · exact h.insertChar c
        refine Yields.read fun s => ?_
        split
        · split
          · exact h.moveRight
          · exact hquote
        · exact hquote
      · exact h.insertChar c

theorem Genuine.userInputDelete (h : m.Genuine) : Yields m.userInputDelete Genuine := by
  unfold Model.userInputDelete
  show Yields (if _ then _ else _) _
  split
  · exact h.deleteChar
  · refine Yields.read fun atEnd => ?_
    split
    · exact h.deleteChar
    · refine Yields.read fun before => Yields.read fun after => ?_
      split
      · refine Yields.read fun b => Yields.read fun a => ?_
        split
        · exact h.moveRight.bind fun _ h₁ => h₁.deleteChar.bind fun _ h₂ => h₂.deleteChar
        · exact h.deleteChar
      · exact h.deleteChar

theorem Genuine.deleteBeforeCursor (h : m.Genuine) : Yields m.deleteBeforeCursor Genuine := by
  unfold Model.deleteBeforeCursor
  split
  · exact h.deleteChar
  · exact Yields.read fun _ => h.setCurrentLine _ _

theorem Genuine.deleteCharAfterCursor (h : m.Genuine) :
    Yields m.deleteCharAfterCursor Genuine := by
  refine h.moveRight.bind fun moved hmoved => ?_
  split
  · exact h
  · exact hmoved.deleteChar

theorem Genuine.replaceRange (h : m.Genuine) (startPos endPos : Int) (text : Bytes) :
    Yields (m.replaceRange startPos endPos text) Genuine :=
  Yields.read fun _ => h.setCurrentLine _ _

theorem Genuine.replaceToken (h : m.Genuine) (tokenStart : Int) (text : Bytes) :
    Yields (m.replaceToken tokenStart text) Genuine := h.replaceRange _ _ _

/-! ## What the modes share -/

/-- The prompt's lines are replaced and lexed afresh. -/
theorem genuine_of_create {lines : List UnicodeString} {f : RLexCache.Cache → Res Model}
    (hf : ∀ cache, RLexCache.Genuine cache → Yields (f cache) Genuine) :
    Yields (RLexCache.create lines >>= f) Genuine :=
  Meets.bind (Yields.of_ok fun _ hcache => RLexCache.create_genuine hcache) hf

theorem clearModelForSubmit_genuine (m : Model) : Yields m.clearModelForSubmit Genuine :=
  genuine_of_create fun _ hcache => hcache

theorem blankInput_genuine (m : Model) (mode : Mode) : Yields (m.blankInput mode) Genuine :=
  genuine_of_create fun _ hcache => hcache

theorem Genuine.shiftHistory (h : m.Genuine) (amount : Int) :
    Yields (m.shiftHistory amount) Genuine := by
  refine Yields.read fun modeString => Yields.read fun recalled => ?_
  dsimp only
  split
  · exact Yields.read fun mode => genuine_of_create fun _ hcache => Yields.read fun _ => hcache
  · exact h

/-- A handler gives a genuine cache. -/
abbrev Handles (x : Res (Model × List Effect)) : Prop := Yields x fun r => r.1.Genuine

theorem handles_of {x : Res Model} (hx : Yields x Genuine) : Handles (withoutEffects x) :=
  hx.bind fun _ hm => hm

/-! ## Completions -/

theorem Genuine.handleTab (h : m.Genuine) : Yields m.handleTab Genuine := by
  unfold Model.handleTab
  split
  · exact h
  · split
    · exact h
    · refine Yields.read fun cs => ?_
      dsimp only
      split
      · exact h
      · exact (h.replaceToken _ _).bind fun _ hm => hm

theorem Genuine.applyCommand (h : m.Genuine) (tokenStart : Int) (label : Bytes)
    (command : Backslash.Command) : Handles (m.applyCommand tokenStart label command) := by
  unfold Model.applyCommand
  split
  · exact (h.replaceRange _ _ _).bind fun _ hm => hm
  · exact h
  · exact h

theorem Genuine.acceptBackslashCompletion (h : m.Genuine) :
    Yields m.acceptBackslashCompletion fun r => ∀ p, r = some p → p.1.Genuine := by
  refine Yields.read fun chosen => ?_
  split
  · exact Outcome.meets_pure.mpr fun p hp => nomatch hp
  · rename_i tokenStart label command
    refine (h.applyCommand tokenStart label command).bind fun r hr => ?_
    refine Outcome.meets_pure.mpr fun p hp => ?_
    cases hp
    exact hr

theorem Genuine.leaveCompletion (h : m.Genuine) : m.leaveCompletion.Genuine :=
  (leaveCompletion_sameText m).genuine h

end

end Model

/-! ## The modes -/

section
variable [Ucd] {m : Model}

open Model (Genuine Handles handles_of genuine_of_create blankInput_genuine
  clearModelForSubmit_genuine)

namespace HistorySearch

theorem searchAndUpdate_genuine (h : m.Genuine) : Yields (searchAndUpdate m) Genuine :=
  Yields.read fun _ => h

theorem setSearch_genuine (h : m.Genuine) (search : UnicodeString) :
    Yields (setSearch m search) Genuine := Yields.read fun _ => h

theorem moveSelection_genuine (h : m.Genuine) (amount : Int) :
    Yields (moveSelection m amount) Genuine := by
  refine Yields.read fun state => ?_
  dsimp only
  split <;> exact h

theorem insertChar_genuine (h : m.Genuine) (c : Bytes) : Yields (insertChar m c) Genuine := by
  refine Yields.read fun search => ?_
  split
  · exact h
  · exact (setSearch_genuine h _).bind fun _ hm => hm

theorem deleteChar_genuine (h : m.Genuine) : Yields (deleteChar m) Genuine := by
  unfold deleteChar
  split
  · exact h
  · exact Yields.read fun search => (setSearch_genuine h _).bind fun _ hm => hm

theorem deleteCharAfter_genuine (h : m.Genuine) : Yields (deleteCharAfter m) Genuine := by
  refine Yields.read fun search => ?_
  split
  · exact h
  · exact setSearch_genuine h _

theorem insertPaste_genuine (h : m.Genuine) (text : Bytes) :
    Yields (insertPaste m text) Genuine := by
  refine Yields.read fun search => ?_
  dsimp only
  split
  · exact h
  · exact (setSearch_genuine h _).bind fun _ hm => hm

theorem enter_genuine (m : Model) : Yields (enter m) Genuine :=
  genuine_of_create fun _ hcache => hcache

theorem cancel_genuine (m : Model) : Yields (cancel m) Genuine := blankInput_genuine m _

theorem submit_genuine (m : Model) : Yields (submit m) Genuine := by
  refine Yields.read fun state => Yields.read fun entry => ?_
  split
  · exact cancel_genuine m
  · exact Yields.read fun lines => Yields.read fun lastLine => Yields.read fun mode =>
      genuine_of_create fun _ hcache => hcache

theorem ctrlKey_genuine (h : m.Genuine) (c : Char) : Yields (ctrlKey c m) Genuine := by
  unfold ctrlKey
  split
  · exact cancel_genuine m
  · exact moveSelection_genuine h _
  · exact moveSelection_genuine h _
  · refine Yields.read fun search => ?_
    split
    · exact cancel_genuine m
    · exact (deleteCharAfter_genuine h).bind fun _ => searchAndUpdate_genuine
  · refine Meets.bind ?_ fun _ => searchAndUpdate_genuine
    exact Yields.read fun search => (setSearch_genuine h _).bind fun _ hm => hm
  · exact h
  · exact Yields.read fun _ => h
  · exact h

theorem otherKey_genuine (h : m.Genuine) (name : String) : Yields (otherKey name m) Genuine := by
  unfold otherKey
  split
  · exact Yields.read fun _ => Yields.read fun _ => h
  · exact Yields.read fun _ => Yields.read fun _ => h
  · exact h

theorem applyKey_genuine (h : m.Genuine) (key : Key) : Handles (applyKey key m) := by
  refine handles_of ?_
  cases key with
  | ctrl c => exact ctrlKey_genuine h c
  | escape => exact cancel_genuine m
  | enter => exact submit_genuine m
  | up => exact moveSelection_genuine h _
  | down => exact moveSelection_genuine h _
  | other name => exact otherKey_genuine h name
  | char c => exact (insertChar_genuine h c).bind fun _ => searchAndUpdate_genuine
  | backspace =>
    refine Yields.read fun search => ?_
    split
    · exact cancel_genuine m
    · exact (deleteChar_genuine h).bind fun _ => searchAndUpdate_genuine
  | left =>
    unfold moveLeft
    show Genuine (if _ then _ else _)
    split <;> exact h
  | right =>
    refine Yields.read fun search => ?_
    split <;> exact h
  | paste text => exact (insertPaste_genuine h text).bind fun _ => searchAndUpdate_genuine
  | _ => exact h

end HistorySearch

namespace NormalMode

theorem insertSpaces_genuine (h : m.Genuine) (n : Nat) : Yields (insertSpaces n m) Genuine := by
  induction n generalizing m with
  | zero => exact h
  | succ n ih => exact (h.insertChar _).bind fun _ hm => ih hm

theorem expandBraces_genuine (h : m.Genuine) (innerIndent outerIndent : Int) :
    Yields (expandBraces innerIndent outerIndent m) Genuine := by
  refine h.insertNewline.bind fun _ h₁ => (insertSpaces_genuine h₁ _).bind fun _ h₂ => ?_
  refine h₂.insertNewline.bind fun _ h₃ => (insertSpaces_genuine h₃ _).bind fun _ h₄ => ?_
  exact h₄.moveUp.bind fun _ h₅ => h₅.goToLineEnd

theorem submit_genuine (h : m.Genuine) : Handles (submit m) := by
  refine Yields.read fun action => ?_
  split
  · unfold submitNormalText
    dsimp only
    split
    · exact h
    · exact (clearModelForSubmit_genuine _).bind fun _ hm => hm
  · exact handles_of (h.insertNewline.bind fun _ h₁ => insertSpaces_genuine h₁ _)
  · exact handles_of (expandBraces_genuine h _ _)

theorem escape_genuine (h : m.Genuine) : Handles (escape m) := by
  unfold escape
  split
  · split
    · exact (h.replaceToken _ _).bind fun _ hm => hm
    · exact h
  · exact h

theorem enter_genuine (h : m.Genuine) : Handles (enter m) := by
  refine h.acceptBackslashCompletion.bind fun r hr => ?_
  split
  · rename_i result
    exact hr result rfl
  · exact submit_genuine h

theorem ctrlKey_genuine (h : m.Genuine) (c : Char) : Handles (ctrlKey c m) := by
  unfold ctrlKey
  split
  · split <;> exact h
  · split
    · exact h
    · exact handles_of (h.shiftHistory _)
  · split
    · exact h
    · exact handles_of h.deleteCharAfterCursor
  · exact handles_of h.deleteBeforeCursor
  · exact handles_of h.insertNewline
  · exact handles_of (HistorySearch.enter_genuine m)
  · exact h
  · exact handles_of h.goToLineEnd
  · exact h

theorem otherKey_genuine (h : m.Genuine) (name : String) : Handles (otherKey name m) := by
  unfold otherKey
  split
  · exact handles_of h.goToNextWord
  · exact handles_of h.goToLastWord
  · exact h

theorem textKey_genuine (h : m.Genuine) (key : Key) : Handles (textKey key m) := by
  unfold textKey
  cases key with
  | ctrl c => exact ctrlKey_genuine h c
  | other name => exact otherKey_genuine h name
  | char c =>
    dsimp only
    split
    · exact h
    · split
      · exact h
      · exact handles_of (h.userInputChar _)
  | backspace => exact handles_of h.userInputDelete
  | left => exact handles_of h.moveLeft
  | right => exact handles_of h.moveRight
  | up =>
    refine handles_of ?_
    split
    · exact h.shiftHistory _
    · exact h.moveUp
  | down =>
    refine handles_of ?_
    split
    · exact h.shiftHistory _
    · exact h.moveDown
  | paste text => exact handles_of (h.insertPaste text)
  | _ => exact h

theorem applyKey_genuine (h : m.Genuine) (key : Key) : Handles (applyKey key m) := by
  unfold applyKey
  split
  · exact handles_of h.handleTab
  · exact escape_genuine h
  · exact enter_genuine h
  · exact textKey_genuine h.leaveCompletion _

end NormalMode

namespace ShellMode

theorem editKey_genuine (h : m.Genuine) (key : Key) : Handles (editKey key m) := by
  unfold editKey
  cases key with
  | ctrl c =>
    dsimp only
    split
    · exact handles_of h.deleteBeforeCursor
    · exact h
    · exact handles_of h.goToLineEnd
    · exact h
  | other name => exact NormalMode.otherKey_genuine h name
  | char c => exact handles_of (h.insertChar c)
  | backspace => exact handles_of h.deleteChar
  | left => exact handles_of h.moveLeft
  | right => exact handles_of h.moveRight
  | paste text => exact handles_of (h.insertPaste text)
  | _ => exact h

theorem deleteKey_genuine (h : m.Genuine) (key : Key) : Handles (deleteKey key m) := by
  unfold deleteKey
  split
  · split
    · exact handles_of (blankInput_genuine m _)
    · exact handles_of h.deleteCharAfterCursor
  · split
    · exact handles_of (blankInput_genuine m _)
    · exact editKey_genuine h _
  · exact editKey_genuine h _

theorem applyKey_genuine (h : m.Genuine) (key : Key) : Handles (applyKey key m) := by
  unfold applyKey
  split
  · exact handles_of (blankInput_genuine m _)
  · exact handles_of (h.shiftHistory _)
  · exact handles_of (h.shiftHistory _)
  · exact handles_of (h.shiftHistory _)
  · exact handles_of (HistorySearch.enter_genuine m)
  · exact Yields.read fun _ => (clearModelForSubmit_genuine _).bind fun _ hm => hm
  · exact deleteKey_genuine h _
  · exact deleteKey_genuine h _
  · exact deleteKey_genuine h.leaveCompletion _

end ShellMode

theorem AiMode.applyKey_genuine (h : m.Genuine) (key : Key) : Handles (AiMode.applyKey key m) := by
  unfold AiMode.applyKey
  split
  · exact handles_of (blankInput_genuine m _)
  · exact handles_of (h.shiftHistory _)
  · exact handles_of (h.shiftHistory _)
  · exact handles_of (h.shiftHistory _)
  · exact handles_of (HistorySearch.enter_genuine m)
  · refine Yields.read fun _ => (clearModelForSubmit_genuine _).bind fun _ hm => ?_
    dsimp only
    split <;> exact hm
  · exact ShellMode.deleteKey_genuine h _

namespace ReadlineMode

theorem inputKey_genuine (h : m.Genuine) (key : Key) : Handles (inputKey key m) := by
  unfold inputKey
  split
  · split
    · exact h
    · exact handles_of h.deleteCharAfterCursor
  · exact ShellMode.editKey_genuine h _

theorem applyKey_genuine (h : m.Genuine) (key : Key) : Handles (applyKey key m) := by
  unfold applyKey
  split
  · exact (blankInput_genuine m _).bind fun _ hm => hm
  · exact h
  · exact h
  · exact h
  · exact Yields.read fun _ => (clearModelForSubmit_genuine _).bind fun _ hm => hm
  · exact inputKey_genuine h _
  · exact inputKey_genuine h _
  · exact inputKey_genuine h.leaveCompletion _

end ReadlineMode

/-! ## Updates -/

namespace Update

theorem applyKey_genuine (h : m.Genuine) (key : Key) : Handles (applyKey key m) := by
  unfold applyKey
  split
  · exact ReadlineMode.applyKey_genuine h key
  · exact ShellMode.applyKey_genuine h key
  · exact AiMode.applyKey_genuine h key
  · exact NormalMode.applyKey_genuine h key
  · exact HistorySearch.applyKey_genuine h key

theorem handleVerticalCursorMovement_genuine (h : m.Genuine) :
    Yields (handleVerticalCursorMovement m) Genuine :=
  Yields.read fun _ => Yields.read fun _ => h

theorem handleResize_genuine (h : m.Genuine) (width height : Int) :
    (handleResize width height m).Genuine := (handleResize_sameText width height m).genuine h

theorem filterCompletions_genuine (h : m.Genuine) : Yields m.filterCompletions Genuine := by
  unfold Model.filterCompletions
  split
  · exact h
  · split
    · exact h
    · split
      · exact h
      · refine Yields.read fun line => ?_
        split <;> exact h

theorem universalCorrections_genuine (h : m.Genuine) (key : Key) :
    Yields (universalCorrections key m) Genuine :=
  (filterCompletions_genuine h).bind fun _ h₁ =>
    (handleVerticalCursorMovement_genuine h₁).bind fun _ h₂ => h₂

theorem completionFollowup_genuine (h : m.Genuine) : Handles m.completionFollowup := by
  unfold Model.completionFollowup
  split
  · exact h
  · split
    · refine Yields.read fun line => ?_
      split
      · refine Yields.read fun token => ?_
        split
        · refine Meets.via Genuine ?_ fun _ hm => hm
          unfold Model.makeBackslashCompletion
          dsimp only
          split
          · exact h
          · exact filterCompletions_genuine h
        · refine Yields.read fun len => ?_
          split <;> exact h
      · exact h
    · exact h

theorem keyStep_genuine (h : m.Genuine) (key : Key) : Handles (keyStep key m) := by
  refine Meets.via (fun r : Model × List Effect => r.1.Genuine) ?_ fun r hr => ?_
  · refine (applyKey_genuine (handleResize_genuine h _ _) key).bind fun r hr => ?_
    exact (universalCorrections_genuine hr key).bind fun _ hm => hm
  · obtain ⟨m', effects⟩ := r
    dsimp only
    split
    · exact completionFollowup_genuine hr
    · exact hr

theorem processResponse_genuine (h : m.Genuine) : Yields (processResponse m) Genuine := by
  unfold processResponse
  split
  · exact not_false
  · dsimp only
    split
    · exact genuine_of_create fun _ hcache => Yields.read fun _ => hcache
    · exact h

theorem completionsArrived_genuine (h : m.Genuine) (token : Bytes) (items : List Bytes) :
    Yields (completionsArrived token items m) Genuine := by
  unfold completionsArrived
  split
  · exact h
  · split
    · exact h
    · refine Meets.via Genuine ?_ fun _ h₁ => handleVerticalCursorMovement_genuine h₁
      exact filterCompletions_genuine h

theorem responseStep_genuine (h : m.Genuine) (response : ResponseChunk) :
    Handles (responseStep response m) := by
  have hprocess : Yields (processResponse { m with repl.backendResponse := some response })
      Genuine := processResponse_genuine h
  unfold responseStep
  split
  · exact h
  · exact h
  · exact h
  · exact handles_of (completionsArrived_genuine h _ _)
  · exact hprocess.bind fun _ hm => hm
  · exact handles_of hprocess

theorem step_genuine (h : m.Genuine) (msg : Msg) : Handles (step msg m) := by
  cases msg with
  | key key => exact keyStep_genuine h key
  | response response => exact responseStep_genuine h response
  | backslashEffectResult tokenStart originalToken insertedText =>
    refine handles_of (Yields.read fun count => ?_)
    dsimp only
    split
    · exact h
    · exact (h.replaceRange _ _ _).bind fun _ hm => hm
  | termResize width height =>
    exact (handleVerticalCursorMovement_genuine (handleResize_genuine h width height)).bind
      fun _ hm => hm

/-- In every reachable model a cached line is a placeholder or lexed from its start mode. -/
theorem reachable_genuine {history : History} {row width height : Int} {m₀ : Model}
    {msgs : List Msg} (h₀ : initialModel history row width height = .ok m₀)
    (hrun : Run Steps m₀ msgs m) : m.Genuine := by
  have hinit : Yields (initialModel history row width height) Genuine :=
    genuine_of_create fun _ hcache => hcache
  refine Run.invariant (I := Genuine) (fun h hstep => ?_) (hinit.of_eq_ok h₀) hrun
  obtain ⟨effects, hupdate⟩ := hstep
  have hscrolled := (unscrolled_sameText _).genuine h
  exact (step_genuine hscrolled _).of_eq_ok (update_eq_ok hupdate).1

end Update

end

end Raoui
