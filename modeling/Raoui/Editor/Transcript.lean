import Raoui.Editor.Update
import Raoui.Lib.Outcome

/-!
# Raoui.Editor.Transcript

The part of the model that streaming responses write: what is printed and what is recorded of the
command that runs. `m.withTranscript p` is `m` with that part replaced. The backdrop is that part
with the scroll that is asked for and the place where output goes on.

Each function of the editor is shown to run alike on `m` and on `m.withBackdrop p`, in the order of
the modules that define them. So a key changes no part of the backdrop (`Ignores.still`), unless it
submits the prompt.
-/

namespace Raoui

open Outcome (Follows)
open Tty (Key)

/-- The fields that the recording of outputs writes. -/
structure Transcript where
  backendResponse : Option Ffi.ResponseChunk
  replOutput : Option ReplOutput
  db : History.Db
  activeCommandId : Option Nat
  activeCommandHadError : Bool
  activeOutputOrdinal : Nat

/-- The transcript, the scroll that is asked for and the place where output goes on. -/
structure Backdrop where
  transcript : Transcript
  scrollAmount : Int
  replCursor : Int × Int

def History.withTranscript (t : History) (p : Transcript) : History :=
  { t with
    db := p.db
    activeCommandId := p.activeCommandId
    activeCommandHadError := p.activeCommandHadError
    activeOutputOrdinal := p.activeOutputOrdinal }

namespace Model

def withTranscript (p : Transcript) (m : Model) : Model :=
  { m with
    input.history := m.input.history.withTranscript p
    repl.backendResponse := p.backendResponse
    repl.replOutput := p.replOutput }

def transcript (m : Model) : Transcript :=
  ⟨m.repl.backendResponse, m.repl.replOutput, m.input.history.db, m.input.history.activeCommandId,
    m.input.history.activeCommandHadError, m.input.history.activeOutputOrdinal⟩

theorem withTranscript_withTranscript (m : Model) (p q : Transcript) :
    (m.withTranscript p).withTranscript q = m.withTranscript q := rfl

/-- `m` with the transcript replaced, and with how the screen stands. -/
def withBackdrop (p : Backdrop) (m : Model) : Model :=
  { m with
    input.history := m.input.history.withTranscript p.transcript
    layout.scrollAmount := p.scrollAmount
    repl.backendResponse := p.transcript.backendResponse
    repl.replOutput := p.transcript.replOutput
    repl.replCursor := p.replCursor }

def backdrop (m : Model) : Backdrop :=
  ⟨m.transcript, m.layout.scrollAmount, m.repl.replCursor⟩

/-- `f` neither reads nor writes the backdrop. -/
def Ignores (f : Model → Res Model) : Prop :=
  ∀ m p, Follows (withBackdrop p) (f m) (f (m.withBackdrop p))

/-- What runs alike under every backdrop leaves the one it has. -/
theorem Ignores.still {f : Model → Res Model} (h : Ignores f) {m m' : Model} (hf : f m = .ok m') :
    m'.backdrop = m.backdrop := by
  have hsame := h m m.backdrop
  have hself : m.withBackdrop m.backdrop = m := rfl
  rw [Follows, hself, hf] at hsame
  have hm' : m' = m'.withBackdrop m.backdrop := Except.ok.inj hsame
  rw [hm']
  rfl

theorem withBackdrop_of_still {m m' : Model} (h : m'.backdrop = m.backdrop) (p : Transcript) :
    m'.withBackdrop ⟨p, m.layout.scrollAmount, m.repl.replCursor⟩ = m'.withTranscript p := by
  have hscroll : m'.layout.scrollAmount = m.layout.scrollAmount := congrArg Backdrop.scrollAmount h
  have hcursor : m'.repl.replCursor = m.repl.replCursor := congrArg Backdrop.replCursor h
  rw [← hscroll, ← hcursor]
  rfl

theorem Ignores.alike {f : Model → Res Model} (h : Ignores f) (m : Model) (p : Transcript) :
    Follows (withTranscript p) (f m) (f (m.withTranscript p)) := by
  have hsame : f (m.withTranscript p) = _ := h m ⟨p, m.layout.scrollAmount, m.repl.replCursor⟩
  rw [Follows, hsame]
  cases hf : f m with
  | error e => rfl
  | ok m' => exact congrArg Except.ok (withBackdrop_of_still (h.still hf) p)

variable {m : Model} {p : Backdrop}

/-! ## `text_editor.ml` -/

theorem moveLeft_ignores : Ignores moveLeft := by
  intro m p
  exact .ite rfl (.ite (.same fun _ => rfl) rfl)

theorem moveRight_ignores : Ignores moveRight := by
  intro m p
  exact .same fun _ => .ite rfl (.ite rfl rfl)

theorem moveToRow_ignores (newRow currentCol : Int) :
    Ignores fun m => m.moveToRow newRow currentCol := by
  intro m p
  exact .same fun _ => .same fun _ => rfl

theorem moveUp_ignores : Ignores moveUp := by
  intro m p
  exact .same fun _ => .ite (moveToRow_ignores _ _ m p) rfl

theorem moveDown_ignores : Ignores moveDown := by
  intro m p
  exact .same fun _ => .ite (moveToRow_ignores _ _ m p) rfl

theorem moveCursorToEnd_ignores : Ignores moveCursorToEnd := by
  intro m p
  exact .same fun _ => rfl

theorem goToLineEnd_ignores : Ignores goToLineEnd := by
  intro m p
  exact .same fun _ => rfl

theorem nextWordFrom_ignores (fuel : Nat) (seenWord : Bool) :
    Ignores (nextWordFrom fuel seenWord) := by
  induction fuel generalizing seenWord with
  | zero =>
    intro m p
    rfl
  | succ fuel ih =>
    intro m p
    refine .same fun _ => .ite rfl (.same fun c => ?_)
    cases c with
    | none => rfl
    | some c =>
      refine .same fun _ => .ite ?_ (.ite rfl ?_)
      · exact (moveRight_ignores m p).bind fun m' => .ite rfl (ih true m' p)
      · exact (moveRight_ignores m p).bind fun m' => .ite rfl (ih false m' p)

theorem goToNextWord_ignores : Ignores goToNextWord := by
  intro m p
  exact .same fun _ => nextWordFrom_ignores _ _ m p

theorem lastWordFrom_ignores (fuel : Nat) (seenWord : Bool) :
    Ignores (lastWordFrom fuel seenWord) := by
  induction fuel generalizing seenWord with
  | zero =>
    intro m p
    rfl
  | succ fuel ih =>
    intro m p
    refine .ite rfl (.same fun c => ?_)
    cases c with
    | none => rfl
    | some c =>
      refine .same fun _ => .ite ?_ (.ite rfl ?_)
      · exact (moveLeft_ignores m p).bind fun m' => .ite rfl (ih true m' p)
      · exact (moveLeft_ignores m p).bind fun m' => .ite rfl (ih false m' p)

theorem goToLastWord_ignores : Ignores goToLastWord := by
  intro m p
  exact lastWordFrom_ignores _ _ m p

section
variable [Ucd]

theorem lexerUpdate_ignores (i j : Int) : Ignores fun m => m.lexerUpdate i j := by
  intro m p
  unfold lexerUpdate
  dsimp only [withBackdrop]
  split
  · exact .same fun _ => rfl
  · exact .same fun _ => rfl
  · rfl
  · rfl
  · rfl

theorem setCurrentLine_ignores (newLine : UnicodeString) (newPos : Int) :
    Ignores fun m => m.setCurrentLine newLine newPos := by
  intro m p
  exact lexerUpdate_ignores _ _ { m with
    input.lines := updateLine m.input.lines m.input.cursorLine newLine
    input.cursorPos := newPos } p

theorem insertChar_ignores (s : Bytes) : Ignores fun m => m.insertChar s := by
  intro m p
  refine .same fun line => ?_
  dsimp only [withBackdrop]
  split
  · rfl
  · exact setCurrentLine_ignores _ _ m p

theorem deleteChar_ignores : Ignores deleteChar := by
  intro m p
  refine .ite (.ite rfl (.same fun prev => .same fun curr => ?_))
    (.same fun line => setCurrentLine_ignores _ _ m p)
  exact lexerUpdate_ignores _ _ { m with
    input.lines := updateLine (m.input.lines.eraseIdx m.input.cursorLine.toNat)
      (m.input.cursorLine - 1) (prev.append curr)
    input.cursorLine := m.input.cursorLine - 1
    input.cursorPos := prev.length } p

theorem insertNewline_ignores : Ignores insertNewline := by
  intro m p
  refine .same fun line => ?_
  exact lexerUpdate_ignores _ _ { m with
    input.lines := spliceLines m.input.lines m.input.cursorLine
      [(line.split m.input.cursorPos).1, (line.split m.input.cursorPos).2]
    input.cursorLine := m.input.cursorLine + 1
    input.cursorPos := 0 } p

theorem insertPaste_ignores (text : Bytes) : Ignores fun m => m.insertPaste text := by
  intro m p
  refine .same fun line => ?_
  dsimp only
  exact lexerUpdate_ignores _ _ { m with
    input.lines := _
    input.cursorLine := _
    input.cursorPos := _ } p

theorem insertPair_ignores (s s' : Bytes) :
    Ignores fun m => (do (← (← m.insertChar s).insertChar s').moveLeft) := by
  intro m p
  exact (insertChar_ignores s m p).bind fun m₁ =>
    (insertChar_ignores s' m₁ p).bind fun m₂ => moveLeft_ignores m₂ p

theorem userInputChar_ignores (c : Bytes) : Ignores fun m => m.userInputChar c := by
  intro m p
  have hinsert := insertChar_ignores c m p
  have htype : Follows (withBackdrop p)
      (do if ← m.shouldAutoPair then (← (← m.insertChar c).insertChar c).moveLeft
          else m.insertChar c)
      (do if ← (m.withBackdrop p).shouldAutoPair then
            (← (← (m.withBackdrop p).insertChar c).insertChar c).moveLeft
          else (m.withBackdrop p).insertChar c) :=
    .same fun _ => .ite (insertPair_ignores c c m p) hinsert
  unfold userInputChar
  dsimp only
  split
  · exact .same fun _ => .ite hinsert (insertPair_ignores c _ m p)
  · refine .ite (.same fun _ => .ite hinsert (.same fun s => ?_)) (.ite (.same fun s => ?_) hinsert)
    · cases s with
      | none => exact hinsert
      | some s => exact .ite (moveRight_ignores m p) hinsert
    · cases s with
      | none => exact htype
      | some s => exact .ite (moveRight_ignores m p) htype

theorem userInputDelete_ignores : Ignores userInputDelete := by
  intro m p
  have hdelete := deleteChar_ignores m p
  refine .ite hdelete (.same fun _ => .ite hdelete (.same fun before => .same fun at' => ?_))
  cases before with
  | none => exact hdelete
  | some before =>
    cases at' with
    | none => exact hdelete
    | some at' =>
      refine .same fun _ => .same fun _ => .ite ?_ hdelete
      exact (moveRight_ignores m p).bind fun m₁ =>
        (deleteChar_ignores m₁ p).bind fun m₂ => deleteChar_ignores m₂ p

theorem deleteBeforeCursor_ignores : Ignores deleteBeforeCursor := by
  intro m p
  exact .ite (deleteChar_ignores m p) (.same fun _ => setCurrentLine_ignores _ _ m p)

theorem deleteCharAfterCursor_ignores : Ignores deleteCharAfterCursor := by
  intro m p
  exact (moveRight_ignores m p).bind fun m' => .ite rfl (deleteChar_ignores m' p)

theorem replaceRange_ignores (startPos endPos : Int) (text : Bytes) :
    Ignores fun m => m.replaceRange startPos endPos text := by
  intro m p
  exact .same fun _ => setCurrentLine_ignores _ _ m p

theorem replaceToken_ignores (tokenStart : Int) (text : Bytes) :
    Ignores fun m => m.replaceToken tokenStart text := by
  intro m p
  exact replaceRange_ignores _ _ _ m p

end

/-! ## `completion_controller.ml` -/

/-- The handlers also answer with effects, which are the same. -/
def IgnoresWithEffects (f : Model → Res (Model × List Effect)) : Prop :=
  ∀ m p, Follows (fun r => (r.1.withBackdrop p, r.2)) (f m) (f (m.withBackdrop p))

theorem Ignores.withoutEffects {f : Model → Res Model} (h : Ignores f) :
    IgnoresWithEffects fun m => withoutEffects (f m) := by
  intro m p
  exact (h m p).bind fun _ => rfl

theorem IgnoresWithEffects.still {f : Model → Res (Model × List Effect)} (h : IgnoresWithEffects f)
    {m : Model} {r : Model × List Effect} (hf : f m = .ok r) : r.1.backdrop = m.backdrop := by
  have hsame := h m m.backdrop
  have hself : m.withBackdrop m.backdrop = m := rfl
  rw [Follows, hself, hf] at hsame
  exact congrArg (fun r => backdrop r.1) (Except.ok.inj hsame)

theorem IgnoresWithEffects.alike {f : Model → Res (Model × List Effect)}
    (h : IgnoresWithEffects f) (m : Model) (p : Transcript) :
    Follows (fun r => (r.1.withTranscript p, r.2)) (f m) (f (m.withTranscript p)) := by
  have hsame : f (m.withTranscript p) = _ := h m ⟨p, m.layout.scrollAmount, m.repl.replCursor⟩
  rw [Follows, hsame]
  cases hf : f m with
  | error e => rfl
  | ok r =>
    exact congrArg (fun m' => Except.ok (m', r.2)) (withBackdrop_of_still (h.still hf) p)

theorem filterCompletions_ignores : Ignores filterCompletions := by
  intro m p
  unfold filterCompletions
  dsimp only [withBackdrop]
  split
  · rfl
  · split
    · rfl
    · exact .ite rfl (.same fun _ => .ite rfl rfl)

section
variable [Ucd]

theorem handleTab_ignores : Ignores handleTab := by
  intro m p
  unfold handleTab
  dsimp only [withBackdrop]
  split
  · rfl
  · refine .ite rfl (.same fun cs => ?_)
    split
    · rfl
    · exact (replaceToken_ignores _ _ m p).bind fun _ => rfl

theorem applyCommand_ignores (tokenStart : Int) (label : Bytes) (command : Backslash.Command) :
    IgnoresWithEffects fun m => m.applyCommand tokenStart label command := by
  intro m p
  cases command with
  | simple spec insertedText =>
    exact (replaceRange_ignores _ _ _ m p).bind fun _ => rfl
  | effectful spec effect =>
    cases effect with
    | pickFile => rfl
    | pickFileFzf => rfl

theorem acceptBackslashCompletion_ignores (m : Model) (p : Backdrop) :
    Follows (Option.map fun r => (r.1.withBackdrop p, r.2)) m.acceptBackslashCompletion
      (m.withBackdrop p).acceptBackslashCompletion := by
  refine .same fun found => ?_
  cases found with
  | none => rfl
  | some found =>
    obtain ⟨tokenStart, label, command⟩ := found
    exact (applyCommand_ignores tokenStart label command m p).bind fun _ => rfl

theorem acceptBackslashCompletion_still {m : Model} {r : Model × List Effect}
    (h : m.acceptBackslashCompletion = .ok (some r)) : r.1.backdrop = m.backdrop := by
  have hsame := acceptBackslashCompletion_ignores m m.backdrop
  have hself : m.withBackdrop m.backdrop = m := rfl
  rw [Follows, hself, h] at hsame
  exact congrArg (fun r => backdrop r.1) (Option.some.inj (Except.ok.inj hsame))

theorem acceptBackslashCompletion_alike (m : Model) (p : Transcript) :
    Follows (Option.map fun r => (r.1.withTranscript p, r.2)) m.acceptBackslashCompletion
      (m.withTranscript p).acceptBackslashCompletion := by
  have hsame : (m.withTranscript p).acceptBackslashCompletion = _ :=
    acceptBackslashCompletion_ignores m ⟨p, m.layout.scrollAmount, m.repl.replCursor⟩
  rw [Follows, hsame]
  cases hf : m.acceptBackslashCompletion with
  | error e => rfl
  | ok r =>
    cases r with
    | none => rfl
    | some r =>
      exact congrArg (fun m' => Except.ok (some (m', r.2)))
        (withBackdrop_of_still (acceptBackslashCompletion_still hf) p)

end

theorem makeBackslashCompletion_ignores (token : Backslash.Token) :
    Ignores fun m => m.makeBackslashCompletion token := by
  intro m p
  exact .ite rfl (filterCompletions_ignores (m.setCompletion _) p)

theorem completionFollowup_ignores : IgnoresWithEffects completionFollowup := by
  intro m p
  unfold completionFollowup
  dsimp only [withBackdrop]
  split
  · rfl
  · refine .ite (.same fun line => ?_) rfl
    cases line with
    | none => rfl
    | some line =>
      refine .same fun token => ?_
      cases token with
      | some token => exact (makeBackslashCompletion_ignores token m p).bind fun _ => rfl
      | none => exact .same fun _ => .ite rfl rfl

end Model

/-! ## `history.ml` -/

namespace History

/-- What a navigation answers, with the transcript replaced in the record it leaves. -/
def navigated (p : Transcript) (r : Option (Bytes × List UnicodeString) × History) :
    Option (Bytes × List UnicodeString) × History := (r.1, r.2.withTranscript p)

theorem updateSearchNeedle_withTranscript (t : History) (p : Transcript)
    (prompt : List UnicodeString) :
    Follows (withTranscript · p) (updateSearchNeedle t prompt)
      (updateSearchNeedle (t.withTranscript p) prompt) :=
  .same fun _ => .ite rfl rfl

section
variable [Ucd]

theorem goBackFrom_withTranscript (fuel : Nat) (t : History) (p : Transcript) :
    Follows (navigated p) (goBackFrom fuel t) (goBackFrom fuel (t.withTranscript p)) := by
  induction fuel generalizing t with
  | zero => rfl
  | succ fuel ih =>
    have hnext := ih { t with currentIndex := t.currentIndex + 1 }
    exact .same fun _ => .ite hnext (.same fun _ => .ite (.same fun _ => rfl) hnext)

theorem goBack_withTranscript (t : History) (p : Transcript)
    (prompt : Bytes × List UnicodeString) :
    Follows (navigated p) (goBack t prompt) (goBack (t.withTranscript p) prompt) := by
  have hrest : ∀ t : History, Follows (navigated p)
      (do let t ← updateSearchNeedle t prompt.2
          goBackFrom (t.history.length - t.currentIndex) t)
      (do let t ← updateSearchNeedle (t.withTranscript p) prompt.2
          goBackFrom (t.history.length - t.currentIndex) t) := fun t =>
    (updateSearchNeedle_withTranscript t p prompt.2).bind fun t' =>
      goBackFrom_withTranscript _ t' p
  have hsaved := hrest (if t.currentIndex = 0 then { t with savedPrompt := some prompt } else t)
  rw [apply_ite (withTranscript · p)] at hsaved
  exact hsaved

theorem goForwardsFrom_withTranscript (idx : Nat) (t : History) (p : Transcript) :
    Follows (navigated p) (goForwardsFrom idx t) (goForwardsFrom idx (t.withTranscript p)) := by
  induction idx generalizing t with
  | zero => rfl
  | succ idx ih =>
    have hnext := ih { t with currentIndex := idx }
    cases idx with
    | zero => rfl
    | succ idx => exact .same fun _ => .ite hnext (.same fun _ => .ite (.same fun _ => rfl) hnext)

theorem goForwards_withTranscript (t : History) (p : Transcript)
    (prompt : Bytes × List UnicodeString) :
    Follows (navigated p) (goForwards t prompt) (goForwards (t.withTranscript p) prompt) :=
  (updateSearchNeedle_withTranscript t p prompt.2).bind fun t' =>
    goForwardsFrom_withTranscript t'.currentIndex t' p

end

theorem finishActive_navigation (t : History) (status : Status) :
    ∃ q, finishActive t status = t.withTranscript q := by
  unfold finishActive
  split
  · exact ⟨⟨none, none, t.db, t.activeCommandId, t.activeCommandHadError, t.activeOutputOrdinal⟩, rfl⟩
  · rename_i id _
    exact ⟨⟨none, none, t.db.setStatus id _, none, false, 0⟩, rfl⟩

/-- A submission records into whatever transcript there is; the entries are the same. -/
theorem addToHistory_withTranscript (t : History) (p : Transcript) (mode : Bytes)
    (lines : List UnicodeString) : ∃ q, (t.withTranscript p).addToHistory mode lines =
      (t.addToHistory mode lines).withTranscript q := by
  unfold addToHistory
  dsimp only
  split
  · exact ⟨p, rfl⟩
  · obtain ⟨q, hq⟩ := finishActive_navigation t .interrupted
    obtain ⟨q', hq'⟩ := finishActive_navigation (t.withTranscript p) .interrupted
    rw [hq, hq']
    exact ⟨⟨none, none, _, _, _, _⟩, rfl⟩

end History

namespace Model

theorem recorded (t : History) (p : Transcript) (mode : Bytes) (lines : List UnicodeString) :
    ∃ q, ∀ m : Model,
      { m.withTranscript p with
        input.history := (t.withTranscript p).addToHistory mode lines } =
      { m with input.history := t.addToHistory mode lines }.withTranscript q := by
  obtain ⟨q, hq⟩ := t.addToHistory_withTranscript p mode lines
  rw [hq]
  exact ⟨⟨p.backendResponse, p.replOutput, q.db, q.activeCommandId, q.activeCommandHadError,
    q.activeOutputOrdinal⟩, fun _ => rfl⟩

/-! ## `mode_common.ml` -/

section
variable [Ucd]

/-- Clearing the prompt sets the scroll and the place of the output anew. -/
theorem clearModelForSubmit_ignores (m : Model) (p : Transcript) :
    Follows (withTranscript p) m.clearModelForSubmit (m.withTranscript p).clearModelForSubmit :=
  .same fun _ => rfl

theorem shiftHistory_ignores (amount : Int) : Ignores fun m => m.shiftHistory amount := by
  intro m p
  refine .same fun mode => ?_
  have hrecall := Follows.ite (c := amount > 0)
    (m.input.history.goBack_withTranscript p.transcript (mode, m.input.lines))
    (m.input.history.goForwards_withTranscript p.transcript (mode, m.input.lines))
  refine hrecall.bind fun r => ?_
  obtain ⟨result, history⟩ := r
  cases result with
  | none => rfl
  | some r =>
    obtain ⟨modeString, lines⟩ := r
    exact .same fun mode => .same fun lexCache => moveCursorToEnd_ignores { m with
      input.history := history
      input.mode := mode
      input.lines := lines
      input.lexCache := lexCache
      input.flippingThroughHistory := some 2 } p

theorem blankInput_ignores (mode : Mode) : Ignores fun m => m.blankInput mode := by
  intro m p
  exact .same fun _ => rfl

theorem setModeNormalBlank_ignores : Ignores setModeNormalBlank := blankInput_ignores .normal

end
end Model

/-! ## `history_search.ml` -/

namespace HistorySearch

open Model

theorem searchAndUpdate_ignores : Ignores searchAndUpdate := by
  intro m p
  exact .same fun _ => rfl

theorem setSearch_ignores (search : UnicodeString) : Ignores fun m => setSearch m search := by
  intro m p
  exact .same fun _ => rfl

theorem moveSelection_ignores (amount : Int) : Ignores fun m => moveSelection m amount := by
  intro m p
  exact .same fun _ => .ite rfl rfl

theorem moveLeft_withBackdrop (m : Model) (p : Backdrop) :
    moveLeft (m.withBackdrop p) = (moveLeft m).withBackdrop p := by
  exact (apply_ite (withBackdrop p) _ { m with input.cursorPos := m.input.cursorPos - 1 } m).symm

theorem moveRight_ignores : Ignores moveRight := by
  intro m p
  exact .same fun _ => .ite rfl rfl

theorem goToEnd_ignores : Ignores goToEnd := by
  intro m p
  exact .same fun _ => rfl

theorem goToNextWord_ignores : Ignores goToNextWord := by
  intro m p
  exact .same fun _ => .same fun _ => rfl

theorem goToLastWord_ignores : Ignores goToLastWord := by
  intro m p
  exact .same fun _ => .same fun _ => rfl

/-- An edit of the search text, then the search. -/
theorem edited_ignores {f : Model → Res Model} (h : Ignores f) :
    Ignores fun m => (do searchAndUpdate (← f m)) := by
  intro m p
  exact (h m p).bind fun m' => searchAndUpdate_ignores m' p

theorem otherKey_ignores (name : String) : Ignores (otherKey name) := by
  intro m p
  unfold otherKey
  split
  · exact goToNextWord_ignores m p
  · exact goToLastWord_ignores m p
  · rfl

section
variable [Ucd]

theorem enter_ignores : Ignores enter := by
  intro m p
  exact .same fun _ => rfl

theorem cancel_ignores : Ignores cancel := blankInput_ignores .normal

theorem submit_ignores : Ignores submit := by
  intro m p
  refine .same fun state => .same fun selected => ?_
  cases selected with
  | none => exact cancel_ignores m p
  | some selected =>
    obtain ⟨modeString, text⟩ := selected
    exact .same fun _ => .same fun _ => .same fun _ => .same fun _ => rfl

theorem insertChar_ignores (c : Bytes) : Ignores fun m => insertChar m c := by
  intro m p
  refine .same fun search => ?_
  dsimp only [withBackdrop]
  split
  · rfl
  · exact (setSearch_ignores _ m p).bind fun _ => rfl

theorem deleteChar_ignores : Ignores deleteChar := by
  intro m p
  exact .ite rfl (.same fun _ => (setSearch_ignores _ m p).bind fun _ => rfl)

theorem deleteCharAfter_ignores : Ignores deleteCharAfter := by
  intro m p
  exact .same fun _ => .ite rfl (setSearch_ignores _ m p)

theorem deleteBeforeCursor_ignores : Ignores deleteBeforeCursor := by
  intro m p
  exact .same fun _ => (setSearch_ignores _ m p).bind fun _ => rfl

theorem insertPaste_ignores (text : Bytes) : Ignores fun m => insertPaste m text := by
  intro m p
  refine .same fun search => ?_
  dsimp only [withBackdrop]
  split
  · rfl
  · exact (setSearch_ignores _ m p).bind fun _ => rfl

theorem ctrlKey_ignores (c : Char) : Ignores (ctrlKey c) := by
  intro m p
  unfold ctrlKey
  split
  · exact cancel_ignores m p
  · exact moveSelection_ignores _ m p
  · exact moveSelection_ignores _ m p
  · exact .same fun _ => .ite (cancel_ignores m p) (edited_ignores deleteCharAfter_ignores m p)
  · exact edited_ignores deleteBeforeCursor_ignores m p
  · rfl
  · exact goToEnd_ignores m p
  · rfl

theorem applyKey_ignores (key : Key) : IgnoresWithEffects (applyKey key) := by
  cases key with
  | ctrl c => exact (ctrlKey_ignores c).withoutEffects
  | escape => exact cancel_ignores.withoutEffects
  | enter => exact submit_ignores.withoutEffects
  | up => exact (moveSelection_ignores _).withoutEffects
  | down => exact (moveSelection_ignores _).withoutEffects
  | other name => exact (otherKey_ignores name).withoutEffects
  | char c => exact (edited_ignores (insertChar_ignores c)).withoutEffects
  | backspace =>
    refine Ignores.withoutEffects fun m p => ?_
    exact .same fun _ => .ite (cancel_ignores m p) (edited_ignores deleteChar_ignores m p)
  | left =>
    refine Ignores.withoutEffects fun m p => ?_
    show Follows _ (.ok (moveLeft m)) (.ok (moveLeft (m.withBackdrop p)))
    rw [moveLeft_withBackdrop]
    rfl
  | right => exact moveRight_ignores.withoutEffects
  | paste text => exact (edited_ignores (insertPaste_ignores text)).withoutEffects
  | _ => exact fun m p => rfl

end
end HistorySearch

namespace Model

/-- Alike, except that a submission leaves a transcript of its own. -/
def IgnoresBut (f : Model → Res (Model × List Effect)) : Prop :=
  ∀ m p, ∃ q, Follows (fun r => (r.1.withTranscript q, r.2)) (f m) (f (m.withTranscript p))

theorem IgnoresWithEffects.but {f : Model → Res (Model × List Effect)}
    (h : IgnoresWithEffects f) : IgnoresBut f := fun m p => ⟨p, h.alike m p⟩

/-- The first steps are the same computation, whatever transcript the rest leaves. -/
theorem same_but {α : Type} {x : Res α} {f f' : α → Res (Model × List Effect)} (p : Transcript)
    (h : ∀ a, ∃ q, Follows (fun r => (r.1.withTranscript q, r.2)) (f a) (f' a)) :
    ∃ q, Follows (fun r => (r.1.withTranscript q, r.2)) (x >>= f) (x >>= f') := by
  cases x with
  | ok a => exact h a
  | error e => exact ⟨p, rfl⟩

theorem bind_but {x y : Res Model} {f f' : Model → Res (Model × List Effect)} {p : Transcript}
    (h : Follows (withTranscript p) x y)
    (hf : ∀ m, ∃ q, Follows (fun r => (r.1.withTranscript q, r.2)) (f m) (f' (m.withTranscript p))) :
    ∃ q, Follows (fun r => (r.1.withTranscript q, r.2)) (x >>= f) (y >>= f') := by
  unfold Follows at h
  subst h
  cases x with
  | ok m => exact hf m
  | error e => exact ⟨p, rfl⟩

theorem leaveCompletion_withBackdrop (m : Model) (p : Backdrop) :
    (m.withBackdrop p).leaveCompletion = m.leaveCompletion.withBackdrop p :=
  (apply_ite (withBackdrop p) _ (m.setCompletion none) m).symm

end Model

/-! ## `normal_mode.ml` -/

namespace NormalMode

open Model

theorem otherKey_ignores (name : String) : IgnoresWithEffects (otherKey name) := by
  intro m p
  unfold otherKey
  split
  · exact goToNextWord_ignores.withoutEffects m p
  · exact goToLastWord_ignores.withoutEffects m p
  · rfl

section
variable [Ucd]

theorem insertSpaces_ignores (n : Nat) : Ignores (insertSpaces n) := by
  induction n with
  | zero =>
    intro m p
    rfl
  | succ n ih =>
    intro m p
    exact (insertChar_ignores _ m p).bind fun m' => ih m' p

theorem expandBraces_ignores (innerIndent outerIndent : Int) :
    Ignores (expandBraces innerIndent outerIndent) := by
  intro m p
  refine (insertNewline_ignores m p).bind fun m₁ => ?_
  refine (insertSpaces_ignores _ m₁ p).bind fun m₂ => ?_
  refine (insertNewline_ignores m₂ p).bind fun m₃ => ?_
  refine (insertSpaces_ignores _ m₃ p).bind fun m₄ => ?_
  exact (moveUp_ignores m₄ p).bind fun m₅ => goToLineEnd_ignores m₅ p

theorem indentedNewline_ignores (n : Nat) :
    Ignores fun m => (do insertSpaces n (← m.insertNewline)) := by
  intro m p
  exact (insertNewline_ignores m p).bind fun m' => insertSpaces_ignores n m' p

/-- What `submit_normal_text` does once the command is recorded. -/
def sendText (text : Bytes) (m : Model) : Res (Model × List Effect) := do
  if trim text = bytes "q()" then return (m, [.quit])
  else return (← m.clearModelForSubmit, [.submit text])

theorem sendText_ignores (text : Bytes) (m : Model) (p : Transcript) :
    Follows (fun r => (r.1.withTranscript p, r.2)) (sendText text m)
      (sendText text (m.withTranscript p)) :=
  .ite rfl ((clearModelForSubmit_ignores m p).bind fun _ => rfl)

theorem submitNormalText_ignores : IgnoresBut submitNormalText := by
  intro m p
  obtain ⟨q, hq⟩ := recorded m.input.history p (bytes "r") m.input.lines
  refine ⟨q, ?_⟩
  have := sendText_ignores (History.promptToString m.input.lines)
    { m with input.history := m.input.history.addToHistory (bytes "r") m.input.lines } q
  rw [← hq m] at this
  exact this

theorem submit_ignores : IgnoresBut submit := by
  intro m p
  refine same_but p fun action => ?_
  cases action with
  | submit => exact submitNormalText_ignores m p
  | insertNewline indent =>
    exact ⟨p, (indentedNewline_ignores _).withoutEffects.alike m p⟩
  | expandBraces innerIndent outerIndent =>
    exact ⟨p, (expandBraces_ignores _ _).withoutEffects.alike m p⟩

theorem escape_ignores : IgnoresWithEffects escape := by
  intro m p
  unfold escape
  dsimp only [withBackdrop]
  split
  · exact .ite ((replaceToken_ignores _ _ m p).bind fun _ => rfl) rfl
  · rfl

theorem enter_ignores : IgnoresBut enter := by
  intro m p
  have h := acceptBackslashCompletion_alike m p
  unfold Follows at h
  show ∃ q, Follows _ (m.acceptBackslashCompletion >>= _)
    ((m.withTranscript p).acceptBackslashCompletion >>= _)
  rw [h]
  cases m.acceptBackslashCompletion with
  | error e => exact ⟨p, rfl⟩
  | ok result =>
    cases result with
    | none => exact submit_ignores m p
    | some result => exact ⟨p, rfl⟩

theorem ctrlKey_ignores (c : Char) : IgnoresWithEffects (ctrlKey c) := by
  intro m p
  unfold ctrlKey
  split
  · exact .ite rfl rfl
  · exact .ite rfl ((shiftHistory_ignores 1).withoutEffects m p)
  · exact .ite rfl (deleteCharAfterCursor_ignores.withoutEffects m p)
  · exact deleteBeforeCursor_ignores.withoutEffects m p
  · exact insertNewline_ignores.withoutEffects m p
  · exact HistorySearch.enter_ignores.withoutEffects m p
  · rfl
  · exact goToLineEnd_ignores.withoutEffects m p
  · rfl

theorem textKey_ignores (key : Key) : IgnoresWithEffects (textKey key) := by
  intro m p
  cases key with
  | ctrl c => exact ctrlKey_ignores c m p
  | other name => exact otherKey_ignores name m p
  | char c => exact .ite rfl (.ite rfl ((userInputChar_ignores c).withoutEffects m p))
  | backspace => exact userInputDelete_ignores.withoutEffects m p
  | left => exact moveLeft_ignores.withoutEffects m p
  | right => exact moveRight_ignores.withoutEffects m p
  | up =>
    exact Follows.bind (.ite (shiftHistory_ignores 1 m p) (moveUp_ignores m p)) fun _ => rfl
  | down =>
    exact Follows.bind (.ite (shiftHistory_ignores (-1) m p) (moveDown_ignores m p)) fun _ => rfl
  | paste text => exact (insertPaste_ignores text).withoutEffects m p
  | _ => rfl

theorem textKey_left_ignores (key : Key) :
    IgnoresWithEffects fun m => textKey key m.leaveCompletion := by
  intro m p
  have := textKey_ignores key m.leaveCompletion p
  rw [← leaveCompletion_withBackdrop] at this
  exact this

theorem applyKey_ignores (key : Key) : IgnoresBut (applyKey key) := by
  intro m p
  unfold applyKey
  split
  · exact handleTab_ignores.withoutEffects.but m p
  · exact escape_ignores.but m p
  · exact enter_ignores m p
  · exact (textKey_left_ignores _).but m p

end
end NormalMode

/-! ## `shell_mode.ml`, `ai_mode.ml` and `readline_mode.ml` -/

namespace ShellMode

open Model

variable [Ucd]

theorem submit_ignores : IgnoresBut submit := by
  intro m p
  refine same_but p fun line => ?_
  obtain ⟨q, hq⟩ := recorded m.input.history p (bytes "shell") m.input.lines
  refine ⟨q, Follows.bind (g := withTranscript q) ?_ fun _ => rfl⟩
  have := clearModelForSubmit_ignores { m with
    input.history := m.input.history.addToHistory (bytes "shell") m.input.lines
    input.mode := .normal } q
  have hmode := hq { m with input.mode := .normal }
  rw [← hmode] at this
  exact this

theorem editKey_ignores (key : Key) : IgnoresWithEffects (editKey key) := by
  intro m p
  cases key with
  | ctrl c =>
    unfold editKey
    dsimp only
    split
    · exact deleteBeforeCursor_ignores.withoutEffects m p
    · rfl
    · exact goToLineEnd_ignores.withoutEffects m p
    · rfl
  | other name => exact NormalMode.otherKey_ignores name m p
  | char c => exact (insertChar_ignores c).withoutEffects m p
  | backspace => exact deleteChar_ignores.withoutEffects m p
  | left => exact moveLeft_ignores.withoutEffects m p
  | right => exact moveRight_ignores.withoutEffects m p
  | paste text => exact (insertPaste_ignores text).withoutEffects m p
  | _ => rfl

theorem deleteKey_ignores (key : Key) : IgnoresWithEffects (deleteKey key) := by
  intro m p
  unfold deleteKey
  split
  · exact .ite (setModeNormalBlank_ignores.withoutEffects m p)
      (deleteCharAfterCursor_ignores.withoutEffects m p)
  · exact .ite (setModeNormalBlank_ignores.withoutEffects m p) (editKey_ignores _ m p)
  · exact editKey_ignores _ m p

theorem deleteKey_left_ignores (key : Key) :
    IgnoresWithEffects fun m => deleteKey key m.leaveCompletion := by
  intro m p
  have := deleteKey_ignores key m.leaveCompletion p
  rw [← leaveCompletion_withBackdrop] at this
  exact this

theorem applyKey_ignores (key : Key) : IgnoresBut (applyKey key) := by
  intro m p
  unfold applyKey
  split
  · exact setModeNormalBlank_ignores.withoutEffects.but m p
  · exact (shiftHistory_ignores 1).withoutEffects.but m p
  · exact (shiftHistory_ignores 1).withoutEffects.but m p
  · exact (shiftHistory_ignores (-1)).withoutEffects.but m p
  · exact HistorySearch.enter_ignores.withoutEffects.but m p
  · exact submit_ignores m p
  · exact (deleteKey_ignores _).but m p
  · exact (deleteKey_ignores _).but m p
  · exact (deleteKey_left_ignores _).but m p

end ShellMode

namespace AiMode

open Model

variable [Ucd]

theorem submit_ignores : IgnoresBut submit := by
  intro m p
  refine same_but p fun line => ?_
  obtain ⟨q, hq⟩ := recorded m.input.history p (bytes "ai") m.input.lines
  refine bind_but (clearModelForSubmit_ignores { m with input.mode := .normal } p) fun cleared => ?_
  split
  · exact ⟨p, rfl⟩
  · refine ⟨q, .pure ?_⟩
    rw [← hq cleared]
    rfl

theorem applyKey_ignores (key : Key) : IgnoresBut (applyKey key) := by
  intro m p
  unfold applyKey
  split
  · exact setModeNormalBlank_ignores.withoutEffects.but m p
  · exact (shiftHistory_ignores 1).withoutEffects.but m p
  · exact (shiftHistory_ignores 1).withoutEffects.but m p
  · exact (shiftHistory_ignores (-1)).withoutEffects.but m p
  · exact HistorySearch.enter_ignores.withoutEffects.but m p
  · exact submit_ignores m p
  · exact (ShellMode.deleteKey_ignores _).but m p

end AiMode

namespace ReadlineMode

open Model

variable [Ucd]

theorem submit_ignores : IgnoresBut submit := by
  intro m p
  refine ⟨p, .same fun line => ?_⟩
  exact (clearModelForSubmit_ignores { m with input.mode := .normal } p).bind fun _ => rfl

theorem inputKey_ignores (key : Key) : IgnoresWithEffects (inputKey key) := by
  intro m p
  unfold inputKey
  split
  · exact .ite rfl (deleteCharAfterCursor_ignores.withoutEffects m p)
  · exact ShellMode.editKey_ignores _ m p

theorem inputKey_left_ignores (key : Key) :
    IgnoresWithEffects fun m => inputKey key m.leaveCompletion := by
  intro m p
  have := inputKey_ignores key m.leaveCompletion p
  rw [← leaveCompletion_withBackdrop] at this
  exact this

theorem cancel_ignores : IgnoresWithEffects fun m => (do
    return (← m.setModeNormalBlank, [.submitReadlineInput []])) := by
  intro m p
  exact (setModeNormalBlank_ignores m p).bind fun _ => rfl

theorem applyKey_ignores (key : Key) : IgnoresBut (applyKey key) := by
  intro m p
  unfold applyKey
  split
  · exact cancel_ignores.but m p
  · exact ⟨p, rfl⟩
  · exact ⟨p, rfl⟩
  · exact ⟨p, rfl⟩
  · exact submit_ignores m p
  · exact (inputKey_ignores _).but m p
  · exact (inputKey_ignores _).but m p
  · exact (inputKey_left_ignores _).but m p

end ReadlineMode

/-! ## `update.ml` -/

namespace Update

open Model

theorem handleVerticalCursorMovement_ignores (m : Model) (p : Transcript) :
    Follows (withTranscript p) (handleVerticalCursorMovement m)
      (handleVerticalCursorMovement (m.withTranscript p)) :=
  .same fun _ => .same fun _ => rfl

theorem handleResize_withTranscript (width height : Int) (m : Model) (p : Transcript) :
    handleResize width height (m.withTranscript p) =
      (handleResize width height m).withTranscript p :=
  (apply_ite (withTranscript p) (m.layout.termWidth = width ∧ m.layout.termHeight = height) m
    { m with
      layout.termWidth := width
      layout.termHeight := height
      layout.promptTopRow := clampPromptTop height m.layout.promptTopRow
      layout.promptBoxHeight := minPromptHeight }).symm

theorem universalCorrections_ignores (key : Key) (m : Model) (p : Transcript) :
    Follows (withTranscript p) (universalCorrections key m)
      (universalCorrections key (m.withTranscript p)) :=
  (filterCompletions_ignores.alike m p).bind fun m' =>
    (handleVerticalCursorMovement_ignores m' p).bind fun _ => rfl

section
variable [Ucd]

theorem applyKey_ignores (key : Key) : IgnoresBut (applyKey key) := by
  intro m p
  unfold applyKey
  dsimp only [withTranscript]
  split
  · exact ReadlineMode.applyKey_ignores key m p
  · exact ShellMode.applyKey_ignores key m p
  · exact AiMode.applyKey_ignores key m p
  · exact NormalMode.applyKey_ignores key m p
  · exact (HistorySearch.applyKey_ignores key).but m p

theorem handleKeyInput_ignores (key : Key) : IgnoresBut (handleKeyInput key) := by
  intro m p
  have happly := applyKey_ignores key (handleResize m.layout.termWidth m.layout.termHeight m) p
  rw [← handleResize_withTranscript] at happly
  obtain ⟨q, hq⟩ := happly
  exact ⟨q, hq.bind fun r => (universalCorrections_ignores key r.1 q).bind fun _ => rfl⟩

/-- A key is handled alike whatever has been printed and recorded. -/
theorem keyStep_ignores (key : Key) : IgnoresBut (keyStep key) := by
  intro m p
  obtain ⟨q, hq⟩ := handleKeyInput_ignores key m p
  refine ⟨q, hq.bind fun r => ?_⟩
  obtain ⟨m', effects⟩ := r
  cases effects with
  | nil => exact completionFollowup_ignores.alike m' q
  | cons effect effects => rfl

end
end Update
end Raoui
