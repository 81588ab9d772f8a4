import Raoui.Editor.Invariant

/-!
# Raoui.Editor.Asking

R asks for a line in Readline mode. What `Update.update` does to that question: it is put by a
message of R, it is answered by one key and with it withdrawn, and nothing else answers.

* `Silent`: the question stands as it did, and R is not woken.
* `Turn`: all that one update can do about the question.
* `update_turn`: every update is such a turn.
-/

namespace Raoui

open Outcome (Meets)
open Ffi (ResponseChunk)
open Tty (Key)

/-- What R asks for, as the prompt shows it. -/
def Mode.asks : Mode → Option Bytes
  | .readline prompt => some prompt
  | .normal | .shell | .ai | .historySearch _ => none

/-- The prompt in Readline mode. -/
def shownPrompt (prompt : Bytes) : Bytes := if prompt = [] then bytes "input" else prompt

/-- The effects that let R go on where it waits in a callback. -/
def Effect.wakesR : Effect → Bool
  | .submitReadlineInput _ | .enterPassthrough => true
  | .submit _ | .cancel | .requestCompletions _ _ | .backgroundSubmit _ | .submitAiQuery _
  | .resetAiSession | .runBackslashEffect _ | .quit => false

theorem Yields.of_safe {α : Type} {x : Res α} {post : α → Prop} (h : Safe x post) :
    Yields x post := .of_ok fun _ hx => h.of_eq_ok hx

namespace Model

def asks (m : Model) : Option Bytes := m.input.mode.asks

/-- While R asks, Ctrl-C is an answer and does not start the prompt anew. -/
structure Silent (m : Model) (r : Model × List Effect) : Prop where
  asks : r.1.asks = m.asks
  quiet : ∀ e ∈ r.2, e.wakesR = false
  kept : m.asks.isSome → Effect.cancel ∉ r.2

variable {m m' : Model} {effects : List Effect}

theorem silent_nothing (hasks : m'.asks = m.asks) : m.Silent (m', []) :=
  ⟨hasks, List.forall_mem_nil _, fun _ => List.not_mem_nil⟩

theorem silent_self (m : Model) : m.Silent (m, []) := silent_nothing rfl

theorem silent_none (hm : m.asks = none) (hm' : m'.asks = none) : m.Silent (m', []) :=
  silent_nothing (hm'.trans hm.symm)

theorem silent_effect {e : Effect} (hasks : m'.asks = m.asks) (he : e.wakesR = false)
    (hkept : m.asks.isSome → e ≠ .cancel) : m.Silent (m', [e]) :=
  ⟨hasks, List.forall_mem_singleton.mpr he, fun h hmem =>
    hkept h (List.mem_singleton.mp hmem).symm⟩

theorem SameText.asks (h : m.SameText m') : m'.asks = m.asks := congrArg Mode.asks h.mode

theorem Frame.asks (h : m.Frame m') : m'.asks = m.asks := congrArg Mode.asks h.mode

theorem Silent.then {m'' : Model} (h : m.Silent (m', effects)) (hs : m'.SameText m'') :
    m.Silent (m'', effects) := ⟨hs.asks.trans h.asks, h.quiet, h.kept⟩

theorem Silent.of_sameText {r : Model × List Effect} (hs : m.SameText m') (h : m'.Silent r) :
    m.Silent r := ⟨h.asks.trans hs.asks, h.quiet, fun hm => h.kept (hs.asks ▸ hm)⟩

theorem modeOfHistoryString_asks (s : Bytes) :
    Yields (modeOfHistoryString s) fun mode => mode.asks = none := by
  unfold modeOfHistoryString
  split
  · exact rfl
  · split
    · exact rfl
    · split
      · exact rfl
      · exact not_false

theorem moveCursorToEnd_asks (m : Model) :
    Yields m.moveCursorToEnd fun m' => m'.asks = m.asks :=
  Yields.read fun _ => rfl

theorem silent_without (hm : m.asks = none) {x : Res Model}
    (hx : Yields x fun m' => m'.asks = none) : Yields (withoutEffects x) m.Silent :=
  hx.bind fun _ hm' => silent_none hm hm'

section
variable [Ucd]

theorem Edits.silent {cond : Prop} (he : m.Edits cond m') : m.Silent (m', []) :=
  silent_nothing he.frame.asks

theorem silent_edits {x : Res Model} {cond : Prop} (hx : Safe x (m.Edits cond)) :
    Yields (withoutEffects x) m.Silent :=
  (Yields.of_safe hx).bind fun _ he => he.silent

theorem silent_of_edits {x : Res (Model × List Effect)} {cond : Prop}
    (hx : Safe x fun r => m.Edits cond r.1 ∧ r.2 = []) : Yields x m.Silent :=
  (Yields.of_safe hx).mono fun (_, _) ⟨he, heffects⟩ => by
    cases heffects
    exact he.silent

/-! ## What other modes share -/

theorem blankInput_asks (m : Model) {mode : Mode} (hmode : mode.asks = none) :
    Yields (m.blankInput mode) fun m' => m'.asks = none :=
  Yields.read fun _ => hmode

theorem clearModelForSubmit_asks (m : Model) :
    Yields m.clearModelForSubmit fun m' => m'.asks = m.asks :=
  Yields.read fun _ => rfl

theorem shiftHistory_asks (hm : m.asks = none) (amount : Int) :
    Yields (m.shiftHistory amount) fun m' => m'.asks = none := by
  refine Yields.read fun modeString => Yields.read fun (result, history) => ?_
  dsimp only
  split
  · refine (modeOfHistoryString_asks _).bind fun mode hmode => Yields.read fun cache => ?_
    exact (moveCursorToEnd_asks _).mono fun m' hm' => hm'.trans hmode
  · exact hm

theorem enterSearch_asks (m : Model) :
    Yields (HistorySearch.enter m) fun m' => m'.asks = none :=
  Yields.read fun _ => rfl

/-! ## Normal mode -/

theorem Sound.acceptBackslashCompletion_silent (h : m.Sound) :
    Yields m.acceptBackslashCompletion fun r => ∀ r', r = some r' → m.Silent r' := by
  refine Yields.read fun chosen => ?_
  split
  · intro r' hr'
    cases hr'
  · rename_i tokenStart label command
    refine Meets.via m.Silent ?_ fun r hr r' hr' => by cases hr'; exact hr
    have hset := setCompletion_sameText m none
    unfold applyCommand
    split
    · rename_i text
      exact (Yields.of_safe (h.coherent.replaceRange tokenStart m.input.cursorPos text)).bind
        fun m' ⟨he, _⟩ => he.silent.then (setCompletion_sameText m' none)
    · exact silent_effect hset.asks rfl fun _ => Effect.noConfusion
    · exact silent_effect hset.asks rfl fun _ => Effect.noConfusion

theorem Sound.handleTab_silent (h : m.Sound) : Yields (withoutEffects m.handleTab) m.Silent := by
  refine Meets.via (fun m' => m.Silent (m', [])) ?_ fun _ hm' => hm'
  unfold Model.handleTab
  split
  · exact silent_self m
  · split
    · exact silent_self m
    · refine Yields.read fun cs' => ?_
      dsimp only
      split
      · exact silent_self m
      · exact (Yields.of_safe (h.coherent.replaceRange _ _ _)).bind fun m' ⟨he, _⟩ =>
          he.silent.then (setCompletion_sameText m' _)

theorem Sound.escape_silent (h : m.Sound) : Yields (NormalMode.escape m) m.Silent := by
  have hset := setCompletion_sameText m none
  unfold NormalMode.escape
  split
  · split
    · exact (Yields.of_safe (h.coherent.replaceRange _ _ _)).bind fun m' ⟨he, _⟩ =>
        he.silent.then (setCompletion_sameText m' none)
    · exact (silent_self m).then hset
  · exact silent_self m

theorem submitNormalText_silent (m : Model) : Yields (NormalMode.submitNormalText m) m.Silent := by
  unfold NormalMode.submitNormalText
  dsimp only
  split
  · exact silent_effect rfl rfl fun _ => Effect.noConfusion
  · exact (clearModelForSubmit_asks _).bind fun m' hm' =>
      silent_effect hm' rfl fun _ => Effect.noConfusion

theorem Sound.submitNormal_silent (h : m.Sound) : Yields (NormalMode.submit m) m.Silent := by
  refine Yields.read fun action => ?_
  split
  · exact submitNormalText_silent m
  · refine silent_edits (?_ : Safe _ (m.Edits True))
    exact Meets.bind h.coherent.insertNewline fun m₁ h₁ =>
      (h₁.coherent.insertSpaces _).mono fun m₂ h₂ =>
        h₁.trans h₂ fun _ _ => ⟨trivial, fun _ => trivial⟩
  · exact silent_edits (h.coherent.expandBraces _ _)

theorem Sound.ctrlKey_silent (h : m.Sound) (hm : m.asks = none) (c : Char) :
    Yields (NormalMode.ctrlKey c m) m.Silent := by
  have hc := h.coherent
  unfold NormalMode.ctrlKey
  split
  · split
    · exact silent_effect rfl rfl fun hsome => by
        rw [hm] at hsome
        cases hsome
    · exact silent_self m
  · split
    · exact silent_self m
    · exact silent_without hm (shiftHistory_asks hm 1)
  · split
    · exact silent_effect rfl rfl fun _ => Effect.noConfusion
    · exact silent_edits hc.deleteCharAfterCursor
  · exact silent_edits hc.deleteBeforeCursor
  · exact silent_edits hc.insertNewline
  · exact silent_without hm (enterSearch_asks m)
  · exact hc.goToLineStart.silent
  · exact silent_edits hc.goToLineEnd
  · exact silent_self m

theorem Sound.textKey_silent (h : m.Sound) (hm : m.asks = none) (key : Key) :
    Yields (NormalMode.textKey key m) m.Silent := by
  have hc := h.coherent
  unfold NormalMode.textKey
  cases key with
  | ctrl c => exact h.ctrlKey_silent hm c
  | other name =>
    have hedits : Safe (NormalMode.otherKey name m) fun r => m.Edits True r.1 ∧ r.2 = [] :=
      hc.otherKey name
    exact silent_of_edits hedits
  | char c =>
    dsimp only
    split
    · exact silent_none hm rfl
    · split
      · exact silent_none hm rfl
      · exact silent_edits (hc.userInputChar c)
  | backspace => exact silent_edits hc.userInputDelete
  | paste text => exact silent_edits (hc.insertPaste text)
  | left => exact silent_edits hc.moveLeft
  | right => exact silent_edits hc.moveRight
  | up =>
    dsimp only
    split
    · exact silent_without hm (shiftHistory_asks hm 1)
    · exact silent_edits hc.moveUp
  | down =>
    dsimp only
    split
    · exact silent_without hm (shiftHistory_asks hm (-1))
    · exact silent_edits hc.moveDown
  | _ => exact silent_self m

theorem Sound.normalKey_silent (h : m.Sound) (hm : m.asks = none) (key : Key) :
    Yields (NormalMode.applyKey key m) m.Silent := by
  have hsame := leaveCompletion_sameText m
  unfold NormalMode.applyKey
  split
  · exact h.handleTab_silent
  · exact h.escape_silent
  · refine h.acceptBackslashCompletion_silent.bind fun r hr => ?_
    split
    · exact hr _ rfl
    · exact h.submitNormal_silent
  · exact ((hsame.sound h).textKey_silent (hsame.asks.trans hm) key).mono fun r hr =>
      hr.of_sameText hsame

/-! ## Shell and AI mode -/

theorem Sound.deleteKey_silent (h : m.Sound) (hm : m.asks = none) (key : Key) :
    Yields (ShellMode.deleteKey key m) m.Silent := by
  unfold ShellMode.deleteKey
  split
  · split
    · exact silent_without hm (blankInput_asks m rfl)
    · exact silent_edits h.coherent.deleteCharAfterCursor
  · split
    · exact silent_without hm (blankInput_asks m rfl)
    · exact silent_of_edits (h.coherent.editKey .backspace)
  · exact silent_of_edits (h.coherent.editKey _)

theorem Sound.shellKey_silent (h : m.Sound) (hm : m.asks = none) (key : Key) :
    Yields (ShellMode.applyKey key m) m.Silent := by
  have hsame := leaveCompletion_sameText m
  unfold ShellMode.applyKey
  split
  · exact silent_without hm (blankInput_asks m rfl)
  · exact silent_without hm (shiftHistory_asks hm 1)
  · exact silent_without hm (shiftHistory_asks hm 1)
  · exact silent_without hm (shiftHistory_asks hm (-1))
  · exact silent_without hm (enterSearch_asks m)
  · exact Yields.read fun line => (clearModelForSubmit_asks _).bind fun m' hm' =>
      silent_effect (hm'.trans hm.symm) rfl fun _ => Effect.noConfusion
  · exact h.deleteKey_silent hm .tab
  · exact h.deleteKey_silent hm .escape
  · exact ((hsame.sound h).deleteKey_silent (hsame.asks.trans hm) key).mono fun r hr =>
      hr.of_sameText hsame

theorem Sound.aiKey_silent (h : m.Sound) (hm : m.asks = none) (key : Key) :
    Yields (AiMode.applyKey key m) m.Silent := by
  unfold AiMode.applyKey
  split
  · exact silent_without hm (blankInput_asks m rfl)
  · exact silent_without hm (shiftHistory_asks hm 1)
  · exact silent_without hm (shiftHistory_asks hm 1)
  · exact silent_without hm (shiftHistory_asks hm (-1))
  · exact silent_without hm (enterSearch_asks m)
  · refine Yields.read fun line => (clearModelForSubmit_asks _).bind fun m' hm' => ?_
    split
    · exact silent_effect (hm'.trans hm.symm) rfl fun _ => Effect.noConfusion
    · exact silent_effect (hm'.trans hm.symm) rfl fun _ => Effect.noConfusion
  · exact h.deleteKey_silent hm _

/-! ## Readline mode -/

theorem Sound.readlineInputKey_silent (h : m.Sound) (key : Key) :
    Yields (ReadlineMode.inputKey key m) m.Silent := by
  unfold ReadlineMode.inputKey
  split
  · split
    · exact silent_effect rfl rfl fun _ => Effect.noConfusion
    · exact silent_edits h.coherent.deleteCharAfterCursor
  · exact silent_of_edits (h.coherent.editKey _)

/-- The line is handed over and the question withdrawn, both at once. -/
def Answers (m : Model) (r : Model × List Effect) : Prop :=
  m.asks.isSome ∧ r.1.asks = none ∧ ∃ text, r.2 = [.submitReadlineInput text]

omit [Ucd] in
theorem Answers.then {r : Model × List Effect} {m'' : Model} (h : m.Answers r)
    (hs : r.1.SameText m'') : m.Answers (m'', r.2) := ⟨h.1, hs.asks.trans h.2.1, h.2.2⟩

theorem Sound.readlineKey_turns (h : m.Sound) (hm : m.asks.isSome) (key : Key) :
    Yields (ReadlineMode.applyKey key m) fun r => m.Silent r ∨ m.Answers r := by
  have hsame := leaveCompletion_sameText m
  unfold ReadlineMode.applyKey
  split
  · exact (blankInput_asks m rfl).bind fun m' hm' => .inr ⟨hm, hm', [], rfl⟩
  · exact .inl (silent_self m)
  · exact .inl (silent_self m)
  · exact .inl (silent_self m)
  · exact Yields.read fun line => (clearModelForSubmit_asks _).bind fun m' hm' =>
      .inr ⟨hm, hm', _, rfl⟩
  · exact (h.readlineInputKey_silent .tab).mono fun _ => .inl
  · exact (h.readlineInputKey_silent .escape).mono fun _ => .inl
  · exact ((hsame.sound h).readlineInputKey_silent key).mono fun r hr =>
      .inl (hr.of_sameText hsame)

end

end Model

/-! ## History search -/

namespace HistorySearch

variable {m : Model}

theorem searchAndUpdate_asks (m : Model) :
    Yields (searchAndUpdate m) fun m' => m'.asks = none := Yields.read fun _ => rfl

theorem moveSelection_asks (hm : m.asks = none) (amount : Int) :
    Yields (moveSelection m amount) fun m' => m'.asks = none := by
  refine Yields.read fun state => ?_
  dsimp only
  split
  · exact hm
  · exact rfl

theorem moveLeft_asks (m : Model) : (moveLeft m).asks = m.asks := by
  unfold moveLeft
  split <;> rfl

theorem moveRight_asks (hm : m.asks = none) : Yields (moveRight m) fun m' => m'.asks = none := by
  refine Yields.read fun search => ?_
  split
  · exact hm
  · exact hm

theorem otherKey_asks (hm : m.asks = none) (name : String) :
    Yields (otherKey name m) fun m' => m'.asks = none := by
  unfold otherKey
  split
  · exact Yields.read fun search => Yields.read fun pos => hm
  · exact Yields.read fun search => Yields.read fun pos => hm
  · exact hm

section
variable [Ucd]

theorem cancel_asks (m : Model) : Yields (cancel m) fun m' => m'.asks = none :=
  Model.blankInput_asks m rfl

theorem submit_asks (m : Model) : Yields (submit m) fun m' => m'.asks = none := by
  refine Yields.read fun state => Yields.read fun found => ?_
  split
  · exact cancel_asks m
  · refine Yields.read fun lines => Yields.read fun lastLine => ?_
    exact (Model.modeOfHistoryString_asks _).bind fun mode hmode => Yields.read fun cache => hmode

theorem ctrlKey_asks (hm : m.asks = none) (c : Char) :
    Yields (ctrlKey c m) fun m' => m'.asks = none := by
  unfold ctrlKey
  split
  · exact cancel_asks m
  · exact moveSelection_asks hm _
  · exact moveSelection_asks hm _
  · refine Yields.read fun search => ?_
    split
    · exact cancel_asks m
    · exact Yields.read fun m' => searchAndUpdate_asks m'
  · exact Yields.read fun m' => searchAndUpdate_asks m'
  · exact hm
  · exact Yields.read fun search => hm
  · exact hm

theorem applyKey_silent (hm : m.asks = none) (key : Key) : Yields (applyKey key m) m.Silent := by
  refine Model.silent_without hm ?_
  cases key with
  | ctrl c => exact ctrlKey_asks hm c
  | other name => exact otherKey_asks hm name
  | escape => exact cancel_asks m
  | enter => exact submit_asks m
  | up => exact moveSelection_asks hm _
  | down => exact moveSelection_asks hm _
  | char c => exact Yields.read fun m' => searchAndUpdate_asks m'
  | backspace =>
    refine Yields.read fun search => ?_
    split
    · exact cancel_asks m
    · exact Yields.read fun m' => searchAndUpdate_asks m'
  | left => exact (moveLeft_asks m).trans hm
  | right => exact moveRight_asks hm
  | paste text => exact Yields.read fun m' => searchAndUpdate_asks m'
  | _ => exact hm

end

end HistorySearch

/-! ## Messages -/

namespace Update

open Model (Silent Answers SameText)

variable {m : Model}

/-- The messages with which R asks for something. -/
def isRequest : Msg → Bool
  | .response (.readline _) | .response .passthrough => true
  | _ => false

/-- What one update can do about the question. -/
inductive Turn (m : Model) : Msg → Model × List Effect → Prop where
  | silent {msg : Msg} {r : Model × List Effect} (plain : isRequest msg = false)
      (silent : m.Silent r) : Turn m msg r
  | answered {key : Key} {r : Model × List Effect} (answers : m.Answers r) : Turn m (.key key) r
  | asked {prompt : Bytes} {m' : Model} (asks : m'.asks = some (shownPrompt prompt)) :
      Turn m (.response (.readline prompt)) (m', [])
  | ended {m' : Model} (asks : m'.asks = none) : Turn m (.response .done) (m', [])
  | suspended {m' : Model} (asks : m'.asks = m.asks) :
      Turn m (.response .passthrough) (m', [.enterPassthrough])

section
variable [Ucd]

theorem applyKey_turns (h : m.Sound) (key : Key) :
    Yields (applyKey key m) fun r => m.Silent r ∨ m.Answers r := by
  have hnone {mode : Mode} (hmode : m.input.mode = mode) (hasks : mode.asks = none) :
      m.asks = none := (congrArg Mode.asks hmode).trans hasks
  unfold applyKey
  split
  · rename_i prompt hmode
    exact h.readlineKey_turns (by rw [Model.asks, hmode]; rfl) key
  · rename_i hmode
    exact (h.shellKey_silent (hnone hmode rfl) key).mono fun _ => .inl
  · rename_i hmode
    exact (h.aiKey_silent (hnone hmode rfl) key).mono fun _ => .inl
  · rename_i hmode
    exact (h.normalKey_silent (hnone hmode rfl) key).mono fun _ => .inl
  · rename_i hmode
    exact (HistorySearch.applyKey_silent (hnone hmode rfl) key).mono fun _ => .inl

omit [Ucd] in
theorem completionFollowup_silent (m : Model) : Yields m.completionFollowup m.Silent := by
  have hset := Model.setCompletion_sameText m none
  unfold Model.completionFollowup
  split
  · exact (Model.silent_self m).then hset
  · split
    · refine Yields.read fun line => ?_
      split
      · refine Yields.read fun token => ?_
        split
        · exact (Yields.of_safe (Model.makeBackslashCompletion_safe m _)).bind fun m' h =>
            (Model.silent_self m).then h
        · refine Yields.read fun n => ?_
          split
          · exact (Model.silent_self m).then hset
          · exact Model.silent_effect rfl rfl fun _ => Effect.noConfusion
      · exact Model.silent_self m
    · exact Model.silent_self m

theorem keyStep_turns (h : m.Sound) (key : Key) :
    Yields (keyStep key m) fun r => m.Silent r ∨ m.Answers r := by
  refine Yields.of_ok fun r hr => ?_
  obtain ⟨⟨m₁, effects⟩, hinput, hr⟩ := Outcome.bind_eq_ok.mp hr
  obtain ⟨m₀, happly, hcorrect⟩ := handleKeyInput_eq_ok.mp hinput
  have hsame : m₀.SameText m₁ :=
    (universalCorrections_safe ((applyKey_safe h key).of_eq_ok happly).mode key).of_eq_ok hcorrect
  have hturn : m.Silent (m₁, effects) ∨ m.Answers (m₁, effects) :=
    ((applyKey_turns h key).of_eq_ok happly).imp (fun hs => hs.then hsame) fun ha => ha.then hsame
  cases effects with
  | nil =>
    -- only a key without effects is followed by a look for completions
    have hfollow := (completionFollowup_silent m₁).of_eq_ok hr
    obtain hsilent | ⟨-, -, text, heffects⟩ := hturn
    · exact .inl ⟨hfollow.asks.trans hsilent.asks, hfollow.quiet,
        fun hm => hfollow.kept (hsilent.asks ▸ hm)⟩
    · cases heffects
  | cons e es =>
    cases hr
    exact hturn

theorem responseStep_turns (h : m.Sound) (response : ResponseChunk) :
    Yields (responseStep response m) (Turn m (.response response)) := by
  refine (Yields.of_safe (responseStep_safe h response)).mono fun (m', effects) ⟨hr, heffects⟩ => ?_
  subst heffects
  have hmode : setAside response = false →
      m'.asks = (modeAfter m.input.mode response).asks := fun hprocessed => by
    rw [hprocessed] at hr
    exact congrArg Mode.asks hr.mode
  have hsame : setAside response = true → m'.asks = m.asks := fun haside => by
    rw [haside] at hr
    exact SameText.asks hr
  cases response with
  | readline prompt => exact .asked (hmode rfl)
  | done => exact .ended (hmode rfl)
  | passthrough => exact .suspended (hsame rfl)
  | shutdown => exact .silent rfl (Model.silent_effect (hsame rfl) rfl fun _ => Effect.noConfusion)
  | restarted s => exact .silent rfl (Model.silent_effect (hmode rfl) rfl fun _ => Effect.noConfusion)
  | passthroughEnd => exact .silent rfl (Model.silent_nothing (hsame rfl))
  | completions token items => exact .silent rfl (Model.silent_nothing (hsame rfl))
  | _ => exact .silent rfl (Model.silent_nothing (hmode rfl))

theorem step_turn (h : m.Sound) (msg : Msg) : Yields (step msg m) (Turn m msg) := by
  cases msg with
  | key key =>
    exact (keyStep_turns h key).mono fun r hr => hr.elim (.silent rfl) .answered
  | response response => exact responseStep_turns h response
  | backslashEffectResult tokenStart originalToken insertedText =>
    refine Meets.via (fun m' => m'.asks = m.asks) ?_ fun m' hm' =>
      .silent rfl (Model.silent_nothing hm')
    refine Yields.read fun count => ?_
    cases insertedText with
    | none => exact rfl
    | some text =>
      exact (Yields.of_safe (h.coherent.replaceRange _ _ _)).bind fun m' ⟨he, _⟩ => he.frame.asks
  | termResize width height =>
    exact (Yields.of_safe (resizeStep_safe h width height)).mono fun (m', effects) ⟨hs, heffects⟩ => by
      cases heffects
      exact .silent rfl (Model.silent_effect hs.asks rfl fun _ => Effect.noConfusion)

theorem update_turn (h : m.Sound) {msg : Msg} {r : Model × List Effect}
    (hr : update msg m = .ok r) : Turn m msg r := by
  have hsame := unscrolled_sameText m
  have hturn := (step_turn (hsame.sound h) msg).of_eq_ok (update_eq_ok hr).1
  generalize { m with layout.scrollAmount := 0 } = m₀ at hsame hturn
  have hasks := hsame.asks
  cases hturn with
  | silent plain hs => exact .silent plain (hs.of_sameText hsame)
  | answered ha => exact .answered ⟨by rw [← hasks]; exact ha.1, ha.2⟩
  | asked hm => exact .asked hm
  | ended hm => exact .ended hm
  | suspended hm => exact .suspended (hm.trans hasks)

end

end Update
end Raoui
