import Raoui.Editor.Returns

/-!
# Raoui.Editor.Typing

A shell command or a question to the AI, typed while R may still be answering an earlier evaluation.

* `Typing`: the messages of such a session, up to the Enter that ends it.
* `keepsMode`: but for a Done, no message of the session changes the mode.
* `typed_text_dispatched`: Enter then hands the text on the way its mode does.
-/

namespace Raoui

open Outcome (Meets)
open Tty (Key)
open Ffi (ResponseChunk)
open Transition (Run Restrict)

/-- The responses of R, as opposed to those of the AI. -/
def Ffi.ResponseChunk.fromR : ResponseChunk → Bool
  | .aiOutput _ | .aiToolCall _ | .aiSuggestion _ | .aiDone => false
  | _ => true

/-- The keys with which the user leaves a Shell or Ai prompt, or submits it. -/
def leavesPrompt (key : Key) (m : Model) : Bool :=
  match key with
  | .ctrl c =>
    match c with
    | 'c' | 'p' | 'r' => true
    | 'd' => m.isEmptyInput
    | _ => false
  | .up | .down | .enter => true
  | .backspace => m.promptIsEmpty
  | _ => false

/-- What Enter asks for in a mode, at a prompt with this text. -/
def dispatched (mode : Mode) (text : Bytes) : List Effect :=
  match mode with
  | .shell => [.submit (ShellMode.shellCommand text)]
  | .ai =>
    if AiMode.resetCommands.contains (trim text) then [.resetAiSession]
    else [.submitAiQuery text]
  | .readline _ => [.submitReadlineInput text]
  | .normal | .historySearch _ => [.submit text]

/-- A message of a session of typing: a key that does not end it, a response of R other than the
request for a line of input, or a resize. -/
def Typing (m : Model) (msg : Msg) : Prop :=
  match msg with
  | .key key => leavesPrompt key m = false
  | .response response => response.fromR = true ∧ ∀ text, response ≠ .readline text
  | .termResize _ _ => True
  | .backslashEffectResult _ _ _ => False

theorem dispatched_ne_nil (mode : Mode) (text : Bytes) : dispatched mode text ≠ [] := by
  unfold dispatched
  split
  · exact List.cons_ne_nil _ _
  · split <;> exact List.cons_ne_nil _ _
  · exact List.cons_ne_nil _ _
  · exact List.cons_ne_nil _ _
  · exact List.cons_ne_nil _ _

namespace Model

variable {m : Model}

theorem Coherent.promptToString_eq (h : m.Coherent) (hone : m.input.lines.length = 1) :
    History.promptToString m.input.lines = m.line.toBytes := by
  obtain ⟨line, hline⟩ := List.length_eq_one_iff.mp hone
  have hmem := h.line_mem
  rw [hline, List.mem_singleton] at hmem
  rw [hline, hmem]
  rfl

section
variable [Ucd]

theorem Coherent.deleteKey_stays (h : m.Coherent) {key : Key} (hstay : leavesPrompt key m = false) :
    Safe (ShellMode.deleteKey key m) fun r => m.Edits (PlainOk key m) r.1 ∧ r.2 = [] := by
  unfold ShellMode.deleteKey
  split
  · have hfull : m.isEmptyInput = false := hstay
    rw [hfull]
    exact withoutEffects_edits h.deleteCharAfterCursor
  · have hfull : m.promptIsEmpty = false := hstay
    rw [hfull]
    exact h.editKey .backspace
  · exact h.editKey _

theorem Coherent.shellKey_stays (h : m.Coherent) {key : Key} (hstay : leavesPrompt key m = false) :
    Safe (ShellMode.applyKey key m) fun r => r.1.input.mode = m.input.mode := by
  have hsame := leaveCompletion_sameText m
  unfold ShellMode.applyKey
  split
  · cases hstay
  · cases hstay
  · cases hstay
  · cases hstay
  · cases hstay
  · cases hstay
  · exact (h.deleteKey_stays hstay).mono fun _ ⟨he, _⟩ => he.frame.mode
  · exact (h.deleteKey_stays hstay).mono fun _ ⟨he, _⟩ => he.frame.mode
  · have h₁ : m.leaveCompletion.Coherent :=
      leaveCompletion_of (P := Coherent)
        (fun h => ⟨h.wellFormed, h.line_nonneg, h.line_lt, h.pos_nonneg, h.cached⟩) h
    have hstay₁ : leavesPrompt key m.leaveCompletion = false :=
      leaveCompletion_of (P := fun m => leavesPrompt key m = false) (fun h => h) hstay
    exact (h₁.deleteKey_stays hstay₁).mono fun _ ⟨he, _⟩ => he.frame.mode.trans hsame.mode

theorem Coherent.aiKey_stays (h : m.Coherent) {key : Key} (hstay : leavesPrompt key m = false) :
    Safe (AiMode.applyKey key m) fun r => r.1.input.mode = m.input.mode := by
  unfold AiMode.applyKey
  split
  · cases hstay
  · cases hstay
  · cases hstay
  · cases hstay
  · cases hstay
  · cases hstay
  · exact (h.deleteKey_stays hstay).mono fun _ ⟨he, _⟩ => he.frame.mode

end

end Model

namespace Update

open Model (SameText)

variable {m : Model}

section
variable [Ucd]

theorem keyStep_keepsMode (h : m.Sound) (hmode : m.input.mode = .shell ∨ m.input.mode = .ai)
    {key : Key} (hstay : leavesPrompt key m = false) :
    Safe (keyStep key m) fun r => r.1.input.mode = m.input.mode := by
  have happly : Safe (applyKey key m) fun r => r.1.input.mode = m.input.mode := by
    unfold applyKey
    obtain hmode | hmode := hmode
    · rw [hmode]
      exact (h.coherent.shellKey_stays hstay).mono fun r hr => hr.trans hmode
    · rw [hmode]
      exact (h.coherent.aiKey_stays hstay).mono fun r hr => hr.trans hmode
  unfold keyStep handleKeyInput
  rw [handleResize_self]
  refine Meets.via (fun r => r.1.input.mode = m.input.mode) ?_ fun r hr => ?_
  · refine happly.bind fun r hr => ?_
    exact (universalCorrections_safe (hr ▸ h.mode) key).bind fun m₁ hs => hs.mode.trans hr
  · dsimp only
    split
    · exact (Model.completionFollowup_safe _).mono fun r' ⟨hs, _⟩ => hs.mode.trans hr
    · exact hr

/-- The condition on a message of a session of typing: it is not the end of an evaluation. -/
def NotDone (msg : Msg) : Prop := msg ≠ .response .done

theorem Steps.keepsMode {m' : Model} {msg : Msg} (hstep : Steps m msg m') (h : m.Sound)
    (hmode : m.input.mode = .shell ∨ m.input.mode = .ai) (htyping : Typing m msg)
    (hdone : NotDone msg) : m'.input.mode = m.input.mode := by
  obtain ⟨effects, hupdate⟩ := hstep
  have hstep := (update_eq_ok hupdate).1
  have h₀ := (unscrolled_sameText m).sound h
  cases msg with
  | key key => exact (keyStep_keepsMode h₀ hmode htyping).of_eq_ok hstep
  | response response =>
    obtain ⟨hresponse, -⟩ := (responseStep_safe h₀ response).of_eq_ok hstep
    split at hresponse
    · exact hresponse.mode
    · refine hresponse.mode.trans ?_
      cases response with
      | readline text => exact absurd rfl (htyping.2 text)
      | done => exact absurd rfl hdone
      | _ => rfl
  | termResize width height => exact ((resizeStep_safe h₀ width height).of_eq_ok hstep).1.mode
  | backslashEffectResult tokenStart originalToken insertedText => exact htyping.elim

/-- A response of R leaves the text and the cursor as they are. -/
theorem Steps.response_text {m' : Model} {response : ResponseChunk}
    (hstep : Steps m (.response response) m') (h : m.Sound) (hR : response.fromR = true) :
    m'.input.lines = m.input.lines ∧ m'.input.cursorLine = m.input.cursorLine ∧
      m'.input.cursorPos = m.input.cursorPos := by
  obtain ⟨effects, hupdate⟩ := hstep
  have h₀ := (unscrolled_sameText m).sound h
  obtain ⟨hresponse, -⟩ := (responseStep_safe h₀ response).of_eq_ok (update_eq_ok hupdate).1
  split at hresponse
  · exact ⟨hresponse.lines, hresponse.cursorLine, hresponse.cursorPos⟩
  · refine hresponse.text ?_
    cases response with
    | aiDone => cases hR
    | _ => rfl

/-! ## Enter -/

theorem submit_returns {n : Model} (hkept : n.input.history.Kept) (hmode : n.input.mode.Sound) :
    Returns n.clearModelForSubmit fun m' => m'.Sound ∧ m'.Within :=
  (n.clearModelForSubmit_returns.of_safe (Model.clearModelForSubmit_safe hkept hmode)).mono
    fun _ ⟨hs, hw, _⟩ => ⟨hs, hw⟩

theorem shellSubmit_returns (h : m.Sound) : Returns (ShellMode.submit m) fun r =>
    r.1.Sound ∧ r.1.Within ∧ r.2 = dispatched .shell m.line.toBytes := by
  unfold ShellMode.submit
  rw [h.coherent.currentLine]
  have hkept := h.kept.addToHistory (bytes "shell") m.input.lines
  refine Meets.via (fun line => line = m.line) rfl fun line hline => ?_
  subst hline
  exact Meets.bind (submit_returns (n := { m with
    input.history := m.input.history.addToHistory (bytes "shell") m.input.lines,
    input.mode := .normal }) hkept trivial) fun _ ⟨hs, hw⟩ => ⟨hs, hw, rfl⟩

theorem aiSubmit_returns (h : m.Sound) : Returns (AiMode.submit m) fun r =>
    r.1.Sound ∧ r.1.Within ∧ r.2 = dispatched .ai m.line.toBytes := by
  unfold AiMode.submit dispatched
  rw [h.coherent.currentLine]
  refine Meets.via (fun line => line = m.line) rfl fun line hline => ?_
  subst hline
  refine Meets.bind (submit_returns (n := { m with input.mode := .normal }) h.kept trivial)
    fun m' ⟨hs, hw⟩ => ?_
  split
  · exact ⟨hs, hw, rfl⟩
  · have hc := hs.coherent
    exact ⟨⟨⟨hc.wellFormed, hc.line_nonneg, hc.line_lt, hc.pos_nonneg, hc.cached⟩,
      h.kept.addToHistory _ _, hs.mode⟩, hw, rfl⟩

/-- Enter hands the cursor's line on the way the mode does. -/
theorem update_enter (h : m.Sound) (hw : m.Within)
    (hmode : m.input.mode = .shell ∨ m.input.mode = .ai) :
    ∃ m', update (.key .enter) m = .ok (m', dispatched m.input.mode m.line.toBytes) := by
  have h₀ := (unscrolled_sameText m).sound h
  obtain ⟨⟨m₁, effects⟩, happly, hs₁, hw₁, heffects⟩ : ∃ r, applyKey .enter
      { m with layout.scrollAmount := 0 } = .ok r ∧ r.1.Sound ∧ r.1.Within ∧
        r.2 = dispatched m.input.mode m.line.toBytes := by
    unfold applyKey
    obtain hmode | hmode := hmode
    · rw [hmode]
      exact (shellSubmit_returns h₀).exists
    · rw [hmode]
      exact (aiSubmit_returns h₀).exists
  cases heffects
  obtain ⟨m', hupdate, -⟩ := update_returns h hw happly hs₁ hw₁ (dispatched_ne_nil _ _)
  exact ⟨m', hupdate⟩

/-- Whatever a session of typing in Shell or Ai mode receives from R but a Done, the text is what the
keys have made it, and Enter hands a text of one line on the way the mode it was typed in does. -/
theorem typed_text_dispatched {db : History.Db} {row width height : Int} {m₀ m₁ : Model}
    {before msgs : List Msg} (h₀ : initialModel (History.init db) row width height = .ok m₀)
    (hbefore : Run Steps m₀ before m₁) (hmode : m₁.input.mode = .shell ∨ m₁.input.mode = .ai)
    (htyping : Run (Restrict (fun m msg => Typing m msg ∧ NotDone msg) Steps) m₁ msgs m) :
    (∀ response m', response.fromR = true → Steps m (.response response) m' →
      m'.input.lines = m.input.lines ∧ m'.input.cursorLine = m.input.cursorLine ∧
        m'.input.cursorPos = m.input.cursorPos) ∧
    (m.input.lines.length = 1 → ∃ m', update (.key .enter) m =
      .ok (m', dispatched m₁.input.mode (History.promptToString m.input.lines))) := by
  have hreach := reachable_sound h₀ hbefore
  obtain ⟨⟨hs, hw⟩, hkept⟩ := Run.invariant
    (I := fun m => (m.Sound ∧ m.Within) ∧ m.input.mode = m₁.input.mode)
    (fun ⟨⟨hs, _⟩, hkept⟩ ⟨⟨htype, hdone⟩, hstep⟩ =>
      ⟨by obtain ⟨_, hupdate⟩ := hstep; exact update_sound hs hupdate,
        (hstep.keepsMode hs (hkept ▸ hmode) htype hdone).trans hkept⟩)
    ⟨hreach, rfl⟩ htyping
  refine ⟨fun response m' hR hstep => hstep.response_text hs hR, fun hone => ?_⟩
  rw [hs.coherent.promptToString_eq hone, ← hkept]
  exact update_enter hs hw (hkept ▸ hmode)

end

section

attribute [local instance] asciiUcd

theorem typed_text_dispatched_shell : ∃ m₀ m₁ m,
    initialModel (History.init ⟨[], []⟩) 1 80 24 = .ok m₀ ∧
    Run Steps m₀ [.key (.char (bytes ";"))] m₁ ∧
    Run (Restrict (fun m msg => Typing m msg ∧ NotDone msg) Steps) m₁
      [.key (.char (bytes "l")), .response (.stdout (bytes "x"))] m ∧
    (m.input.lines.length = 1 → ∃ m', update (.key .enter) m =
      .ok (m', dispatched m₁.input.mode (History.promptToString m.input.lines))) := by
  obtain ⟨m₀, m₁, m₂, m, h₀, h₁, hmode, hstay, h₂, h₃⟩ : ∃ m₀ m₁ m₂ m,
      initialModel (History.init ⟨[], []⟩) 1 80 24 = .ok m₀ ∧
      next m₀ (.key (.char (bytes ";"))) = some m₁ ∧ m₁.input.mode = .shell ∧
      leavesPrompt (.char (bytes "l")) m₁ = false ∧ next m₁ (.key (.char (bytes "l"))) = some m₂ ∧
      next m₂ (.response (.stdout (bytes "x"))) = some m :=
    ⟨_, _, _, _, rfl, rfl, rfl, rfl, rfl, rfl⟩
  have hbefore : Run Steps m₀ [.key (.char (bytes ";"))] m₁ := .cons (steps_of_next h₁) .nil
  have htyping : Run (Restrict (fun m msg => Typing m msg ∧ NotDone msg) Steps) m₁
      [.key (.char (bytes "l")), .response (.stdout (bytes "x"))] m :=
    .cons ⟨⟨hstay, Msg.noConfusion⟩, steps_of_next h₂⟩
      (.cons ⟨⟨⟨rfl, nofun⟩, nofun⟩, steps_of_next h₃⟩ .nil)
  exact ⟨m₀, m₁, m, h₀, hbefore, htyping,
    (typed_text_dispatched h₀ hbefore (.inl hmode) htyping).2⟩

/-- The end of the earlier evaluation takes the prompt back to R, so that the half-typed shell
command is submitted as R code. -/
theorem typed_command_submitted_as_code : ∃ m₀ m₁ m m',
    initialModel (History.init ⟨[], []⟩) 1 80 24 = .ok m₀ ∧
    Run Steps m₀ [.key (.char (bytes "1")), .key .enter, .key (.char (bytes ";"))] m₁ ∧
    m₁.input.mode = .shell ∧
    Run (Restrict Typing Steps) m₁
      [.key (.char (bytes "l")), .key (.char (bytes "s")), .response .done] m ∧
    update (.key .enter) m = .ok (m', [.submit (bytes "ls")]) := by
  obtain ⟨m₀, m₁, m₂, m₃, m, m', h₀, hbefore, hmode, hstay₁, h₂, hstay₂, h₃, hdone, henter⟩ :
      ∃ m₀ m₁ m₂ m₃ m m', initialModel (History.init ⟨[], []⟩) 1 80 24 = .ok m₀ ∧
      Transition.exec next m₀ [.key (.char (bytes "1")), .key .enter, .key (.char (bytes ";"))] =
        some m₁ ∧ m₁.input.mode = .shell ∧
      leavesPrompt (.char (bytes "l")) m₁ = false ∧ next m₁ (.key (.char (bytes "l"))) = some m₂ ∧
      leavesPrompt (.char (bytes "s")) m₂ = false ∧ next m₂ (.key (.char (bytes "s"))) = some m₃ ∧
      next m₃ (.response .done) = some m ∧
      update (.key .enter) m = .ok (m', [.submit (bytes "ls")]) :=
    ⟨_, _, _, _, _, _, rfl, rfl, rfl, rfl, rfl, rfl, rfl, rfl, rfl⟩
  exact ⟨m₀, m₁, m, m', h₀, (Transition.run_of_exec hbefore).mono steps_of_next, hmode,
    .cons ⟨hstay₁, steps_of_next h₂⟩ (.cons ⟨hstay₂, steps_of_next h₃⟩
      (.cons ⟨⟨rfl, nofun⟩, steps_of_next hdone⟩ .nil)), henter⟩

end

end Update
end Raoui
