import Raoui.Editor.SearchKeys
import Raoui.Editor.Update
import Raoui.Lib.Transition

/-!
# Raoui.Editor.Invariant

The model invariants along the runs of the event loop.

* `StepOk`: the condition on a message, in the state it meets.
* `step_safe`: what one message does to a sound model, with nothing asserted of it in vain.
* `invariants_hold`: a run whose messages all meet the condition keeps the invariants.
-/

namespace Raoui

open Outcome (Meets)
open Tty (Key)
open Ffi (ResponseChunk)
open UnicodeString (WellFormed clusterCount)
open Transition (Run Restrict)

namespace SearchPager

theorem viewRows_safe (rows : Int) {s : SearchState} (h : s.Sound) :
    Safe (viewRows rows s.selected s.found) fun _ => True := by
  unfold viewRows
  show Safe (if _ then _ else _) _
  split
  · trivial
  · rename_i hrows
    split
    · rename_i hbad
      refine absurd ⟨h.selected_nonneg, ?_⟩ hbad
      refine h.selected_lt fun hnil => hrows (.inl ?_)
      rw [hnil]
      rfl
    · exact (nth_safe _ _).bind fun _ _ => trivial

end SearchPager

namespace Update

open Model (SameText Handled Records)

variable {m : Model}

theorem dropdownRows_safe (h : m.input.mode.Sound) : Safe (dropdownRows m) fun _ => True := by
  unfold dropdownRows
  split
  · split <;> trivial
  · rename_i s hs
    rw [hs] at h
    exact (SearchPager.viewRows_safe _ h).bind fun _ _ => trivial
  · trivial
  · trivial
  · trivial

theorem handleVerticalCursorMovement_safe (h : m.input.mode.Sound) :
    Safe (handleVerticalCursorMovement m) m.SameText := by
  refine (dropdownRows_safe h).bind fun rows _ => ?_
  refine (Model.cursorTerminalPos_safe m).bind fun pos _ => ?_
  exact ⟨rfl, rfl, rfl, rfl, rfl, rfl, rfl⟩

theorem handleResize_sameText (width height : Int) (m : Model) :
    m.SameText (handleResize width height m) := by
  unfold handleResize
  split
  · exact SameText.refl m
  · exact ⟨rfl, rfl, rfl, rfl, rfl, rfl, rfl⟩

theorem handleResize_self (m : Model) :
    handleResize m.layout.termWidth m.layout.termHeight m = m :=
  if_pos ⟨rfl, rfl⟩

/-- A key is applied, then come the corrections that every mode makes. -/
theorem handleKeyInput_eq_ok [Ucd] {key : Key} {m : Model} {r : Model × List Effect} :
    handleKeyInput key m = .ok r ↔
      ∃ m₁, applyKey key m = .ok (m₁, r.2) ∧ universalCorrections key m₁ = .ok r.1 := by
  rw [handleKeyInput, handleResize_self, Outcome.bind_eq_ok]
  constructor
  · rintro ⟨⟨m₁, effects⟩, happly, hcorrected⟩
    obtain ⟨m₂, hcorrect, heq⟩ := Outcome.bind_eq_ok.mp hcorrected
    cases heq
    exact ⟨m₁, happly, hcorrect⟩
  · rintro ⟨m₁, happly, hcorrect⟩
    exact ⟨(m₁, r.2), happly, Outcome.bind_eq_ok.mpr ⟨r.1, hcorrect, rfl⟩⟩

end Update

namespace Model

variable {m : Model}

theorem normalCompletionTokenLength_safe (line : UnicodeString) (n len : Nat) :
    Safe (normalCompletionTokenLength line n len) fun _ => True := by
  induction n generalizing len with
  | zero => trivial
  | succ n ih =>
    refine (UnicodeString.clusterAt_safe _ _).bind fun c _ => ?_
    refine (isWordChar_safe _).bind fun isWord _ => ?_
    show Safe (if _ then _ else _) _
    split
    · exact ih _
    · trivial

theorem makeBackslashCompletion_safe (m : Model) (token : Backslash.Token) :
    Safe (m.makeBackslashCompletion token) m.SameText := by
  unfold makeBackslashCompletion
  dsimp only
  split
  · exact setCompletion_sameText m none
  · exact (filterCompletions_safe _).mono fun m' h => (setCompletion_sameText m _).trans h

theorem completionFollowup_safe (m : Model) : Safe m.completionFollowup fun r =>
    m.SameText r.1 ∧ ∀ e ∈ r.2, e.isSubmission = false := by
  have hnone := List.forall_mem_nil fun e : Effect => e.isSubmission = false
  unfold completionFollowup
  split
  · exact ⟨setCompletion_sameText m none, hnone⟩
  · split
    · refine (nthOpt_safe _ _).bind fun line _ => ?_
      split
      · refine (Backslash.tokenInLine_safe _ _).bind fun token _ => ?_
        split
        · exact (makeBackslashCompletion_safe m _).bind fun m' h => ⟨h, hnone⟩
        · refine (normalCompletionTokenLength_safe _ _ _).bind fun n _ => ?_
          show Safe (if _ then _ else _) _
          split
          · exact ⟨setCompletion_sameText m none, hnone⟩
          · exact ⟨SameText.refl m, fun e he => by
              rw [List.mem_singleton.mp he]
              rfl⟩
      · exact ⟨SameText.refl m, hnone⟩
    · exact ⟨SameText.refl m, hnone⟩

end Model

namespace Update

open Model (SameText Handled Records)

variable {m : Model}

theorem universalCorrections_safe (h : m.input.mode.Sound) (key : Key) :
    Safe (universalCorrections key m) m.SameText := by
  refine (Model.filterCompletions_safe m).bind fun m₁ h₁ => ?_
  refine (handleVerticalCursorMovement_safe (h₁.mode ▸ h)).bind fun m₂ h₂ => ?_
  exact h₁.trans (h₂.trans ⟨rfl, rfl, rfl, rfl, rfl, rfl, rfl⟩)

theorem modeAfter_sound {mode : Mode} (h : mode.Sound) (response : ResponseChunk) :
    (modeAfter mode response).Sound := by
  unfold modeAfter
  split
  · trivial
  · trivial
  · exact h

theorem suggestionAfter_place {pending : Option Bytes} {response : ResponseChunk} {code : Bytes}
    (h : (suggestionAfter pending response).2.2 = some code) :
    response = .aiDone ∧ pending = some code := by
  cases response with
  | aiDone => exact ⟨rfl, h⟩
  | _ => cases h

theorem completionsArrived_safe (h : m.Sound) (token : Bytes) (items : List Bytes) :
    Safe (completionsArrived token items m) m.SameText := by
  have hset := Model.setCompletion_sameText m
  unfold completionsArrived
  split
  · exact hset none
  · split
    · exact SameText.refl m
    · refine (Model.filterCompletions_safe _).bind fun m₁ h₁ => ?_
      have hs := (hset _).trans h₁
      exact (handleVerticalCursorMovement_safe (hs.mode ▸ h.mode)).mono fun m₂ h₂ => hs.trans h₂

/-- The step starts with the scroll amount cleared, which nothing above looks at. -/
theorem unscrolled_sameText (m : Model) : m.SameText { m with layout.scrollAmount := 0 } :=
  ⟨rfl, rfl, rfl, rfl, rfl, rfl, rfl⟩

theorem assertModelInvariants_eq (h : m.Sound) (hw : m.Within) :
    m.assertModelInvariants = .ok () := by
  unfold Model.assertModelInvariants
  rw [if_pos (h.invariants_iff.mpr hw)]

theorem cursorPos_nonneg_of_invariants (h : m.invariants = true) : 0 ≤ m.input.cursorPos := by
  unfold Model.invariants at h
  simp only [Bool.and_eq_true, decide_eq_true_eq] at h
  exact h.1.2

section
variable [Ucd]

/-- The condition for a key, in the mode it meets. -/
def KeyOk (key : Key) (m : Model) : Prop :=
  match m.input.mode with
  | .normal => Model.NormalOk key m
  | .historySearch s => HistorySearch.SearchOk key s m.input.cursorPos
  | .shell | .ai | .readline _ => Model.PlainOk key m

theorem applyKey_safe (h : m.Sound) (key : Key) :
    Safe (applyKey key m) (m.Handled (KeyOk key m)) := by
  unfold applyKey KeyOk
  split
  · rename_i hmode
    rw [hmode]
    exact h.readlineKey hmode key
  · rename_i hmode
    rw [hmode]
    exact h.shellKey hmode key
  · rename_i hmode
    rw [hmode]
    exact h.aiKey hmode key
  · rename_i hmode
    rw [hmode]
    exact h.normalKey hmode key
  · rename_i s hmode
    rw [hmode]
    exact HistorySearch.applyKey_safe h hmode key

theorem handleKeyInput_safe (h : m.Sound) (key : Key) :
    Safe (handleKeyInput key m) (m.Handled (KeyOk key m)) := by
  unfold handleKeyInput
  rw [handleResize_self]
  refine (applyKey_safe h key).bind fun (m₁, effects) h₁ => ?_
  exact (universalCorrections_safe h₁.mode key).bind fun m₂ h₂ => h₁.then h₂

theorem keyStep_safe (h : m.Sound) (key : Key) :
    Safe (keyStep key m) (m.Handled (KeyOk key m)) := by
  refine (handleKeyInput_safe h key).bind fun (m₁, effects) h₁ => ?_
  dsimp only
  split
  · exact (Model.completionFollowup_safe m₁).mono fun (m₂, effects₂) ⟨h₂, heff⟩ =>
      h₁.followed h₂ heff
  · exact h₁

/-- The last line of the code a suggestion puts into the prompt. -/
def lastCodeLine (code : Bytes) : UnicodeString := readable ((splitOnChar newline code).getLastD [])

/-- The condition for a response. It says something in a history search only: there a bound on the
cursor in the query becomes one in the text, or the cursor goes to the end of the suggested code. -/
def ResponseOk (response : ResponseChunk) (m : Model) : Prop :=
  match response with
  | .done | .readline _ => m.InRange
  | .aiDone =>
    ∀ code s, m.repl.pendingSuggestion = some code → m.input.mode = .historySearch s →
      (lastCodeLine code).length ≤ s.search.length
  | _ => True

/-- At the end of an evaluation the prompt, which becomes one of R, has no placeholder tokens. -/
def DoneLexed (response : ResponseChunk) (m : Model) : Prop :=
  response = .done → RLexCache.create m.input.lines = .ok m.input.lexCache

/-- What a response does to the model. -/
structure Responded (m : Model) (response : ResponseChunk) (m' : Model) : Prop where
  sound : m'.Sound
  within : m.Within → ResponseOk response m → m'.Within
  lexed : m.Lexed → DoneLexed response m → m'.Lexed
  awaiting : m'.repl.awaitingResponse = awaitingAfter m.repl.awaitingResponse response
  pending : m'.repl.pendingSuggestion = (suggestionAfter m.repl.pendingSuggestion response).1
  history : m'.input.history = m.input.history.recordResponse response
  mode : m'.input.mode = modeAfter m.input.mode response
  text : (suggestionAfter m.repl.pendingSuggestion response).2.2 = none →
    m'.input.lines = m.input.lines ∧ m'.input.cursorLine = m.input.cursorLine ∧
      m'.input.cursorPos = m.input.cursorPos

theorem placeSuggestion_safe (code : Bytes) (hwf : ∀ line ∈ m.input.lines, line.WellFormed)
    (hkept : m.input.history.Kept) (hmode : m.input.mode.Sound) :
    Safe (placeSuggestion code m) fun m' => m'.Sound ∧ m'.InRange ∧ m.Frame m' ∧ m'.Lexed ∧
      m'.input.cursorPos = ((lastCodeLine code).length : Int) := by
  have hcodeLines : Lines ((splitOnChar newline code).map readable) := by
    refine ⟨fun hnil => splitOnChar_ne_nil newline code (List.map_eq_nil_iff.mp hnil), ?_⟩
    intro line hline
    obtain ⟨s, _, rfl⟩ := List.mem_map.mp hline
    exact wellFormed_readable s
  have hlastCode : ((splitOnChar newline code).map readable).getLast hcodeLines.1 =
      lastCodeLine code := by
    rw [List.getLast_map, lastCodeLine, List.getLastD_eq_getLast?,
      List.getLast?_eq_getLast_of_ne_nil (splitOnChar_ne_nil newline code)]
    rfl
  have hlines : ∀ {lines : List UnicodeString},
      lines = (if m.input.lines.all isBlank then (splitOnChar newline code).map readable
        else m.input.lines ++ (splitOnChar newline code).map readable) →
      ∃ hl : Lines lines, lines.getLast hl.1 = lastCodeLine code := by
    intro lines hl
    split at hl
    · subst hl
      exact ⟨hcodeLines, hlastCode⟩
    · subst hl
      refine ⟨⟨List.append_ne_nil_of_right_ne_nil _ hcodeLines.1, fun line hline => ?_⟩, ?_⟩
      · exact (List.mem_append.mp hline).elim (hwf line) (hcodeLines.2 line)
      · rw [List.getLast_append_of_ne_nil _ hcodeLines.1, hlastCode]
  obtain ⟨hl, hlast⟩ := hlines rfl
  refine (RLexCache.create_safe _).bind fun cache ⟨hcached, hlexed⟩ => ?_
  refine (Model.Sound.of_moveCursorToEnd (m := { m with input.lines := _, input.lexCache := cache }) hl
    hcached hkept hmode).mono fun m' ⟨hs, hrange, hframe, ⟨hsame, hcache⟩, hpos⟩ =>
      ⟨hs, hrange, ⟨hframe.layout, hframe.repl, hframe.mode, hframe.history, hframe.completion,
        hframe.flipping⟩, Model.lexed_of_create ?_, ?_⟩
  · rw [hsame, hcache]
    exact hlexed
  · rw [hpos]
    exact congrArg (fun line : UnicodeString => (line.length : Int)) hlast

/-- The model a response leaves when it places no suggestion. -/
theorem within_modeAfter {response : ResponseChunk} {m' : Model}
    (hmode : m'.input.mode = modeAfter m.input.mode response)
    (hlines : m'.input.lines = m.input.lines) (hline : m'.input.cursorLine = m.input.cursorLine)
    (hpos : m'.input.cursorPos = m.input.cursorPos) (hw : m.Within)
    (hok : ResponseOk response m) : m'.Within := by
  have hrange : m.InRange → m'.InRange := by
    unfold Model.InRange Model.line
    rw [hlines, hline, hpos]
    exact id
  have hsame : m'.input.mode = m.input.mode → m'.Within := by
    intro heq
    unfold Model.Within at hw ⊢
    rw [heq, hpos]
    cases hm : m.input.mode with
    | historySearch s =>
      rw [hm] at hw
      exact hw
    | _ =>
      rw [hm] at hw
      exact hrange hw
  cases response with
  | done => exact (Model.within_of_not_search fun s => by rw [hmode]; exact nofun).mpr (hrange hok)
  | readline prompt =>
    exact (Model.within_of_not_search fun s => by rw [hmode]; exact nofun).mpr (hrange hok)
  | _ => exact hsame hmode

theorem lexed_modeAfter {response : ResponseChunk} {m' : Model}
    (hmode : m'.input.mode = modeAfter m.input.mode response)
    (hlines : m'.input.lines = m.input.lines) (hcache : m'.input.lexCache = m.input.lexCache)
    (hl : m.Lexed) (hdone : DoneLexed response m) : m'.Lexed := by
  have hsame : m'.input.mode = m.input.mode → m'.Lexed := by
    intro heq
    unfold Model.Lexed at hl ⊢
    rw [heq, hlines, hcache]
    exact hl
  cases response with
  | done =>
    refine Model.lexed_of_create ?_
    rw [hlines, hcache]
    exact hdone rfl
  | readline prompt =>
    unfold Model.Lexed
    rw [hmode]
    trivial
  | _ => exact hsame hmode

theorem processResponse_safe (h : m.Sound) (response : ResponseChunk) :
    Safe (processResponse { m with repl.backendResponse := some response })
      (Responded m response) := by
  have hc := h.coherent
  have hkept := h.kept.recordResponse response
  have hmode := modeAfter_sound h.mode response
  unfold processResponse
  dsimp only
  split
  · rename_i code hplace
    obtain ⟨rfl, hpending⟩ := suggestionAfter_place hplace
    refine Meets.mono (placeSuggestion_safe code ?_ ?_ ?_) fun m' ⟨hs, hrange, hframe, hlexed, hpos⟩ => ?_
    · exact hc.wellFormed
    · exact hkept
    · exact hmode
    refine ⟨hs, fun _ hok => ?_, fun _ _ => hlexed, ?_, ?_, hframe.history, hframe.mode, ?_⟩
    · unfold Model.Within
      split
      · rename_i s hsearch
        rw [hpos]
        exact Int.ofNat_le.mpr (hok code s hpending (hframe.mode.symm.trans hsearch))
      · exact hrange
    · rw [hframe.repl]
    · rw [hframe.repl]
    · intro hnone
      rw [hplace] at hnone
      cases hnone
  · exact ⟨⟨⟨hc.wellFormed, hc.line_nonneg, hc.line_lt, hc.pos_nonneg, hc.cached⟩, hkept, hmode⟩,
      fun hw hok => within_modeAfter rfl rfl rfl rfl hw hok,
      fun hl hdone => lexed_modeAfter rfl rfl rfl hl hdone, rfl, rfl, rfl, rfl,
      fun _ => ⟨rfl, rfl, rfl⟩⟩

/-- The responses that `update` answers itself; the others go through `process_response`. -/
def setAside : ResponseChunk → Bool
  | .shutdown | .passthrough | .passthroughEnd | .completions _ _ => true
  | _ => false

/-- What `update` asks for at a response. -/
def responseEffects (width : Int) : ResponseChunk → List Effect
  | .shutdown => [.quit]
  | .passthrough => [.enterPassthrough]
  | .restarted _ => [.backgroundSubmit (widthOption width)]
  | _ => []

theorem responseStep_safe (h : m.Sound) (response : ResponseChunk) :
    Safe (responseStep response m) fun r =>
      (if setAside response then m.SameText r.1 else Responded m response r.1) ∧
        r.2 = responseEffects m.layout.termWidth response := by
  have hprocess := processResponse_safe h response
  cases response with
  | shutdown => exact ⟨SameText.refl m, rfl⟩
  | passthrough => exact ⟨SameText.refl m, rfl⟩
  | passthroughEnd => exact ⟨SameText.refl m, rfl⟩
  | completions token items =>
    exact (completionsArrived_safe h token items).bind fun m' hs => ⟨hs, rfl⟩
  | _ => exact hprocess.bind fun m' hr => ⟨hr, rfl⟩

/-- The condition for the text a backslash command has picked. -/
def InsertOk (tokenStart : Int) (originalToken text : Bytes) (m : Model) : Prop :=
  match m.input.mode with
  | .historySearch s => max 0 tokenStart + clusterCount text ≤ s.search.length
  | _ => m.Replaces tokenStart (tokenStart + clusterCount originalToken) text

theorem backslashResult_safe (h : m.Sound) (tokenStart : Int) (originalToken : Bytes)
    (insertedText : Option Bytes) :
    Safe (backslashResult tokenStart originalToken insertedText m) fun m' => m'.Sound ∧
      (m.Lexed → m'.Lexed) ∧ m'.repl = m.repl ∧ m'.input.history = m.input.history ∧
      (m.Within → (∀ text, insertedText = some text → InsertOk tokenStart originalToken text m) →
        m'.Within) := by
  have hcount : Safe (graphemeClusterCount originalToken) fun count =>
      count = clusterCount originalToken := by
    unfold graphemeClusterCount
    split
    · rename_i u hu
      rw [UnicodeString.clusterCount_of_ok hu]
      rfl
    · exact nofun
  refine hcount.bind fun count hcount => ?_
  cases insertedText with
  | none =>
    have hs := Model.setCompletion_sameText m none
    exact ⟨hs.sound h, hs.lexed, rfl, rfl, fun hw _ => hs.within hw⟩
  | some text =>
    refine (h.coherent.replaceRange _ _ _).bind fun m₁ ⟨he, hin, hpos⟩ => ?_
    have hs := Model.setCompletion_sameText m₁ none
    have h₁ : m₁.Sound := ⟨he.coherent, he.frame.history ▸ h.kept, he.frame.mode ▸ h.mode⟩
    refine ⟨hs.sound h₁, fun hl => hs.lexed (he.lexed hl), he.frame.repl, he.frame.history, fun _ hok => hs.within ?_⟩
    have hok := hok text rfl
    unfold InsertOk at hok
    unfold Model.Within
    rw [he.frame.mode]
    cases hmode : m.input.mode with
    | historySearch s =>
      rw [hmode] at hok
      rw [hpos]
      exact hok
    | _ =>
      rw [hmode] at hok
      exact hin (hcount ▸ hok)

/-- The condition on a message, in the state it meets. -/
def StepOk (m : Model) (msg : Msg) : Prop :=
  match msg with
  | .key key => KeyOk key m
  | .response response => ResponseOk response m
  | .backslashEffectResult tokenStart originalToken insertedText =>
    ∀ text, insertedText = some text → InsertOk tokenStart originalToken text m
  | .termResize _ _ => True

theorem insertStep_safe (h : m.Sound) (tokenStart : Int) (originalToken : Bytes)
    (insertedText : Option Bytes) :
    Safe (step (.backslashEffectResult tokenStart originalToken insertedText) m) fun r =>
      r.2 = [] ∧ r.1.Sound ∧ (m.Lexed → r.1.Lexed) ∧ r.1.repl = m.repl ∧
      r.1.input.history = m.input.history ∧
      (m.Within → (∀ text, insertedText = some text → InsertOk tokenStart originalToken text m) →
        r.1.Within) :=
  (backslashResult_safe h tokenStart originalToken insertedText).bind fun _ hm' => ⟨rfl, hm'⟩

theorem resizeStep_safe (h : m.Sound) (width height : Int) :
    Safe (step (.termResize width height) m) fun r =>
      m.SameText r.1 ∧ r.2 = [.backgroundSubmit (widthOption width)] := by
  have hresize := handleResize_sameText width height m
  exact (handleVerticalCursorMovement_safe (hresize.mode ▸ h.mode)).bind fun m' hs =>
    ⟨hresize.trans hs, rfl⟩

theorem step_safe (h : m.Sound) (msg : Msg) : Safe (step msg m) fun r =>
    (0 ≤ r.1.input.cursorPos → r.1.Sound) ∧
      (m.Within → StepOk m msg → 0 ≤ r.1.input.cursorPos ∧ r.1.Within) := by
  cases msg with
  | key key => exact (keyStep_safe h key).mono fun r hr => ⟨hr.sound, hr.within⟩
  | response response =>
    refine (responseStep_safe h response).mono fun r ⟨hr, _⟩ => ?_
    split at hr
    · exact ⟨fun _ => hr.sound h, fun hw _ =>
        ⟨(hr.sound h).coherent.pos_nonneg, hr.within hw⟩⟩
    · exact ⟨fun _ => hr.sound, fun hw hok => ⟨hr.sound.coherent.pos_nonneg, hr.within hw hok⟩⟩
  | backslashEffectResult tokenStart originalToken insertedText =>
    refine (insertStep_safe h tokenStart originalToken insertedText).mono
      fun r ⟨_, hs, _, _, _, hw⟩ => ?_
    exact ⟨fun _ => hs, fun hin hok => ⟨hs.coherent.pos_nonneg, hw hin hok⟩⟩
  | termResize width height =>
    exact (resizeStep_safe h width height).mono fun r ⟨hs, _⟩ =>
      ⟨fun _ => hs.sound h, fun hw _ => ⟨(hs.sound h).coherent.pos_nonneg, hs.within hw⟩⟩

/-! ## One update -/

theorem stepOk_unscrolled {msg : Msg} (h : StepOk m msg) :
    StepOk { m with layout.scrollAmount := 0 } msg := by
  cases msg with
  | key key => exact h
  | response response => exact h
  | backslashEffectResult tokenStart originalToken insertedText => exact h
  | termResize width height => trivial

/-- An update that returns is a step that has passed the last assertion. -/
theorem update_eq_ok {msg : Msg} {r : Model × List Effect} (hr : update msg m = .ok r) :
    step msg { m with layout.scrollAmount := 0 } = .ok r ∧ r.1.invariants = true := by
  unfold update at hr
  obtain ⟨_, _, hr⟩ := Outcome.bind_eq_ok.mp hr
  obtain ⟨r', hstep, hr⟩ := Outcome.bind_eq_ok.mp hr
  obtain ⟨_, hassert, hr⟩ := Outcome.bind_eq_ok.mp hr
  cases hr
  refine ⟨hstep, ?_⟩
  unfold Model.assertModelInvariants at hassert
  split at hassert
  · assumption
  · cases hassert

/-- Between two assertions that hold, an update is its step. -/
theorem update_of_step {msg : Msg} {r : Model × List Effect} (hinv : m.invariants = true)
    (hstep : step msg { m with layout.scrollAmount := 0 } = .ok r) (hinv' : r.1.invariants = true) :
    update msg m = .ok r := by
  unfold update Model.assertModelInvariants
  rw [if_pos hinv, hstep]
  dsimp only [Bind.bind, Except.bind]
  rw [if_pos hinv']
  rfl

theorem update_sound (h : m.Sound) {msg : Msg} {r : Model × List Effect}
    (hr : update msg m = .ok r) : r.1.Sound ∧ r.1.Within := by
  obtain ⟨hstep, hinv⟩ := update_eq_ok hr
  have hsound := ((step_safe ((unscrolled_sameText m).sound h) msg).of_eq_ok hstep).1
    (cursorPos_nonneg_of_invariants hinv)
  exact ⟨hsound, hsound.invariants_iff.mp hinv⟩

theorem update_asserts (h : m.Sound) (hw : m.Within) {msg : Msg} (hok : StepOk m msg) :
    update msg m ≠ .error .assertFailure := by
  have hsame := unscrolled_sameText m
  have hupdate : Safe (update msg m) fun _ => True := by
    unfold update
    rw [assertModelInvariants_eq h hw]
    refine (step_safe (hsame.sound h) msg).bind fun r ⟨hsound, hwithin⟩ => ?_
    obtain ⟨hpos, hin⟩ := hwithin (hsame.within hw) (stepOk_unscrolled hok)
    rw [assertModelInvariants_eq (hsound hpos) hin]
    trivial
  intro herr
  exact hupdate.of_eq_error herr rfl

/-! ## Runs -/

/-- One update that returns. -/
def Steps (m : Model) (msg : Msg) (m' : Model) : Prop := ∃ effects, update msg m = .ok (m', effects)

theorem initialModel_sound {history : History} (hkept : history.Kept) {row width height : Int}
    (h : initialModel history row width height = .ok m) : m.Sound ∧ m.Within := by
  unfold initialModel at h
  obtain ⟨cache, hcache, h⟩ := Outcome.bind_eq_ok.mp h
  cases h
  exact Model.Sound.blank rfl ((RLexCache.create_safe _).of_eq_ok hcache).1 rfl rfl hkept trivial

/-- A model from which updates have led here is sound, and its cursor within its line. -/
theorem reachable_sound {db : History.Db} {row width height : Int} {m₀ : Model} {msgs : List Msg}
    (h₀ : initialModel (History.init db) row width height = .ok m₀) (hrun : Run Steps m₀ msgs m) :
    m.Sound ∧ m.Within :=
  Run.invariant (I := fun m => m.Sound ∧ m.Within)
    (fun ⟨hs, _⟩ ⟨_, hstep⟩ => update_sound hs hstep)
    (initialModel_sound (History.kept_init db) h₀) hrun

/-- The model after an update, if it returns. -/
def next (m : Model) (msg : Msg) : Option Model :=
  match update msg m with
  | .ok r => some r.1
  | .error _ => none

theorem steps_of_next {m m' : Model} {msg : Msg} (h : next m msg = some m') : Steps m msg m' := by
  unfold next at h
  split at h
  · rename_i r hr
    cases h
    exact ⟨r.2, hr⟩
  · cases h

end

section

attribute [local instance] asciiUcd

end

end Update
end Raoui
