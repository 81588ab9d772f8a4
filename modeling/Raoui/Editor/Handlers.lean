import Raoui.Editor.Sound

/-!
# Raoui.Editor.Handlers

What a key does, in each mode.

* `KeyOk`: the condition under which a key keeps the cursor within its line.
* `Records`: what a key does to the history and to the flag that output is awaited, with the effects
  it asks for.
* `Handled`: the postcondition of every handler.
-/

namespace Raoui

open Outcome (Meets)
open Tty (Key)
open UnicodeString (WellFormed clusterCount)

/-- The effects that hand something to R or to the AI. -/
def Effect.isSubmission : Effect → Bool
  | .submit _ | .submitReadlineInput _ | .backgroundSubmit _ | .submitAiQuery _
  | .resetAiSession => true
  | .cancel | .requestCompletions _ _ | .runBackslashEffect _ | .enterPassthrough | .quit => false

namespace Model

inductive Records (m : Model) : Model × List Effect → Prop where
  | quiet {m' : Model} {effects : List Effect} (repl : m'.repl = m.repl)
      (history : m.input.history.SameRecords m'.input.history)
      (quiet : ∀ e ∈ effects, e.isSubmission = false) : Records m (m', effects)
  | submit {m' : Model} {mode code : Bytes} (awaiting : m'.repl.awaitingResponse = true)
      (history : m'.input.history = m.input.history.addToHistory mode m.input.lines) :
      Records m (m', [.submit code])
  | query {m' : Model} {query : Bytes} (awaiting : m'.repl.awaitingResponse = true)
      (history : m'.input.history = m.input.history.addToHistory (bytes "ai") m.input.lines) :
      Records m (m', [.submitAiQuery query])
  | reset {m' : Model} (awaiting : m'.repl.awaitingResponse = true)
      (history : m'.input.history = m.input.history) : Records m (m', [.resetAiSession])
  | readline {m' : Model} {text : Bytes}
      (awaiting : m'.repl.awaitingResponse = true ∨ m'.repl = m.repl)
      (history : m'.input.history = m.input.history) : Records m (m', [.submitReadlineInput text])
  | quit {m' : Model} (repl : m'.repl = m.repl)
      (history : m'.input.history = m.input.history.addToHistory (bytes "r") m.input.lines) :
      Records m (m', [.quit])

section
variable [Ucd]

/-- The assertions that follow a step see to the first bound, so it may be taken for granted. -/
structure Handled (m : Model) (cond : Prop) (r : Model × List Effect) : Prop where
  mode : r.1.input.mode.Sound
  lexed : m.Lexed → r.1.Lexed
  sound : 0 ≤ r.1.input.cursorPos → r.1.Sound
  within : m.Within → cond → 0 ≤ r.1.input.cursorPos ∧ r.1.Within
  records : m.Records r

theorem Handled.of_sound {m : Model} {cond : Prop} {r : Model × List Effect} (hs : r.1.Sound)
    (hl : m.Lexed → r.1.Lexed) (hw : m.Within → cond → r.1.Within) (hr : m.Records r) :
    m.Handled cond r :=
  ⟨hs.mode, hl, fun _ => hs, fun hwithin hcond => ⟨hs.coherent.pos_nonneg, hw hwithin hcond⟩, hr⟩

end

/-- The mode is one of the prompt, not a history search. -/
def Prompting (m : Model) : Prop := ∀ s, m.input.mode ≠ .historySearch s

section
variable {m : Model}

theorem Prompting.sameText {m' : Model} (hp : m.Prompting) (hs : m.SameText m') : m'.Prompting :=
  fun s => by
    rw [hs.mode]
    exact hp s

/-- A condition that does not look at the completion list holds on. -/
theorem leaveCompletion_of {P : Model → Prop} (hP : P m → P (m.setCompletion none)) (h : P m) :
    P m.leaveCompletion := by
  unfold leaveCompletion
  split
  · exact hP h
  · exact h

end

section
variable [Ucd] {m : Model}

theorem Edits.handled {cond : Prop} {m' : Model} (h : m.Sound) (hp : m.Prompting)
    (he : m.Edits cond m') : m.Handled cond (m', []) := by
  refine .of_sound ⟨he.coherent, ?_, ?_⟩ he.lexed (fun hw hcond => ?_)
    (.quiet he.frame.repl ?_ (List.forall_mem_nil _))
  · rw [he.frame.history]
    exact h.kept
  · rw [he.frame.mode]
    exact h.mode
  · refine (within_of_not_search fun s => ?_).mpr
      (he.inRange ((within_of_not_search hp).mp hw) hcond)
    rw [he.frame.mode]
    exact hp s
  · rw [he.frame.history]
    exact History.SameRecords.refl _

theorem handled_edits {x : Res Model} {cond : Prop} (h : m.Sound) (hp : m.Prompting)
    (hx : Safe x (m.Edits cond)) : Safe (withoutEffects x) (m.Handled cond) :=
  hx.bind fun _ he => he.handled h hp

theorem handled_same {m' : Model} {effects : List Effect} (h : m.Sound) (hs : m.SameText m')
    (heffects : ∀ e ∈ effects, e.isSubmission = false) {cond : Prop} :
    m.Handled cond (m', effects) :=
  .of_sound (hs.sound h) hs.lexed (fun hw _ => hs.within hw)
    (.quiet hs.repl (hs.history ▸ History.SameRecords.refl _) heffects)

theorem Handled.weaken {cond cond' : Prop} {r : Model × List Effect} (h : m.Handled cond r)
    (hc : cond' → cond) : m.Handled cond' r :=
  ⟨h.mode, h.lexed, h.sound, fun hw hcond => h.within hw (hc hcond), h.records⟩

theorem Handled.of_sameText {m₀ : Model} {cond : Prop} {r : Model × List Effect}
    (hs : m₀.SameText m) (h : m.Handled cond r) : m₀.Handled cond r := by
  refine ⟨h.mode, fun hl => h.lexed (hs.lexed hl), h.sound,
    fun hw hcond => h.within (hs.within hw) hcond, ?_⟩
  obtain ⟨-, -, -, -, hrec⟩ := h
  cases hrec with
  | quiet hrepl hhist heff => exact .quiet (hrepl.trans hs.repl) (hs.history ▸ hhist) heff
  | submit haw hhist => exact .submit haw (by rw [hhist, hs.history, hs.lines])
  | query haw hhist => exact .query haw (by rw [hhist, hs.history, hs.lines])
  | reset haw hhist => exact .reset haw (hhist.trans hs.history)
  | readline haw hhist =>
    exact .readline (haw.imp id fun hr => hr.trans hs.repl) (hhist.trans hs.history)
  | quit hrepl hhist => exact .quit (hrepl.trans hs.repl) (by rw [hhist, hs.history, hs.lines])

/-- A handler may go on to what leaves the text alone. -/
theorem Handled.then {cond : Prop} {m' m'' : Model} {effects : List Effect}
    (h : m.Handled cond (m', effects)) (hs : m'.SameText m'') : m.Handled cond (m'', effects) := by
  refine ⟨hs.mode ▸ h.mode, fun hl => hs.lexed (h.lexed hl), fun hpos => hs.sound (h.sound (hs.cursorPos ▸ hpos)),
    fun hw hcond => ?_, ?_⟩
  · obtain ⟨hpos, hin⟩ := h.within hw hcond
    exact ⟨hs.cursorPos ▸ hpos, hs.within hin⟩
  obtain ⟨-, -, -, -, hrec⟩ := h
  cases hrec with
  | quiet hrepl hhist heff => exact .quiet (hs.repl.trans hrepl) (hs.history ▸ hhist) heff
  | submit haw hhist => exact .submit (by rw [hs.repl, haw]) (hs.history.trans hhist)
  | query haw hhist => exact .query (by rw [hs.repl, haw]) (hs.history.trans hhist)
  | reset haw hhist => exact .reset (by rw [hs.repl, haw]) (hs.history.trans hhist)
  | readline haw hhist =>
    exact .readline (haw.imp (fun h => by rw [hs.repl, h]) hs.repl.trans) (hs.history.trans hhist)
  | quit hrepl hhist => exact .quit (hs.repl.trans hrepl) (hs.history.trans hhist)

/-- A handler that asked for nothing may go on to ask for what is no submission. -/
theorem Handled.followed {cond : Prop} {m' m'' : Model} {effects : List Effect}
    (h : m.Handled cond (m', [])) (hs : m'.SameText m'')
    (heffects : ∀ e ∈ effects, e.isSubmission = false) : m.Handled cond (m'', effects) := by
  have hthen := h.then hs
  refine ⟨hthen.mode, hthen.lexed, hthen.sound, hthen.within, ?_⟩
  obtain ⟨-, -, -, -, hrec⟩ := hthen
  cases hrec with
  | quiet hrepl hhist _ => exact .quiet hrepl hhist heffects

theorem handled_recall (h : m.Sound) (amount : Int)
    (hmode : m.input.mode = .normal ∨ m.input.mode = .shell ∨ m.input.mode = .ai) {cond : Prop} :
    Safe (withoutEffects (m.shiftHistory amount)) (m.Handled cond) :=
  (h.shiftHistory amount hmode).bind fun _ ⟨hs, hw, hrepl, hhist, hl⟩ =>
    .of_sound hs hl (fun hwithin _ => hw hwithin) (.quiet hrepl hhist (List.forall_mem_nil _))

theorem handled_blank (h : m.Sound) {cond : Prop} :
    Safe (withoutEffects m.setModeNormalBlank) (m.Handled cond) :=
  (blankInput_safe h.kept (show Mode.Sound .normal from trivial)).bind fun _ ⟨hs, hw, hrepl, hhist, _, hl⟩ =>
    .of_sound hs (fun _ => hl) (fun _ _ => hw)
      (.quiet hrepl (hhist ▸ History.SameRecords.refl _) (List.forall_mem_nil _))

theorem handled_search (h : m.Sound) {cond : Prop} :
    Safe (withoutEffects (HistorySearch.enter m)) (m.Handled cond) := by
  refine Meets.via (fun m' => m'.Sound ∧ m'.Within ∧ m'.repl = m.repl ∧
    m'.input.history = m.input.history ∧ m'.Lexed) ?_ fun m' ⟨hs, hw, hrepl, hhist, hl⟩ =>
      .of_sound hs (fun _ => hl) (fun _ _ => hw)
      (.quiet hrepl (hhist ▸ History.SameRecords.refl _) (List.forall_mem_nil _))
  refine (RLexCache.create_safe _).bind fun cache ⟨hcache, hlexed⟩ => ?_
  obtain ⟨hs, hw⟩ := Sound.blank (m := { m with
    input.mode := .historySearch (HistorySearch.freshState m.input.history .empty),
    input.lines := [.empty], input.lexCache := cache, input.cursorPos := 0, input.cursorLine := 0,
    input.completion := none }) rfl hcache rfl rfl h.kept
    ⟨UnicodeString.wellFormed_empty, Int.le_refl 0, fun hne => by
      have := List.length_pos_iff.mpr hne
      exact Int.ofNat_lt.mpr this⟩
  exact ⟨hs, hw, rfl, rfl, lexed_of_create hlexed⟩

end

end Model

namespace Backslash

theorem consumeName_safe (line : UnicodeString) (n : Nat) :
    Safe (consumeName line n) fun _ => True := by
  induction n with
  | zero => trivial
  | succ n ih =>
    refine (UnicodeString.clusterAt_safe _ _).bind fun _ _ => ?_
    split
    · exact ih
    · trivial

theorem scanBackslashToken_safe (line : UnicodeString) (pos : Int) :
    Safe (scanBackslashToken line pos) fun _ => True := by
  have hboundary : ∀ idx : Int, Safe (if idx = 0 then .ok true
      else (line.clusterAt (idx - 1)).map isTokenBoundary : Res Bool) fun _ => True := by
    intro idx
    split
    · trivial
    · have := UnicodeString.clusterAt_safe line (idx - 1)
      cases hc : line.clusterAt (idx - 1) with
      | ok s => trivial
      | error e => rw [hc] at this; exact this
  unfold scanBackslashToken
  split
  · trivial
  · refine (consumeName_safe _ _).bind fun idx _ => ?_
    split
    · trivial
    · refine (UnicodeString.clusterAt_safe _ _).bind fun _ _ => ?_
      split
      · trivial
      · refine (hboundary idx).bind fun _ _ => ?_
        split
        · trivial
        · show Safe (if _ then _ else _) _
          split <;> trivial

theorem tokenInLine_safe (line : UnicodeString) (pos : Int) :
    Safe (tokenInLine line pos) fun _ => True :=
  (scanBackslashToken_safe line pos).bind fun _ _ => trivial

theorem exactCommandBeforeCursor_safe (registry : List Command) (line : UnicodeString) (pos : Int) :
    Safe (exactCommandBeforeCursor registry line pos) fun _ => True :=
  (scanBackslashToken_safe line pos).bind fun _ _ => trivial

end Backslash

namespace Model

variable {m : Model}

theorem fallbackExactCommand_safe (m : Model) : Safe m.fallbackExactCommand fun _ => True :=
  (nth_safe _ _).bind fun _ _ =>
    (Backslash.exactCommandBeforeCursor_safe _ _ _).bind fun _ _ => trivial

theorem chosenCommand_safe (m : Model) : Safe m.chosenCommand fun _ => True := by
  unfold chosenCommand
  split
  · exact fallbackExactCommand_safe m
  · rename_i cs _
    have hexact : Safe (m.exactMatchItem cs) fun _ => True := by
      refine (nth_safe _ _).bind fun line _ => ?_
      split <;> trivial
    cases cs.currentCompletion with
    | none =>
      refine hexact.bind fun item _ => ?_
      dsimp only
      split
      · split
        · trivial
        · exact fallbackExactCommand_safe m
      · exact fallbackExactCommand_safe m
    | some item =>
      dsimp only [Bind.bind, Except.bind, pure, Except.pure]
      split
      · trivial
      · exact fallbackExactCommand_safe m

theorem tokenStart_cycleNext (cs : Completion) : cs.cycleNext.tokenStart = cs.tokenStart := by
  unfold Completion.cycleNext
  split <;> rfl

theorem currentCompletion_saveOriginal (cs : Completion) (token : Bytes) :
    (cs.saveOriginalToken token).cycleNext.currentCompletion = cs.cycleNext.currentCompletion ∧
      (cs.saveOriginalToken token).cycleNext.tokenStart = cs.tokenStart := by
  by_cases hnil : cs.filtered.length = 0
  · simp only [Completion.cycleNext, Completion.saveOriginalToken, hnil, if_true]
    exact ⟨rfl, trivial⟩
  · simp only [Completion.cycleNext, Completion.saveOriginalToken, hnil, if_false]
    exact ⟨rfl, trivial⟩

theorem withOriginal_safe (m : Model) (cs : Completion) : Safe (m.withOriginal cs) fun cs' =>
    cs'.cycleNext.currentCompletion = cs.cycleNext.currentCompletion ∧
      cs'.cycleNext.tokenStart = cs.tokenStart := by
  unfold withOriginal
  split
  · exact ⟨rfl, tokenStart_cycleNext cs⟩
  · exact (nth_safe _ _).bind fun line _ => currentCompletion_saveOriginal cs _

theorem action_safe (lines : List UnicodeString) (line pos : Int) (cache : RLexCache.Cache) :
    Safe (REnter.action lines line pos cache) fun _ => True := by
  refine (nth_safe _ _).bind fun l _ => ?_
  have htokens : Safe (LexerCache.getLineTokens cache line) fun _ => True := by
    unfold LexerCache.getLineTokens LexerCache.getEntry
    split
    · exact nofun
    · trivial
  show Safe (if _ then _ else _) _
  split
  · trivial
  · refine htokens.bind fun tokens _ => ?_
    split
    · show Safe (if _ then _ else _) _
      split
      · trivial
      · split <;> trivial
    · trivial

section
variable [Ucd]

/-- A handler that edits and asks for nothing. -/
theorem withoutEffects_edits {x : Res Model} {cond : Prop} (hx : Safe x (m.Edits cond)) :
    Safe (withoutEffects x) fun r => m.Edits cond r.1 ∧ r.2 = [] :=
  hx.bind fun _ he => ⟨he, rfl⟩

theorem handled_of_edits {x : Res (Model × List Effect)} {cond : Prop} (h : m.Sound)
    (hp : m.Prompting) (hx : Safe x fun r => m.Edits cond r.1 ∧ r.2 = []) :
    Safe x (m.Handled cond) :=
  hx.mono fun (m', effects) ⟨he, heffects⟩ => by
    cases heffects
    exact he.handled h hp

theorem Coherent.otherKey (h : m.Coherent) (name : String) {cond : Prop} :
    Safe (NormalMode.otherKey name m) fun r => m.Edits cond r.1 ∧ r.2 = [] := by
  have hmove : ∀ {x : Res Model}, Safe x (m.Edits True) →
      Safe (withoutEffects x) fun r => m.Edits cond r.1 ∧ r.2 = [] := fun hx =>
    withoutEffects_edits (hx.mono fun _ he => he.weaken fun _ _ => trivial)
  unfold NormalMode.otherKey
  split
  · exact hmove h.goToNextWord
  · exact hmove h.goToLastWord
  · exact ⟨(Edits.refl h).weaken fun _ _ => trivial, rfl⟩

theorem Sound.switchMode (h : m.Sound) (hp : m.Prompting) {mode : Mode}
    (hmode : mode = .shell ∨ mode = .ai) {cond : Prop} :
    m.Handled cond ({ m with input.mode := mode }, []) := by
  have hc := h.coherent
  have hnot : ∀ s, mode ≠ .historySearch s := by
    obtain rfl | rfl := hmode
    · exact fun _ => Mode.noConfusion
    · exact fun _ => Mode.noConfusion
  refine .of_sound ⟨⟨hc.wellFormed, hc.line_nonneg, hc.line_lt, hc.pos_nonneg, hc.cached⟩, h.kept,
    sound_of_not_search hnot⟩ (fun hl => ?_) (fun hw _ => ?_)
    (.quiet rfl (History.SameRecords.refl _) (List.forall_mem_nil _))
  · obtain rfl | rfl := hmode
    · exact trivial
    · exact trivial
  · exact (within_of_not_search hnot).mpr ((within_of_not_search hp).mp hw)

/-- The backslash command Enter would replace, if there is one. -/
def AcceptsOk (m : Model) : Prop :=
  ∀ tokenStart label name text,
    m.chosenCommand = .ok (some (tokenStart, label, .simple name text)) →
      m.Replaces tokenStart m.input.cursorPos text

theorem Sound.acceptBackslashCompletion (h : m.Sound) (hp : m.Prompting) :
    Safe m.acceptBackslashCompletion fun r =>
      ∀ r', r = some r' → m.Handled m.AcceptsOk r' := by
  refine (chosenCommand_safe m).bind_eq fun chosen hchosen _ => ?_
  split
  · intro r' hr'
    cases hr'
  · rename_i tokenStart label command
    refine Meets.via (m.Handled m.AcceptsOk) ?_ fun r hr r' hr' => by cases hr'; exact hr
    have hset := setCompletion_sameText m none
    unfold applyCommand
    cases command with
    | simple name text =>
      refine (h.coherent.replaceRange tokenStart m.input.cursorPos text).bind fun m' ⟨he, _⟩ => ?_
      have he' : m.Edits m.AcceptsOk m' :=
        he.weaken fun _ hok => hok tokenStart label name text hchosen
      exact (he'.handled h hp).then (setCompletion_sameText m' none)
    | effectful name action =>
      cases action with
      | pickFile =>
        exact handled_same h hset fun e he => by
          rw [List.mem_singleton.mp he]
          rfl
      | pickFileFzf =>
        exact handled_same h hset fun e he => by
          rw [List.mem_singleton.mp he]
          rfl

/-- The completion Tab would insert, if there is one. -/
def TabOk (m : Model) : Prop :=
  ∀ cs item, m.input.completion = some cs → cs.cycleNext.currentCompletion = some item →
    m.Replaces cs.tokenStart m.input.cursorPos item.label

theorem Sound.handleTab (h : m.Sound) (hp : m.Prompting) :
    Safe (withoutEffects m.handleTab) (m.Handled m.TabOk) := by
  refine Meets.via (fun m' => m.Handled m.TabOk (m', [])) ?_ fun _ hm' => hm'
  have hsame : m.Handled m.TabOk (m, []) :=
    handled_same h (SameText.refl m) (List.forall_mem_nil _)
  unfold Model.handleTab
  split
  · exact hsame
  · rename_i cs hcs
    split
    · exact hsame
    · refine (withOriginal_safe m cs).bind fun cs' ⟨hcurrent, hstart⟩ => ?_
      dsimp only
      split
      · exact hsame
      · rename_i item hitem
        refine (h.coherent.replaceRange _ _ _).bind fun m' ⟨he, _⟩ => ?_
        have he' : m.Edits m.TabOk m' := he.weaken fun _ hok => by
          rw [hstart]
          exact hok cs item hcs (hcurrent ▸ hitem)
        exact (he'.handled h hp).then (setCompletion_sameText m' _)

/-- The text Escape would put back, if the completions are being cycled through. -/
def EscapeOk (m : Model) : Prop :=
  ∀ cs, m.input.completion = some cs → cs.isInCompletionMode = true →
    m.Replaces cs.tokenStart m.input.cursorPos cs.originalToken

theorem Sound.escape (h : m.Sound) (hp : m.Prompting) :
    Safe (NormalMode.escape m) (m.Handled m.EscapeOk) := by
  unfold NormalMode.escape
  split
  · rename_i cs hcs
    split
    · rename_i hcycling
      refine (h.coherent.replaceRange _ _ _).bind fun m' ⟨he, _⟩ => ?_
      have he' : m.Edits m.EscapeOk m' := he.weaken fun _ hok => hok cs hcs hcycling
      exact (he'.handled h hp).then (setCompletion_sameText m' none)
    · exact handled_same h (setCompletion_sameText m none) (List.forall_mem_nil _)
  · exact handled_same h (SameText.refl m) (List.forall_mem_nil _)

theorem Coherent.insertSpaces (h : m.Coherent) (n : Nat) :
    Safe (NormalMode.insertSpaces n m) (m.Edits True) := by
  induction n generalizing m with
  | zero => exact Edits.refl h
  | succ n ih =>
    refine (h.insertAscii (s := bytes " ") (by decide)).bind fun m₁ h₁ => ?_
    exact (ih h₁.coherent).mono fun m₂ h₂ => h₁.trans h₂ fun _ _ => ⟨trivial, fun _ => trivial⟩

theorem Coherent.expandBraces (h : m.Coherent) (inner outer : Int) :
    Safe (NormalMode.expandBraces inner outer m) (m.Edits True) := by
  have hthen : ∀ {m₁ m₂ m₃ : Model}, m₁.Edits True m₂ → m₂.Edits True m₃ → m₁.Edits True m₃ :=
    fun h₁ h₂ => h₁.trans h₂ fun _ _ => ⟨trivial, fun _ => trivial⟩
  refine h.insertNewline.bind fun m₁ h₁ => ?_
  refine (h₁.coherent.insertSpaces _).bind fun m₂ h₂ => ?_
  refine h₂.coherent.insertNewline.bind fun m₃ h₃ => ?_
  refine (h₃.coherent.insertSpaces _).bind fun m₄ h₄ => ?_
  refine h₄.coherent.moveUp.bind fun m₅ h₅ => ?_
  refine h₅.coherent.goToLineEnd.mono fun m₆ h₆ => ?_
  exact hthen h₁ (hthen h₂ (hthen h₃ (hthen h₄ (hthen h₅ h₆))))

theorem Sound.submitNormalText (h : m.Sound) {cond : Prop} :
    Safe (NormalMode.submitNormalText m) (m.Handled cond) := by
  have hkept := h.kept.addToHistory (bytes "r") m.input.lines
  unfold NormalMode.submitNormalText
  dsimp only
  split
  · exact .of_sound ⟨⟨h.coherent.wellFormed, h.coherent.line_nonneg, h.coherent.line_lt,
      h.coherent.pos_nonneg, h.coherent.cached⟩, hkept, h.mode⟩ id (fun hw _ => hw) (.quit rfl rfl)
  · exact Meets.bind (clearModelForSubmit_safe hkept h.mode)
      fun m' ⟨hs, hw, hawait, _, hhist, _, hl⟩ =>
        .of_sound hs (fun _ => hl) (fun _ _ => hw) (.submit hawait hhist)

theorem Sound.submitNormal (h : m.Sound) (hp : m.Prompting) {cond : Prop} :
    Safe (NormalMode.submit m) (m.Handled cond) := by
  refine (action_safe _ _ _ _).bind fun action _ => ?_
  split
  · exact h.submitNormalText
  · refine handled_edits h hp (Meets.bind h.coherent.insertNewline fun m₁ h₁ => ?_)
    exact (h₁.coherent.insertSpaces _).mono fun m₂ h₂ =>
      h₁.trans h₂ fun _ _ => ⟨trivial, fun _ => trivial⟩
  · exact handled_edits h hp ((h.coherent.expandBraces _ _).mono fun _ he =>
      he.weaken fun _ _ => trivial)

/-- The condition for a key in Normal mode. -/
def NormalOk (key : Key) (m : Model) : Prop :=
  match key with
  | .ctrl c =>
    match c with
    | 'd' => m.DeletesAfter
    | 'u' => m.input.cursorPos = 0 → m.Deletes
    | _ => True
  | .char c => m.line.Takes m.input.cursorPos c
  | .backspace => m.DeletesBack
  | .paste text => m.Pastes text
  | .tab => m.TabOk
  | .escape => m.EscapeOk
  | .enter => m.AcceptsOk
  | _ => True

theorem NormalOk.leaveCompletion {key : Key} (h : NormalOk key m)
    (hkey : key ≠ .tab ∧ key ≠ .escape ∧ key ≠ .enter) : NormalOk key m.leaveCompletion := by
  refine leaveCompletion_of (P := NormalOk key) (fun h => ?_) h
  cases key with
  | tab => exact absurd rfl hkey.1
  | escape => exact absurd rfl hkey.2.1
  | enter => exact absurd rfl hkey.2.2
  | _ => exact h

theorem Sound.ctrlKey (h : m.Sound) (hmode : m.input.mode = .normal) (hp : m.Prompting) (c : Char) :
    Safe (NormalMode.ctrlKey c m) (m.Handled (NormalOk (.ctrl c) m)) := by
  have hc := h.coherent
  have hquiet : ∀ {cond : Prop} {effects : List Effect},
      (∀ e ∈ effects, e.isSubmission = false) → m.Handled cond (m, effects) :=
    fun he => handled_same h (SameText.refl m) he
  have hnone := List.forall_mem_nil fun e : Effect => e.isSubmission = false
  have hone : ∀ {e : Effect}, e.isSubmission = false → ∀ e' ∈ [e], e'.isSubmission = false :=
    fun he e' he' => by rw [List.mem_singleton.mp he']; exact he
  unfold NormalMode.ctrlKey
  split
  · split
    · exact hquiet (hone rfl)
    · exact hquiet hnone
  · split
    · exact hquiet hnone
    · exact handled_recall h 1 (.inl hmode)
  · split
    · exact hquiet (hone rfl)
    · exact handled_edits h hp hc.deleteCharAfterCursor
  · exact handled_edits h hp hc.deleteBeforeCursor
  · exact handled_edits h hp (hc.insertNewline.mono fun _ he => he.weaken fun _ _ => trivial)
  · exact handled_search h
  · exact (hc.goToLineStart.handled h hp).weaken fun _ => trivial
  · exact handled_edits h hp (hc.goToLineEnd.mono fun _ he => he.weaken fun _ _ => trivial)
  · exact hquiet hnone

theorem Sound.textKey (h : m.Sound) (hmode : m.input.mode = .normal) (key : Key) :
    Safe (NormalMode.textKey key m) (m.Handled (NormalOk key m)) := by
  have hp : m.Prompting := fun s => by
    rw [hmode]
    exact nofun
  have hc := h.coherent
  have hmove : ∀ {x : Res Model} {cond : Prop}, Safe x (m.Edits True) →
      Safe (withoutEffects x) (m.Handled cond) := fun hx =>
    handled_edits h hp (hx.mono fun _ he => he.weaken fun _ _ => trivial)
  have hquiet : ∀ {cond : Prop}, m.Handled cond (m, []) := fun {cond} =>
    handled_same h (SameText.refl m) (List.forall_mem_nil _)
  unfold NormalMode.textKey
  cases key with
  | ctrl c => exact h.ctrlKey hmode hp c
  | other name => exact handled_of_edits h hp (hc.otherKey name)
  | char c =>
    dsimp only
    split
    · exact h.switchMode hp (.inl rfl)
    · split
      · exact h.switchMode hp (.inr rfl)
      · exact handled_edits h hp (hc.userInputChar c)
  | backspace => exact handled_edits h hp hc.userInputDelete
  | paste text => exact handled_edits h hp (hc.insertPaste text)
  | left => exact hmove hc.moveLeft
  | right => exact hmove hc.moveRight
  | up =>
    dsimp only
    split
    · exact handled_recall h 1 (.inl hmode)
    · exact hmove hc.moveUp
  | down =>
    dsimp only
    split
    · exact handled_recall h (-1) (.inl hmode)
    · exact hmove hc.moveDown
  | _ => exact hquiet

theorem Sound.normalKey (h : m.Sound) (hmode : m.input.mode = .normal) (key : Key) :
    Safe (NormalMode.applyKey key m) (m.Handled (NormalOk key m)) := by
  have hp : m.Prompting := fun s => by
    rw [hmode]
    exact nofun
  have hsame := leaveCompletion_sameText m
  have hmode₁ : m.leaveCompletion.input.mode = .normal := hsame.mode.trans hmode
  unfold NormalMode.applyKey
  split
  · exact h.handleTab hp
  · exact h.escape hp
  · refine (h.acceptBackslashCompletion hp).bind fun r hr => ?_
    split
    · exact hr _ rfl
    · exact h.submitNormal hp
  · rename_i htab hescape henter
    exact ((hsame.sound h).textKey hmode₁ key).mono fun r hr =>
      (hr.of_sameText hsame).weaken fun hok =>
        hok.leaveCompletion ⟨htab, hescape, henter⟩

/-- The condition for a key in Shell, Ai or Readline mode. -/
def PlainOk (key : Key) (m : Model) : Prop :=
  match key with
  | .ctrl c =>
    match c with
    | 'd' => m.DeletesAfter
    | 'u' => m.input.cursorPos = 0 → m.Deletes
    | _ => True
  | .char c => m.line.Takes m.input.cursorPos c
  | .backspace => m.Deletes
  | .paste text => m.Pastes text
  | _ => True

theorem PlainOk.leaveCompletion {key : Key} (h : PlainOk key m) : PlainOk key m.leaveCompletion := by
  refine leaveCompletion_of (P := PlainOk key) (fun h => ?_) h
  cases key with
  | _ => exact h

theorem Coherent.editKey (h : m.Coherent) (key : Key) :
    Safe (ShellMode.editKey key m) fun r => m.Edits (PlainOk key m) r.1 ∧ r.2 = [] := by
  have hquiet : ∀ {cond : Prop}, m.Edits cond m := (Edits.refl h).weaken fun _ _ => trivial
  have hmove : ∀ {x : Res Model} {cond : Prop}, Safe x (m.Edits True) →
      Safe (withoutEffects x) fun r => m.Edits cond r.1 ∧ r.2 = [] := fun hx =>
    withoutEffects_edits (hx.mono fun _ he => he.weaken fun _ _ => trivial)
  unfold ShellMode.editKey
  cases key with
  | ctrl c =>
    dsimp only
    split
    · exact withoutEffects_edits h.deleteBeforeCursor
    · exact ⟨h.goToLineStart.weaken fun _ _ => trivial, rfl⟩
    · exact hmove h.goToLineEnd
    · exact ⟨hquiet, rfl⟩
  | other name => exact h.otherKey _
  | char c => exact withoutEffects_edits (h.insertChar _)
  | backspace => exact withoutEffects_edits (h.deleteChar.mono fun _ he => he.1)
  | left => exact hmove h.moveLeft
  | right => exact hmove h.moveRight
  | paste text => exact withoutEffects_edits (h.insertPaste _)
  | _ => exact ⟨hquiet, rfl⟩

theorem Sound.deleteKey (h : m.Sound) (hp : m.Prompting) (key : Key) :
    Safe (ShellMode.deleteKey key m) (m.Handled (PlainOk key m)) := by
  unfold ShellMode.deleteKey
  split
  · split
    · exact handled_blank h
    · exact handled_edits h hp h.coherent.deleteCharAfterCursor
  · split
    · exact handled_blank h
    · exact handled_of_edits h hp (h.coherent.editKey .backspace)
  · exact handled_of_edits h hp (h.coherent.editKey _)

/-- What the three submissions from a prompt of one line have in common. -/
theorem Sound.clearedForSubmit (h : m.Sound) :
    Safe { m with input.mode := .normal }.clearModelForSubmit fun m' => m'.Sound ∧ m'.Within ∧
      m'.repl.awaitingResponse = true ∧ m'.input.history = m.input.history ∧ m'.Lexed := by
  refine Meets.mono (clearModelForSubmit_safe (m := { m with input.mode := .normal }) h.kept trivial)
    fun m' ⟨hs, hw, hawait, _, hhist, _, hl⟩ => ⟨hs, hw, hawait, hhist, hl⟩

theorem Sound.shellKey (h : m.Sound) (hmode : m.input.mode = .shell) (key : Key) :
    Safe (ShellMode.applyKey key m) (m.Handled (PlainOk key m)) := by
  have hp : m.Prompting := fun s => by
    rw [hmode]
    exact nofun
  have hsame := leaveCompletion_sameText m
  have hrecall : ∀ amount cond, Safe (withoutEffects (m.shiftHistory amount)) (m.Handled cond) :=
    fun amount _ => handled_recall h amount (.inr (.inl hmode))
  unfold ShellMode.applyKey
  split
  · exact handled_blank h
  · exact hrecall 1 _
  · exact hrecall 1 _
  · exact hrecall (-1) _
  · exact handled_search h
  · refine h.coherent.currentLine_safe.bind fun line _ => ?_
    have hkept := h.kept.addToHistory (bytes "shell") m.input.lines
    refine Meets.bind (clearModelForSubmit_safe (m := { m with
      input.history := m.input.history.addToHistory (bytes "shell") m.input.lines,
      input.mode := .normal }) hkept trivial) fun m' ⟨hs, hw, hawait, _, hhist, _, hl⟩ => ?_
    exact .of_sound hs (fun _ => hl) (fun _ _ => hw) (.submit hawait hhist)
  · exact h.deleteKey hp .tab
  · exact h.deleteKey hp .escape
  · exact ((hsame.sound h).deleteKey (hp.sameText hsame) key).mono fun r hr =>
      (hr.of_sameText hsame).weaken fun hok => hok.leaveCompletion

theorem Sound.aiKey (h : m.Sound) (hmode : m.input.mode = .ai) (key : Key) :
    Safe (AiMode.applyKey key m) (m.Handled (PlainOk key m)) := by
  have hp : m.Prompting := fun s => by
    rw [hmode]
    exact nofun
  have hrecall : ∀ amount cond, Safe (withoutEffects (m.shiftHistory amount)) (m.Handled cond) :=
    fun amount _ => handled_recall h amount (.inr (.inr hmode))
  unfold AiMode.applyKey
  split
  · exact handled_blank h
  · exact hrecall 1 _
  · exact hrecall 1 _
  · exact hrecall (-1) _
  · exact handled_search h
  · refine h.coherent.currentLine_safe.bind fun line _ => ?_
    refine Meets.bind h.clearedForSubmit fun m' ⟨hs, hw, hawait, hhist, hl⟩ => ?_
    split
    · exact .of_sound hs (fun _ => hl) (fun _ _ => hw) (.reset hawait hhist)
    · have hc := hs.coherent
      exact .of_sound ⟨⟨hc.wellFormed, hc.line_nonneg, hc.line_lt, hc.pos_nonneg, hc.cached⟩,
        h.kept.addToHistory _ _, hs.mode⟩ (fun _ => hl) (fun _ _ => hw) (.query hawait rfl)
  · exact h.deleteKey hp _

theorem Sound.readlineInputKey (h : m.Sound) (hp : m.Prompting) (key : Key) :
    Safe (ReadlineMode.inputKey key m) (m.Handled (PlainOk key m)) := by
  unfold ReadlineMode.inputKey
  split
  · split
    · exact handled_same h (SameText.refl m) fun e he => by
        rw [List.mem_singleton.mp he]
        rfl
    · exact handled_edits h hp h.coherent.deleteCharAfterCursor
  · exact handled_of_edits h hp (h.coherent.editKey _)

theorem Sound.readlineKey (h : m.Sound) {text : Bytes} (hmode : m.input.mode = .readline text)
    (key : Key) : Safe (ReadlineMode.applyKey key m) (m.Handled (PlainOk key m)) := by
  have hp : m.Prompting := fun s => by
    rw [hmode]
    exact nofun
  have hsame := leaveCompletion_sameText m
  have hquiet : ∀ {cond : Prop}, m.Handled cond (m, []) := fun {cond} =>
    handled_same h (SameText.refl m) (List.forall_mem_nil _)
  unfold ReadlineMode.applyKey
  split
  · exact Meets.bind (blankInput_safe h.kept (show Mode.Sound .normal from trivial))
      fun m' ⟨hs, hw, hrepl, hhist, _, hl⟩ =>
        .of_sound hs (fun _ => hl) (fun _ _ => hw) (.readline (.inr hrepl) hhist)
  · exact hquiet
  · exact hquiet
  · exact hquiet
  · refine h.coherent.currentLine_safe.bind fun line _ => ?_
    exact Meets.bind h.clearedForSubmit fun m' ⟨hs, hw, hawait, hhist, hl⟩ =>
      .of_sound hs (fun _ => hl) (fun _ _ => hw) (.readline (.inl hawait) hhist)
  · exact h.readlineInputKey hp .tab
  · exact h.readlineInputKey hp .escape
  · exact ((hsame.sound h).readlineInputKey (hp.sameText hsame) key).mono fun r hr =>
      (hr.of_sameText hsame).weaken fun hok => hok.leaveCompletion

end

end Model
end Raoui
