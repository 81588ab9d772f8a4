import Raoui.Editor.Invariant
import Raoui.Editor.Transcript
import Raoui.Lib.Transition

/-!
# Raoui.Editor.OutputPosition

The place where output goes on, and the scroll a step asks for. Only clearing the prompt for a
submission sets `repl_cursor` in `update`; the scroll is also asked for when the box outgrows the
screen. So a step that does not submit moves the screen away from under `repl_cursor` exactly when
its box overflows.

* `handleVerticalCursorMovement_spec`: when the box is fitted to the screen.
* `applyKey_still`: a key that submits nothing leaves scroll and output position.
* `output_follows_iff`: one message, for any model.
-/

namespace Raoui

open Outcome (bind_eq_ok)
open Tty (Key)

/-- Whether the effect hands over what was typed in the prompt. -/
def Effect.submitsPrompt : Effect → Bool
  | .submit _ | .submitReadlineInput _ | .submitAiQuery _ | .resetAiSession => true
  | .backgroundSubmit _ | .cancel | .requestCompletions _ _ | .runBackslashEffect _
  | .enterPassthrough | .quit => false

namespace Model

/-- Neither the scroll nor the place where output goes on differs. -/
def SameScreen (m m' : Model) : Prop :=
  m'.layout.scrollAmount = m.layout.scrollAmount ∧ m'.repl.replCursor = m.repl.replCursor

theorem SameScreen.of_backdrop {m m' : Model} (h : m'.backdrop = m.backdrop) : m.SameScreen m' :=
  ⟨congrArg Backdrop.scrollAmount h, congrArg Backdrop.replCursor h⟩

/-- A result that submits nothing leaves scroll and output position. -/
def StillBut (m : Model) (x : Res (Model × List Effect)) : Prop :=
  ∀ r, x = .ok r → (∀ e ∈ r.2, e.submitsPrompt = false) → m.SameScreen r.1

theorem IgnoresWithEffects.stillBut {f : Model → Res (Model × List Effect)}
    (h : IgnoresWithEffects f) (m : Model) : m.StillBut (f m) :=
  fun _ hr _ => .of_backdrop (h.still hr)

theorem StillBut.same {m : Model} {effects : List Effect} : m.StillBut (pure (m, effects)) := by
  intro r hr _
  cases hr
  exact ⟨rfl, rfl⟩

theorem StillBut.submits {m : Model} {x : Res Model} {e : Effect} (he : e.submitsPrompt = true) :
    m.StillBut (do return (← x, [e])) := by
  intro r hr hquiet
  obtain ⟨m', -, hr⟩ := bind_eq_ok.mp hr
  cases hr
  rw [hquiet e (List.mem_singleton_self e)] at he
  cases he

theorem StillBut.bind {α : Type} {m : Model} {x : Res α} {f : α → Res (Model × List Effect)}
    (h : ∀ a, x = .ok a → m.StillBut (f a)) : m.StillBut (x >>= f) := by
  intro r hr
  obtain ⟨a, ha, hr⟩ := bind_eq_ok.mp hr
  exact h a ha r hr

end Model

open Model

section
variable [Ucd]

/-! ## The keys -/

theorem NormalMode.submit_still (m : Model) : m.StillBut (NormalMode.submit m) := by
  refine .bind fun action _ => ?_
  cases action with
  | submit =>
    show m.StillBut (if _ then _ else _)
    split
    · intro r hr _
      cases hr
      exact ⟨rfl, rfl⟩
    · exact .submits rfl
  | insertNewline indent => exact (NormalMode.indentedNewline_ignores _).withoutEffects.stillBut m
  | expandBraces innerIndent outerIndent =>
    exact (NormalMode.expandBraces_ignores _ _).withoutEffects.stillBut m

theorem NormalMode.applyKey_still (key : Key) (m : Model) :
    m.StillBut (NormalMode.applyKey key m) := by
  unfold NormalMode.applyKey
  split
  · exact handleTab_ignores.withoutEffects.stillBut m
  · exact NormalMode.escape_ignores.stillBut m
  · refine .bind fun result hresult => ?_
    cases result with
    | none => exact NormalMode.submit_still m
    | some result =>
      intro r hr _
      cases hr
      exact .of_backdrop (acceptBackslashCompletion_still hresult)
  · exact (NormalMode.textKey_left_ignores _).stillBut m

theorem ShellMode.applyKey_still (key : Key) (m : Model) :
    m.StillBut (ShellMode.applyKey key m) := by
  unfold ShellMode.applyKey
  split
  · exact setModeNormalBlank_ignores.withoutEffects.stillBut m
  · exact (shiftHistory_ignores 1).withoutEffects.stillBut m
  · exact (shiftHistory_ignores 1).withoutEffects.stillBut m
  · exact (shiftHistory_ignores (-1)).withoutEffects.stillBut m
  · exact HistorySearch.enter_ignores.withoutEffects.stillBut m
  · exact .bind fun line _ => .submits rfl
  · exact (ShellMode.deleteKey_ignores _).stillBut m
  · exact (ShellMode.deleteKey_ignores _).stillBut m
  · exact (ShellMode.deleteKey_left_ignores _).stillBut m

theorem AiMode.submit_still (m : Model) : m.StillBut (AiMode.submit m) := by
  refine .bind fun line _ => .bind fun cleared _ => ?_
  split
  · exact .submits (x := pure cleared) rfl
  · exact .submits (x := pure _) rfl

theorem AiMode.applyKey_still (key : Key) (m : Model) : m.StillBut (AiMode.applyKey key m) := by
  unfold AiMode.applyKey
  split
  · exact setModeNormalBlank_ignores.withoutEffects.stillBut m
  · exact (shiftHistory_ignores 1).withoutEffects.stillBut m
  · exact (shiftHistory_ignores 1).withoutEffects.stillBut m
  · exact (shiftHistory_ignores (-1)).withoutEffects.stillBut m
  · exact HistorySearch.enter_ignores.withoutEffects.stillBut m
  · exact AiMode.submit_still m
  · exact (ShellMode.deleteKey_ignores _).stillBut m

theorem ReadlineMode.applyKey_still (key : Key) (m : Model) :
    m.StillBut (ReadlineMode.applyKey key m) := by
  unfold ReadlineMode.applyKey
  split
  · exact .submits rfl
  · exact .same
  · exact .same
  · exact .same
  · exact .bind fun line _ => .submits rfl
  · exact (ReadlineMode.inputKey_ignores _).stillBut m
  · exact (ReadlineMode.inputKey_ignores _).stillBut m
  · exact (ReadlineMode.inputKey_left_ignores _).stillBut m

namespace Update

/-- A key that submits nothing leaves scroll and output position. -/
theorem applyKey_still (key : Key) (m : Model) : m.StillBut (applyKey key m) := by
  unfold applyKey
  split
  · exact ReadlineMode.applyKey_still key m
  · exact ShellMode.applyKey_still key m
  · exact AiMode.applyKey_still key m
  · exact NormalMode.applyKey_still key m
  · exact (HistorySearch.applyKey_ignores key).stillBut m

end Update
end

namespace Update

/-! ## The box -/

/-- The rows of the input and of the dropdown or pager below it. -/
def boxRows (m : Model) : Res Int := do
  return (wrapLines m.effectiveWidth m.input.lines).length + (← dropdownRows m)

/-- A box of so many rows is taller than it was and reaches below the last row. -/
def Overflows (m : Model) (rows : Int) : Prop :=
  rows > m.layout.promptBoxHeight ∧ m.layout.promptTopRow + rows - 1 > m.layout.termHeight

/-- Fitting the box scrolls the screen up exactly when the box overflows. -/
theorem handleVerticalCursorMovement_spec {m m' : Model}
    (h : handleVerticalCursorMovement m = .ok m') :
    m'.repl = m.repl ∧ ∃ rows, boxRows m = .ok rows ∧
      (m'.layout.scrollAmount = m.layout.scrollAmount ↔ ¬ Overflows m rows) := by
  obtain ⟨rows, hrows, h⟩ := bind_eq_ok.mp h
  obtain ⟨row, -, h⟩ := bind_eq_ok.mp h
  cases h
  refine ⟨rfl, (wrapLines m.effectiveWidth m.input.lines).length + rows, ?_, ?_⟩
  · rw [boxRows, hrows]
    rfl
  · dsimp only
    unfold Overflows
    split
    · split
      · constructor
        · intro h
          omega
        · intro h
          omega
      · constructor
        · intro _
          omega
        · intro _
          omega
    · constructor
      · intro _
        omega
      · intro _
        omega

theorem handleResize_still (width height : Int) (m : Model) :
    m.SameScreen (handleResize width height m) := by
  unfold handleResize
  split
  · exact ⟨rfl, rfl⟩
  · exact ⟨rfl, rfl⟩

section
variable [Ucd]

/-- The completion list that has arrived, not yet narrowed to the token. -/
def withArrived (token : Bytes) (items : List Bytes) (m : Model) : Model :=
  m.setCompletion (some (Completion.create (m.input.cursorPos - token.length)
    (items.map Completion.backendItem)))

/-- The model whose box the message has fitted to the screen, if it has one fitted. -/
def boxed (msg : Msg) (m : Model) : Res (Option Model) :=
  match msg with
  | .key key => do
    let (n, _) ← applyKey key m
    return some (← n.filterCompletions)
  | .response (.completions token items) =>
    match m.input.mode with
    | .historySearch _ => return none
    | _ =>
      if m.inCompletionMode then return none
      else do return some (← (withArrived token items m).filterCompletions)
  | .termResize width height => return some (handleResize width height m)
  | .response _ | .backslashEffectResult .. => return none

/-- The box that the message leaves does not overflow. -/
def BoxFits (msg : Msg) (m : Model) : Prop :=
  ∀ n rows, boxed msg m = .ok (some n) → boxRows n = .ok rows → ¬ Overflows n rows

/-- What a step leaves of the scroll and the output position, with the box that was fitted. -/
structure Fitted (msg : Msg) (m m' : Model) : Prop where
  replCursor : m'.repl.replCursor = m.repl.replCursor
  scroll : m'.layout.scrollAmount = m.layout.scrollAmount ↔ BoxFits msg m

/-- Nothing is fitted and nothing scrolls. -/
theorem Fitted.none {msg : Msg} {m m' : Model} (hboxed : boxed msg m = .ok none)
    (h : m.SameScreen m') : Fitted msg m m' := by
  refine ⟨h.2, fun _ n rows hn => ?_, fun _ => h.1⟩
  rw [hboxed] at hn
  cases hn

theorem Fitted.some {msg : Msg} {m n n' m' : Model} (hboxed : boxed msg m = .ok (some n))
    (h : m.SameScreen n) (hfit : handleVerticalCursorMovement n = .ok n') (h' : n'.SameScreen m') :
    Fitted msg m m' := by
  obtain ⟨hrepl, rows, hrows, hscroll⟩ := handleVerticalCursorMovement_spec hfit
  refine ⟨?_, ?_⟩
  · rw [h'.2, hrepl, h.2]
  · rw [h'.1, ← h.1, hscroll]
    constructor
    · intro hnot n' rows' hn' hrows'
      rw [hboxed] at hn'
      cases hn'
      rw [hrows] at hrows'
      cases hrows'
      exact hnot
    · intro hfits
      exact hfits n rows hboxed hrows

/-! ## The messages -/

theorem keyStep_fitted {key : Key} {m : Model} {r : Model × List Effect}
    (h : keyStep key m = .ok r) (hquiet : ∀ e ∈ r.2, e.submitsPrompt = false) :
    Fitted (.key key) m r.1 := by
  obtain ⟨⟨m₁, effects⟩, hinput, h⟩ := bind_eq_ok.mp h
  obtain ⟨n, happly, hcorrect⟩ := handleKeyInput_eq_ok.mp hinput
  obtain ⟨n₁, hfilter, hcorrect⟩ := bind_eq_ok.mp hcorrect
  obtain ⟨n₂, hfit, hcorrect⟩ := bind_eq_ok.mp hcorrect
  cases hcorrect
  have hboxed : boxed (.key key) m = .ok (Option.some n₁) := by
    simp only [boxed, happly, bind, Except.bind, hfilter]
    rfl
  -- a key that asks for nothing may have its completion list looked up, which only reads the text
  have hafter : (∀ e ∈ effects, e.submitsPrompt = false) ∧ n₂.SameScreen r.1 := by
    cases effects with
    | nil =>
      have hstill := completionFollowup_ignores.still h
      exact ⟨List.forall_mem_nil _, .of_backdrop hstill⟩
    | cons effect effects =>
      cases h
      exact ⟨hquiet, rfl, rfl⟩
  have hstill := applyKey_still key m _ happly hafter.1
  have hkept := SameScreen.of_backdrop (filterCompletions_ignores.still hfilter)
  exact .some hboxed ⟨hkept.1.trans hstill.1, hkept.2.trans hstill.2⟩ hfit hafter.2

theorem completionsArrived_fitted {token : Bytes} {items : List Bytes} {m m' : Model}
    (h : completionsArrived token items m = .ok m') :
    Fitted (.response (.completions token items)) m m' := by
  by_cases hsearch : ∃ s, m.input.mode = .historySearch s
  · obtain ⟨s, hs⟩ := hsearch
    simp only [completionsArrived, hs] at h
    cases h
    exact .none (by simp only [boxed, hs]; rfl) ⟨rfl, rfl⟩
  · have hmode : ∀ s, m.input.mode ≠ .historySearch s := fun s hs => hsearch ⟨s, hs⟩
    have hstep : completionsArrived token items m =
        if m.inCompletionMode then pure m
        else (withArrived token items m).filterCompletions >>= handleVerticalCursorMovement := by
      unfold completionsArrived
      split
      · rename_i s hs
        exact absurd hs (hmode s)
      · rfl
    have hboxed : boxed (.response (.completions token items)) m =
        if m.inCompletionMode then pure Option.none
        else (withArrived token items m).filterCompletions >>= fun n => pure (Option.some n) := by
      unfold boxed
      dsimp only
      split
      · rename_i s hs
        exact absurd hs (hmode s)
      · rfl
    rw [hstep] at h
    by_cases hin : m.inCompletionMode = true
    · rw [if_pos hin] at h hboxed
      cases h
      exact .none hboxed ⟨rfl, rfl⟩
    · rw [if_neg hin] at h hboxed
      obtain ⟨n, hfilter, hfit⟩ := bind_eq_ok.mp h
      have hkept := SameScreen.of_backdrop (filterCompletions_ignores.still hfilter)
      rw [hfilter] at hboxed
      exact .some hboxed hkept hfit ⟨rfl, rfl⟩

theorem placeSuggestion_still {code : Bytes} {m m' : Model}
    (h : placeSuggestion code m = .ok m') : m.SameScreen m' := by
  obtain ⟨lexCache, -, h⟩ := bind_eq_ok.mp h
  have hmoved := SameScreen.of_backdrop (moveCursorToEnd_ignores.still h)
  exact ⟨hmoved.1, hmoved.2⟩

theorem processResponse_still {m m' : Model} (hscroll : m.layout.scrollAmount = 0)
    (h : processResponse m = .ok m') : m.SameScreen m' := by
  unfold processResponse at h
  split at h
  · cases h
  · dsimp only at h
    split at h
    · have hplaced := placeSuggestion_still h
      exact ⟨hplaced.1.trans hscroll.symm, hplaced.2⟩
    · cases h
      exact ⟨hscroll.symm, rfl⟩

theorem responseStep_fitted {response : Ffi.ResponseChunk} {m : Model} {r : Model × List Effect}
    (hscroll : m.layout.scrollAmount = 0) (h : responseStep response m = .ok r) :
    Fitted (.response response) m r.1 := by
  have hprocess : ∀ {m'}, processResponse { m with repl.backendResponse := some response } = .ok m' →
      m.SameScreen m' := by
    intro m' h
    exact processResponse_still (m := { m with repl.backendResponse := some response }) hscroll h
  cases response with
  | completions token items =>
    obtain ⟨m', harrived, h⟩ := bind_eq_ok.mp h
    cases h
    exact completionsArrived_fitted harrived
  | shutdown | passthrough | passthroughEnd =>
    cases h
    exact .none rfl ⟨rfl, rfl⟩
  | restarted s =>
    obtain ⟨m', hm', h⟩ := bind_eq_ok.mp h
    cases h
    exact .none rfl (hprocess hm')
  | _ =>
    obtain ⟨m', hm', h⟩ := bind_eq_ok.mp h
    cases h
    exact .none rfl (hprocess hm')

theorem backslashResult_still {tokenStart : Int} {originalToken : Bytes}
    {insertedText : Option Bytes} {m m' : Model}
    (h : backslashResult tokenStart originalToken insertedText m = .ok m') : m.SameScreen m' := by
  obtain ⟨count, -, h⟩ := bind_eq_ok.mp h
  cases insertedText with
  | none =>
    cases h
    exact ⟨rfl, rfl⟩
  | some text =>
    obtain ⟨m₁, hreplace, h⟩ := bind_eq_ok.mp h
    cases h
    have hreplaced := SameScreen.of_backdrop ((replaceRange_ignores _ _ _).still hreplace)
    exact ⟨hreplaced.1, hreplaced.2⟩

theorem step_fitted {msg : Msg} {m : Model} {r : Model × List Effect}
    (hscroll : m.layout.scrollAmount = 0) (h : step msg m = .ok r)
    (hquiet : ∀ e ∈ r.2, e.submitsPrompt = false) : Fitted msg m r.1 := by
  cases msg with
  | key key => exact keyStep_fitted h hquiet
  | response response => exact responseStep_fitted hscroll h
  | backslashEffectResult tokenStart originalToken insertedText =>
    obtain ⟨m', hm', h⟩ := bind_eq_ok.mp h
    cases h
    exact .none rfl (backslashResult_still hm')
  | termResize width height =>
    obtain ⟨m', hm', h⟩ := bind_eq_ok.mp h
    cases h
    exact .some rfl (handleResize_still width height m) hm' ⟨rfl, rfl⟩

/-- A message that does not submit the prompt leaves the output position where it was on the
screen. So the position moves with the text exactly when the screen is not scrolled, which is when
the box the message leaves fits. -/
theorem output_follows_iff {msg : Msg} {m m' : Model} {effects : List Effect}
    (h : update msg m = .ok (m', effects)) (hquiet : ∀ e ∈ effects, e.submitsPrompt = false) :
    (∀ k : Int, m'.layout.scrollAmount = -k →
        m'.repl.replCursor = (m.repl.replCursor.1 - k, m.repl.replCursor.2)) ↔
      BoxFits msg { m with layout.scrollAmount := 0 } := by
  obtain ⟨-, -, h⟩ := bind_eq_ok.mp h
  obtain ⟨r, hstep, h⟩ := bind_eq_ok.mp h
  obtain ⟨-, -, h⟩ := bind_eq_ok.mp h
  cases h
  obtain ⟨hcursor, hscroll⟩ := step_fitted (m := { m with layout.scrollAmount := 0 }) rfl hstep hquiet
  rw [← hscroll]
  constructor
  · intro hfollows
    have hrow := congrArg Prod.fst (hfollows (-m'.layout.scrollAmount) (by omega))
    rw [hcursor] at hrow
    dsimp only at hrow ⊢
    omega
  · intro hzero k hk
    have hk0 : k = 0 := by
      dsimp only at hzero
      omega
    rw [hcursor, hk0, Int.sub_zero]

end

section

attribute [local instance] asciiUcd

/-- A character typed ahead, on a terminal of four rows. -/
theorem output_follows_typing : ∃ m₀ m₁ m m',
    initialModel (History.init ⟨[], []⟩) 1 80 4 = .ok m₀ ∧
    update (.key (.char (bytes "1"))) m₀ = .ok (m₁, []) ∧
    update (.key .enter) m₁ = .ok (m, [.submit (bytes "1")]) ∧
    update (.key (.char (bytes "2"))) m = .ok (m', []) ∧
    ((∀ k : Int, m'.layout.scrollAmount = -k →
        m'.repl.replCursor = (m.repl.replCursor.1 - k, m.repl.replCursor.2)) ↔
      BoxFits (.key (.char (bytes "2"))) { m with layout.scrollAmount := 0 }) := by
  obtain ⟨m₀, m₁, m, m', h₀, h₁, h₂, h₃⟩ : ∃ m₀ m₁ m m',
      initialModel (History.init ⟨[], []⟩) 1 80 4 = .ok m₀ ∧
      update (.key (.char (bytes "1"))) m₀ = .ok (m₁, []) ∧
      update (.key .enter) m₁ = .ok (m, [.submit (bytes "1")]) ∧
      update (.key (.char (bytes "2"))) m = .ok (m', []) := ⟨_, _, _, _, rfl, rfl, rfl, rfl⟩
  exact ⟨m₀, m₁, m, m', h₀, h₁, h₂, h₃, output_follows_iff h₃ (List.forall_mem_nil _)⟩

/-- A newline typed ahead grows the box past the last row: the screen scrolls by one, and the
position stays at the row the box has moved up to. -/
theorem output_left_behind : ∃ m₀ m₁ m m',
    initialModel (History.init ⟨[], []⟩) 1 80 4 = .ok m₀ ∧
    update (.key (.char (bytes "1"))) m₀ = .ok (m₁, []) ∧
    update (.key .enter) m₁ = .ok (m, [.submit (bytes "1")]) ∧
    update (.key (.ctrl '\r')) m = .ok (m', []) ∧
    m'.layout.scrollAmount = -1 ∧ m'.layout.promptTopRow = m'.repl.replCursor.1 ∧
    m'.repl.replCursor ≠ (m.repl.replCursor.1 - 1, m.repl.replCursor.2) :=
  ⟨_, _, _, _, rfl, rfl, rfl, rfl, rfl, rfl, by decide⟩

end

end Update
end Raoui
