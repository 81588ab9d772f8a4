import Raoui.Editor.Returns

/-!
# Raoui.Editor.Awaiting

The flag that output is awaited, which decides what Ctrl-C does.

* `Emits`: an update with what it asks for.
* `Outstanding`: an evaluation has been submitted, and since then neither has a terminal response
  come nor has it been cancelled.
* `outstanding_awaiting`: while one is, Ctrl-C cancels it.
-/

namespace Raoui

open Outcome (Meets)
open Tty (Key)
open Ffi (ResponseChunk)
open Transition (Run)

/-- The responses that end the waiting. -/
def Ffi.ResponseChunk.isTerminal : ResponseChunk → Bool
  | .done | .internalError _ | .restarted _ | .aiDone => true
  | _ => false

namespace Update

open Model (SameText)

/-- A message and what the update asked for. -/
abbrev Labelled := Msg × List Effect

/-- The step hands code to R as an evaluation of the user's. -/
def Submits (step : Labelled) : Prop := ∃ code, .submit code ∈ step.2

/-- After the step the evaluation is still the one to cancel. -/
def Continues (step : Labelled) : Prop :=
  .cancel ∉ step.2 ∧ ∀ response, step.1 = .response response → response.isTerminal = false

/-- An evaluation has been submitted along the way that is still the one to cancel. -/
def Outstanding (steps : List Labelled) : Prop :=
  ∃ before step after, steps = before ++ step :: after ∧ Submits step ∧ ∀ s ∈ after, Continues s

theorem submit_not_mem_responseEffects (code : Bytes) (width : Int) (response : ResponseChunk) :
    .submit code ∉ responseEffects width response := by
  cases response with
  | _ => simp [responseEffects]

section
variable [Ucd] {m m' : Model}

/-- One update that returns, labelled with what it asked for. -/
def Emits (m : Model) (step : Labelled) (m' : Model) : Prop := update step.1 m = .ok (m', step.2)

theorem Emits.sound {step : Labelled} (h : Emits m step m') (hs : m.Sound) : m'.Sound ∧ m'.Within :=
  update_sound hs h

theorem Emits.submits_awaiting {step : Labelled} (h : Emits m step m') (hs : m.Sound)
    (hsubmits : Submits step) : m'.repl.awaitingResponse = true := by
  obtain ⟨msg, effects⟩ := step
  obtain ⟨code, hcode⟩ := hsubmits
  obtain ⟨hstep, -⟩ := update_eq_ok h
  have h₀ := (unscrolled_sameText m).sound hs
  cases msg with
  | key key =>
    obtain ⟨-, -, -, -, hrecords⟩ := (keyStep_safe h₀ key).of_eq_ok hstep
    cases hrecords with
    | quiet _ _ hquiet => cases hquiet _ hcode
    | submit hset _ => exact hset
    | query hset _ => exact hset
    | reset hset _ => exact hset
    | readline _ _ => cases List.mem_singleton.mp hcode
    | quit _ _ => cases List.mem_singleton.mp hcode
  | response response =>
    obtain ⟨-, heffects⟩ := (responseStep_safe h₀ response).of_eq_ok hstep
    dsimp only at heffects hcode
    rw [heffects] at hcode
    exact absurd hcode (submit_not_mem_responseEffects _ _ _)
  | backslashEffectResult tokenStart originalToken insertedText =>
    obtain ⟨heffects, -⟩ :=
      (insertStep_safe h₀ tokenStart originalToken insertedText).of_eq_ok hstep
    dsimp only at heffects hcode
    rw [heffects] at hcode
    cases hcode
  | termResize width height =>
    obtain ⟨-, heffects⟩ := (resizeStep_safe h₀ width height).of_eq_ok hstep
    dsimp only at heffects hcode
    rw [heffects] at hcode
    cases List.mem_singleton.mp hcode

theorem Emits.awaiting {step : Labelled} (h : Emits m step m') (hs : m.Sound)
    (hcontinues : Continues step) (hawait : m.repl.awaitingResponse = true) :
    m'.repl.awaitingResponse = true := by
  obtain ⟨msg, effects⟩ := step
  obtain ⟨hstep, -⟩ := update_eq_ok h
  have h₀ := (unscrolled_sameText m).sound hs
  cases msg with
  | key key =>
    obtain ⟨-, -, -, -, hrecords⟩ := (keyStep_safe h₀ key).of_eq_ok hstep
    cases hrecords with
    | quiet hrepl _ _ =>
      rw [hrepl]
      exact hawait
    | submit hset _ => exact hset
    | query hset _ => exact hset
    | reset hset _ => exact hset
    | readline hset _ =>
      obtain hset | hrepl := hset
      · exact hset
      · rw [hrepl]
        exact hawait
    | quit hrepl _ =>
      rw [hrepl]
      exact hawait
  | response response =>
    have hterminal := hcontinues.2 response rfl
    obtain ⟨hresponse, -⟩ := (responseStep_safe h₀ response).of_eq_ok hstep
    by_cases haside : setAside response = true
    · rw [if_pos haside] at hresponse
      rw [hresponse.repl]
      exact hawait
    · rw [if_neg haside] at hresponse
      rw [hresponse.awaiting]
      cases response with
      | done => cases hterminal
      | internalError s => cases hterminal
      | restarted s => cases hterminal
      | aiDone => cases hterminal
      | shutdown => exact absurd rfl haside
      | passthrough => exact absurd rfl haside
      | passthroughEnd => exact absurd rfl haside
      | completions token items => exact absurd rfl haside
      | _ => exact hawait
  | backslashEffectResult tokenStart originalToken insertedText =>
    obtain ⟨-, -, -, hrepl, -, -⟩ :=
      (insertStep_safe h₀ tokenStart originalToken insertedText).of_eq_ok hstep
    rw [hrepl]
    exact hawait
  | termResize width height =>
    obtain ⟨hsame, -⟩ := (resizeStep_safe h₀ width height).of_eq_ok hstep
    rw [hsame.repl]
    exact hawait

theorem emits_sound {db : History.Db} {row width height : Int} {m₀ : Model}
    {steps : List Labelled} (h₀ : initialModel (History.init db) row width height = .ok m₀)
    (hrun : Run Emits m₀ steps m) : m.Sound ∧ m.Within :=
  Run.invariant (I := fun m => m.Sound ∧ m.Within) (fun ⟨hs, _⟩ hstep => hstep.sound hs)
    (initialModel_sound (History.kept_init db) h₀) hrun

/-- In Normal mode Ctrl-C cancels when output is awaited. -/
theorem update_cancel (hs : m.Sound) (hw : m.Within) (hmode : m.input.mode = .normal)
    (hawait : m.repl.awaitingResponse = true) :
    ∃ m', update (.key (.ctrl 'c')) m = .ok (m', [.cancel]) := by
  let m₁ := Model.leaveCompletion { m with layout.scrollAmount := 0 }
  have hsame : m.SameText m₁ :=
    (unscrolled_sameText m).trans (Model.leaveCompletion_sameText _)
  have happly : applyKey (.ctrl 'c') { m with layout.scrollAmount := 0 } = .ok (m₁, [.cancel]) := by
    unfold applyKey
    rw [hmode]
    show NormalMode.ctrlKey 'c' m₁ = _
    unfold NormalMode.ctrlKey
    rw [hsame.repl, hawait]
    rfl
  obtain ⟨m', hupdate, -⟩ :=
    update_returns hs hw happly (hsame.sound hs) (hsame.within hw) (List.cons_ne_nil _ _)
  exact ⟨m', hupdate⟩

/-- While an evaluation submitted earlier has met neither a terminal response nor a Cancel, output
is awaited, and Ctrl-C in Normal mode cancels it. -/
theorem outstanding_awaiting {db : History.Db} {row width height : Int} {m₀ : Model}
    {steps : List Labelled} (h₀ : initialModel (History.init db) row width height = .ok m₀)
    (hrun : Run Emits m₀ steps m) (hout : Outstanding steps) :
    m.repl.awaitingResponse = true ∧
      (m.input.mode = .normal → ∃ m', update (.key (.ctrl 'c')) m = .ok (m', [.cancel])) := by
  obtain ⟨hs, hw⟩ := emits_sound h₀ hrun
  suffices hawait : m.repl.awaitingResponse = true from
    ⟨hawait, fun hmode => update_cancel hs hw hmode hawait⟩
  obtain ⟨before, step, after, rfl, hsubmits, hcontinue⟩ := hout
  obtain ⟨m₁, hbefore, hrest⟩ := Run.split hrun
  obtain ⟨hs₁, -⟩ := emits_sound h₀ hbefore
  cases hrest with
  | cons hsubmit hafter =>
    rename_i m₂
    exact (Run.invariant_of (I := fun m => m.Sound ∧ m.repl.awaitingResponse = true) hcontinue
      (fun ⟨hs, hawait⟩ hstep hcont => ⟨(hstep.sound hs).1, hstep.awaiting hs hcont hawait⟩)
      ⟨(hsubmit.sound hs₁).1, hsubmit.submits_awaiting hs₁ hsubmits⟩ hafter).2

end

section

attribute [local instance] asciiUcd

theorem outstanding_awaiting_streaming : ∃ m₀ m steps,
    initialModel (History.init ⟨[], []⟩) 1 80 24 = .ok m₀ ∧ Run Emits m₀ steps m ∧
    Outstanding steps ∧ m.repl.awaitingResponse = true ∧
    (m.input.mode = .normal → ∃ m', update (.key (.ctrl 'c')) m = .ok (m', [.cancel])) := by
  obtain ⟨m₀, m₁, m₂, m, h₀, h₁, h₂, h₃⟩ : ∃ m₀ m₁ m₂ m,
      initialModel (History.init ⟨[], []⟩) 1 80 24 = .ok m₀ ∧
      Emits m₀ (.key (.char (bytes "1")), []) m₁ ∧
      Emits m₁ (.key .enter, [.submit (bytes "1")]) m₂ ∧
      Emits m₂ (.response (.result (bytes "[1] 1")), []) m :=
    ⟨_, _, _, _, rfl, rfl, rfl, rfl⟩
  have hrun := Run.cons h₁ (.cons h₂ (.cons h₃ .nil))
  have hout : Outstanding [(.key (.char (bytes "1")), []), (.key .enter, [.submit (bytes "1")]),
      (.response (.result (bytes "[1] 1")), [])] := by
    refine ⟨[_], _, [_], rfl, ⟨bytes "1", List.mem_singleton_self _⟩, fun s hs => ?_⟩
    rw [List.mem_singleton.mp hs]
    refine ⟨List.not_mem_nil, fun response hresponse => ?_⟩
    cases hresponse
    rfl
  exact ⟨m₀, m, _, h₀, hrun, hout, outstanding_awaiting h₀ hrun hout⟩

/-- An internal error ends the waiting although the evaluation has not delivered its Done, and then
Ctrl-C does nothing. -/
theorem internal_error_stops_awaiting : ∃ m₀ m m',
    initialModel (History.init ⟨[], []⟩) 1 80 24 = .ok m₀ ∧
    Run Emits m₀ [(.key (.char (bytes "1")), []), (.key .enter, [.submit (bytes "1")]),
      (.response (.internalError (bytes "x")), [])] m ∧
    m.input.mode = .normal ∧ m.repl.awaitingResponse = false ∧
    update (.key (.ctrl 'c')) m = .ok (m', []) := by
  obtain ⟨m₀, m₁, m₂, m, m', h₀, h₁, h₂, h₃, hmode, hawait, hcancel⟩ : ∃ m₀ m₁ m₂ m m',
      initialModel (History.init ⟨[], []⟩) 1 80 24 = .ok m₀ ∧
      Emits m₀ (.key (.char (bytes "1")), []) m₁ ∧
      Emits m₁ (.key .enter, [.submit (bytes "1")]) m₂ ∧
      Emits m₂ (.response (.internalError (bytes "x")), []) m ∧
      m.input.mode = .normal ∧ m.repl.awaitingResponse = false ∧
      update (.key (.ctrl 'c')) m = .ok (m', []) :=
    ⟨_, _, _, _, _, rfl, rfl, rfl, rfl, rfl, rfl, rfl⟩
  exact ⟨m₀, m, m', h₀, .cons h₁ (.cons h₂ (.cons h₃ .nil)), hmode, hawait, hcancel⟩

end

end Update
end Raoui
