import Raoui.Editor.Typing

/-!
# Raoui.Editor.Submission

What Enter hands over, against the whole prompt and against what the history keeps.

* `HandsWhole`: what is handed over is the whole prompt, and so is the entry recorded.
* `shellCommand_injective`: the guard leaves the command readable off the R call.
* `enter_whole_iff`: Normal mode hands the whole prompt over, the other modes the cursor's line.
-/

namespace Raoui

open Outcome (Meets)
open Tty (Key)
open Transition (Run)
open Model (SameText)

/-- The effects that hand the text of the prompt to R or to the AI. -/
def Effect.handsText : Effect → Bool
  | .submit _ | .submitReadlineInput _ | .submitAiQuery _ => true
  | .backgroundSubmit _ | .resetAiSession | .cancel | .requestCompletions _ _
  | .runBackslashEffect _ | .enterPassthrough | .quit => false

theorem Effect.isSubmission_of_handsText {e : Effect} (h : e.handsText = true) :
    e.isSubmission = true := by
  cases e with
  | submit code => rfl
  | submitReadlineInput text => rfl
  | submitAiQuery query => rfl
  | _ => cases h

/-- What a step from `m` hands over is the whole prompt, in the wrapper of the mode if it has one,
and the entry it records, if the prompt is not blank, is the whole prompt too. -/
def HandsWhole (m : Model) (r : Model × List Effect) : Prop :=
  ∀ e ∈ r.2, e.handsText = true →
    e ∈ dispatched m.input.mode (History.promptToString m.input.lines) ∧
    ∀ kind, historyModeString m.input.mode = .ok kind →
      trim (History.promptToString m.input.lines) ≠ [] →
        r.1.input.history.history =
          m.input.history.history ++ [⟨kind, History.promptToString m.input.lines⟩]

/-- Nothing is handed over. -/
def Quiet (effects : List Effect) : Prop := ∀ e ∈ effects, e.isSubmission = false

theorem quiet_nil : Quiet [] := List.forall_mem_nil _

theorem quiet_singleton {e : Effect} (h : e.isSubmission = false) : Quiet [e] :=
  fun e' he' => by rw [List.mem_singleton.mp he']; exact h

theorem HandsWhole.of_quiet {m : Model} {r : Model × List Effect} (h : Quiet r.2) :
    HandsWhole m r := by
  intro e he hhands
  have := Effect.isSubmission_of_handsText hhands
  rw [h e he] at this
  cases this

/-- What the corrections and the completion request that follow a key leave as it is. -/
theorem HandsWhole.followed {m m₁ m₂ : Model} {effects : List Effect} (hs : m₁.SameText m₂) :
    HandsWhole m (m₁, effects) ↔ HandsWhole m (m₂, effects) := by
  unfold HandsWhole
  dsimp only
  rw [hs.history]

/-! ## The entry recorded -/

namespace History

theorem finishActive_history (t : History) (status : Status) :
    (finishActive t status).history = t.history := by
  unfold finishActive
  split <;> rfl

theorem addToHistory_history {t : History} {mode : Bytes} {lines : List UnicodeString}
    (h : trim (promptToString lines) ≠ []) :
    (t.addToHistory mode lines).history = t.history ++ [⟨mode, promptToString lines⟩] := by
  unfold addToHistory
  dsimp only
  rw [if_neg h, finishActive_history]

end History

/-! ## The wrapper of a shell command -/

/-- A run of one character ends where another begins. -/
theorem replicate_append_cons_inj {α : Type} {a b : α} (hab : a ≠ b) {k l : Nat} {xs ys : List α}
    (h : List.replicate k a ++ b :: xs = List.replicate l a ++ b :: ys) : k = l ∧ xs = ys := by
  induction k generalizing l with
  | zero =>
    cases l with
    | zero => exact ⟨rfl, List.tail_eq_of_cons_eq h⟩
    | succ l => exact absurd (List.head_eq_of_cons_eq h).symm hab
  | succ k ih =>
    cases l with
    | zero => exact absurd (List.head_eq_of_cons_eq h) hab
    | succ l =>
      obtain ⟨hkl, hrest⟩ := ih (List.tail_eq_of_cons_eq h)
      exact ⟨congrArg (· + 1) hkl, hrest⟩

namespace ShellMode

theorem safeGuard_eq (text : Bytes) (fuel n : Nat) :
    ∃ k, safeGuard text fuel n = List.replicate k 45 := by
  induction fuel generalizing n with
  | zero => exact ⟨n, rfl⟩
  | succ fuel ih =>
    unfold safeGuard
    split
    · exact ih (n + 1)
    · exact ⟨n, rfl⟩

theorem shellCommand_injective {text text' : Bytes} (h : shellCommand text = shellCommand text') :
    text = text' := by
  obtain ⟨k, hk⟩ := safeGuard_eq text text.length 1
  obtain ⟨k', hk'⟩ := safeGuard_eq text' text'.length 1
  unfold shellCommand at h
  dsimp only at h
  rw [hk, hk'] at h
  simp only [List.append_assoc] at h
  have hopened := List.append_cancel_left (List.append_cancel_left (List.append_cancel_left h))
  obtain ⟨rfl, hbody⟩ := replicate_append_cons_inj (by decide) hopened
  exact List.append_cancel_right hbody

end ShellMode

/-! ## The prompt and its lines -/

theorem length_le_concatWith {sep line : Bytes} {lines : List Bytes} (h : line ∈ lines) :
    line.length ≤ (concatWith sep lines).length := by
  induction lines with
  | nil => cases h
  | cons first rest ih =>
    cases rest with
    | nil => exact (List.mem_singleton.mp h) ▸ Nat.le_refl _
    | cons second rest =>
      show line.length ≤ (first ++ sep ++ concatWith sep (second :: rest)).length
      rw [List.length_append, List.length_append]
      obtain rfl | hrest := List.mem_cons.mp h
      · omega
      · have := ih hrest
        omega

/-- What joins two lines or more is longer than one of them. -/
theorem length_lt_concatWith {sep line first second : Bytes} {rest : List Bytes}
    (hsep : sep ≠ []) (h : line ∈ first :: second :: rest) :
    line.length < (concatWith sep (first :: second :: rest)).length := by
  have hpos := List.length_pos_of_ne_nil hsep
  show line.length < (first ++ sep ++ concatWith sep (second :: rest)).length
  rw [List.length_append, List.length_append]
  obtain rfl | hrest := List.mem_cons.mp h
  · omega
  · have := @length_le_concatWith sep _ _ hrest
    omega

namespace Model

variable {m : Model}

/-- The whole prompt is the cursor's line if that is the only one. -/
theorem Coherent.promptToString_eq_line_iff (h : m.Coherent) :
    m.line.toBytes = History.promptToString m.input.lines ↔ m.input.lines.length = 1 := by
  refine ⟨fun heq => ?_, fun hone => (h.promptToString_eq hone).symm⟩
  have hmem := List.mem_map_of_mem (f := UnicodeString.toBytes) h.line_mem
  unfold History.promptToString at heq
  match hlines : m.input.lines with
  | [] =>
    rw [hlines] at hmem
    cases hmem
  | [line] => rfl
  | first :: second :: rest =>
    rw [hlines] at heq hmem
    have := length_lt_concatWith (List.cons_ne_nil newline []) hmem
    rw [List.map_cons, List.map_cons] at heq
    rw [heq] at this
    omega

/-! ## Enter -/

/-- A step that hands one text over and records the prompt. -/
theorem handsWhole_one {m' : Model} {e : Effect} (hhands : e.handsText = true)
    (hrec : ∀ kind, historyModeString m.input.mode = .ok kind →
      m'.input.history = m.input.history.addToHistory kind m.input.lines) :
    HandsWhole m (m', [e]) ↔
      e ∈ dispatched m.input.mode (History.promptToString m.input.lines) := by
  refine ⟨fun h => (h e (List.mem_singleton_self e) hhands).1, fun h e' he' _ => ?_⟩
  rw [List.mem_singleton.mp he']
  refine ⟨h, fun kind hkind hne => ?_⟩
  show m'.input.history.history = _
  rw [hrec kind hkind, History.addToHistory_history hne]

/-- A handler that hands over the cursor's line and records the prompt. -/
theorem Coherent.handsLine_iff (h : m.Coherent) {m' : Model} {e : Effect}
    (hhands : e.handsText = true)
    (hwrap : e ∈ dispatched m.input.mode (History.promptToString m.input.lines) ↔
      m.line.toBytes = History.promptToString m.input.lines)
    (hrec : ∀ kind, historyModeString m.input.mode = .ok kind →
      m'.input.history = m.input.history.addToHistory kind m.input.lines) :
    HandsWhole m (m', [e]) ↔ m.input.lines.length = 1 := by
  rw [handsWhole_one hhands hrec, hwrap, h.promptToString_eq_line_iff]

/-- The modes in which Enter hands over the whole of a prompt, or nothing. -/
def WholeByMode (m : Model) : Prop :=
  m.input.mode = .normal ∨ m.input.lines.length = 1 ∨
    m.input.mode = .ai ∧ AiMode.resetCommands.contains (trim m.line.toBytes) = true

section
variable [Ucd]

theorem applyCommand_quiet (m : Model) (tokenStart : Int) (label : Bytes)
    (command : Backslash.Command) :
    Yields (m.applyCommand tokenStart label command) fun r => Quiet r.2 := by
  unfold applyCommand
  split
  · exact Yields.read fun _ => quiet_nil
  · exact quiet_singleton rfl
  · exact quiet_singleton rfl

theorem acceptBackslashCompletion_quiet (m : Model) : Yields m.acceptBackslashCompletion fun r =>
    ∀ r', r = some r' → Quiet r'.2 := by
  refine Yields.read fun chosen => ?_
  split
  · intro r' hr'
    cases hr'
  · refine (applyCommand_quiet m _ _ _).bind fun r hr r' hr' => ?_
    cases hr'
    exact hr

omit [Ucd] in
theorem withoutEffects_handsWhole (x : Res Model) : Yields (withoutEffects x) (HandsWhole m) :=
  Yields.read fun _ => .of_quiet quiet_nil

theorem clearModelForSubmit_history (m : Model) : Yields m.clearModelForSubmit fun m' =>
    m'.input.history = m.input.history := Yields.read fun _ => rfl

theorem submitNormalText_handsWhole (hmode : m.input.mode = .normal) :
    Yields (NormalMode.submitNormalText m) (HandsWhole m) := by
  unfold NormalMode.submitNormalText
  dsimp only
  split
  · exact HandsWhole.of_quiet (quiet_singleton rfl)
  · refine (clearModelForSubmit_history _).bind fun m' hhist => ?_
    refine (handsWhole_one rfl fun kind hkind => ?_).mpr ?_
    · rw [hmode] at hkind
      cases hkind
      exact hhist
    · rw [hmode]
      exact List.mem_singleton_self _

theorem normalEnter_handsWhole (hmode : m.input.mode = .normal) :
    Yields (NormalMode.enter m) (HandsWhole m) := by
  refine (acceptBackslashCompletion_quiet m).bind fun accepted haccepted => ?_
  split
  · exact .of_quiet (haccepted _ rfl)
  · unfold NormalMode.submit
    refine Yields.read fun action => ?_
    split
    · exact submitNormalText_handsWhole hmode
    · exact withoutEffects_handsWhole _
    · exact withoutEffects_handsWhole _

theorem Coherent.shellSubmit_handsWhole (h : m.Coherent) (hmode : m.input.mode = .shell) :
    Yields (ShellMode.submit m) fun r => HandsWhole m r ↔ m.input.lines.length = 1 := by
  unfold ShellMode.submit
  rw [h.currentLine]
  refine Meets.via (fun line => line = m.line) rfl fun line hline => ?_
  subst hline
  refine (clearModelForSubmit_history _).bind fun m' hhist => h.handsLine_iff rfl ?_ fun kind hkind => ?_
  · rw [hmode, show dispatched .shell (History.promptToString m.input.lines) =
      [.submit (ShellMode.shellCommand (History.promptToString m.input.lines))] from rfl,
      List.mem_singleton, Effect.submit.injEq]
    exact ⟨ShellMode.shellCommand_injective, congrArg ShellMode.shellCommand⟩
  · rw [hmode] at hkind
    cases hkind
    exact hhist

theorem Coherent.aiSubmit_handsWhole (h : m.Coherent) (hmode : m.input.mode = .ai) :
    Yields (AiMode.submit m) fun r => HandsWhole m r ↔ m.input.lines.length = 1 ∨
      AiMode.resetCommands.contains (trim m.line.toBytes) = true := by
  unfold AiMode.submit
  rw [h.currentLine]
  refine Meets.via (fun line => line = m.line) rfl fun line hline => ?_
  subst hline
  refine Yields.read fun cleared => ?_
  split
  · rename_i hreset
    refine iff_of_true (fun e he hhands => ?_) (.inr hreset)
    rw [List.mem_singleton.mp he] at hhands
    cases hhands
  · rename_i hreset
    rw [or_iff_left hreset]
    refine h.handsLine_iff rfl ?_ fun kind hkind => ?_
    · rw [hmode]
      unfold dispatched
      dsimp only
      constructor
      · split
        · exact fun he => nomatch List.mem_singleton.mp he
        · exact fun he => Effect.submitAiQuery.inj (List.mem_singleton.mp he)
      · intro heq
        rw [← heq, if_neg hreset]
        exact List.mem_singleton_self _
    · rw [hmode] at hkind
      cases hkind
      rfl

theorem Coherent.readlineSubmit_handsWhole (h : m.Coherent) {prompt : Bytes}
    (hmode : m.input.mode = .readline prompt) :
    Yields (ReadlineMode.submit m) fun r => HandsWhole m r ↔ m.input.lines.length = 1 := by
  unfold ReadlineMode.submit
  rw [h.currentLine]
  refine Meets.via (fun line => line = m.line) rfl fun line hline => ?_
  subst hline
  refine Yields.read fun cleared => h.handsLine_iff rfl ?_ fun kind hkind => ?_
  · rw [hmode]
    unfold dispatched
    rw [List.mem_singleton, Effect.submitReadlineInput.injEq]
  · rw [hmode] at hkind
    cases hkind

end

end Model

namespace Update

variable {m m' : Model}

section
variable [Ucd]

theorem applyEnter_handsWhole (h : m.Sound) (hprompt : m.Prompting) :
    Yields (applyKey .enter m) fun r => HandsWhole m r ↔ m.WholeByMode := by
  unfold applyKey Model.WholeByMode
  cases hmode : m.input.mode with
  | normal =>
    exact (Model.normalEnter_handsWhole hmode).mono fun r hr => iff_of_true hr (.inl rfl)
  | shell =>
    refine (h.coherent.shellSubmit_handsWhole hmode).mono fun r hr => hr.trans ?_
    simp
  | ai =>
    refine (h.coherent.aiSubmit_handsWhole hmode).mono fun r hr => hr.trans ?_
    simp
  | readline prompt =>
    refine (h.coherent.readlineSubmit_handsWhole hmode).mono fun r hr => hr.trans ?_
    simp
  | historySearch s => exact absurd hmode (hprompt s)

theorem keyStep_handsWhole (h : m.Sound) (hprompt : m.Prompting) {r : Model × List Effect}
    (hstep : keyStep .enter m = .ok r) : HandsWhole m r ↔ m.WholeByMode := by
  obtain ⟨⟨m₂, effects⟩, hinput, hfollow⟩ := Outcome.bind_eq_ok.mp hstep
  obtain ⟨m₁, happly, hcorrect⟩ := handleKeyInput_eq_ok.mp hinput
  have hsame := (universalCorrections_safe ((applyKey_safe h .enter).of_eq_ok happly).mode
    .enter).of_eq_ok hcorrect
  rw [← (applyEnter_handsWhole h hprompt).of_eq_ok happly]
  dsimp only at hfollow
  split at hfollow
  · obtain ⟨-, hquiet⟩ := (Model.completionFollowup_safe _).of_eq_ok hfollow
    exact iff_of_true (.of_quiet hquiet) (.of_quiet quiet_nil)
  · cases hfollow
    exact (HandsWhole.followed hsame).symm

/-- Whatever has been typed, pasted, recalled or received, Enter hands over the whole prompt and
records it if the mode is Normal or the prompt has one line. A reset command of the AI, which hands
nothing over, is recognised by the cursor's line. -/
theorem enter_whole_iff {db : History.Db} {row width height : Int} {m₀ : Model} {msgs : List Msg}
    {effects : List Effect} (h₀ : initialModel (History.init db) row width height = .ok m₀)
    (hrun : Run Steps m₀ msgs m) (hprompt : ∀ s, m.input.mode ≠ .historySearch s)
    (henter : update (.key .enter) m = .ok (m', effects)) :
    HandsWhole m (m', effects) ↔
      m.input.mode = .normal ∨ m.input.lines.length = 1 ∨
        m.input.mode = .ai ∧ AiMode.resetCommands.contains (trim m.line.toBytes) = true := by
  obtain ⟨hs, -⟩ := reachable_sound h₀ hrun
  have h := (unscrolled_sameText m).sound hs
  exact keyStep_handsWhole (m := { m with layout.scrollAmount := 0 }) h hprompt
    (update_eq_ok henter).1

end

section

attribute [local instance] asciiUcd

theorem enter_whole_iff_typed : ∃ m₀ m m' effects,
    initialModel (History.init ⟨[], []⟩) 1 80 24 = .ok m₀ ∧
    Run Steps m₀ [.key (.char (bytes "1"))] m ∧ update (.key .enter) m = .ok (m', effects) ∧
    (HandsWhole m (m', effects) ↔ m.input.mode = .normal ∨ m.input.lines.length = 1 ∨
      m.input.mode = .ai ∧ AiMode.resetCommands.contains (trim m.line.toBytes) = true) := by
  obtain ⟨m₀, m, m', effects, h₀, hrun, hmode, henter⟩ : ∃ m₀ m m' effects,
      initialModel (History.init ⟨[], []⟩) 1 80 24 = .ok m₀ ∧
      Transition.exec next m₀ [.key (.char (bytes "1"))] = some m ∧ m.input.mode = .normal ∧
      update (.key .enter) m = .ok (m', effects) := ⟨_, _, _, _, rfl, rfl, rfl, rfl⟩
  have hsteps := (Transition.run_of_exec hrun).mono steps_of_next
  refine ⟨m₀, m, m', effects, h₀, hsteps, henter, enter_whole_iff h₀ hsteps (fun s hs => ?_) henter⟩
  rw [hmode] at hs
  cases hs

/-- Of two lines pasted at a shell prompt, only the second is run, and both are recorded. -/
theorem pasted_command_cut : ∃ m₀ m m',
    initialModel (History.init ⟨[], []⟩) 1 80 24 = .ok m₀ ∧
    Run Steps m₀ [.key (.char (bytes ";")), .key (.paste (bytes "a\nb"))] m ∧
    m.input.mode = .shell ∧ History.promptToString m.input.lines = bytes "a\nb" ∧
    update (.key .enter) m = .ok (m', [.submit (ShellMode.shellCommand (bytes "b"))]) ∧
    m'.input.history.history = [⟨bytes "shell", bytes "a\nb"⟩] ∧
    ¬ HandsWhole m (m', [.submit (ShellMode.shellCommand (bytes "b"))]) := by
  obtain ⟨m₀, m, m', h₀, hrun, hmode, htext, henter, hhist⟩ : ∃ m₀ m m',
      initialModel (History.init ⟨[], []⟩) 1 80 24 = .ok m₀ ∧
      Transition.exec next m₀ [.key (.char (bytes ";")), .key (.paste (bytes "a\nb"))] = some m ∧
      m.input.mode = .shell ∧ History.promptToString m.input.lines = bytes "a\nb" ∧
      update (.key .enter) m = .ok (m', [.submit (ShellMode.shellCommand (bytes "b"))]) ∧
      m'.input.history.history = [⟨bytes "shell", bytes "a\nb"⟩] :=
    ⟨_, _, _, rfl, rfl, rfl, rfl, rfl, rfl⟩
  refine ⟨m₀, m, m', h₀, (Transition.run_of_exec hrun).mono steps_of_next, hmode, htext, henter,
    hhist, fun hwhole => ?_⟩
  obtain ⟨hsubmitted, -⟩ := hwhole _ (List.mem_singleton_self _) rfl
  rw [hmode, htext] at hsubmitted
  have hcommand := Effect.submit.inj (List.mem_singleton.mp hsubmitted)
  exact absurd (ShellMode.shellCommand_injective hcommand) (by decide)

end

end Update
end Raoui
