import Raoui.Editor.Submission

/-!
# Raoui.Editor.Suggestions

The code the AI suggests, from the response that brings it to the prompt it ends up in.

* `received`: the suggestions since the last Ai_done.
* `keyStep_keepsPending`: no key touches those still pending.
* `suggestions_placed`: an Ai_done puts all of them, in order, at the end of the prompt.
-/

namespace Raoui

open Outcome (Meets)
open Tty (Key)
open Ffi (ResponseChunk)
open Transition (Run)
open Model (SameText)

/-! ## The suggestions of a run -/

/-- The suggestions since the last Ai_done, after one more message. -/
def receive (suggestions : List Bytes) : Msg → List Bytes
  | .response (.aiSuggestion code) => suggestions ++ [code]
  | .response .aiDone => []
  | _ => suggestions

def received (msgs : List Msg) : List Bytes := msgs.foldl receive []

/-- Suggestions as they are kept until they are placed. -/
def stash : List Bytes → Option Bytes
  | [] => none
  | code :: rest => some (concatWith [newline, newline] (code :: rest))

/-- The lines of suggestions, a blank one between two of them. -/
def suggestedLines (suggestions : List Bytes) : List Bytes :=
  List.intercalate [[]] (suggestions.map (splitOnChar newline))

theorem concatWith_concat {sep code : Bytes} {codes : List Bytes} (h : codes ≠ []) :
    concatWith sep (codes ++ [code]) = concatWith sep codes ++ sep ++ code := by
  induction codes with
  | nil => exact absurd rfl h
  | cons first rest ih =>
    cases rest with
    | nil => rfl
    | cons second rest =>
      show first ++ sep ++ concatWith sep (second :: rest ++ [code]) =
        first ++ sep ++ concatWith sep (second :: rest) ++ sep ++ code
      rw [ih (List.cons_ne_nil _ _)]
      simp only [List.append_assoc]

theorem stash_eq_some {codes : List Bytes} (h : codes ≠ []) :
    stash codes = some (concatWith [newline, newline] codes) := by
  cases codes with
  | nil => exact absurd rfl h
  | cons code rest => rfl

/-- One more suggestion joins those that are kept. -/
theorem stash_concat (codes : List Bytes) (code : Bytes) :
    stash (codes ++ [code]) =
      (Update.suggestionAfter (stash codes) (.aiSuggestion code)).1 := by
  cases codes with
  | nil => rfl
  | cons first rest =>
    rw [stash_eq_some (List.append_ne_nil_of_left_ne_nil (List.cons_ne_nil _ _) _),
      concatWith_concat (List.cons_ne_nil _ _)]
    rfl

theorem splitOnChar_stash {codes : List Bytes} (h : codes ≠ []) :
    splitOnChar newline (concatWith [newline, newline] codes) = suggestedLines codes := by
  induction codes with
  | nil => exact absurd rfl h
  | cons first rest ih =>
    cases rest with
    | nil => simp [suggestedLines, concatWith]
    | cons second rest =>
      rw [show concatWith [newline, newline] (first :: second :: rest) =
        first ++ newline :: ([] ++ newline :: concatWith [newline, newline] (second :: rest)) by
          simp [concatWith], splitOnChar_append, splitOnChar_append, ih (List.cons_ne_nil _ _)]
      unfold suggestedLines
      rw [List.map_cons (l := second :: rest), List.map_cons, List.intercalate_cons_cons,
        List.append_assoc]
      rfl

theorem mem_suggestedLines {codes : List Bytes} {s : Bytes} (h : s ∈ suggestedLines codes) :
    s = [] ∨ ∃ code ∈ codes, s ∈ splitOnChar newline code := by
  induction codes with
  | nil => cases h
  | cons first rest ih =>
    cases rest with
    | nil =>
      refine .inr ⟨first, List.mem_singleton_self _, ?_⟩
      simpa [suggestedLines] using h
    | cons second rest =>
      unfold suggestedLines at h ih
      rw [List.map_cons (l := second :: rest), List.map_cons, List.intercalate_cons_cons,
        List.mem_append, List.mem_append] at h
      obtain (h | h) | h := h
      · exact .inr ⟨first, List.mem_cons_self .., h⟩
      · exact .inl (List.mem_singleton.mp h)
      · exact (ih h).imp_right fun ⟨code, hcode, hs⟩ => ⟨code, List.mem_cons_of_mem _ hcode, hs⟩

/-! ## What leaves them pending -/

/-- The suggestions pending are the same. -/
def KeepsPending (m : Model) (m' : Model) : Prop :=
  m'.repl.pendingSuggestion = m.repl.pendingSuggestion

namespace Model

variable {m : Model}

theorem Records.keepsPending {r : Model × List Effect} (h : m.Records r) (hquiet : Quiet r.2) :
    KeepsPending m r.1 := by
  have hloud : ∀ {e : Effect}, Quiet [e] → e.isSubmission = true → False := fun hq he => by
    rw [hq _ (List.mem_singleton_self _)] at he
    cases he
  cases h with
  | quiet repl _ _ => exact congrArg Repl.pendingSuggestion repl
  | quit repl _ => exact congrArg Repl.pendingSuggestion repl
  | submit _ _ => exact (hloud hquiet rfl).elim
  | query _ _ => exact (hloud hquiet rfl).elim
  | reset _ _ => exact (hloud hquiet rfl).elim
  | readline _ _ => exact (hloud hquiet rfl).elim

theorem withoutEffects_quiet (x : Res Model) : Yields (withoutEffects x) fun r => Quiet r.2 :=
  Yields.read fun _ => quiet_nil

section
variable [Ucd]

theorem clearModelForSubmit_pending (m : Model) :
    Yields m.clearModelForSubmit (KeepsPending m) := Yields.read fun _ => rfl

theorem blankInput_pending (m : Model) (mode : Mode) :
    Yields (m.blankInput mode) (KeepsPending m) := Yields.read fun _ => rfl

omit [Ucd] in
theorem otherKey_quiet (name : String) (m : Model) :
    Yields (NormalMode.otherKey name m) fun r => Quiet r.2 := by
  unfold NormalMode.otherKey
  split
  · exact withoutEffects_quiet _
  · exact withoutEffects_quiet _
  · exact quiet_nil

theorem ctrlKey_quiet (c : Char) (m : Model) :
    Yields (NormalMode.ctrlKey c m) fun r => Quiet r.2 := by
  unfold NormalMode.ctrlKey
  split
  · split
    · exact quiet_singleton rfl
    · exact quiet_nil
  · split
    · exact quiet_nil
    · exact withoutEffects_quiet _
  · split
    · exact quiet_singleton rfl
    · exact withoutEffects_quiet _
  · exact withoutEffects_quiet _
  · exact withoutEffects_quiet _
  · exact withoutEffects_quiet _
  · exact quiet_nil
  · exact withoutEffects_quiet _
  · exact quiet_nil

theorem textKey_quiet (key : Key) (m : Model) :
    Yields (NormalMode.textKey key m) fun r => Quiet r.2 := by
  unfold NormalMode.textKey
  cases key with
  | ctrl c => exact ctrlKey_quiet c m
  | other name => exact otherKey_quiet name m
  | char c =>
    dsimp only
    split
    · exact quiet_nil
    · split
      · exact quiet_nil
      · exact withoutEffects_quiet _
  | backspace => exact withoutEffects_quiet _
  | left => exact withoutEffects_quiet _
  | right => exact withoutEffects_quiet _
  | up => exact withoutEffects_quiet _
  | down => exact withoutEffects_quiet _
  | paste text => exact withoutEffects_quiet _
  | _ => exact quiet_nil

theorem escape_quiet (m : Model) : Yields (NormalMode.escape m) fun r => Quiet r.2 := by
  unfold NormalMode.escape
  split
  · split
    · exact Yields.read fun _ => quiet_nil
    · exact quiet_nil
  · exact quiet_nil

theorem editKey_quiet (key : Key) (m : Model) :
    Yields (ShellMode.editKey key m) fun r => Quiet r.2 := by
  unfold ShellMode.editKey
  cases key with
  | ctrl c =>
    dsimp only
    split
    · exact withoutEffects_quiet _
    · exact quiet_nil
    · exact withoutEffects_quiet _
    · exact quiet_nil
  | other name => exact otherKey_quiet name m
  | char c => exact withoutEffects_quiet _
  | backspace => exact withoutEffects_quiet _
  | left => exact withoutEffects_quiet _
  | right => exact withoutEffects_quiet _
  | paste text => exact withoutEffects_quiet _
  | _ => exact quiet_nil

theorem deleteKey_quiet (key : Key) (m : Model) :
    Yields (ShellMode.deleteKey key m) fun r => Quiet r.2 := by
  unfold ShellMode.deleteKey
  split
  · split
    · exact withoutEffects_quiet _
    · exact withoutEffects_quiet _
  · split
    · exact withoutEffects_quiet _
    · exact editKey_quiet _ m
  · exact editKey_quiet _ m

theorem inputKey_quiet (key : Key) (m : Model) :
    Yields (ReadlineMode.inputKey key m) fun r => Quiet r.2 := by
  unfold ReadlineMode.inputKey
  split
  · split
    · exact quiet_singleton rfl
    · exact withoutEffects_quiet _
  · exact editKey_quiet _ m

/-! Submitting, which does hand something over, keeps them too. -/

theorem normalEnter_keepsPending (m : Model) :
    Yields (NormalMode.enter m) fun r => Quiet r.2 ∨ KeepsPending m r.1 := by
  refine (acceptBackslashCompletion_quiet m).bind fun accepted haccepted => ?_
  split
  · exact .inl (haccepted _ rfl)
  · unfold NormalMode.submit
    refine Yields.read fun action => ?_
    split
    · unfold NormalMode.submitNormalText
      dsimp only
      split
      · exact .inl (quiet_singleton rfl)
      · exact (clearModelForSubmit_pending _).bind fun m' hpending => .inr hpending
    · exact (withoutEffects_quiet _).mono fun _ => .inl
    · exact (withoutEffects_quiet _).mono fun _ => .inl

theorem normalKey_keepsPending (key : Key) (m : Model) :
    Yields (NormalMode.applyKey key m) fun r => Quiet r.2 ∨ KeepsPending m r.1 := by
  unfold NormalMode.applyKey
  split
  · exact (withoutEffects_quiet _).mono fun _ => .inl
  · exact (escape_quiet m).mono fun _ => .inl
  · exact normalEnter_keepsPending m
  · exact (textKey_quiet _ _).mono fun _ => .inl

theorem shellKey_keepsPending (key : Key) (m : Model) :
    Yields (ShellMode.applyKey key m) fun r => Quiet r.2 ∨ KeepsPending m r.1 := by
  unfold ShellMode.applyKey
  split
  · exact (withoutEffects_quiet _).mono fun _ => .inl
  · exact (withoutEffects_quiet _).mono fun _ => .inl
  · exact (withoutEffects_quiet _).mono fun _ => .inl
  · exact (withoutEffects_quiet _).mono fun _ => .inl
  · exact (withoutEffects_quiet _).mono fun _ => .inl
  · exact Yields.read fun _ =>
      (clearModelForSubmit_pending _).bind fun m' hpending => .inr hpending
  · exact (deleteKey_quiet _ _).mono fun _ => .inl
  · exact (deleteKey_quiet _ _).mono fun _ => .inl
  · exact (deleteKey_quiet _ _).mono fun _ => .inl

theorem aiKey_keepsPending (key : Key) (m : Model) :
    Yields (AiMode.applyKey key m) fun r => Quiet r.2 ∨ KeepsPending m r.1 := by
  unfold AiMode.applyKey
  split
  · exact (withoutEffects_quiet _).mono fun _ => .inl
  · exact (withoutEffects_quiet _).mono fun _ => .inl
  · exact (withoutEffects_quiet _).mono fun _ => .inl
  · exact (withoutEffects_quiet _).mono fun _ => .inl
  · exact (withoutEffects_quiet _).mono fun _ => .inl
  · refine Yields.read fun _ => (clearModelForSubmit_pending _).bind fun m' hpending => ?_
    split
    · exact .inr hpending
    · exact .inr hpending
  · exact (deleteKey_quiet _ _).mono fun _ => .inl

theorem readlineKey_keepsPending (key : Key) (m : Model) :
    Yields (ReadlineMode.applyKey key m) fun r => Quiet r.2 ∨ KeepsPending m r.1 := by
  unfold ReadlineMode.applyKey
  split
  · exact (blankInput_pending m .normal).bind fun m' hpending => .inr hpending
  · exact .inl quiet_nil
  · exact .inl quiet_nil
  · exact .inl quiet_nil
  · exact Yields.read fun _ =>
      (clearModelForSubmit_pending _).bind fun m' hpending => .inr hpending
  · exact (inputKey_quiet _ _).mono fun _ => .inl
  · exact (inputKey_quiet _ _).mono fun _ => .inl
  · exact (inputKey_quiet _ _).mono fun _ => .inl

end

end Model

namespace Update

variable {m m' : Model}

section
variable [Ucd]

theorem applyKey_keepsPending (h : m.Sound) (key : Key) {r : Model × List Effect}
    (happly : applyKey key m = .ok r) : KeepsPending m r.1 := by
  have hkeeps : Yields (applyKey key m) fun r => Quiet r.2 ∨ KeepsPending m r.1 := by
    unfold applyKey
    split
    · exact Model.readlineKey_keepsPending key m
    · exact Model.shellKey_keepsPending key m
    · exact Model.aiKey_keepsPending key m
    · exact Model.normalKey_keepsPending key m
    · exact (Model.withoutEffects_quiet _).mono fun _ => .inl
  obtain hquiet | hpending := hkeeps.of_eq_ok happly
  · exact ((applyKey_safe h key).of_eq_ok happly).records.keepsPending hquiet
  · exact hpending

theorem keyStep_keepsPending (h : m.Sound) (key : Key) {r : Model × List Effect}
    (hstep : keyStep key m = .ok r) : KeepsPending m r.1 := by
  obtain ⟨⟨m₂, effects⟩, hinput, hfollow⟩ := Outcome.bind_eq_ok.mp hstep
  obtain ⟨m₁, happly, hcorrect⟩ := handleKeyInput_eq_ok.mp hinput
  have hsame := (universalCorrections_safe ((applyKey_safe h key).of_eq_ok happly).mode
    key).of_eq_ok hcorrect
  have hkeeps : KeepsPending m m₂ :=
    (congrArg Repl.pendingSuggestion hsame.repl).trans (applyKey_keepsPending h key happly)
  dsimp only at hfollow
  split at hfollow
  · have hfollowed := ((Model.completionFollowup_safe _).of_eq_ok hfollow).1
    exact (congrArg Repl.pendingSuggestion hfollowed.repl).trans hkeeps
  · cases hfollow
    exact hkeeps

/-- What is pending after a message, if it was the stash of what had been received before. -/
theorem Steps.pending {msg : Msg} {suggestions : List Bytes} (hstep : Steps m msg m')
    (h : m.Sound) (hpending : m.repl.pendingSuggestion = stash suggestions) :
    m'.repl.pendingSuggestion = stash (receive suggestions msg) := by
  obtain ⟨effects, hupdate⟩ := hstep
  have hstep := (update_eq_ok hupdate).1
  have h₀ := (unscrolled_sameText m).sound h
  cases msg with
  | key key => exact (keyStep_keepsPending h₀ key hstep).trans hpending
  | response response =>
    obtain ⟨hresponse, -⟩ := (responseStep_safe h₀ response).of_eq_ok hstep
    split at hresponse
    · rename_i haside
      refine (congrArg Repl.pendingSuggestion hresponse.repl).trans (hpending.trans ?_)
      cases response with
      | shutdown => rfl
      | passthrough => rfl
      | passthroughEnd => rfl
      | completions token items => rfl
      | _ => cases haside
    · refine hresponse.pending.trans ?_
      show (suggestionAfter m.repl.pendingSuggestion response).1 = _
      rw [hpending]
      cases response with
      | aiSuggestion code => exact (stash_concat suggestions code).symm
      | _ => rfl
  | backslashEffectResult tokenStart originalToken insertedText =>
    obtain ⟨-, -, -, hrepl, -, -⟩ :=
      (insertStep_safe h₀ tokenStart originalToken insertedText).of_eq_ok hstep
    exact (congrArg Repl.pendingSuggestion hrepl).trans hpending
  | termResize width height =>
    obtain ⟨hsame, -⟩ := (resizeStep_safe h₀ width height).of_eq_ok hstep
    exact (congrArg Repl.pendingSuggestion hsame.repl).trans hpending

/-- What is pending at the end of a run is the stash of what it has received. -/
theorem received_pending {db : History.Db} {row width height : Int} {m₀ : Model} {msgs : List Msg}
    (h₀ : initialModel (History.init db) row width height = .ok m₀) (hrun : Run Steps m₀ msgs m) :
    m.Sound ∧ m.Within ∧ m.repl.pendingSuggestion = stash (received msgs) := by
  have hnone : m₀.repl.pendingSuggestion = none := by
    unfold initialModel at h₀
    obtain ⟨cache, -, h₀⟩ := Outcome.bind_eq_ok.mp h₀
    cases h₀
    rfl
  obtain ⟨hs₀, hw₀⟩ := initialModel_sound (History.kept_init db) h₀
  exact Run.account (I := fun suggestions m =>
      m.Sound ∧ m.Within ∧ m.repl.pendingSuggestion = stash suggestions)
    (fun ⟨hs, _, hpending⟩ hstep => by
      obtain ⟨effects, hupdate⟩ := hstep
      obtain ⟨hs', hw'⟩ := update_sound hs hupdate
      exact ⟨hs', hw', Steps.pending ⟨effects, hupdate⟩ hs hpending⟩)
    (b := []) ⟨hs₀, hw₀, hnone⟩ hrun

/-! ## Placing them -/

/-- The prompt consists of these lines, and the cursor is at its end. -/
structure EndsAt (lines : List UnicodeString) (m : Model) : Prop where
  lines : m.input.lines = lines
  cursorLine : m.input.cursorLine = m.input.lines.length - 1
  cursorPos : m.input.cursorPos = m.line.length

/-- The lines of a prompt that suggestions are put after. -/
def keptLines (m : Model) : List UnicodeString :=
  if m.input.lines.all isBlank then [] else m.input.lines

/-- The code lines follow the lines kept. -/
theorem placeSuggestion_eq (code : Bytes) (m : Model) :
    placeSuggestion code m =
      RLexCache.create (keptLines m ++ (splitOnChar newline code).map readable) >>= fun cache =>
        Model.moveCursorToEnd { m with
          input.lines := keptLines m ++ (splitOnChar newline code).map readable
          input.lexCache := cache } := by
  unfold placeSuggestion keptLines
  dsimp only
  by_cases hblank : m.input.lines.all isBlank = true
  · rw [if_pos hblank, if_pos hblank]
    rfl
  · rw [if_neg hblank, if_neg hblank]

omit [Ucd] in
theorem moveCursorToEnd_returns (hne : m.input.lines ≠ []) :
    Returns m.moveCursorToEnd fun m' => EndsAt m.input.lines m' ∧
      m'.repl.pendingSuggestion = m.repl.pendingSuggestion := by
  have hlen := List.length_pos_of_ne_nil hne
  have hlast : ((m.input.lines.length : Int) - 1).toNat = m.input.lines.length - 1 := by omega
  have hget : m.input.lines[((m.input.lines.length : Int) - 1).toNat]? =
      some (m.input.lines.getLast hne) := by
    rw [hlast, List.getLast_eq_getElem, List.getElem?_eq_getElem]
  show Returns (nth m.input.lines ((m.input.lines.length : Int) - 1) >>= _) _
  rw [nth_eq (by omega) hget]
  refine ⟨⟨rfl, rfl, ?_⟩, rfl⟩
  show ((m.input.lines.getLast hne).length : Int) =
    (m.input.lines.getD ((m.input.lines.length : Int) - 1).toNat .empty).length
  rw [List.getD_eq_getElem?_getD, hget]
  rfl

theorem placeSuggestion_yields (code : Bytes) (m : Model) :
    Yields (placeSuggestion code m) fun m' =>
      EndsAt (keptLines m ++ (splitOnChar newline code).map readable) m' ∧
        m'.repl.pendingSuggestion = m.repl.pendingSuggestion := by
  have hne : keptLines m ++ (splitOnChar newline code).map readable ≠ [] :=
    List.append_ne_nil_of_right_ne_nil _
      fun hnil => splitOnChar_ne_nil newline code (List.map_eq_nil_iff.mp hnil)
  rw [placeSuggestion_eq]
  refine Yields.read fun cache => ?_
  obtain ⟨m', hmoved, hends⟩ := (moveCursorToEnd_returns (m := { m with
    input.lines := keptLines m ++ (splitOnChar newline code).map readable
    input.lexCache := cache }) hne).exists
  rw [hmoved]
  exact hends

theorem placeSuggestion_returns_iff (code : Bytes) (m : Model) :
    (∃ m', placeSuggestion code m = .ok m') ↔
      ∃ cache, RLexCache.create (keptLines m ++ (splitOnChar newline code).map readable) =
        .ok cache := by
  have hne : keptLines m ++ (splitOnChar newline code).map readable ≠ [] :=
    List.append_ne_nil_of_right_ne_nil _
      fun hnil => splitOnChar_ne_nil newline code (List.map_eq_nil_iff.mp hnil)
  rw [placeSuggestion_eq]
  constructor
  · rintro ⟨m', hplace⟩
    obtain ⟨cache, hcache, -⟩ := Outcome.bind_eq_ok.mp hplace
    exact ⟨cache, hcache⟩
  · rintro ⟨cache, hcache⟩
    obtain ⟨m', hmoved, -⟩ := (moveCursorToEnd_returns (m := { m with
      input.lines := keptLines m ++ (splitOnChar newline code).map readable
      input.lexCache := cache }) hne).exists
    exact ⟨m', Outcome.bind_eq_ok.mpr ⟨cache, hcache, hmoved⟩⟩

/-- The model an Ai_done leaves before the code is placed. -/
def answered (m : Model) : Model := { m with
  repl.backendResponse := none
  repl.replOutput := some (.outputText [])
  repl.awaitingResponse := false
  repl.pendingSuggestion := none
  layout.scrollAmount := 0
  input.history := m.input.history.recordResponse .aiDone }

theorem step_aiDone (m : Model) :
    step (.response .aiDone) { m with layout.scrollAmount := 0 } =
      withoutEffects (match m.repl.pendingSuggestion with
        | some code => placeSuggestion code (answered m)
        | none => return answered m) := rfl

/-- In a prompt of R an Ai_done returns once its own step does. -/
theorem update_aiDone_of_step (h : m.Sound) (hw : m.Within) (hmode : m.input.mode = .normal)
    {r : Model × List Effect}
    (hstep : step (.response .aiDone) { m with layout.scrollAmount := 0 } = .ok r) :
    update (.response .aiDone) m = .ok r := by
  have hsame := unscrolled_sameText m
  obtain ⟨hresponded, -⟩ := (responseStep_safe (hsame.sound h) .aiDone).of_eq_ok hstep
  refine update_of_step (h.invariants_iff.mpr hw) hstep
    (hresponded.sound.invariants_iff.mpr (hresponded.within (hsame.within hw) ?_))
  intro code s _ hsearch
  exact nomatch hmode.symm.trans hsearch

theorem forall₂_readable {lines : List Bytes}
    (h : ∀ s ∈ lines, ∃ u, UnicodeString.ofString s = .ok u) :
    List.Forall₂ (fun s u => UnicodeString.ofString s = .ok u) lines (lines.map readable) := by
  rw [List.forall₂_map_right_iff, List.forall₂_same]
  intro s hs
  obtain ⟨u, hu⟩ := h s hs
  unfold readable
  rw [hu]

/-- An Ai_done puts the suggestions received since the last one at the end of the prompt, all of
them and in order, if the lexer accepts the lines; it leaves none pending. With no suggestion it
leaves text and cursor alone. -/
theorem suggestions_placed {db : History.Db} {row width height : Int} {m₀ : Model} {msgs : List Msg}
    (h₀ : initialModel (History.init db) row width height = .ok m₀) (hrun : Run Steps m₀ msgs m)
    (hmode : m.input.mode = .normal)
    (hreadable : ∀ code ∈ received msgs, ∀ s ∈ splitOnChar newline code,
      ∃ u, UnicodeString.ofString s = .ok u) :
    (received msgs = [] → ∃ m', update (.response .aiDone) m = .ok (m', []) ∧
      m'.input.lines = m.input.lines ∧ m'.input.cursorLine = m.input.cursorLine ∧
      m'.input.cursorPos = m.input.cursorPos ∧ m'.repl.pendingSuggestion = none) ∧
    (received msgs ≠ [] → ∃ placed,
      List.Forall₂ (fun s u => UnicodeString.ofString s = .ok u)
        (suggestedLines (received msgs)) placed ∧
      ((∃ r, update (.response .aiDone) m = .ok r) ↔
        ∃ cache, RLexCache.create (keptLines m ++ placed) = .ok cache) ∧
      ∀ m' effects, update (.response .aiDone) m = .ok (m', effects) →
        EndsAt (keptLines m ++ placed) m' ∧ m'.repl.pendingSuggestion = none) := by
  obtain ⟨hs, hw, hpending⟩ := received_pending h₀ hrun
  refine ⟨fun hnil => ?_, fun hne => ?_⟩
  · rw [hnil] at hpending
    have hstep := step_aiDone m
    rw [hpending] at hstep
    exact ⟨answered m, update_aiDone_of_step hs hw hmode hstep, rfl, rfl, rfl, rfl⟩
  · have hstep := step_aiDone m
    rw [hpending, stash_eq_some hne] at hstep
    dsimp only at hstep
    have hlines := splitOnChar_stash hne
    refine ⟨(suggestedLines (received msgs)).map readable, forall₂_readable fun s hs => ?_, ?_, ?_⟩
    · obtain rfl | ⟨code, hcode, hs⟩ := mem_suggestedLines hs
      · exact ⟨.empty, rfl⟩
      · exact hreadable code hcode s hs
    · have hreturns := placeSuggestion_returns_iff
        (concatWith [newline, newline] (received msgs)) (answered m)
      rw [hlines] at hreturns
      refine Iff.trans ⟨fun ⟨r, hupdate⟩ => ?_, fun ⟨m', hplace⟩ => ?_⟩ hreturns
      · obtain ⟨m', hplace, -⟩ :=
          Outcome.bind_eq_ok.mp (hstep.symm.trans (update_eq_ok hupdate).1)
        exact ⟨m', hplace⟩
      · rw [hplace] at hstep
        exact ⟨_, update_aiDone_of_step hs hw hmode hstep⟩
    · intro m' effects hupdate
      obtain ⟨m₁, hplace, heq⟩ :=
        Outcome.bind_eq_ok.mp (hstep.symm.trans (update_eq_ok hupdate).1)
      cases heq
      have hends := (placeSuggestion_yields _ _).of_eq_ok hplace
      rw [hlines] at hends
      exact hends

end

section

attribute [local instance] asciiUcd

/-- Two suggestions, the second after a line has been typed. -/
theorem suggestions_placed_twice : ∃ m₀ m,
    initialModel (History.init ⟨[], []⟩) 1 80 24 = .ok m₀ ∧
    Run Steps m₀ [.response (.aiSuggestion (bytes "a")), .key (.char (bytes "x")),
      .response (.aiSuggestion (bytes "b"))] m ∧
    ∃ placed, List.Forall₂ (fun s u => UnicodeString.ofString s = .ok u)
      (suggestedLines [bytes "a", bytes "b"]) placed ∧
      ((∃ r, update (.response .aiDone) m = .ok r) ↔
        ∃ cache, RLexCache.create (keptLines m ++ placed) = .ok cache) ∧
      ∀ m' effects, update (.response .aiDone) m = .ok (m', effects) →
        EndsAt (keptLines m ++ placed) m' ∧ m'.repl.pendingSuggestion = none := by
  obtain ⟨m₀, m, h₀, hrun, hmode⟩ : ∃ m₀ m,
      initialModel (History.init ⟨[], []⟩) 1 80 24 = .ok m₀ ∧
      Transition.exec next m₀ [.response (.aiSuggestion (bytes "a")), .key (.char (bytes "x")),
        .response (.aiSuggestion (bytes "b"))] = some m ∧ m.input.mode = .normal :=
    ⟨_, _, rfl, rfl, rfl⟩
  have hsteps := (Transition.run_of_exec hrun).mono steps_of_next
  refine ⟨m₀, m, h₀, hsteps, (suggestions_placed h₀ hsteps hmode ?_).2 (List.cons_ne_nil _ _)⟩
  intro code hcode s hs
  have hall : ∀ code ∈ [bytes "a", bytes "b"], ∀ s ∈ splitOnChar newline code,
      (UnicodeString.ofString s).isOk = true := by decide
  have hok := hall code hcode s hs
  cases hu : UnicodeString.ofString s with
  | ok u => exact ⟨u, rfl⟩
  | error e =>
    rw [hu] at hok
    cases hok

/-- An answer without a suggestion leaves the cursor where it is, before the text. -/
theorem answer_leaves_cursor : ∃ m₀ m m',
    initialModel (History.init ⟨[], []⟩) 1 80 24 = .ok m₀ ∧
    Run Steps m₀ [.key (.char (bytes "x")), .key .left] m ∧ m.input.mode = .normal ∧
    received [.key (.char (bytes "x")), .key .left] = [] ∧
    update (.response .aiDone) m = .ok (m', []) ∧
    ¬ EndsAt (keptLines m ++ []) m' := by
  obtain ⟨m₀, m, m', h₀, hrun, hmode, hdone, hpos, hline⟩ : ∃ m₀ m m',
      initialModel (History.init ⟨[], []⟩) 1 80 24 = .ok m₀ ∧
      Transition.exec next m₀ [.key (.char (bytes "x")), .key .left] = some m ∧
      m.input.mode = .normal ∧ update (.response .aiDone) m = .ok (m', []) ∧
      m'.input.cursorPos = 0 ∧ m'.line.length = 1 := ⟨_, _, _, rfl, rfl, rfl, rfl, rfl, rfl⟩
  refine ⟨m₀, m, m', h₀, (Transition.run_of_exec hrun).mono steps_of_next, hmode, rfl, hdone,
    fun hends => ?_⟩
  have := hends.cursorPos
  omega

end

end Update
end Raoui
