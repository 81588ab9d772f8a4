import Raoui.Editor.Editing
import Raoui.Editor.Update

/-!
# Raoui.Editor.Sound

The invariant of the whole model, and what it takes for the steps that are not edits: recalling
history, blanking the prompt, the completion list and the layout.

* `Sound`: the lines are coherent, so are the saved prompt and the history search.
* `Within`: the bound on the cursor that `assert_model_invariants` asserts, which is about the
  search query while a history search is open.
-/

namespace Raoui

open Outcome (Meets)
open UnicodeString (WellFormed clusterCount)

/-! ## History -/

/-- Lines a prompt can hold. -/
def Lines (lines : List UnicodeString) : Prop :=
  lines ≠ [] ∧ ∀ line ∈ lines, line.WellFormed

theorem lines_blank : Lines [.empty] :=
  ⟨by simp, fun _ hl => List.mem_singleton.mp hl ▸ UnicodeString.wellFormed_empty⟩

namespace History

/-- The prompt saved while recalling can be put back. -/
def Kept (t : History) : Prop := ∀ p, t.savedPrompt = some p → Lines p.2

/-- What has been recorded is the same: only the navigation differs. -/
structure SameRecords (t t' : History) : Prop where
  db : t'.db = t.db
  history : t'.history = t.history
  activeCommandId : t'.activeCommandId = t.activeCommandId
  activeCommandHadError : t'.activeCommandHadError = t.activeCommandHadError
  activeOutputOrdinal : t'.activeOutputOrdinal = t.activeOutputOrdinal

theorem SameRecords.refl (t : History) : t.SameRecords t := ⟨rfl, rfl, rfl, rfl, rfl⟩

theorem SameRecords.indexed (t : History) (idx : Nat) :
    t.SameRecords { t with currentIndex := idx } := ⟨rfl, rfl, rfl, rfl, rfl⟩

theorem SameRecords.trans {t₁ t₂ t₃ : History} (h : t₁.SameRecords t₂) (h' : t₂.SameRecords t₃) :
    t₁.SameRecords t₃ :=
  ⟨h'.db.trans h.db, h'.history.trans h.history, h'.activeCommandId.trans h.activeCommandId,
    h'.activeCommandHadError.trans h.activeCommandHadError,
    h'.activeOutputOrdinal.trans h.activeOutputOrdinal⟩

/-- What looking back or forwards gives: an entry to show, and the history it leaves. -/
structure Navigates (t : History) (r : Option (Bytes × List UnicodeString) × History) : Prop where
  shown : ∀ p, r.1 = some p → Lines p.2
  kept : r.2.Kept
  records : t.SameRecords r.2

theorem nthNewest_safe (t : History) (i : Nat) : Safe (nthNewest t i) fun _ => True := by
  unfold nthNewest
  split
  · trivial
  · exact nofun

theorem updateSearchNeedle_safe (t : History) (prompt : List UnicodeString) :
    Safe (updateSearchNeedle t prompt) fun t' =>
      t.SameRecords t' ∧ t'.savedPrompt = t.savedPrompt := by
  have hmatches : Safe (promptMatchesEntry t prompt t.currentIndex) fun _ => True := by
    unfold promptMatchesEntry
    split
    · exact (nthNewest_safe _ _).bind fun _ _ => trivial
    · trivial
  refine hmatches.bind fun b _ => ?_
  split
  · exact ⟨SameRecords.refl t, rfl⟩
  · exact ⟨⟨rfl, rfl, rfl, rfl, rfl⟩, rfl⟩

theorem isDuplicateOfPrevious_safe (t : History) (idx : Nat) :
    Safe (isDuplicateOfPrevious t idx) fun _ => True := by
  unfold isDuplicateOfPrevious
  split
  · exact (nthNewest_safe _ _).bind fun _ _ => (nthNewest_safe _ _).bind fun _ _ => trivial
  · trivial

section
variable [Ucd]

theorem toLine_safe (s : Bytes) : Safe (toLine s) UnicodeString.WellFormed := by
  unfold toLine
  split
  · rename_i u hu
    exact UnicodeString.wellFormed_of_ofString hu
  · exact nofun

theorem toUs_safe (s : Bytes) : Safe (toUs s) Lines := by
  refine (Meets.mapM (splitOnChar newline s) fun l _ => toLine_safe l).mono fun lines ⟨hlen, hwf⟩ => ?_
  refine ⟨fun hnil => ?_, hwf⟩
  rw [hnil] at hlen
  exact splitOnChar_ne_nil newline s (List.length_eq_zero_iff.mp hlen.symm)

/-- At one entry: it is shown, or the search goes on. -/
theorem lookedAt_safe {t : History} (hkept : t.Kept) (index idx : Nat)
    {again : Res (Option (Bytes × List UnicodeString) × History)}
    (hagain : Safe again t.Navigates) :
    Safe (do
      if ← isDuplicateOfPrevious { t with currentIndex := index } idx then again
      else
        let entry ← nthNewest { t with currentIndex := index } idx
        if matchesPrompt t.searchNeedle entry.entryText then
          return (some (entry.entryMode, ← toUs entry.entryText),
            { t with currentIndex := index })
        else again) t.Navigates := by
  refine (isDuplicateOfPrevious_safe _ _).bind fun dup _ => ?_
  split
  · exact hagain
  · refine (nthNewest_safe _ _).bind fun entry _ => ?_
    split
    · refine (toUs_safe _).bind fun lines hlines => ?_
      exact ⟨fun p hp => by cases hp; exact hlines, hkept, ⟨rfl, rfl, rfl, rfl, rfl⟩⟩
    · exact hagain

theorem goBackFrom_safe (fuel : Nat) {t : History} (hkept : t.Kept) :
    Safe (goBackFrom fuel t) t.Navigates := by
  induction fuel generalizing t with
  | zero => exact ⟨nofun, hkept, SameRecords.refl t⟩
  | succ fuel ih =>
    have hagain : Safe (goBackFrom fuel { t with currentIndex := t.currentIndex + 1 })
        t.Navigates :=
      (ih (t := { t with currentIndex := t.currentIndex + 1 }) hkept).mono
        fun r hr => ⟨hr.shown, hr.kept, (SameRecords.indexed t _).trans hr.records⟩
    exact lookedAt_safe hkept _ _ hagain

theorem goBack_safe {t : History} (hkept : t.Kept) {p : Bytes × List UnicodeString}
    (hp : Lines p.2) : Safe (goBack t p) t.Navigates := by
  have hsaved : (if t.currentIndex = 0 then { t with savedPrompt := some p } else t).Kept := by
    split
    · intro q hq
      cases hq
      exact hp
    · exact hkept
  have hsame : t.SameRecords (if t.currentIndex = 0 then { t with savedPrompt := some p } else t) := by
    split
    · exact ⟨rfl, rfl, rfl, rfl, rfl⟩
    · exact SameRecords.refl t
  refine (updateSearchNeedle_safe _ _).bind fun t' ⟨hrec, hprompt⟩ => ?_
  have hkept' : t'.Kept := fun q hq => hsaved q (hprompt ▸ hq)
  exact (goBackFrom_safe _ hkept').mono fun r hr =>
    ⟨hr.shown, hr.kept, (hsame.trans hrec).trans hr.records⟩

theorem goForwardsFrom_safe (idx : Nat) {t : History} (hkept : t.Kept) :
    Safe (goForwardsFrom idx t) t.Navigates := by
  induction idx generalizing t with
  | zero => exact ⟨nofun, hkept, SameRecords.refl t⟩
  | succ idx ih =>
    have hagain : Safe (goForwardsFrom idx { t with currentIndex := idx }) t.Navigates :=
      (ih (t := { t with currentIndex := idx }) hkept).mono
        fun r hr => ⟨hr.shown, hr.kept, (SameRecords.indexed t _).trans hr.records⟩
    cases idx with
    | zero => exact ⟨fun p hp => hkept p hp, hkept, ⟨rfl, rfl, rfl, rfl, rfl⟩⟩
    | succ idx => exact lookedAt_safe hkept _ _ hagain

theorem goForwards_safe {t : History} (hkept : t.Kept) (p : Bytes × List UnicodeString) :
    Safe (goForwards t p) t.Navigates := by
  refine (updateSearchNeedle_safe _ _).bind fun t' ⟨hrec, hprompt⟩ => ?_
  have hkept' : t'.Kept := fun q hq => hkept q (hprompt ▸ hq)
  exact (goForwardsFrom_safe _ hkept').mono fun r hr =>
    ⟨hr.shown, hr.kept, hrec.trans hr.records⟩

end

theorem finishActive_savedPrompt (t : History) (status : Status) :
    (finishActive t status).savedPrompt = t.savedPrompt := by
  unfold finishActive
  split <;> rfl

theorem kept_init (db : Db) : (History.init db).Kept := fun p hp => by
  unfold History.init at hp
  cases hp

theorem Kept.addToHistory {t : History} (h : t.Kept) (mode : Bytes) (lines : List UnicodeString) :
    (t.addToHistory mode lines).Kept := by
  unfold History.addToHistory
  dsimp only
  split
  · exact h
  · exact nofun

theorem recordOutput_savedPrompt (t : History) (kind : Bytes) (text image : Option Bytes) :
    (recordOutput t kind text image).savedPrompt = t.savedPrompt := by
  unfold recordOutput
  split <;> rfl

theorem recordResponse_savedPrompt (t : History) (r : Ffi.ResponseChunk) :
    (recordResponse t r).savedPrompt = t.savedPrompt := by
  -- the answer that ends a command, over the store its output is recorded in
  have hends : ∀ t' : History, t'.savedPrompt = t.savedPrompt →
      ∀ status, (finishActive t' status).savedPrompt = t.savedPrompt := fun t' ht' status =>
    (finishActive_savedPrompt t' status).trans ht'
  unfold recordResponse
  cases responseOutput r with
  | none =>
    dsimp only
    split
    · exact hends t rfl _
    · exact hends t rfl _
    · exact hends t rfl _
    · exact hends t rfl _
    · rfl
  | some output =>
    have hrecorded : (recordOutput (if output.1 = bytes "error" ∨ output.1 = bytes "internal_error" then
        { t with activeCommandHadError := true } else t) output.1 output.2.1
          output.2.2).savedPrompt = t.savedPrompt := by
      rw [recordOutput_savedPrompt]
      split <;> rfl
    dsimp only
    split
    · exact hends _ hrecorded _
    · exact hends _ hrecorded _
    · exact hends _ hrecorded _
    · exact hends _ hrecorded _
    · exact hrecorded

theorem Kept.recordResponse {t : History} (h : t.Kept) (r : Ffi.ResponseChunk) :
    (t.recordResponse r).Kept := by
  intro p hp
  rw [recordResponse_savedPrompt] at hp
  exact h p hp

end History

/-! ## Sound models -/

/-- The query is well formed and the selection is one of the entries found. -/
structure SearchState.Sound (s : SearchState) : Prop where
  wellFormed : s.search.WellFormed
  selected_nonneg : 0 ≤ s.selected
  selected_lt : s.found ≠ [] → s.selected < s.found.length

def Mode.Sound : Mode → Prop
  | .historySearch s => s.Sound
  | _ => True

namespace Model

structure Sound (m : Model) : Prop where
  coherent : m.Coherent
  kept : m.input.history.Kept
  mode : m.input.mode.Sound

/-- The bound on the cursor that is asserted. -/
def Within (m : Model) : Prop :=
  match m.input.mode with
  | .historySearch s => m.input.cursorPos ≤ s.search.length
  | _ => m.InRange

theorem within_of_not_search {m : Model} (h : ∀ s, m.input.mode ≠ .historySearch s) :
    m.Within ↔ m.InRange := by
  unfold Within
  split
  · rename_i s hs
    exact absurd hs (h s)
  · rfl

theorem Sound.invariants_iff {m : Model} (h : m.Sound) : m.invariants = true ↔ m.Within := by
  have hc := h.coherent
  have hne : m.input.lines ≠ [] := by
    intro hnil
    have h0 := hc.line_nonneg
    have hlt := hc.line_lt
    rw [hnil] at hlt
    simp only [List.length_nil, Int.natCast_zero] at hlt
    omega
  unfold Model.invariants Within
  simp only [hne, hc.line_nonneg, hc.line_lt, hc.pos_nonneg, ne_eq, not_false_iff, decide_true,
    Bool.true_and]
  cases m.input.mode with
  | historySearch s => simp
  | _ => simp [InRange, line]

/-- Only the layout, the completion list and what remembers earlier keys differ. -/
structure SameText (m m' : Model) : Prop where
  lines : m'.input.lines = m.input.lines
  lexCache : m'.input.lexCache = m.input.lexCache
  cursorLine : m'.input.cursorLine = m.input.cursorLine
  cursorPos : m'.input.cursorPos = m.input.cursorPos
  history : m'.input.history = m.input.history
  mode : m'.input.mode = m.input.mode
  repl : m'.repl = m.repl

theorem SameText.refl (m : Model) : m.SameText m := ⟨rfl, rfl, rfl, rfl, rfl, rfl, rfl⟩

theorem SameText.trans {m₁ m₂ m₃ : Model} (h : m₁.SameText m₂) (h' : m₂.SameText m₃) :
    m₁.SameText m₃ :=
  ⟨h'.lines.trans h.lines, h'.lexCache.trans h.lexCache, h'.cursorLine.trans h.cursorLine,
    h'.cursorPos.trans h.cursorPos, h'.history.trans h.history, h'.mode.trans h.mode,
    h'.repl.trans h.repl⟩

theorem SameText.line {m m' : Model} (h : m.SameText m') : m'.line = m.line := by
  rw [Model.line, h.lines, h.cursorLine]
  rfl

theorem SameText.sound {m m' : Model} (h : m.SameText m') (hs : m.Sound) : m'.Sound := by
  obtain ⟨⟨hwf, h0, hlt, hpos, hcached⟩, hkept, hmode⟩ := hs
  refine ⟨⟨?_, ?_, ?_, ?_, ?_⟩, ?_, ?_⟩
  · rw [h.lines]
    exact hwf
  · rw [h.cursorLine]
    exact h0
  · rw [h.cursorLine, h.lines]
    exact hlt
  · rw [h.cursorPos]
    exact hpos
  · rw [h.lexCache, h.lines]
    exact hcached
  · rw [h.history]
    exact hkept
  · rw [h.mode]
    exact hmode

theorem SameText.within {m m' : Model} (h : m.SameText m') (hw : m.Within) : m'.Within := by
  unfold Within at hw ⊢
  rw [h.mode, h.cursorPos]
  unfold InRange at hw ⊢
  rw [h.line, h.cursorPos]
  exact hw

theorem SameText.lexed [Ucd] {m m' : Model} (h : m.SameText m') (hl : m.Lexed) : m'.Lexed := by
  unfold Lexed at hl ⊢
  rw [h.mode, h.lines, h.lexCache]
  exact hl

theorem setCompletion_sameText (m : Model) (completion : Option Completion) :
    m.SameText (m.setCompletion completion) := ⟨rfl, rfl, rfl, rfl, rfl, rfl, rfl⟩

theorem leaveCompletion_sameText (m : Model) : m.SameText m.leaveCompletion := by
  unfold leaveCompletion
  split
  · exact setCompletion_sameText m none
  · exact SameText.refl m

theorem filterCompletions_safe (m : Model) : Safe m.filterCompletions m.SameText := by
  have hset := setCompletion_sameText m
  unfold filterCompletions
  split
  · exact hset none
  · split
    · exact SameText.refl m
    · split
      · exact SameText.refl m
      · refine (nth_safe _ _).bind fun line _ => ?_
        split
        · exact hset none
        · exact hset _

/-- A model with other lines, the cursor at the end of the last. -/
theorem Sound.of_moveCursorToEnd {m : Model} (hlines : Lines m.input.lines)
    (hcached : LexerCache.texts m.input.lexCache = m.input.lines.map UnicodeString.toBytes)
    (hkept : m.input.history.Kept) (hmode : m.input.mode.Sound) :
    Safe m.moveCursorToEnd fun m' => m'.Sound ∧ m'.InRange ∧ m.Frame m' ∧
      (m'.input.lines = m.input.lines ∧ m'.input.lexCache = m.input.lexCache) ∧
      m'.input.cursorPos = ((m.input.lines.getLast hlines.1).length : Int) := by
  refine (moveCursorToEnd_safe hlines.2 hlines.1 hcached).mono
    fun m' ⟨hc, hframe, hrange, hsame, hcache, hpos⟩ =>
      ⟨⟨hc, ?_, ?_⟩, hrange, hframe, ⟨hsame, hcache⟩, hpos⟩
  · rw [hframe.history]
    exact hkept
  · rw [hframe.mode]
    exact hmode

/-- Blank lines, the cursor at their start. -/
theorem Sound.blank {m : Model} (hlines : m.input.lines = [.empty])
    (hcached : LexerCache.texts m.input.lexCache = [UnicodeString.empty.toBytes])
    (hline : m.input.cursorLine = 0) (hpos : m.input.cursorPos = 0)
    (hkept : m.input.history.Kept) (hmode : m.input.mode.Sound) : m.Sound ∧ m.Within := by
  have hc : m.Coherent := by
    refine ⟨?_, by omega, ?_, by omega, ?_⟩
    · rw [hlines]
      exact lines_blank.2
    · rw [hlines, hline]
      decide
    · rw [hcached, hlines]
      rfl
  refine ⟨⟨hc, hkept, hmode⟩, ?_⟩
  unfold Within InRange
  split
  · omega
  · omega

theorem modeOfHistoryString_safe (s : Bytes) : Safe (modeOfHistoryString s) fun mode =>
    ∀ st, mode ≠ .historySearch st := by
  unfold modeOfHistoryString
  split
  · exact nofun
  · split
    · exact nofun
    · split
      · exact nofun
      · exact nofun

theorem sound_of_not_search {mode : Mode} (h : ∀ s, mode ≠ .historySearch s) :
    mode.Sound := by
  cases mode with
  | historySearch s => exact absurd rfl (h s)
  | _ => trivial

section
variable [Ucd]

theorem clearModelForSubmit_safe {m : Model} (hkept : m.input.history.Kept)
    (hmode : m.input.mode.Sound) : Safe m.clearModelForSubmit fun m' => m'.Sound ∧ m'.Within ∧
      m'.repl.awaitingResponse = true ∧ m'.repl.pendingSuggestion = m.repl.pendingSuggestion ∧
        m'.input.history = m.input.history ∧ m'.input.mode = m.input.mode ∧ m'.Lexed := by
  refine (RLexCache.create_safe _).bind fun cache ⟨hcache, hlexed⟩ => ?_
  obtain ⟨hs, hw⟩ := Sound.blank (m := { m with
    input.lines := [.empty], input.lexCache := cache, input.cursorLine := 0,
    input.cursorPos := 0 }) rfl hcache rfl rfl hkept hmode
  exact ⟨⟨⟨hs.coherent.wellFormed, hs.coherent.line_nonneg, hs.coherent.line_lt,
    hs.coherent.pos_nonneg, hs.coherent.cached⟩, hkept, hmode⟩, hw, rfl, rfl, rfl, rfl,
    lexed_of_create hlexed⟩

theorem blankInput_safe {m : Model} (hkept : m.input.history.Kept) {mode : Mode}
    (hmode : mode.Sound) : Safe (m.blankInput mode) fun m' => m'.Sound ∧ m'.Within ∧
      m'.repl = m.repl ∧ m'.input.history = m.input.history ∧ m'.input.mode = mode ∧
        m'.Lexed := by
  refine (RLexCache.create_safe _).bind fun cache ⟨hcache, hlexed⟩ => ?_
  obtain ⟨hs, hw⟩ := Sound.blank (m := { m with
    input.mode := mode, input.lines := [.empty], input.lexCache := cache, input.cursorLine := 0,
    input.cursorPos := 0 }) rfl hcache rfl rfl hkept hmode
  exact ⟨hs, hw, rfl, rfl, rfl, lexed_of_create hlexed⟩

theorem Sound.shiftHistory {m : Model} (h : m.Sound) (amount : Int)
    (hmode : m.input.mode = .normal ∨ m.input.mode = .shell ∨ m.input.mode = .ai) :
    Safe (m.shiftHistory amount) fun m' => m'.Sound ∧ (m.Within → m'.Within) ∧
      m'.repl = m.repl ∧ m.input.history.SameRecords m'.input.history ∧
        (m.Lexed → m'.Lexed) := by
  have hlines : Lines m.input.lines := by
    refine ⟨fun hnil => ?_, h.coherent.wellFormed⟩
    have h0 := h.coherent.line_nonneg
    have hlt := h.coherent.line_lt
    rw [hnil] at hlt
    simp only [List.length_nil, Int.natCast_zero] at hlt
    omega
  have hstring : Safe (historyModeString m.input.mode) fun _ => True := by
    rcases hmode with hm | hm | hm <;> rw [hm] <;> trivial
  refine hstring.bind fun modeString _ => ?_
  have hnav : Safe (if amount > 0 then m.input.history.goBack (modeString, m.input.lines)
      else m.input.history.goForwards (modeString, m.input.lines)) m.input.history.Navigates := by
    split
    · exact History.goBack_safe h.kept hlines
    · exact History.goForwards_safe h.kept _
  refine hnav.bind fun r hr => ?_
  dsimp only
  split
  · rename_i modeString' lines hshown
    refine (modeOfHistoryString_safe _).bind fun mode hnot => ?_
    refine (RLexCache.create_safe _).bind fun cache ⟨hcache, hlexed⟩ => ?_
    refine Meets.mono (Sound.of_moveCursorToEnd (hr.shown _ hshown) hcache hr.kept
      (sound_of_not_search hnot)) fun m' ⟨hs, hrange, hframe, ⟨hsame, hsameCache⟩, _⟩ => ?_
    refine ⟨hs, fun _ => (within_of_not_search fun s => ?_).mpr hrange, hframe.repl, ?_,
      fun _ => lexed_of_create ?_⟩
    · rw [hframe.mode]
      exact hnot s
    · rw [hframe.history]
      exact hr.records
    · rw [hsame, hsameCache]
      exact hlexed
  · exact ⟨⟨⟨h.coherent.wellFormed, h.coherent.line_nonneg, h.coherent.line_lt,
      h.coherent.pos_nonneg, h.coherent.cached⟩, hr.kept, h.mode⟩, fun hw => hw, rfl, hr.records, id⟩

end

end Model

end Raoui
