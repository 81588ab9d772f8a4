import Raoui.Editor.Handlers

/-!
# Raoui.Editor.SearchKeys

What a key does in a history search, and with it what a key does in any mode.

* `Searches`: the query may change and the cursor move in it; nothing is asked for.
* `KeyOk`: the condition under which a key keeps the cursor within its line.
-/

namespace Raoui

open Outcome (Meets)
open Tty (Key)
open UnicodeString (WellFormed clusterCount)

namespace Model

variable {m : Model} {s : SearchState}

theorem within_iff_search (hmode : m.input.mode = .historySearch s) :
    m.Within ↔ m.input.cursorPos ≤ s.search.length := by
  unfold Within
  rw [hmode]

theorem Sound.searching (h : m.Sound) (hmode : m.input.mode = .historySearch s) : s.Sound := by
  have := h.mode
  rw [hmode] at this
  exact this

section
variable [Ucd]

structure Searches (m : Model) (cond : Prop) (m' : Model) : Prop where
  mode : m'.input.mode.Sound
  lexed : m.Lexed → m'.Lexed
  sound : 0 ≤ m'.input.cursorPos → m'.Sound
  within : m.Within → cond → 0 ≤ m'.input.cursorPos ∧ m'.Within
  repl : m'.repl = m.repl
  history : m'.input.history = m.input.history

theorem Searches.handled {cond : Prop} {m' : Model} (h : m.Searches cond m') :
    m.Handled cond (m', []) :=
  ⟨h.mode, h.lexed, h.sound, h.within, .quiet h.repl (h.history ▸ History.SameRecords.refl _)
    (List.forall_mem_nil _)⟩

end

end Model

namespace HistorySearch

open Model (Searches)

variable {m : Model} {s : SearchState}

theorem getState_eq (hmode : m.input.mode = .historySearch s) : getState m = .ok s := by
  unfold getState
  rw [hmode]

theorem getInput_eq (hmode : m.input.mode = .historySearch s) : getInput m = .ok s.search := by
  unfold getInput
  rw [getState_eq hmode]
  rfl

theorem setSearch_eq (hmode : m.input.mode = .historySearch s) (search : UnicodeString) :
    setSearch m search = .ok { m with input.mode := .historySearch { s with search } } := by
  unfold setSearch
  rw [getState_eq hmode]
  rfl

theorem freshState_sound (history : History) {search : UnicodeString} (hwf : search.WellFormed) :
    (freshState history search).Sound :=
  ⟨hwf, Int.le_refl 0, fun hne => Int.ofNat_lt.mpr (List.length_pos_iff.mpr hne)⟩

theorem nextWordFrom_safe (search : UnicodeString) (fuel : Nat) (seen : Bool) {pos : Int}
    (hpos : 0 ≤ pos) : Safe (nextWordFrom search fuel seen pos) fun pos' =>
      0 ≤ pos' ∧ (pos ≤ search.length → pos' ≤ search.length) := by
  induction fuel generalizing seen pos with
  | zero => exact ⟨hpos, id⟩
  | succ fuel ih =>
    unfold nextWordFrom
    split
    · exact ⟨hpos, id⟩
    · rename_i hlt
      have hstep : ∀ pos' : Int, 0 ≤ pos' ∧ (pos + 1 ≤ search.length → pos' ≤ search.length) →
          0 ≤ pos' ∧ (pos ≤ search.length → pos' ≤ search.length) :=
        fun pos' ⟨h0, hle⟩ => ⟨h0, fun _ => hle (by omega)⟩
      refine (UnicodeString.clusterAt_safe _ _).bind fun c _ => ?_
      refine (isWordChar_safe _).bind fun isWord _ => ?_
      show Safe (if _ then _ else _) _
      split
      · exact (ih true (by omega)).mono hstep
      · split
        · exact ⟨hpos, id⟩
        · exact (ih false (by omega)).mono hstep

theorem lastWordFrom_safe (search : UnicodeString) (n : Nat) (seen : Bool) :
    Safe (lastWordFrom search n seen) fun pos' => 0 ≤ pos' ∧ pos' ≤ n := by
  induction n generalizing seen with
  | zero => exact ⟨Int.le_refl 0, Int.le_refl 0⟩
  | succ n ih =>
    have hstep : ∀ pos' : Int, 0 ≤ pos' ∧ pos' ≤ n → 0 ≤ pos' ∧ pos' ≤ (n + 1 : Nat) :=
      fun pos' ⟨h0, hle⟩ => ⟨h0, by omega⟩
    unfold lastWordFrom
    refine (UnicodeString.clusterAt_safe _ _).bind fun c _ => ?_
    refine (isWordChar_safe _).bind fun isWord _ => ?_
    show Safe (if _ then _ else _) _
    split
    · exact (ih true).mono hstep
    · split
      · exact ⟨by omega, by omega⟩
      · exact (ih false).mono hstep

section
variable [Ucd]

/-- The state of the search becomes `s'` and the cursor goes to `pos`. -/
theorem searches_of (h : m.Sound) (hmode : m.input.mode = .historySearch s) {s' : SearchState}
    {pos : Int} {cond : Prop} (hs : s'.Sound)
    (hin : m.Within → cond → 0 ≤ pos ∧ pos ≤ s'.search.length) :
    m.Searches cond { m with input.mode := .historySearch s', input.cursorPos := pos } := by
  have hc := h.coherent
  refine ⟨hs, fun hl => ?_,
    fun hpos => ⟨⟨hc.wellFormed, hc.line_nonneg, hc.line_lt, hpos, hc.cached⟩, h.kept, hs⟩,
    hin, rfl, rfl⟩
  unfold Model.Lexed at hl
  rw [hmode] at hl
  exact hl

/-- Searching again keeps the query. -/
theorem searchAndUpdate_safe (h : m.Sound) (hmode : m.input.mode = .historySearch s)
    {s' : SearchState} {pos : Int} {cond : Prop} (hwf : s'.search.WellFormed)
    (hin : m.Within → cond → 0 ≤ pos ∧ pos ≤ s'.search.length) :
    Safe (searchAndUpdate { m with input.mode := .historySearch s', input.cursorPos := pos })
      (m.Searches cond) :=
  searches_of h hmode (freshState_sound m.input.history hwf) hin

theorem searches_at (h : m.Sound) (hmode : m.input.mode = .historySearch s) {pos : Int}
    (hpos : 0 ≤ pos) {cond : Prop} (hin : m.input.cursorPos ≤ s.search.length → pos ≤ s.search.length) :
    m.Searches cond { m with input.cursorPos := pos } := by
  have : m.Searches cond _ := searches_of h hmode (h.searching hmode) fun hw _ =>
    ⟨hpos, hin ((Model.within_iff_search hmode).mp hw)⟩
  rw [← hmode] at this
  exact this

theorem searches_refl (h : m.Sound) (hmode : m.input.mode = .historySearch s) {cond : Prop} :
    m.Searches cond m :=
  searches_at h hmode h.coherent.pos_nonneg id

theorem goToNextWord_safe (h : m.Sound) (hmode : m.input.mode = .historySearch s) {cond : Prop} :
    Safe (goToNextWord m) (m.Searches cond) := by
  unfold goToNextWord
  rw [getInput_eq hmode]
  refine (nextWordFrom_safe s.search _ false h.coherent.pos_nonneg).bind fun pos ⟨h0, hle⟩ => ?_
  exact searches_at h hmode h0 hle

theorem goToLastWord_safe (h : m.Sound) (hmode : m.input.mode = .historySearch s) {cond : Prop} :
    Safe (goToLastWord m) (m.Searches cond) := by
  unfold goToLastWord
  rw [getInput_eq hmode]
  refine (lastWordFrom_safe s.search _ false).bind fun pos ⟨h0, hle⟩ => ?_
  have := h.coherent.pos_nonneg
  exact searches_at h hmode h0 fun hin => by omega

theorem moveSelection_safe (h : m.Sound) (hmode : m.input.mode = .historySearch s) (amount : Int)
    {cond : Prop} : Safe (moveSelection m amount) (m.Searches cond) := by
  unfold moveSelection
  rw [getState_eq hmode]
  show Safe (if _ then _ else _) _
  split
  · exact searches_refl h hmode
  · rename_i hn
    refine searches_of h hmode ⟨(h.searching hmode).wellFormed, ?_, fun _ => ?_⟩ fun hw _ => ?_
    · show 0 ≤ max 0 _
      omega
    · show max 0 (min ((s.found.length : Int) - 1) (s.selected + amount)) < s.found.length
      omega
    · exact ⟨h.coherent.pos_nonneg, (Model.within_iff_search hmode).mp hw⟩

theorem moveLeft_searches (h : m.Sound) (hmode : m.input.mode = .historySearch s) {cond : Prop} :
    m.Searches cond (moveLeft m) := by
  unfold moveLeft
  split
  · exact searches_at h hmode (by omega) fun hin => by omega
  · exact searches_refl h hmode

theorem moveRight_safe (h : m.Sound) (hmode : m.input.mode = .historySearch s) {cond : Prop} :
    Safe (moveRight m) (m.Searches cond) := by
  unfold moveRight
  rw [getInput_eq hmode]
  show Safe (if _ then _ else _) _
  have := h.coherent.pos_nonneg
  split
  · exact searches_at h hmode (by omega) fun _ => by omega
  · exact searches_refl h hmode

theorem goToEnd_safe (h : m.Sound) (hmode : m.input.mode = .historySearch s) {cond : Prop} :
    Safe (goToEnd m) (m.Searches cond) := by
  unfold goToEnd
  rw [getInput_eq hmode]
  exact searches_at h hmode (Int.natCast_nonneg _) fun _ => Int.le_refl _

theorem searchAndUpdate_self (h : m.Sound) (hmode : m.input.mode = .historySearch s) {cond : Prop} :
    Safe (searchAndUpdate m) (m.Searches cond) := by
  have : Safe _ (m.Searches cond) := searchAndUpdate_safe h hmode
    (h.searching hmode).wellFormed fun hw _ =>
      ⟨h.coherent.pos_nonneg, (Model.within_iff_search hmode).mp hw⟩
  rw [← hmode] at this
  exact this

theorem otherKey_safe (h : m.Sound) (hmode : m.input.mode = .historySearch s) (name : String)
    {cond : Prop} : Safe (otherKey name m) (m.Searches cond) := by
  unfold otherKey
  split
  · exact goToNextWord_safe h hmode
  · exact goToLastWord_safe h hmode
  · exact searches_refl h hmode

/-- The condition for a key in a history search. -/
def SearchOk (key : Key) (s : SearchState) (pos : Int) : Prop :=
  match key with
  | .ctrl c =>
    match c with
    | 'd' => pos < s.search.length → s.search.DeletesAt pos
    | _ => True
  | .char c => s.search.Takes pos c
  | .backspace => pos ≠ 0 → s.search.DeletesAt (pos - 1)
  | .paste text =>
    let clean := (splitOnChar newline text).flatten
    UnicodeString.isSingleAsciiWidth1 clean = true ∨
      UnicodeString.ReadsAs (s.search.length - pos - pos) (clean ++ s.search.bytesAfter pos)
  | _ => True

theorem insertChar_safe (h : m.Sound) (hmode : m.input.mode = .historySearch s) (c : Bytes) :
    Safe (do searchAndUpdate (← insertChar m c))
      (m.Searches (s.search.Takes m.input.cursorPos c)) := by
  have hpos := h.coherent.pos_nonneg
  refine Meets.via (fun m' => m' = m ∨ ∃ search, s.search.insertString m.input.cursorPos c = .ok search ∧
    m' = { m with input.mode := .historySearch { s with search },
                  input.cursorPos := m.input.cursorPos + 1 }) ?_ fun m' hm' => ?_
  · unfold insertChar
    rw [getInput_eq hmode]
    dsimp only [Bind.bind, Except.bind]
    split
    · exact .inl rfl
    · rename_i search hsearch
      rw [setSearch_eq hmode]
      exact .inr ⟨search, hsearch, rfl⟩
  · obtain rfl | ⟨search, hsearch, rfl⟩ := hm'
    · exact searchAndUpdate_self h hmode
    · obtain ⟨hwf, hlen⟩ := UnicodeString.insertString_cases (h.searching hmode).wellFormed
        hpos hsearch
      refine searchAndUpdate_safe h hmode hwf fun hw htakes => ⟨by omega, ?_⟩
      have hin := (Model.within_iff_search hmode).mp hw
      show m.input.cursorPos + 1 ≤ (search.length : Int)
      obtain ⟨_, hlen⟩ | ⟨suffix, hsuffix, hascii, hlen⟩ := hlen
      · omega
      · obtain hone | hmore := htakes
        · rw [hascii] at hone
          cases hone
        · have := hmore suffix hsuffix
          omega

theorem insertPaste_safe (h : m.Sound) (hmode : m.input.mode = .historySearch s) (text : Bytes) :
    Safe (do searchAndUpdate (← insertPaste m text))
      (m.Searches (SearchOk (.paste text) s m.input.cursorPos)) := by
  have hpos := h.coherent.pos_nonneg
  let clean := (splitOnChar newline text).flatten
  refine Meets.via (fun m' => m' = m ∨ ∃ search,
    s.search.insertString m.input.cursorPos clean = .ok search ∧
    m' = { m with input.mode := .historySearch { s with search },
                  input.cursorPos := m.input.cursorPos + (search.length - s.search.length : Int) }) ?_
    fun m' hm' => ?_
  · unfold insertPaste
    rw [getInput_eq hmode]
    dsimp only [Bind.bind, Except.bind]
    split
    · exact .inl rfl
    · rename_i search hsearch
      rw [setSearch_eq hmode]
      exact .inr ⟨search, hsearch, rfl⟩
  · obtain rfl | ⟨search, hsearch, rfl⟩ := hm'
    · exact searchAndUpdate_self h hmode
    · obtain ⟨hwf, hlen⟩ := UnicodeString.insertString_cases (h.searching hmode).wellFormed
        hpos hsearch
      refine searchAndUpdate_safe h hmode hwf fun hw hcond => ?_
      have hin := (Model.within_iff_search hmode).mp hw
      show 0 ≤ m.input.cursorPos + (search.length - s.search.length : Int) ∧
        m.input.cursorPos + (search.length - s.search.length : Int) ≤ search.length
      obtain ⟨_, hlen⟩ | ⟨suffix, hsuffix, hascii, hlen⟩ := hlen
      · omega
      · obtain hone | hreads := hcond
        · rw [hascii] at hone
          cases hone
        · have := hreads suffix hsuffix
          omega

theorem deleteChar_safe (h : m.Sound) (hmode : m.input.mode = .historySearch s) :
    Safe (do searchAndUpdate (← deleteChar m))
      (m.Searches (SearchOk .backspace s m.input.cursorPos)) := by
  have hpos := h.coherent.pos_nonneg
  have hwf := (h.searching hmode).wellFormed
  unfold deleteChar
  split
  · exact searchAndUpdate_self h hmode
  · rename_i hne
    rw [getInput_eq hmode]
    dsimp only [Bind.bind, Except.bind]
    rw [setSearch_eq hmode]
    have hback : 0 ≤ m.input.cursorPos - 1 := by omega
    refine searchAndUpdate_safe h hmode (hwf.delete _) fun hw hcond => ⟨hback, ?_⟩
    have hin : m.input.cursorPos - 1 < s.search.length := by
      have := (Model.within_iff_search hmode).mp hw
      omega
    exact UnicodeString.le_length_delete hback hin (hcond hne)

theorem deleteCharAfter_safe (h : m.Sound) (hmode : m.input.mode = .historySearch s) :
    Safe (do searchAndUpdate (← deleteCharAfter m))
      (m.Searches (SearchOk (.ctrl 'd') s m.input.cursorPos)) := by
  have hpos := h.coherent.pos_nonneg
  have hwf := (h.searching hmode).wellFormed
  by_cases hlt : m.input.cursorPos < s.search.length
  · refine Meets.via (fun m' => m' = { m with
      input.mode := .historySearch { s with search := s.search.delete m.input.cursorPos } }) ?_
      fun m' hm' => ?_
    · unfold deleteCharAfter
      rw [getInput_eq hmode]
      dsimp only [Bind.bind, Except.bind]
      rw [if_neg (by omega), setSearch_eq hmode]
      rfl
    · subst hm'
      exact searchAndUpdate_safe h hmode (hwf.delete _) fun hw hcond =>
        ⟨hpos, UnicodeString.le_length_delete hpos hlt (hcond hlt)⟩
  · refine Meets.via (fun m' => m' = m) ?_ fun m' hm' => ?_
    · unfold deleteCharAfter
      rw [getInput_eq hmode]
      dsimp only [Bind.bind, Except.bind]
      rw [if_pos (by omega)]
      rfl
    · subst hm'
      exact searchAndUpdate_self h hmode

theorem deleteBeforeCursor_safe (h : m.Sound) (hmode : m.input.mode = .historySearch s)
    {cond : Prop} : Safe (do searchAndUpdate (← deleteBeforeCursor m)) (m.Searches cond) := by
  have hwf := (h.searching hmode).wellFormed
  unfold deleteBeforeCursor
  rw [getInput_eq hmode]
  dsimp only [Bind.bind, Except.bind]
  rw [setSearch_eq hmode]
  exact searchAndUpdate_safe h hmode (hwf.deleteRange _ _) fun _ _ =>
    ⟨Int.le_refl 0, Int.natCast_nonneg _⟩

theorem cancel_safe (h : m.Sound) {cond : Prop} : Safe (cancel m) (m.Searches cond) :=
  (Model.blankInput_safe h.kept (show Mode.Sound .normal from trivial)).mono
    fun _ ⟨hs, hw, hrepl, hhist, _, hl⟩ =>
      ⟨hs.mode, fun _ => hl, fun _ => hs, fun _ _ => ⟨hs.coherent.pos_nonneg, hw⟩, hrepl, hhist⟩

theorem submit_safe (h : m.Sound) (hmode : m.input.mode = .historySearch s) {cond : Prop} :
    Safe (submit m) (m.Searches cond) := by
  unfold submit
  rw [getState_eq hmode]
  show Safe (nthOpt s.found s.selected >>= _) _
  refine Meets.bind (nthOpt_safe s.found s.selected) fun found _ => ?_
  split
  · exact cancel_safe h
  · refine (History.toUs_safe _).bind fun lines hlines => ?_
    refine (nth_safe lines _).bind fun lastLine ⟨hidx, hlast⟩ => ?_
    refine (Model.modeOfHistoryString_safe _).bind fun mode hnot => ?_
    refine (RLexCache.create_safe lines).bind fun cache ⟨hcached, hlexed⟩ => ?_
    have hsound := Model.sound_of_not_search hnot
    refine ⟨hsound, fun _ => Model.lexed_of_create hlexed, fun hpos => ⟨⟨hlines.2, hidx, ?_, hpos, hcached⟩, h.kept, hsound⟩,
      fun _ _ => ⟨Int.natCast_nonneg _, ?_⟩, rfl, rfl⟩
    · show (lines.length : Int) - 1 < lines.length
      omega
    · refine (Model.within_of_not_search hnot).mpr ?_
      show (lastLine.length : Int) ≤ (lines.getD ((lines.length : Int) - 1).toNat .empty).length
      rw [List.getD_eq_getElem?_getD, hlast]
      exact Int.le_refl _

theorem ctrlKey_safe (h : m.Sound) (hmode : m.input.mode = .historySearch s) (c : Char) :
    Safe (ctrlKey c m) (m.Searches (SearchOk (.ctrl c) s m.input.cursorPos)) := by
  unfold ctrlKey
  split
  · exact cancel_safe h
  · exact moveSelection_safe h hmode _
  · exact moveSelection_safe h hmode _
  · rw [getInput_eq hmode]
    show Safe (if _ then _ else _) _
    split
    · exact cancel_safe h
    · exact deleteCharAfter_safe h hmode
  · exact deleteBeforeCursor_safe h hmode
  · exact searches_at h hmode (Int.le_refl 0) fun _ => Int.natCast_nonneg _
  · exact goToEnd_safe h hmode
  · exact searches_refl h hmode

theorem applyKey_safe (h : m.Sound) (hmode : m.input.mode = .historySearch s) (key : Key) :
    Safe (applyKey key m) (m.Handled (SearchOk key s m.input.cursorPos)) := by
  refine Meets.via (m.Searches (SearchOk key s m.input.cursorPos)) ?_ fun _ hm' => hm'.handled
  cases key with
  | ctrl c => exact ctrlKey_safe h hmode c
  | other name => exact otherKey_safe h hmode name
  | escape => exact cancel_safe h
  | enter => exact submit_safe h hmode
  | up => exact moveSelection_safe h hmode _
  | down => exact moveSelection_safe h hmode _
  | char c => exact insertChar_safe h hmode c
  | backspace =>
    dsimp only
    rw [getInput_eq hmode]
    show Safe (if _ then _ else _) _
    split
    · exact cancel_safe h
    · exact deleteChar_safe h hmode
  | left => exact moveLeft_searches h hmode
  | right => exact moveRight_safe h hmode
  | paste text => exact insertPaste_safe h hmode text
  | _ => exact searches_refl h hmode

end

end HistorySearch
end Raoui
