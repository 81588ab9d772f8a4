import Raoui.Editor.OutputPosition
import Raoui.Editor.Returns
import Raoui.Editor.VisualRows

/-!
# Raoui.Editor.BoxFitting

`handle_vertical_cursor_movement`: where the box and the cursor stand on the screen after it.

* `internalToTerminal_row`: the row of the cursor within the input. It is one past the last row where
  the cursor's line and those below have no row.
* `handleVerticalCursorMovement_settles_iff`: when the box is left where the next run leaves it too,
  with the cursor and all that fits on the screen.
-/

namespace Raoui

open UnicodeString (WellFormed)

theorem wrapLines_cons_eq_nil {width : Int} {line : UnicodeString} {lines : List UnicodeString} :
    wrapLines width (line :: lines) = [] ↔ wrapLine width line = [] ∧ wrapLines width lines = [] := by
  simp only [wrapLines, List.flatMap_cons, List.append_eq_nil_iff]

/-- The row of a cursor in the lines is within their rows or, behind them, the next. -/
theorem internalToTerminal_row {width : Int} {lines : List UnicodeString} {cursorLine cursorPos : Int}
    (hwf : ∀ line ∈ lines, line.WellFormed) (hcursor : ValidCursor lines cursorLine cursorPos) :
    ∃ row col, internalToTerminal width lines cursorLine cursorPos = .ok (row, col) ∧ 0 ≤ row ∧
      row ≤ (wrapLines width lines).length ∧
      (row = (wrapLines width lines).length ↔
        wrapLines width (lines.drop cursorLine.toNat) = []) := by
  obtain ⟨above, line, below, col, hlines, hline, hpos, hcol, -⟩ := hcursor.split
  have hwf' := hwf line (by rw [hlines]; simp)
  have htotal : (wrapLines width lines).length = (wrapLines width above).length +
      ((wrapLine width line).length + (wrapLines width below).length) := by
    rw [hlines, wrapLines_length_append, wrapLines_length_cons]
  have hdrop : lines.drop cursorLine.toNat = line :: below := by
    rw [hlines, hline, Int.toNat_natCast, List.drop_left]
  rw [hdrop, wrapLines_cons_eq_nil, htotal]
  by_cases hrows : wrapLine width line = []
  · refine ⟨(wrapLines width above).length, 0, ?_, by omega, by omega, ?_⟩
    · rw [hlines, hline, hpos]
      exact internalToTerminal_rowless hrows col
    · simp only [hrows, List.length_nil, true_and, ← List.length_eq_zero_iff]
      omega
  · obtain ⟨before, row, after, off, hstands⟩ := exists_standsIn hrows
      (hcol.trans (UnicodeString.wrap_lengths hwf' width).ge)
    have hlen := congrArg List.length hstands.split
    rw [List.length_append, List.length_cons] at hlen
    refine ⟨(wrapLines width above).length + before.length, row.prefixWidth off, ?_, by omega,
      by omega, ?_⟩
    · rw [hlines, hline, hpos]
      exact internalToTerminal_of hstands
    · simp only [hrows, false_and, iff_false]
      omega

namespace Update

variable {m : Model}

theorem dropdownRows_nonneg {rows : Int} (h : dropdownRows m = .ok rows) : 0 ≤ rows := by
  unfold dropdownRows at h
  split at h
  · split at h
    · cases h
      exact Int.natCast_nonneg _
    · cases h
      exact Int.le_refl 0
  · obtain ⟨shown, -, h⟩ := Outcome.bind_eq_ok.mp h
    cases h
    exact Int.natCast_nonneg _
  · cases h
    exact Int.le_refl 0
  · cases h
    exact Int.le_refl 0
  · cases h
    exact Int.le_refl 0

/-- The cursor on the screen, the box too if it fits, nothing scrolled back, and nothing left to do. -/
structure Settles (m m' : Model) : Prop where
  cursor : ∃ row col, m'.cursorTerminalPos = .ok (row, col) ∧
    1 ≤ m'.layout.promptTopRow + row ∧ m'.layout.promptTopRow + row ≤ m'.layout.termHeight
  box : ∃ rows, boxRows m' = .ok rows ∧ (rows ≤ m'.layout.termHeight →
    1 ≤ m'.layout.promptTopRow ∧ m'.layout.promptTopRow + rows - 1 ≤ m'.layout.termHeight)
  scroll : m'.layout.scrollAmount ≤ m.layout.scrollAmount
  again : handleVerticalCursorMovement m' = .ok m'

/-- The cursor's line and those below it have no row, and nothing is open below them: the cursor
stands under the box. -/
def UnderBox (m : Model) : Prop :=
  (∀ s, m.input.mode ≠ .historySearch s) ∧
    wrapLines m.effectiveWidth (m.input.lines.drop m.input.cursorLine.toNat) = [] ∧
    dropdownRows m = .ok 0

/-- The top of a box of `rows` rows with the cursor in row `cursor`, and the rows scrolled. -/
def fitBox (layout : Layout) (rows cursor : Int) : Int × Int :=
  let scrolls := if rows > layout.promptBoxHeight then
      if layout.promptTopRow + rows - 1 > layout.termHeight then
        layout.termHeight - (layout.promptTopRow + rows - 1)
      else 0
    else 0
  let moves :=
    if cursor + (layout.promptTopRow + scrolls) > layout.termHeight then
      layout.termHeight - (cursor + (layout.promptTopRow + scrolls))
    else if cursor + (layout.promptTopRow + scrolls) < 1 then
      1 - (cursor + (layout.promptTopRow + scrolls))
    else 0
  let proposed := layout.promptTopRow + scrolls + moves
  (if rows ≤ layout.termHeight then max (min proposed (layout.termHeight - rows + 1)) 1 else proposed,
    scrolls)

def fitted (m : Model) (rows cursor : Int) : Model := { m with
  layout.promptBoxHeight := rows
  layout.promptTopRow := (fitBox m.layout rows cursor).1
  layout.scrollAmount := m.layout.scrollAmount + (fitBox m.layout rows cursor).2 }

theorem handleVerticalCursorMovement_eq {rows row col : Int} (hrows : boxRows m = .ok rows)
    (hcursor : m.cursorTerminalPos = .ok (row, col)) :
    handleVerticalCursorMovement m = .ok (fitted m rows row) := by
  obtain ⟨shown, hshown, hrows⟩ := Outcome.bind_eq_ok.mp hrows
  cases hrows
  unfold handleVerticalCursorMovement
  rw [hshown, hcursor]
  rfl

theorem fitBox_scrolls_nonpos (layout : Layout) (rows cursor : Int) :
    (fitBox layout rows cursor).2 ≤ 0 := by
  unfold fitBox
  dsimp only
  split
  · split
    · omega
    · exact Int.le_refl 0
  · exact Int.le_refl 0

/-- A box that fits is put on the screen. -/
theorem fitBox_box {layout : Layout} {rows cursor : Int} (hfits : rows ≤ layout.termHeight) :
    1 ≤ (fitBox layout rows cursor).1 ∧
      (fitBox layout rows cursor).1 + rows - 1 ≤ layout.termHeight := by
  unfold fitBox
  dsimp only
  rw [if_pos hfits]
  omega

/-- So is the cursor, unless it stands under a box that fills the screen. -/
theorem fitBox_cursor {layout : Layout} {rows cursor : Int} (hheight : 1 ≤ layout.termHeight)
    (h0 : 0 ≤ cursor) (hle : cursor ≤ rows) :
    (1 ≤ (fitBox layout rows cursor).1 + cursor ∧
        (fitBox layout rows cursor).1 + cursor ≤ layout.termHeight) ↔
      ¬ (cursor = rows ∧ rows = layout.termHeight) := by
  unfold fitBox
  dsimp only
  generalize hscrolls : (if rows > layout.promptBoxHeight then _ else _ : Int) = scrolls
  split
  · split
    · omega
    · split
      · omega
      · omega
  · split
    · omega
    · split
      · omega
      · omega

/-- Fitting a box that is fitted leaves it. -/
theorem fitBox_again {layout : Layout} {rows cursor : Int} (scroll : Int)
    (hheight : 1 ≤ layout.termHeight) (h0 : 0 ≤ cursor) (hle : cursor ≤ rows) :
    fitBox { layout with
        promptBoxHeight := rows
        promptTopRow := (fitBox layout rows cursor).1
        scrollAmount := scroll } rows cursor = ((fitBox layout rows cursor).1, 0) := by
  have hbox := @fitBox_box layout rows cursor
  have hcursor := fitBox_cursor hheight h0 hle
  generalize (fitBox layout rows cursor).1 = top at hbox hcursor
  have hstill : ¬ rows > rows := Int.lt_irrefl rows
  unfold fitBox
  dsimp only
  rw [if_neg hstill, Int.add_zero]
  refine Prod.ext ?_ rfl
  dsimp only
  by_cases hfits : rows ≤ layout.termHeight
  · obtain ⟨htop, hbottom⟩ := hbox hfits
    rw [if_pos hfits]
    split
    · -- only a cursor under a box as high as the screen is still below it
      have hunder : cursor = rows ∧ rows = layout.termHeight := by
        by_contra hnot
        have := hcursor.mpr hnot
        omega
      omega
    · split
      · omega
      · omega
  · rw [if_neg hfits]
    have hin := hcursor.mpr fun h => hfits (Int.le_of_eq h.2)
    split
    · omega
    · split
      · omega
      · omega

/-- What fitting the box needs to know of the model: how many rows, and the row of the cursor. -/
theorem box_and_cursor (hinv : m.invariants = true) (hwf : ∀ line ∈ m.input.lines, line.WellFormed)
    (hmode : m.input.mode.Sound) : ∃ rows row col, boxRows m = .ok rows ∧
      m.cursorTerminalPos = .ok (row, col) ∧ 0 ≤ row ∧ row ≤ rows ∧
      (1 ≤ rows → (row = rows ↔ UnderBox m)) := by
  obtain ⟨shown, hshown, -⟩ := (dropdownRows_returns hmode).exists
  have hshown0 := dropdownRows_nonneg hshown
  have hbox : boxRows m =
      .ok ((wrapLines m.effectiveWidth m.input.lines).length + shown) := by
    rw [boxRows, hshown]
    rfl
  by_cases hsearch : ∃ s, m.input.mode = .historySearch s
  · obtain ⟨s, hs⟩ := hsearch
    refine ⟨_, 0, s.search.prefixWidth m.input.cursorPos, hbox, ?_, Int.le_refl 0, by omega,
      fun hpos => ?_⟩
    · rw [Model.cursorTerminalPos, hs]
    · exact ⟨fun h => by omega, fun h => absurd hs (h.1 s)⟩
  · have hnot : ∀ s, m.input.mode ≠ .historySearch s := fun s hs => hsearch ⟨s, hs⟩
    have hvalid : ValidCursor m.input.lines m.input.cursorLine m.input.cursorPos := by
      unfold Model.invariants at hinv
      simp only [Bool.and_eq_true, decide_eq_true_eq] at hinv
      obtain ⟨⟨⟨⟨-, h0⟩, hlt⟩, hpos⟩, hlen⟩ := hinv
      exact ⟨h0, hlt, hpos, hlen⟩
    obtain ⟨row, col, hcursor, h0, hle, hiff⟩ :=
      @internalToTerminal_row m.effectiveWidth _ _ _ hwf hvalid
    have hcursor' : m.cursorTerminalPos = .ok (row, col) := by
      unfold Model.cursorTerminalPos
      split
      · rename_i s hs
        exact absurd hs (hnot s)
      · exact hcursor
    refine ⟨_, row, col, hbox, hcursor', h0, by omega, fun _ => ⟨fun h => ?_, fun h => ?_⟩⟩
    · have hzero : shown = 0 := by omega
      refine ⟨hnot, hiff.mp (by omega), ?_⟩
      rw [hshown, hzero]
    · have hzero : shown = 0 := by
        have := hshown.symm.trans h.2.2
        exact Except.ok.inj this
      rw [hiff.mpr h.2.1, hzero, Int.add_zero]

/-- The box settles, unless the cursor stands under a box that fills the screen. -/
theorem handleVerticalCursorMovement_settles_iff (m : Model) (hinv : m.invariants = true)
    (hwf : ∀ line ∈ m.input.lines, line.WellFormed) (hmode : m.input.mode.Sound)
    (hheight : 1 ≤ m.layout.termHeight) :
    ∃ m', handleVerticalCursorMovement m = .ok m' ∧
      (Settles m m' ↔ ¬ (UnderBox m ∧ boxRows m = .ok m.layout.termHeight)) := by
  obtain ⟨rows, row, col, hrows, hcursor, h0, hle, hunder⟩ := box_and_cursor hinv hwf hmode
  refine ⟨_, handleVerticalCursorMovement_eq hrows hcursor, ?_⟩
  have hfit := fitBox_cursor hheight h0 hle
  have hfills : (row = rows ∧ rows = m.layout.termHeight) ↔
      UnderBox m ∧ boxRows m = .ok m.layout.termHeight := by
    rw [hrows, Except.ok.injEq]
    constructor
    · rintro ⟨hrow, hheight'⟩
      exact ⟨(hunder (by omega)).mp hrow, hheight'⟩
    · rintro ⟨hu, hheight'⟩
      exact ⟨(hunder (by omega)).mpr hu, hheight'⟩
  rw [← hfills]
  constructor
  · intro h
    obtain ⟨row', col', hcursor', h1, h2⟩ := h.cursor
    have heq : Except.ok (row', col') = Except.ok (row, col) := hcursor'.symm.trans hcursor
    cases heq
    exact hfit.mp ⟨h1, h2⟩
  · intro h
    refine ⟨⟨row, col, hcursor, hfit.mpr h⟩, ⟨rows, hrows, fun hfits => fitBox_box hfits⟩, ?_, ?_⟩
    · have := fitBox_scrolls_nonpos m.layout rows row
      show m.layout.scrollAmount + (fitBox m.layout rows row).2 ≤ m.layout.scrollAmount
      omega
    · have hrows' : boxRows (fitted m rows row) = .ok rows := hrows
      have hcursor' : (fitted m rows row).cursorTerminalPos = .ok (row, col) := hcursor
      have hstill : fitBox (fitted m rows row).layout rows row = ((fitBox m.layout rows row).1, 0) :=
        fitBox_again _ hheight h0 hle
      rw [handleVerticalCursorMovement_eq hrows' hcursor', fitted, hstill]
      dsimp only
      rw [Int.add_zero]
      rfl

section
attribute [local instance] asciiUcd

open Transition (Run)

theorem settles_typed : ∃ m, initialModel (History.init ⟨[], []⟩) 1 80 24 = .ok m ∧
    m.invariants = true ∧ 1 ≤ m.layout.termHeight ∧
    ∃ m', handleVerticalCursorMovement m = .ok m' ∧
      (Settles m m' ↔ ¬ (UnderBox m ∧ boxRows m = .ok m.layout.termHeight)) := by
  obtain ⟨m, h₀, hinv, hlines, hmode, hheight⟩ : ∃ m,
      initialModel (History.init ⟨[], []⟩) 1 80 24 = .ok m ∧ m.invariants = true ∧
      m.input.lines = [.empty] ∧ m.input.mode = .normal ∧ 1 ≤ m.layout.termHeight :=
    ⟨_, rfl, rfl, rfl, rfl, by decide⟩
  refine ⟨m, h₀, hinv, hheight, handleVerticalCursorMovement_settles_iff m hinv ?_ ?_ hheight⟩
  · rw [hlines]
    exact List.forall_mem_singleton.mpr UnicodeString.wellFormed_empty
  · rw [hmode]
    trivial

/-- A screen of one row, and under the row of a letter a line on which only a byte-order mark is
left: it has no row, and the cursor is below the screen. -/
theorem cursor_below_screen : ∃ m₀ m m', initialModel (History.init ⟨[], []⟩) 1 80 1 = .ok m₀ ∧
    Run Steps m₀ [.key (.char (bytes "a")), .key (.ctrl '\r'),
      .key (.paste ([0xEF, 0xBB, 0xBF] ++ bytes "b")), .key .backspace] m ∧
    m.invariants = true ∧ handleVerticalCursorMovement m = .ok m' ∧ m'.layout.termHeight = 1 ∧
    m'.layout.promptTopRow = 1 ∧ m'.cursorTerminalPos = .ok ((1, 0) : Int × Int) ∧
    ¬ Settles m m' := by
  obtain ⟨m₀, m, m', h₀, hrun, hinv, hfit, hheight, htop, hcursor⟩ : ∃ m₀ m m',
      initialModel (History.init ⟨[], []⟩) 1 80 1 = .ok m₀ ∧
      Transition.exec next m₀ [.key (.char (bytes "a")), .key (.ctrl '\r'),
        .key (.paste ([0xEF, 0xBB, 0xBF] ++ bytes "b")), .key .backspace] = some m ∧
      m.invariants = true ∧ handleVerticalCursorMovement m = .ok m' ∧ m'.layout.termHeight = 1 ∧
      m'.layout.promptTopRow = 1 ∧ m'.cursorTerminalPos = .ok ((1, 0) : Int × Int) :=
    ⟨_, _, _, rfl, rfl, rfl, rfl, rfl, rfl, rfl⟩
  refine ⟨m₀, m, m', h₀, (Transition.run_of_exec hrun).mono steps_of_next, hinv, hfit, hheight, htop,
    hcursor, fun h => ?_⟩
  obtain ⟨row, col, hcursor', -, hle⟩ := h.cursor
  have heq : Except.ok (row, col) = Except.ok ((1, 0) : Int × Int) := hcursor'.symm.trans hcursor
  cases heq
  rw [htop, hheight] at hle
  exact absurd hle (by decide)

end

end Update

end Raoui
