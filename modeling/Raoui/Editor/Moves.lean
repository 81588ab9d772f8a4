import Raoui.Editor.Coherent

/-!
# Raoui.Editor.Moves

Moving the cursor keeps a model coherent, and the cursor within its line.

* `terminalToInternalFrom_safe`: a cell of the wrapped prompt is a position within a line.
-/

namespace Raoui

open Outcome (Meets)
open UnicodeString (WellFormed clusterCount)

namespace Model

variable {m : Model}

/-! ## Rows of the wrapped prompt -/

theorem findRow_nonneg {row : Int} (hrow : 0 ≤ row) (col sofar : Int) (rows : List UnicodeString) :
    0 ≤ (findRow col row sofar rows).1 := by
  induction rows generalizing row sofar with
  | nil => exact hrow
  | cons chunk rest ih =>
    unfold findRow
    dsimp only
    split
    · exact hrow
    · exact ih (by omega) _

theorem cursorTerminalPos_safe (m : Model) : Safe m.cursorTerminalPos fun p => 0 ≤ p.1 := by
  unfold Model.cursorTerminalPos
  split
  · exact Int.le_refl 0
  · refine (nth_safe _ _).bind fun line _ => ?_
    have := findRow_nonneg (Int.le_refl 0) m.input.cursorPos 0 (wrapLine m.effectiveWidth line)
    show 0 ≤ ((wrapLines m.effectiveWidth _).length : Int) + _
    omega

/-- The sum of the first rows and a column of the next one stay within the line. -/
theorem sum_take_add_le {rows : List UnicodeString} {i n : Nat} (hi : i < rows.length)
    (hn : n ≤ (rows[i]).length) :
    ((rows.take i).map UnicodeString.length).sum + n ≤ (rows.map UnicodeString.length).sum := by
  have hsplit : rows = rows.take i ++ rows[i] :: rows.drop (i + 1) := by
    rw [← List.drop_eq_getElem_cons hi, List.take_append_drop]
  have hsum := congrArg (fun rs : List UnicodeString => (rs.map UnicodeString.length).sum) hsplit
  simp only [List.map_append, List.map_cons, List.sum_append, List.sum_cons] at hsum
  omega

/-- A cell of the wrapped prompt is a position within a line. -/
theorem terminalToInternalFrom_safe {width row col : Int} (lines : List UnicodeString)
    (hwf : ∀ line ∈ lines, line.WellFormed) :
    ∀ internalRow currentRow : Int, currentRow ≤ row →
      Safe (terminalToInternalFrom width row col internalRow currentRow lines) fun p =>
        internalRow ≤ p.1 ∧ 0 ≤ p.2 ∧ ∃ line, lines[(p.1 - internalRow).toNat]? = some line ∧
          p.2 ≤ line.length := by
  induction lines with
  | nil => intro internalRow currentRow _; exact nofun
  | cons line rest ih =>
    intro internalRow currentRow hrow
    have hline := hwf line (List.mem_cons_self ..)
    have hsum : ((wrapLine width line).map UnicodeString.length).sum ≤ line.length :=
      UnicodeString.wrap_length_sum hline width
    have hwrap : ∀ r ∈ wrapLine width line, r.WellFormed := hline.wrap width
    rw [terminalToInternalFrom]
    dsimp only
    generalize wrapLine width line = rows at *
    by_cases hin : row < currentRow + rows.length ∨ (rest = [] ∧ row = currentRow + rows.length)
    · rw [if_pos hin, if_neg (show ¬ row - currentRow < 0 by omega)]
      by_cases hlt : row - currentRow < rows.length
      · rw [if_pos hlt]
        refine (nth_safe _ _).bind fun chunk ⟨_, hget⟩ => ?_
        obtain ⟨hi, rfl⟩ := List.getElem?_eq_some_iff.mp hget
        have hle := UnicodeString.graphemeAtWidth_le (hwrap _ (List.getElem_mem hi)) col
        have := sum_take_add_le hi hle
        exact ⟨Int.le_refl _, by omega, line, by simp, by omega⟩
      · rw [if_neg hlt, List.take_of_length_le (show rows.length ≤ (row - currentRow).toNat by omega)]
        refine ⟨Int.le_refl _, by omega, line, by simp, ?_⟩
        have hempty : UnicodeString.empty.graphemeAtWidth col = 0 := rfl
        show _ + (UnicodeString.empty.graphemeAtWidth col : Int) ≤ _
        rw [hempty]
        omega
    · rw [if_neg hin]
      refine (ih (fun l hl => hwf l (List.mem_cons_of_mem _ hl)) (internalRow + 1) _ (by omega)).mono
        fun p ⟨hle, hpos, l, hget, hlen⟩ => ?_
      refine ⟨by omega, hpos, l, ?_, hlen⟩
      rw [show (p.1 - internalRow).toNat = (p.1 - (internalRow + 1)).toNat + 1 by omega]
      simpa using hget

/-! ## Moving -/

theorem Coherent.moveRight_eq (h : m.Coherent) (hlt : m.input.cursorPos < m.line.length) :
    m.moveRight = .ok { m with input.cursorPos := m.input.cursorPos + 1 } := by
  rw [Model.moveRight, h.atLineEnd]
  show (if _ then _ else _) = _
  rw [if_pos (by simpa using hlt)]
  rfl

section
variable [Ucd]

theorem Coherent.goToLineStart (h : m.Coherent) : m.Edits True m.goToLineStart :=
  ⟨⟨h.wellFormed, h.line_nonneg, h.line_lt, Int.le_refl 0, h.cached⟩, ⟨rfl, rfl, rfl, rfl, rfl, rfl⟩, id,
    fun _ _ => Int.natCast_nonneg _⟩

theorem Coherent.goToLineEnd (h : m.Coherent) : Safe m.goToLineEnd (m.Edits True) := by
  rw [Model.goToLineEnd, h.lineLength]
  exact ⟨⟨h.wellFormed, h.line_nonneg, h.line_lt, Int.natCast_nonneg _, h.cached⟩, ⟨rfl, rfl, rfl, rfl, rfl, rfl⟩, id,
    fun _ _ => Int.le_refl _⟩

theorem Coherent.moveLeft (h : m.Coherent) : Safe m.moveLeft (m.Edits True) := by
  have hpos := h.pos_nonneg
  unfold Model.moveLeft
  split
  · rename_i hstart
    have hne : m.input.cursorPos ≠ 0 := by simpa [atLineStart] using hstart
    refine ⟨⟨h.wellFormed, h.line_nonneg, h.line_lt, ?_, h.cached⟩, ⟨rfl, rfl, rfl, rfl, rfl, rfl⟩, id, fun hr _ => ?_⟩
    · show 0 ≤ m.input.cursorPos - 1
      omega
    · show m.input.cursorPos - 1 ≤ m.line.length
      unfold InRange at hr
      omega
  · split
    · rename_i hfirst
      have hne : m.input.cursorLine ≠ 0 := by simpa [atFirstLine] using hfirst
      refine (nth_safe _ _).bind fun prevLine ⟨h0, hprev⟩ => ?_
      have hlt := h.line_lt
      refine ⟨⟨h.wellFormed, h0, ?_, Int.natCast_nonneg _, h.cached⟩, ⟨rfl, rfl, rfl, rfl, rfl, rfl⟩, id, fun _ _ => ?_⟩
      · show m.input.cursorLine - 1 < m.input.lines.length
        omega
      · exact inRange_of_getElem? hprev (Int.le_refl _)
    · exact Edits.refl h

theorem Coherent.moveRight (h : m.Coherent) : Safe m.moveRight (m.Edits True) := by
  have hpos := h.pos_nonneg
  rw [Model.moveRight, h.atLineEnd]
  show Safe (if _ then _ else _) _
  split
  · rename_i hend
    simp only [ge_iff_le, Bool.not_eq_true', decide_eq_false_iff_not, Int.not_le] at hend
    refine ⟨⟨h.wellFormed, h.line_nonneg, h.line_lt, ?_, h.cached⟩, ⟨rfl, rfl, rfl, rfl, rfl, rfl⟩, id, fun _ _ => ?_⟩
    · show 0 ≤ m.input.cursorPos + 1
      omega
    · show m.input.cursorPos + 1 ≤ m.line.length
      omega
  · split
    · rename_i hlast
      simp only [atLastLine, ge_iff_le, Bool.not_eq_true', decide_eq_false_iff_not,
        Int.not_le] at hlast
      have h0 := h.line_nonneg
      refine ⟨⟨h.wellFormed, ?_, ?_, Int.le_refl 0, h.cached⟩, ⟨rfl, rfl, rfl, rfl, rfl, rfl⟩, id, fun _ _ =>
        Int.natCast_nonneg _⟩
      · show 0 ≤ m.input.cursorLine + 1
        omega
      · show m.input.cursorLine + 1 < m.input.lines.length
        omega
    · exact Edits.refl h

/-- One step to the right within the line. -/
theorem Coherent.nextWordFrom (h : m.Coherent) (fuel : Nat) (seenWord : Bool) :
    Safe (Model.nextWordFrom fuel seenWord m) (m.Edits True) := by
  induction fuel generalizing m seenWord with
  | zero => exact Edits.refl h
  | succ fuel ih =>
    have hnext : ∀ seen, Safe (do
        let newMod ← m.moveRight
        if m.sameCursorPos newMod then return m else Model.nextWordFrom fuel seen newMod)
        (m.Edits True) := by
      intro seen
      refine h.moveRight.bind fun newMod hmove => ?_
      split
      · exact Edits.refl h
      · exact (ih hmove.coherent seen).mono fun m' hm' =>
          hmove.trans hm' fun _ _ => ⟨trivial, fun _ => trivial⟩
    rw [Model.nextWordFrom, h.atLineEnd]
    show Safe (if _ then _ else _) _
    split
    · exact Edits.refl h
    · refine h.charAt_safe.bind fun c _ => ?_
      split
      · exact Edits.refl h
      · refine (isWordChar_safe _).bind fun isWord _ => ?_
        split
        · exact hnext true
        · split
          · exact Edits.refl h
          · exact hnext false

theorem Coherent.goToNextWord (h : m.Coherent) : Safe m.goToNextWord (m.Edits True) := by
  rw [Model.goToNextWord, h.lineLength]
  exact h.nextWordFrom _ _

theorem Coherent.lastWordFrom (h : m.Coherent) (fuel : Nat) (seenWord : Bool) :
    Safe (Model.lastWordFrom fuel seenWord m) (m.Edits True) := by
  induction fuel generalizing m seenWord with
  | zero => exact Edits.refl h
  | succ fuel ih =>
    have hnext : ∀ seen, Safe (do
        let newMod ← m.moveLeft
        if m.sameCursorPos newMod then return m else Model.lastWordFrom fuel seen newMod)
        (m.Edits True) := by
      intro seen
      refine h.moveLeft.bind fun newMod hmove => ?_
      split
      · exact Edits.refl h
      · exact (ih hmove.coherent seen).mono fun m' hm' =>
          hmove.trans hm' fun _ _ => ⟨trivial, fun _ => trivial⟩
    rw [Model.lastWordFrom]
    split
    · exact Edits.refl h
    · refine h.charBefore_safe.bind fun c _ => ?_
      split
      · exact Edits.refl h
      · refine (isWordChar_safe _).bind fun isWord _ => ?_
        split
        · exact hnext true
        · split
          · exact Edits.refl h
          · exact hnext false

theorem Coherent.goToLastWord (h : m.Coherent) : Safe m.goToLastWord (m.Edits True) :=
  h.lastWordFrom _ _

theorem Coherent.moveToRow (h : m.Coherent) {newRow : Int} (hrow : 0 ≤ newRow) (col : Int) :
    Safe (m.moveToRow newRow col) (m.Edits True) := by
  refine (nth_safe _ _).bind fun _ _ => ?_
  refine (terminalToInternalFrom_safe _ h.wellFormed 0 0 hrow).bind
    fun p ⟨h0, hpos, line, hget, hlen⟩ => ?_
  rw [Int.sub_zero] at hget
  obtain ⟨hi, hline⟩ := List.getElem?_eq_some_iff.mp hget
  refine ⟨h.moved h0 (by omega) hpos, ⟨rfl, rfl, rfl, rfl, rfl, rfl⟩, id, fun _ _ => ?_⟩
  exact inRange_of_getElem? hget hlen

theorem Coherent.moveUp (h : m.Coherent) : Safe m.moveUp (m.Edits True) := by
  refine (cursorTerminalPos_safe m).bind fun p _ => ?_
  dsimp only
  split
  · exact h.moveToRow (by omega) _
  · exact Edits.refl h

theorem Coherent.moveDown (h : m.Coherent) : Safe m.moveDown (m.Edits True) := by
  refine (cursorTerminalPos_safe m).bind fun p hp => ?_
  dsimp only
  split
  · exact h.moveToRow (by omega) _
  · exact Edits.refl h

end

theorem moveCursorToEnd_safe (hwf : ∀ line ∈ m.input.lines, line.WellFormed)
    (hne : m.input.lines ≠ [])
    (hcached : LexerCache.texts m.input.lexCache = m.input.lines.map UnicodeString.toBytes) :
    Safe m.moveCursorToEnd fun m' => m'.Coherent ∧ m.Frame m' ∧ m'.InRange ∧
      m'.input.lines = m.input.lines ∧
        m'.input.lexCache = m.input.lexCache ∧
        m'.input.cursorPos = ((m.input.lines.getLast hne).length : Int) := by
  have hlen := List.length_pos_iff.mpr hne
  refine (nth_safe _ _).bind fun last ⟨_, hlast⟩ => ?_
  refine ⟨⟨hwf, ?_, ?_, Int.natCast_nonneg _, hcached⟩, ⟨rfl, rfl, rfl, rfl, rfl, rfl⟩, ?_, rfl, rfl, ?_⟩
  · show 0 ≤ (m.input.lines.length : Int) - 1
    omega
  · show (m.input.lines.length : Int) - 1 < m.input.lines.length
    omega
  · exact inRange_of_getElem? hlast (Int.le_refl _)
  · have hget : m.input.lines[((m.input.lines.length : Int) - 1).toNat]? =
        some (m.input.lines.getLast hne) := by
      rw [show ((m.input.lines.length : Int) - 1).toNat = m.input.lines.length - 1 by omega,
        List.getLast_eq_getElem, List.getElem?_eq_getElem]
    rw [← Option.some.inj (hlast.symm.trans hget)]

end Model
end Raoui
