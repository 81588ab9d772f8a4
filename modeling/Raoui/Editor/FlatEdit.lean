import Raoui.Editor.Editing
import Raoui.Editor.Update
import Raoui.Lib.FlatText
import Raoui.Text.AsciiLine

/-!
# Raoui.Editor.FlatEdit

On lines of printable ASCII the editor edits a flat text: the lines joined with newlines, with the
cursor as an offset into it.

* `At`: the lines cut at the cursor. Every operation has a rule on them, with a case for each side
  of a line boundary (`At.deleteChar_join`, `At.moveRight_down`, ...).
* `simulates`: one operation, and the operation it is on the flat text.
* `edits_simulate`: any sequence of them.
-/

namespace Raoui

open Outcome
open UnicodeString (Printable asciiLine)

/-! ## Errors of the lexer -/

section
variable [Ucd]

/-- An exception that lexing some line raises. -/
def LexerRaises (e : Exn) : Prop := ∃ mode line, RLexer.lexLine mode line = .error e

/-- The computation returns and its result meets the condition, or the lexer raises. -/
abbrev Lexing {α : Type} (x : Res α) (post : α → Prop) : Prop := Meets (¬ LexerRaises ·) x post

theorem lexLine_lexing (mode : RLexer.Mode) (line : Bytes) :
    Lexing (RLexer.lexLine mode line) fun _ => True := by
  cases h : RLexer.lexLine mode line with
  | ok r => trivial
  | error e => exact fun hbad => hbad ⟨mode, line, h⟩

theorem lexEntry_lexing (mode : RLexer.Mode) (line : UnicodeString) :
    Lexing (LexerCache.lexEntry RLexCache.lexer mode line) fun _ => True :=
  (lexLine_lexing mode line.toBytes).bind fun _ _ => trivial

theorem createFrom_lexing (mode : RLexer.Mode) (lines : List UnicodeString) :
    Lexing (LexerCache.createFrom RLexCache.lexer mode lines) fun _ => True := by
  induction lines generalizing mode with
  | nil => trivial
  | cons line rest ih => exact (lexEntry_lexing mode line).bind fun e _ => (ih _).bind fun _ _ => trivial

theorem updateFrom_lexing (startLine endLine : Int) (lines : List UnicodeString) :
    ∀ (i : Int) (mode : RLexer.Mode) (cache : RLexCache.Cache),
      Lexing (LexerCache.updateFrom RLexCache.lexer startLine endLine i mode lines cache)
        fun _ => True := by
  induction lines with
  | nil => exact fun _ _ _ => trivial
  | cons line rest ih =>
    intro i mode cache
    have hrelex : Lexing (do
        let entry ← LexerCache.lexEntry RLexCache.lexer mode line
        return entry :: (← LexerCache.updateFrom RLexCache.lexer startLine endLine (i + 1)
          entry.endMode rest (cache.drop 1))) fun _ => True :=
      (lexEntry_lexing mode line).bind fun e _ => (ih _ _ _).bind fun _ _ => trivial
    unfold LexerCache.updateFrom
    dsimp only
    split
    · split
      · exact (ih _ _ _).bind fun _ _ => trivial
      · trivial
    · split
      · split
        · split
          · trivial
          · exact hrelex
        · exact hrelex
      · exact hrelex

namespace Model

theorem lexerUpdate_lexing (m : Model) (startLine endLine : Int) :
    Lexing (m.lexerUpdate startLine endLine) fun m' =>
      m'.input.lines = m.input.lines ∧ m'.input.cursorLine = m.input.cursorLine ∧
        m'.input.cursorPos = m.input.cursorPos := by
  have hupdate : Lexing (RLexCache.update startLine endLine m.input.lines m.input.lexCache)
      fun _ => True := by
    unfold RLexCache.update LexerCache.update
    split
    · exact createFrom_lexing _ _
    · exact updateFrom_lexing _ _ _ _ _ _
  unfold lexerUpdate
  split
  · exact hupdate.bind fun _ _ => ⟨rfl, rfl, rfl⟩
  · exact hupdate.bind fun _ _ => ⟨rfl, rfl, rfl⟩
  · exact ⟨rfl, rfl, rfl⟩
  · exact ⟨rfl, rfl, rfl⟩
  · exact ⟨rfl, rfl, rfl⟩

end Model

end

/-! ## Lines cut at the cursor -/

theorem updateLine_split (as : List UnicodeString) (x new : UnicodeString)
    (bs : List UnicodeString) : updateLine (as ++ x :: bs) as.length new = as ++ new :: bs := by
  refine List.ext_getElem? fun k => ?_
  rw [getElem?_updateLine]
  split
  · rename_i hk
    obtain rfl : k = as.length := by omega
    simp
  · rename_i hk
    have hne : k ≠ as.length := by omega
    obtain hlt | hgt := Nat.lt_or_gt_of_ne hne
    · rw [List.getElem?_append_left hlt, List.getElem?_append_left hlt]
    · obtain ⟨j, rfl⟩ : ∃ j, k = as.length + (j + 1) := ⟨k - as.length - 1, by omega⟩
      rw [List.getElem?_append_right (by omega), List.getElem?_append_right (by omega)]
      simp

namespace Model

/-- The lines are printable ASCII, `above` the cursor's, `l ++ r` with the cursor after `l`, and
`below`. -/
structure At (m : Model) (above : List Bytes) (l r : Bytes) (below : List Bytes) : Prop where
  lines : m.input.lines = above.map asciiLine ++ asciiLine (l ++ r) :: below.map asciiLine
  line : m.input.cursorLine = above.length
  pos : m.input.cursorPos = l.length
  above : ∀ s ∈ above, Printable s
  left : Printable l
  right : Printable r
  below : ∀ s ∈ below, Printable s

/-- The lines are printable ASCII and the cursor is in one of them. -/
structure AsciiBuffer (m : Model) : Prop where
  lines : ∀ u ∈ m.input.lines, ∃ s, Printable s ∧ u = asciiLine s
  nonneg : 0 ≤ m.input.cursorLine ∧ 0 ≤ m.input.cursorPos
  inLine : ∃ u, m.input.lines[m.input.cursorLine.toNat]? = some u ∧ m.input.cursorPos ≤ u.length

/-- The lines joined with newlines, and the cursor as an offset. -/
def flat (m : Model) : FlatText UInt8 :=
  .ofLines newline (m.input.lines.map UnicodeString.toBytes) m.input.cursorLine.toNat
    m.input.cursorPos.toNat

variable {m : Model} {above below : List Bytes} {l r : Bytes} {c : UInt8}

theorem At.flat (h : m.At above l r below) :
    m.flat = .gap (FlatText.above newline above ++ l) (r ++ FlatText.below newline below) := by
  have hlines : m.input.lines.map UnicodeString.toBytes = above ++ (l ++ r) :: below := by
    rw [h.lines]
    simp [Function.comp_def]
  rw [Model.flat, hlines, h.line, h.pos]
  exact FlatText.ofLines_split

theorem exists_map_asciiLine {us : List UnicodeString}
    (h : ∀ u ∈ us, ∃ s, Printable s ∧ u = asciiLine s) :
    ∃ ss : List Bytes, us = ss.map asciiLine ∧ ∀ s ∈ ss, Printable s := by
  induction us with
  | nil => exact ⟨[], rfl, by simp⟩
  | cons u us ih =>
    obtain ⟨s, hs, rfl⟩ := h u (List.mem_cons_self ..)
    obtain ⟨ss, rfl, hss⟩ := ih fun u hu => h u (List.mem_cons_of_mem _ hu)
    exact ⟨s :: ss, rfl, by simpa using ⟨hs, hss⟩⟩

theorem AsciiBuffer.at (h : m.AsciiBuffer) : ∃ above l r below, m.At above l r below := by
  obtain ⟨hlines, ⟨hline, hpos⟩, u, hu, hle⟩ := h
  obtain ⟨ss, hss, hprint⟩ := exists_map_asciiLine hlines
  rw [hss, List.getElem?_map, Option.map_eq_some_iff] at hu
  obtain ⟨s, hs, rfl⟩ := hu
  obtain ⟨hlt, hget⟩ := List.getElem?_eq_some_iff.mp hs
  have hsplit : ss = ss.take m.input.cursorLine.toNat ++
      s :: ss.drop (m.input.cursorLine.toNat + 1) := by
    rw [← hget, List.cons_getElem_drop_succ, List.take_append_drop]
  have hprint' : Printable s := hprint s (List.mem_of_getElem? hs)
  refine ⟨ss.take m.input.cursorLine.toNat, s.take m.input.cursorPos.toNat,
    s.drop m.input.cursorPos.toNat, ss.drop (m.input.cursorLine.toNat + 1), ?_, ?_, ?_,
    fun s hs => hprint s (List.mem_of_mem_take hs), fun c hc => hprint' c (List.mem_of_mem_take hc),
    fun c hc => hprint' c (List.mem_of_mem_drop hc), fun s hs => hprint s (List.mem_of_mem_drop hs)⟩
  · rw [List.take_append_drop, hss]
    conv_lhs => rw [hsplit]
    rw [List.map_append, List.map_cons]
  · rw [List.length_take]
    omega
  · rw [UnicodeString.length_asciiLine] at hle
    rw [List.length_take]
    omega

theorem At.buffer (h : m.At above l r below) : m.AsciiBuffer := by
  refine ⟨fun u hu => ?_, ?_, asciiLine (l ++ r), ?_, ?_⟩
  · rw [h.lines] at hu
    obtain hu | hu := List.mem_append.mp hu
    · obtain ⟨s, hs, rfl⟩ := List.mem_map.mp hu
      exact ⟨s, h.above s hs, rfl⟩
    · obtain rfl | hu := List.mem_cons.mp hu
      · exact ⟨_, h.left.append h.right, rfl⟩
      · obtain ⟨s, hs, rfl⟩ := List.mem_map.mp hu
        exact ⟨s, h.below s hs, rfl⟩
  · rw [h.line, h.pos]
    omega
  · rw [h.lines, h.line, Int.toNat_natCast, List.getElem?_append_right (by simp)]
    simp
  · rw [h.pos, UnicodeString.length_asciiLine, List.length_append]
    omega

theorem At.currentLine (h : m.At above l r below) : m.currentLine = .ok (asciiLine (l ++ r)) := by
  refine nth_eq (by rw [h.line]; omega) ?_
  rw [h.lines, h.line, Int.toNat_natCast, List.getElem?_append_right (by simp)]
  simp

theorem At.atLineEnd (h : m.At above l r below) : m.atLineEnd = .ok r.isEmpty := by
  rw [Model.atLineEnd, Model.lineLength, h.currentLine]
  simp only [bind, Except.bind, pure, Except.pure, h.pos, UnicodeString.length_asciiLine,
    List.length_append, Except.ok.injEq]
  cases r with
  | nil => simp
  | cons c r =>
    rw [List.isEmpty_cons, decide_eq_false_iff_not, List.length_cons]
    omega

theorem At.atLineStart (h : m.At above l r below) : m.atLineStart = l.isEmpty := by
  rw [Model.atLineStart, h.pos]
  cases l with
  | nil => rfl
  | cons c l =>
    simp
    omega

/-! ## The operations on cut lines -/

theorem At.moveLeft_in (h : m.At above (l ++ [c]) r below) :
    ∃ m', m.moveLeft = .ok m' ∧ m'.At above l (c :: r) below := by
  have hstart : m.atLineStart = false := by
    rw [h.atLineStart]
    simp
  refine ⟨{ m with input.cursorPos := m.input.cursorPos - 1 }, ?_, ?_⟩
  · rw [moveLeft, hstart]
    rfl
  · have hl := h.left
    have hlines := h.lines
    rw [List.append_assoc] at hlines
    refine ⟨hlines, h.line, ?_, h.above, fun d hd => hl d (by simp [hd]), fun d hd => ?_, h.below⟩
    · dsimp only
      rw [h.pos, List.length_append, List.length_singleton]
      omega
    · obtain rfl | hd := List.mem_cons.mp hd
      · exact hl d (by simp)
      · exact h.right d hd

/-- The line above the cursor's. -/
theorem At.line_above {l p : Bytes} (h : m.At (above ++ [p]) l r below) :
    m.input.cursorLine - 1 = above.length ∧
      nth m.input.lines (m.input.cursorLine - 1) = .ok (asciiLine p) ∧ m.atFirstLine = false := by
  have hline : m.input.cursorLine - 1 = above.length := by
    rw [h.line, List.length_append, List.length_singleton]
    omega
  refine ⟨hline, ?_, ?_⟩
  · refine nth_eq (by omega) ?_
    rw [h.lines, hline, Int.toNat_natCast, List.map_append, List.append_assoc,
      List.getElem?_append_right (by simp)]
    simp
  · simp only [atFirstLine, decide_eq_false_iff_not]
    omega

theorem At.moveLeft_up {p : Bytes} (h : m.At (above ++ [p]) [] r below) :
    ∃ m', m.moveLeft = .ok m' ∧ m'.At above p [] (r :: below) := by
  obtain ⟨hline, hprev, hfirst⟩ := h.line_above
  refine ⟨{ m with input.cursorLine := above.length, input.cursorPos := p.length }, ?_, ?_⟩
  · rw [hline] at hprev
    simp only [moveLeft, h.atLineStart, hfirst, List.isEmpty_nil, Bool.not_true, Bool.not_false,
      Bool.false_eq_true, if_false, if_true, hprev, bind, Except.bind, pure, Except.pure, hline,
      UnicodeString.length_asciiLine]
  · have hlines := h.lines
    rw [List.map_append, List.append_assoc] at hlines
    refine ⟨by simpa using hlines, rfl, rfl, fun s hs => h.above s (by simp [hs]),
      h.above p (by simp), by simp [Printable], fun s hs => ?_⟩
    obtain rfl | hs := List.mem_cons.mp hs
    · exact h.right
    · exact h.below s hs

theorem At.moveLeft_start (h : m.At [] [] r below) : m.moveLeft = .ok m := by
  have hfirst : m.atFirstLine = true := by
    simp [atFirstLine, h.line]
  rw [moveLeft, h.atLineStart, hfirst]
  rfl

theorem At.moveRight_in (h : m.At above l (c :: r) below) :
    ∃ m', m.moveRight = .ok m' ∧ m'.At above (l ++ [c]) r below ∧
      m'.input.cursorPos = m.input.cursorPos + 1 := by
  refine ⟨{ m with input.cursorPos := m.input.cursorPos + 1 }, ?_, ?_, rfl⟩
  · rw [moveRight, h.atLineEnd]
    rfl
  · have hr := h.right
    have hlines := h.lines
    refine ⟨by simpa using hlines, h.line, ?_, h.above, fun d hd => ?_, fun d hd => hr d (by simp [hd]),
      h.below⟩
    · dsimp only
      rw [h.pos, List.length_append, List.length_singleton]
      omega
    · obtain hd | hd := List.mem_append.mp hd
      · exact h.left d hd
      · exact hr d (by simp [List.mem_singleton.mp hd])

theorem At.moveRight_down {q : Bytes} (h : m.At above l [] (q :: below)) :
    ∃ m', m.moveRight = .ok m' ∧ m'.At (above ++ [l]) [] q below ∧
      m'.input.cursorLine = m.input.cursorLine + 1 := by
  have hlast : m.atLastLine = false := by
    have hlen : m.input.lines.length = above.length + (below.length + 2) := by
      rw [h.lines]
      simp
    simp only [atLastLine, decide_eq_false_iff_not, h.line]
    omega
  refine ⟨{ m with input.cursorLine := m.input.cursorLine + 1, input.cursorPos := 0 }, ?_, ?_, rfl⟩
  · rw [moveRight, h.atLineEnd, hlast]
    rfl
  · have hlines := h.lines
    refine ⟨by simpa using hlines, ?_, rfl, fun s hs => ?_, by simp [Printable],
      h.below q (by simp), fun s hs => h.below s (by simp [hs])⟩
    · dsimp only
      rw [h.line, List.length_append, List.length_singleton]
      omega
    · obtain hs | hs := List.mem_append.mp hs
      · exact h.above s hs
      · rw [List.mem_singleton.mp hs]
        exact h.left

theorem At.moveRight_end (h : m.At above l [] []) : m.moveRight = .ok m := by
  have hlast : m.atLastLine = true := by
    have hlen : m.input.lines.length = above.length + 1 := by
      rw [h.lines]
      simp
    simp only [atLastLine, decide_eq_true_eq, h.line]
    omega
  rw [moveRight, h.atLineEnd, hlast]
  rfl

theorem At.goToLineStart (h : m.At above l r below) : m.goToLineStart.At above [] (l ++ r) below :=
  ⟨h.lines, h.line, rfl, h.above, by simp [Printable], h.left.append h.right, h.below⟩

theorem At.goToLineEnd (h : m.At above l r below) :
    ∃ m', m.goToLineEnd = .ok m' ∧ m'.At above (l ++ r) [] below := by
  refine ⟨{ m with input.cursorPos := (l ++ r).length }, ?_, ?_⟩
  · rw [Model.goToLineEnd, lineLength, h.currentLine]
    simp [bind, Except.bind, pure, Except.pure]
  · exact ⟨by rw [List.append_nil]; exact h.lines, h.line, rfl, h.above, h.left.append h.right,
      by simp [Printable], h.below⟩

section
variable [Ucd]

/-- What an edit leaves is lexed again, which changes neither the lines nor the cursor. -/
theorem At.lexerUpdate (h : m.At above l r below) (startLine endLine : Int) :
    Lexing (m.lexerUpdate startLine endLine) fun m' => m'.At above l r below := by
  refine (lexerUpdate_lexing m startLine endLine).mono fun m' ⟨hlines, hline, hpos⟩ => ?_
  exact ⟨hlines.trans h.lines, hline.trans h.line, hpos.trans h.pos, h.above, h.left, h.right,
    h.below⟩

/-- The cursor's line is replaced, with the cursor after `l'`. -/
theorem At.setCurrentLine {l' r' : Bytes} {newLine : UnicodeString} {newPos : Int}
    (h : m.At above l r below) (hl : Printable l') (hr : Printable r')
    (hline : newLine = asciiLine (l' ++ r')) (hpos : newPos = l'.length) :
    Lexing (m.setCurrentLine newLine newPos) fun m' => m'.At above l' r' below := by
  have hlen : (above.length : Int) = (above.map asciiLine).length := by rw [List.length_map]
  have hlines : updateLine m.input.lines m.input.cursorLine newLine =
      above.map asciiLine ++ asciiLine (l' ++ r') :: below.map asciiLine := by
    rw [h.lines, h.line, hlen, updateLine_split, hline]
  have hat : At { m with
      input.lines := updateLine m.input.lines m.input.cursorLine newLine
      input.cursorPos := newPos } above l' r' below :=
    ⟨hlines, h.line, hpos, h.above, hl, hr, h.below⟩
  exact hat.lexerUpdate _ _

theorem At.insertChar (h : m.At above l r below) (hc : 32 ≤ c ∧ c < 127) :
    Lexing (m.insertChar [c]) fun m' => m'.At above (l ++ [c]) r below := by
  have hsingle : 0 ≤ (l.length : Int) ∧ UnicodeString.isSingleAsciiWidth1 [c] = true := by
    refine ⟨Int.natCast_nonneg _, ?_⟩
    simpa [UnicodeString.isSingleAsciiWidth1] using hc
  have hinsert : (asciiLine (l ++ r)).insertString m.input.cursorPos [c] =
      .ok (asciiLine (l ++ c :: r)) := by
    rw [h.pos, UnicodeString.insertString, dif_pos hsingle, UnicodeString.insert_asciiLine]
  have hl : Printable (l ++ [c]) := by
    refine h.left.append fun d hd => ?_
    rw [List.mem_singleton.mp hd]
    exact hc
  rw [Model.insertChar, h.currentLine]
  simp only [bind, Except.bind, hinsert]
  refine h.setCurrentLine hl h.right (by simp) ?_
  rw [h.pos, List.length_append, List.length_singleton]
  omega

theorem At.deleteChar_in (h : m.At above (l ++ [c]) r below) :
    Lexing m.deleteChar fun m' => m'.At above l r below := by
  have hstart : m.atLineStart = false := by
    rw [h.atLineStart]
    simp
  have hpos : m.input.cursorPos - 1 = l.length := by
    rw [h.pos, List.length_append, List.length_singleton]
    omega
  have hc : c < 128 := UnicodeString.lt_of_printable (h.left c (by simp))
  have hdelete : (asciiLine (l ++ [c] ++ r)).delete (m.input.cursorPos - 1) =
      asciiLine (l ++ r) := by
    rw [hpos, List.append_assoc]
    exact UnicodeString.delete_asciiLine hc
  rw [Model.deleteChar, if_neg (by simp [hstart]), h.currentLine]
  exact h.setCurrentLine (fun d hd => h.left d (by simp [hd])) h.right hdelete hpos

theorem At.deleteChar_start (h : m.At [] [] r below) : m.deleteChar = .ok m := by
  have hfirst : m.atFirstLine = true := by
    simp [atFirstLine, h.line]
  rw [Model.deleteChar, h.atLineStart, hfirst]
  rfl

/-- At the start of a line, deleting joins it to the one above. -/
theorem At.deleteChar_join {p : Bytes} (hucd : PrintableAscii) (h : m.At (above ++ [p]) [] r below) :
    Lexing m.deleteChar fun m' => m'.At above p r below := by
  obtain ⟨hline, hprev, hfirst⟩ := h.line_above
  have hp := h.above p (by simp)
  have herase : m.input.lines.eraseIdx m.input.cursorLine.toNat =
      above.map asciiLine ++ asciiLine p :: below.map asciiLine := by
    rw [h.lines, h.line, Int.toNat_natCast, List.eraseIdx_append_of_length_le (by simp)]
    simp
  have hlen : (above.length : Int) = (above.map asciiLine).length := by rw [List.length_map]
  rw [Model.deleteChar, h.atLineStart, hfirst, hprev, h.currentLine]
  simp only [List.isEmpty_nil, if_true, Bool.false_eq_true, if_false, bind, Except.bind, hline,
    List.nil_append, UnicodeString.append_asciiLine hucd hp h.right, herase]
  refine At.lexerUpdate ⟨?_, rfl, by simp, fun s hs => h.above s (by simp [hs]), hp, h.right,
    h.below⟩ _ _
  show updateLine _ _ _ = _
  rw [hlen, updateLine_split]

theorem At.insertNewline (h : m.At above l r below) :
    Lexing m.insertNewline fun m' => m'.At (above ++ [l]) [] r below := by
  have hsplit : (asciiLine (l ++ r)).split m.input.cursorPos = (asciiLine l, asciiLine r) := by
    rw [h.pos]
    exact UnicodeString.split_asciiLine
  rw [Model.insertNewline, h.currentLine]
  simp only [bind, Except.bind, hsplit]
  refine At.lexerUpdate ⟨?_, ?_, rfl, fun s hs => ?_, by simp [Printable], h.right, h.below⟩ _ _
  · show spliceLines _ _ _ = _
    have hlen : m.input.lines.length = above.length + (below.length + 1) := by
      rw [h.lines]
      simp
    rw [spliceLines_eq (by rw [h.line]; omega) (by rw [h.line]; omega), h.line, h.lines,
      Int.toNat_natCast]
    simp [List.drop_append]
  · dsimp only
    rw [h.line, List.length_append, List.length_singleton]
    omega
  · obtain hs | hs := List.mem_append.mp hs
    · exact h.above s hs
    · rw [List.mem_singleton.mp hs]
      exact h.left

theorem At.deleteBeforeCursor_in (hucd : PrintableAscii) (h : m.At above l r below) (hne : l ≠ []) :
    Lexing m.deleteBeforeCursor fun m' => m'.At above [] r below := by
  have hstart : m.atLineStart = false := by
    rw [h.atLineStart]
    simpa using hne
  have hdelete : (asciiLine (l ++ r)).deleteRange 0 m.input.cursorPos = asciiLine ([] ++ r) := by
    rw [h.pos]
    exact UnicodeString.deleteRange_asciiLine hucd h.right hne
  rw [Model.deleteBeforeCursor, if_neg (by simp [hstart]), h.currentLine]
  exact h.setCurrentLine (by simp [Printable]) h.right hdelete rfl

end

end Model

/-! ## The operations on the flat text -/

inductive EditorOp where
  | insertChar (c : UInt8)
  | deleteChar
  | deleteCharAfterCursor
  | deleteBeforeCursor
  | insertNewline
  | moveLeft
  | moveRight
  | goToLineStart
  | goToLineEnd
  deriving DecidableEq, Repr

namespace EditorOp

def flat : EditorOp → FlatText UInt8 → FlatText UInt8
  | insertChar c => .insert c
  | deleteChar => .backspace
  | deleteCharAfterCursor => .delete
  | deleteBeforeCursor => .deleteBefore newline
  | insertNewline => .insert newline
  | moveLeft => .left
  | moveRight => .right
  | goToLineStart => .lineStart newline
  | goToLineEnd => .lineEnd newline

/-- Only printable ASCII is inserted. -/
def Allowed : EditorOp → Prop
  | insertChar c => 32 ≤ c ∧ c < 127
  | _ => True

instance : ∀ op, Decidable (Allowed op)
  | insertChar c => inferInstanceAs (Decidable (32 ≤ c ∧ c < 127))
  | deleteChar | deleteCharAfterCursor | deleteBeforeCursor | insertNewline | moveLeft | moveRight
  | goToLineStart | goToLineEnd => inferInstanceAs (Decidable True)

section
variable [Ucd]

def apply : EditorOp → Model → Res Model
  | insertChar c, m => m.insertChar [c]
  | deleteChar, m => m.deleteChar
  | deleteCharAfterCursor, m => m.deleteCharAfterCursor
  | deleteBeforeCursor, m => m.deleteBeforeCursor
  | insertNewline, m => m.insertNewline
  | moveLeft, m => m.moveLeft
  | moveRight, m => m.moveRight
  | goToLineStart, m => return m.goToLineStart
  | goToLineEnd, m => m.goToLineEnd

def applyAll (ops : List EditorOp) (m : Model) : Res Model := ops.foldlM (fun m op => op.apply m) m

end

end EditorOp

theorem newline_not_mem {s : Bytes} (hs : Printable s) : newline ∉ s := by
  intro h
  exact absurd (hs newline h).1 (by decide)

namespace Model

open FlatText (gap)

/-- The buffer stays one of printable lines and its flat text becomes `f`. -/
def FlatIs (f : FlatText UInt8) (m : Model) : Prop := m.AsciiBuffer ∧ m.flat = f

variable {m m' : Model} {above below : List Bytes} {l r : Bytes}

theorem At.flatIs {f : FlatText UInt8} (h : m.At above l r below)
    (hf : gap (FlatText.above newline above ++ l) (r ++ FlatText.below newline below) = f) :
    m.FlatIs f := ⟨h.buffer, h.flat.trans hf⟩

section
variable [Ucd]

theorem At.simulates_moveLeft (h : m.At above l r below) :
    Lexing m.moveLeft (FlatIs m.flat.left) := by
  rw [h.flat]
  obtain rfl | ⟨l, c, rfl⟩ := List.eq_nil_or_concat' l
  · obtain rfl | ⟨above, p, rfl⟩ := List.eq_nil_or_concat' above
    · rw [h.moveLeft_start]
      exact h.flatIs (by simp)
    · obtain ⟨m', hm', hat⟩ := h.moveLeft_up
      rw [hm']
      refine hat.flatIs ?_
      rw [FlatText.above_concat, List.append_nil, FlatText.left_gap]
      simp
  · obtain ⟨m', hm', hat⟩ := h.moveLeft_in
    rw [hm']
    refine hat.flatIs ?_
    rw [← List.append_assoc, FlatText.left_gap]
    rfl

theorem At.simulates_moveRight (h : m.At above l r below) :
    Lexing m.moveRight (FlatIs m.flat.right) := by
  rw [h.flat]
  cases r with
  | nil =>
    cases below with
    | nil =>
      rw [h.moveRight_end]
      exact h.flatIs (by simp)
    | cons q below =>
      obtain ⟨m', hm', hat, -⟩ := h.moveRight_down
      rw [hm']
      refine hat.flatIs ?_
      rw [FlatText.below_cons, List.nil_append, FlatText.right_gap]
      simp
  | cons c r =>
    obtain ⟨m', hm', hat, -⟩ := h.moveRight_in
    rw [hm']
    refine hat.flatIs ?_
    rw [List.cons_append, FlatText.right_gap, List.append_assoc]

theorem At.simulates_deleteChar (hucd : PrintableAscii) (h : m.At above l r below) :
    Lexing m.deleteChar (FlatIs m.flat.backspace) := by
  rw [h.flat]
  obtain rfl | ⟨l, c, rfl⟩ := List.eq_nil_or_concat' l
  · obtain rfl | ⟨above, p, rfl⟩ := List.eq_nil_or_concat' above
    · rw [h.deleteChar_start]
      exact h.flatIs (by simp)
    · refine (h.deleteChar_join hucd).mono fun m' hat => hat.flatIs ?_
      rw [FlatText.above_concat, List.append_nil, FlatText.backspace_gap]
  · refine h.deleteChar_in.mono fun m' hat => hat.flatIs ?_
    rw [← List.append_assoc, FlatText.backspace_gap]

/-- A cursor that moved right over a character deletes it from behind. -/
theorem At.simulates_deleteCharAfterCursor (hucd : PrintableAscii) (h : m.At above l r below) :
    Lexing m.deleteCharAfterCursor (FlatIs m.flat.delete) := by
  cases r with
  | nil =>
    cases below with
    | nil =>
      have hsame : m.sameCursorPos m = true := by simp [sameCursorPos]
      rw [deleteCharAfterCursor, h.moveRight_end, h.flat]
      simp only [bind, Except.bind, hsame, if_true]
      exact h.flatIs (by simp)
    | cons q below =>
      obtain ⟨m', hm', hat, hline⟩ := h.moveRight_down
      have hsame : m.sameCursorPos m' = false := by
        simp only [sameCursorPos, hline, Bool.and_eq_false_iff, decide_eq_false_iff_not]
        omega
      rw [deleteCharAfterCursor, hm', h.flat]
      simp only [bind, Except.bind, hsame, Bool.false_eq_true, if_false]
      refine (hat.deleteChar_join hucd).mono fun m'' hat' => hat'.flatIs ?_
      rw [FlatText.below_cons, List.nil_append, FlatText.delete_gap]
  | cons c r =>
    obtain ⟨m', hm', hat, hpos⟩ := h.moveRight_in
    have hsame : m.sameCursorPos m' = false := by
      simp only [sameCursorPos, hpos, Bool.and_eq_false_iff, decide_eq_false_iff_not]
      omega
    rw [deleteCharAfterCursor, hm', h.flat]
    simp only [bind, Except.bind, hsame, Bool.false_eq_true, if_false]
    refine hat.deleteChar_in.mono fun m'' hat' => hat'.flatIs ?_
    rw [List.cons_append, FlatText.delete_gap]

theorem At.simulates_deleteBeforeCursor (hucd : PrintableAscii) (h : m.At above l r below) :
    Lexing m.deleteBeforeCursor (FlatIs (m.flat.deleteBefore newline)) := by
  by_cases hl : l = []
  · subst hl
    have hstart : m.deleteBeforeCursor = m.deleteChar := by
      rw [Model.deleteBeforeCursor, h.atLineStart]
      rfl
    rw [hstart, h.flat, List.append_nil, FlatText.deleteBefore_gap_nil FlatText.endsLine_above]
    have hdelete := h.simulates_deleteChar hucd
    rwa [h.flat, List.append_nil] at hdelete
  · refine (h.deleteBeforeCursor_in hucd hl).mono fun m' hat => hat.flatIs ?_
    rw [h.flat, FlatText.deleteBefore_gap hl (newline_not_mem h.left) FlatText.endsLine_above,
      List.append_nil]

/-- One operation does to the buffer what it does to the flat text. -/
theorem simulates (hucd : PrintableAscii) (h : m.AsciiBuffer) {op : EditorOp}
    (hop : op.Allowed) : Lexing (op.apply m) (FlatIs (op.flat m.flat)) := by
  obtain ⟨above, l, r, below, h⟩ := h.at
  cases op with
  | insertChar c =>
    refine (h.insertChar hop).mono fun m' hat => hat.flatIs ?_
    rw [h.flat, EditorOp.flat, FlatText.insert_gap, List.append_assoc]
  | deleteChar => exact h.simulates_deleteChar hucd
  | deleteCharAfterCursor => exact h.simulates_deleteCharAfterCursor hucd
  | deleteBeforeCursor => exact h.simulates_deleteBeforeCursor hucd
  | insertNewline =>
    refine h.insertNewline.mono fun m' hat => hat.flatIs ?_
    rw [h.flat, EditorOp.flat, FlatText.insert_gap, FlatText.above_concat, List.append_nil]
  | moveLeft => exact h.simulates_moveLeft
  | moveRight => exact h.simulates_moveRight
  | goToLineStart =>
    refine h.goToLineStart.flatIs ?_
    rw [h.flat, EditorOp.flat,
      FlatText.lineStart_gap (newline_not_mem h.left) FlatText.endsLine_above]
    simp
  | goToLineEnd =>
    obtain ⟨m', hm', hat⟩ := h.goToLineEnd
    rw [EditorOp.apply, hm']
    refine hat.flatIs ?_
    rw [h.flat, EditorOp.flat,
      FlatText.lineEnd_gap (newline_not_mem h.right) FlatText.startsLine_below]
    simp

/-- Any sequence of operations does to the buffer what it does to the flat text. -/
theorem edits_simulate (hucd : PrintableAscii) (h : m.AsciiBuffer) {ops : List EditorOp}
    (hops : ∀ op ∈ ops, op.Allowed) :
    Lexing (EditorOp.applyAll ops m) fun m' =>
      m'.AsciiBuffer ∧ m'.flat = ops.foldl (fun f op => op.flat f) m.flat := by
  induction ops generalizing m with
  | nil => exact ⟨h, rfl⟩
  | cons op ops ih =>
    refine (simulates hucd h (hops op (by simp))).bind fun m' ⟨h', hflat⟩ => ?_
    rw [List.foldl_cons, ← hflat]
    exact ih h' fun op hop => hops op (List.mem_cons_of_mem _ hop)

end

section

open Update (initialModel)

attribute [local instance] asciiUcd

/-- Two lines, the second joined to the first from its start. -/
theorem edits_simulate_join : ∃ m m',
    initialModel (History.init ⟨[], []⟩) 1 80 24 = .ok m ∧
    EditorOp.applyAll [.insertChar 97, .insertNewline, .insertChar 98, .goToLineStart, .deleteChar]
      m = .ok m' ∧
    m'.flat = ⟨[97, 98], 1⟩ := by
  obtain ⟨m, m', h₀, hrun, hlines, hline, hpos⟩ : ∃ m m',
      initialModel (History.init ⟨[], []⟩) 1 80 24 = .ok m ∧
      EditorOp.applyAll [.insertChar 97, .insertNewline, .insertChar 98, .goToLineStart,
        .deleteChar] m = .ok m' ∧
      m.input.lines = [.empty] ∧ m.input.cursorLine = 0 ∧ m.input.cursorPos = 0 :=
    ⟨_, _, rfl, rfl, rfl, rfl, rfl⟩
  have hat : m.At [] [] [] [] :=
    ⟨hlines, hline, hpos, nofun, nofun, nofun, nofun⟩
  have hops : ∀ op ∈ [.insertChar 97, .insertNewline, .insertChar 98, .goToLineStart, .deleteChar],
      EditorOp.Allowed op := by decide
  have hflat := ((edits_simulate printableAscii_asciiUcd hat.buffer hops).of_eq_ok hrun).2
  rw [hat.flat] at hflat
  exact ⟨m, m', h₀, hrun, hflat⟩

end

end Model
end Raoui
