import Mathlib.Data.List.GetD
import Raoui.Editor.Returns
import Raoui.View.Ranges
import Raoui.View.View

/-!
# Raoui.View.Rows

Wrapping a styled line. Whatever the ranges, a well-formed line comes out as rows of whole clusters,
as many to a row as `packStyled` says. At no width the line is one row of its ranges.

* `Cover`: rows of segments that hold given numbers of clusters.
* `wrapStyledLine_covers`: what wrapping gives.
-/

namespace Raoui

namespace UnicodeString

/-- Where cluster `i` starts, or the text ends. -/
def boundary (t : UnicodeString) (i : Nat) : Nat := t.stopOf i 0

theorem boundary_of_lt {t : UnicodeString} {i : Nat} (h : i < t.length) :
    t.boundary i = t.offset i := by
  unfold boundary stopOf
  rw [Nat.add_zero, if_neg (by omega)]

theorem stop_eq_boundary (t : UnicodeString) (i : Nat) : t.stop i = t.boundary (i + 1) := by
  unfold stop boundary stopOf length
  by_cases h : i + 1 < t.offsets.length
  · rw [if_pos h, if_neg (by omega), Nat.add_zero]
  · rw [if_neg h, if_pos (by omega)]

theorem stopOf_eq_boundary (t : UnicodeString) (start len : Nat) :
    t.stopOf start len = t.boundary (start + len) := rfl

theorem boundary_length (t : UnicodeString) : t.boundary t.length = t.bytes.length := by
  unfold boundary stopOf
  rw [if_pos (by omega)]

theorem WellFormed.boundary_lt_succ {t : UnicodeString} (h : t.WellFormed) {i : Nat}
    (hi : i < t.length) : t.boundary i < t.boundary (i + 1) := by
  rw [boundary_of_lt hi, ← stop_eq_boundary]
  exact (h.offset_lt_stop hi).1

theorem WellFormed.boundary_le {t : UnicodeString} (h : t.WellFormed) {i j : Nat} (hij : i ≤ j)
    (hj : j ≤ t.length) : t.boundary i ≤ t.boundary j := by
  induction j, hij using Nat.le_induction with
  | base => exact Nat.le_refl _
  | succ j _ ih => exact (ih (by omega)).trans (h.boundary_lt_succ (by omega)).le

theorem WellFormed.boundary_lt {t : UnicodeString} (h : t.WellFormed) {i j : Nat} (hij : i < j)
    (hj : j ≤ t.length) : t.boundary i < t.boundary j :=
  (h.boundary_lt_succ (by omega)).trans_le (h.boundary_le hij hj)

end UnicodeString

namespace View

open Outcome (Meets bind_eq_ok)
open RHighlight (StyledRange)
open TerminalOps (Span Style)
open UnicodeString (WellFormed)

/-- How many clusters come to each row, for clusters of these widths, with `k` clusters of `rowWidth`
columns in the current row. -/
def packStyled (width : Int) : Nat → Nat → List Nat → List Nat
  | _, k, [] => if k = 0 then [] else [k]
  | rowWidth, k, w :: ws =>
    if (rowWidth : Int) = width ∨ (0 < rowWidth ∧ (rowWidth : Int) + w > width) then
      -- the cluster goes to a row of its own, and is alone there if it is too wide
      k :: if (w : Int) > width then 1 :: packStyled width 0 0 ws else packStyled width w 1 ws
    else if (rowWidth : Int) + w > width then (k + 1) :: packStyled width 0 0 ws
    else packStyled width (rowWidth + w) (k + 1) ws

/-- A line that fills its last row gets an empty one for the cursor. -/
def cursorRow (width : Int) (line : UnicodeString) : Nat :=
  if line.displayWidth > 0 ∧ (line.displayWidth : Int) % width = 0 then 1 else 0

/-- The rows of a line. -/
def rowCount (width : Int) (line : UnicodeString) : Nat :=
  if width ≤ 0 ∨ line.isEmpty then 1
  else (packStyled width 0 0 line.widths).length + cursorRow width line

/-! ## Segments -/

/-- The segments follow each other from byte `a` to byte `b`. -/
def Chain (a b : Nat) : List StyledSegment → Prop
  | [] => a = b
  | s :: rest => s.startByte = a ∧ s.startByte < s.endByte ∧ Chain s.endByte b rest

theorem Chain.append {a b c : Nat} {row row' : List StyledSegment} (h : Chain a b row)
    (h' : Chain b c row') : Chain a c (row ++ row') := by
  induction row generalizing a with
  | nil =>
    cases h
    exact h'
  | cons s rest ih => exact ⟨h.1, h.2.1, ih h.2.2⟩

theorem Chain.le {a b : Nat} {row : List StyledSegment} (h : Chain a b row) : a ≤ b := by
  induction row generalizing a with
  | nil => exact Nat.le_of_eq h
  | cons s rest ih =>
    obtain ⟨rfl, hlt, hrest⟩ := h
    exact hlt.le.trans (ih hrest)

theorem Chain.extend {a b c : Nat} {row : List StyledSegment} {last : StyledSegment}
    (h : Chain a b (row ++ [last])) (hlt : b < c) :
    Chain a c (row ++ [{ last with endByte := c }]) := by
  induction row generalizing a with
  | nil =>
    obtain ⟨hstart, hlast, hend⟩ := h
    have hend : last.endByte = b := hend
    exact ⟨hstart, show last.startByte < c by omega, rfl⟩
  | cons s rest ih => exact ⟨h.1, h.2.1, ih h.2.2⟩

/-- A row is kept with its last segment first. -/
theorem Chain.addSegment {a b c : Nat} {row : List StyledSegment} (h : Chain a b row.reverse)
    (style : Style) (hlt : b < c) : Chain a c (addSegment row style b c).reverse := by
  unfold View.addSegment
  rw [if_neg hlt.ne]
  split
  · cases h
    exact ⟨rfl, hlt, rfl⟩
  · rename_i prev rest
    rw [List.reverse_cons] at h
    split
    · rw [List.reverse_cons]
      exact h.extend hlt
    · rw [List.reverse_cons, List.reverse_cons]
      exact h.append ⟨rfl, hlt, rfl⟩

theorem addSegment_ne_nil {row : List StyledSegment} {style : Style} {b c : Nat} (h : b < c) :
    addSegment row style b c ≠ [] := by
  unfold addSegment
  rw [if_neg h.ne]
  split
  · exact List.cons_ne_nil _ _
  · split <;> exact List.cons_ne_nil _ _

/-- The rows hold the clusters from `start` on, as many to each as the list says. -/
def Cover (line : UnicodeString) : Nat → List (List StyledSegment) → List Nat → Prop
  | _, [], [] => True
  | start, row :: rows, k :: ks =>
    Chain (line.boundary start) (line.boundary (start + k)) row ∧ Cover line (start + k) rows ks
  | _, _, _ => False

theorem Cover.length_eq {line : UnicodeString} {start : Nat} {rows : List (List StyledSegment)}
    {ks : List Nat} (h : Cover line start rows ks) : rows.length = ks.length := by
  induction rows generalizing start ks with
  | nil =>
    cases ks with
    | nil => rfl
    | cons k ks => exact h.elim
  | cons row rows ih =>
    cases ks with
    | nil => exact h.elim
    | cons k ks => exact congrArg Nat.succ (ih h.2)

theorem Cover.concat {line : UnicodeString} {start : Nat} {rows : List (List StyledSegment)}
    {ks : List Nat} {row : List StyledSegment} {k : Nat} (h : Cover line start rows ks)
    (hrow : Chain (line.boundary (start + ks.sum)) (line.boundary (start + ks.sum + k)) row) :
    Cover line start (rows ++ [row]) (ks ++ [k]) := by
  induction rows generalizing start ks with
  | nil =>
    cases ks with
    | nil => exact ⟨hrow, trivial⟩
    | cons k ks => exact h.elim
  | cons row' rows ih =>
    cases ks with
    | nil => exact h.elim
    | cons k' ks =>
      rw [List.sum_cons, ← Nat.add_assoc] at hrow
      exact ⟨h.1, ih h.2 hrow⟩

/-! ## The loop -/

/-- The loop has reached cluster `i`: the rows closed hold `ks` clusters, the current one `k`. -/
structure Wrapping.At (line : UnicodeString) (i rowWidth k : Nat) (ks : List Nat) (w : Wrapping) :
    Prop where
  rows : Cover line 0 w.rowsRev.reverse ks
  row : Chain (line.boundary ks.sum) (line.boundary i) w.rowRev.reverse
  count : ks.sum + k = i
  width : w.rowWidth = rowWidth
  started : k = 0 ↔ w.rowRev = []

variable {line : UnicodeString} {i rowWidth k : Nat} {ks : List Nat} {w : Wrapping} {width : Int}

theorem Wrapping.At.flushRow (h : w.At line i rowWidth k ks) :
    w.flushRow.At line i 0 0 (ks ++ [k]) := by
  have hsum : (ks ++ [k]).sum = i := by
    rw [List.sum_append, List.sum_singleton]
    exact h.count
  refine ⟨?_, ?_, ?_, rfl, ⟨fun _ => rfl, fun _ => rfl⟩⟩
  · show Cover line 0 (w.rowRev.reverse :: w.rowsRev).reverse (ks ++ [k])
    rw [List.reverse_cons]
    refine h.rows.concat ?_
    rw [Nat.zero_add, h.count]
    exact h.row
  · rw [hsum]
    rfl
  · rw [hsum, Nat.add_zero]

/-- A cluster of `clusterWidth` columns is put in the row, which is closed if it is too wide. -/
def Wrapping.place (width : Int) (clusterWidth startByte endByte : Nat) (w : Wrapping) : Wrapping :=
  let activeRanges := advanceRanges startByte w.activeRanges
  let w := { w with
    activeRanges
    rowRev := addSegment w.rowRev (styleAt startByte activeRanges) startByte endByte
    rowWidth := w.rowWidth + clusterWidth }
  if w.rowWidth > width then w.flushRow else w

theorem Wrapping.At.place (width : Int) (hline : line.WellFormed) (h : w.At line i rowWidth k ks)
    (hi : i < line.length) (clusterWidth : Nat) :
    if (rowWidth : Int) + clusterWidth > width then
      (w.place width clusterWidth (line.offset i) (line.stop i)).At line (i + 1) 0 0 (ks ++ [k + 1])
    else (w.place width clusterWidth (line.offset i) (line.stop i)).At line (i + 1)
      (rowWidth + clusterWidth) (k + 1) ks := by
  have hlt := hline.boundary_lt_succ hi
  rw [← UnicodeString.boundary_of_lt hi, UnicodeString.stop_eq_boundary]
  have hplaced : Wrapping.At line (i + 1) (rowWidth + clusterWidth) (k + 1) ks { w with
      activeRanges := advanceRanges (line.boundary i) w.activeRanges
      rowRev := addSegment w.rowRev (styleAt (line.boundary i)
        (advanceRanges (line.boundary i) w.activeRanges)) (line.boundary i) (line.boundary (i + 1))
      rowWidth := w.rowWidth + clusterWidth } := by
    refine ⟨h.rows, h.row.addSegment _ hlt, ?_, ?_, ?_⟩
    · rw [← Nat.add_assoc, h.count]
    · show w.rowWidth + (clusterWidth : Int) = _
      rw [h.width, Int.natCast_add]
    · exact ⟨nofun, fun hnil => absurd hnil (addSegment_ne_nil hlt)⟩
  unfold Wrapping.place
  rw [← h.width]
  dsimp only
  split
  · exact hplaced.flushRow
  · exact hplaced

theorem wrapFrom_succ {n : Nat} (hi : i < line.length) :
    wrapFrom width line (n + 1) i w = wrapFrom width line n (i + 1)
      ((if w.rowWidth = width ∨ (0 < w.rowWidth ∧ w.rowWidth + line.widths.getD i 0 > width) then
        w.flushRow else w).place width (line.widths.getD i 0) (line.offset i) (line.stop i)) := by
  have hrange : (0 : Int) ≤ i ∧ (i : Int) < line.length := by omega
  have hfull : ∀ cw : Nat, (if (if w.rowWidth = width then w.flushRow else w).rowWidth > 0 ∧
      (if w.rowWidth = width then w.flushRow else w).rowWidth + (cw : Int) > width then
      (if w.rowWidth = width then w.flushRow else w).flushRow
      else if w.rowWidth = width then w.flushRow else w) =
      if w.rowWidth = width ∨ (0 < w.rowWidth ∧ w.rowWidth + (cw : Int) > width) then w.flushRow
      else w := by
    intro cw
    by_cases hw : w.rowWidth = width
    · have hzero : w.flushRow.rowWidth = 0 := rfl
      rw [if_pos hw, hzero, if_neg (by omega), if_pos (.inl hw)]
    · rw [if_neg hw]
      simp only [hw, false_or, gt_iff_lt]
  rw [wrapFrom, UnicodeString.widthAt, if_pos hrange, UnicodeString.byteRangeAt, if_pos hrange]
  simp only [Int.toNat_natCast]
  show wrapFrom width line n (i + 1) _ = _
  rw [hfull]
  rfl

/-- The rows of the loop, the current one closed. -/
def Wrapping.closed (w : Wrapping) : Wrapping := if w.rowRev ≠ [] then w.flushRow else w

theorem Wrapping.At.closed (h : w.At line i rowWidth k ks) :
    Cover line 0 w.closed.rowsRev.reverse (ks ++ if k = 0 then [] else [k]) := by
  unfold Wrapping.closed
  by_cases hk : k = 0
  · rw [if_pos hk, if_neg (not_not.mpr (h.started.mp hk)), List.append_nil]
    exact h.rows
  · rw [if_neg hk, if_pos fun hnil => hk (h.started.mpr hnil)]
    exact h.flushRow.rows

theorem wrapFrom_spec (width : Int) (hline : line.WellFormed) (n : Nat) :
    ∀ {i rowWidth k : Nat} {ks : List Nat} {w : Wrapping}, i + n = line.length →
      w.At line i rowWidth k ks →
      Returns (wrapFrom width line n i w) fun w' => Cover line 0 w'.closed.rowsRev.reverse
        (ks ++ packStyled width rowWidth k (line.widths.drop i)) := by
  induction n with
  | zero =>
    intro i rowWidth k ks w hi h
    have hdrop : line.widths.drop i = [] :=
      List.drop_eq_nil_of_le (by rw [hline.widths_length]; omega)
    rw [hdrop]
    exact h.closed
  | succ n ih =>
    intro i rowWidth k ks w hi h
    have hlt : i < line.length := by omega
    have hwidths : i < line.widths.length := by rw [hline.widths_length]; exact hlt
    rw [wrapFrom_succ hlt, List.drop_eq_getElem_cons hwidths, ← List.getD_eq_getElem _ 0 hwidths,
      h.width]
    generalize line.widths.getD i 0 = cw
    unfold packStyled
    by_cases hfull : (rowWidth : Int) = width ∨ (0 < rowWidth ∧ (rowWidth : Int) + cw > width)
    · rw [if_pos hfull, if_pos (by omega)]
      have hplace := Wrapping.At.place width hline h.flushRow hlt cw
      rw [Int.natCast_zero, Int.zero_add] at hplace
      split
      · rename_i hwide
        rw [if_pos hwide] at hplace
        have := ih (by omega) hplace
        simpa only [List.append_assoc, List.cons_append, List.nil_append] using this
      · rename_i hwide
        rw [if_neg hwide, Nat.zero_add] at hplace
        have := ih (by omega) hplace
        simpa only [List.append_assoc, List.cons_append, List.nil_append] using this
    · rw [if_neg hfull, if_neg (by omega)]
      have hplace := Wrapping.At.place width hline h hlt cw
      split
      · rename_i hwide
        rw [if_pos hwide] at hplace
        have := ih (by omega) hplace
        simpa only [List.append_assoc, List.singleton_append] using this
      · rename_i hwide
        rw [if_neg hwide] at hplace
        exact ih (by omega) hplace

/-- What wrapping gives where there is room for a cluster. -/
theorem wrapStyledLine_covers (hline : line.WellFormed) (hwidth : 0 < width)
    (hne : line.isEmpty = false) (ranges : List StyledRange) :
    ∃ rows, wrapStyledLine width line ranges =
        .ok (rows ++ List.replicate (cursorRow width line) []) ∧
      Cover line 0 rows (packStyled width 0 0 line.widths) := by
  have hat : Wrapping.At line 0 0 0 [] ⟨[], [], 0, ranges⟩ :=
    ⟨trivial, rfl, rfl, rfl, ⟨fun _ => rfl, fun _ => rfl⟩⟩
  obtain ⟨w, hw, hcover⟩ := (wrapFrom_spec width hline line.length (by omega) hat).exists
  refine ⟨w.closed.rowsRev.reverse, ?_, hcover⟩
  unfold wrapStyledLine cursorRow
  rw [if_neg (by omega), hne, hw]
  show Except.ok (if _ then _ else _) = _
  split
  · rfl
  · rw [List.replicate_zero, List.append_nil]
    rfl

end View
end Raoui
