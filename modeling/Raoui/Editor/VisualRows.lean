import Mathlib.Data.List.GetD
import Raoui.Editor.Coordinates
import Raoui.Editor.Invariant

/-!
# Raoui.Editor.VisualRows

The rows of the prompt on the screen: where the cursor is among them and how it moves from one to
another.

* `FullIsTold`: the total width of a line tells whether its last row is full, as `wrap` takes it to.
* `cursor_cell_iff`: when the cursor has a cell and full lines get their extra row.
* `Lands`: a vertical move comes to stand in the row it goes to.
* `vertical_moves`: when `move_up` and `move_down` change the row by one, and where repeating them leads.
-/

namespace Raoui

open Outcome (bind_eq_ok)
open UnicodeString (WellFormed Clusterless)
open Filling (fill used)

/-! ## Full rows -/

/-- The total width of a line is a multiple of the screen's exactly when its last row is full. Columns
left unused before wide clusters count in neither. -/
def FullIsTold (width : Nat) (ws : List Nat) : Prop :=
  (used width ws).1 = width ↔ (used width ws).1 % width = (used width ws).2 % width

instance (width : Nat) (ws : List Nat) : Decidable (FullIsTold width ws) :=
  inferInstanceAs (Decidable (_ ↔ _))

/-- The last row of a wrapped line is an empty one. -/
def EndsEmpty (width : Nat) (line : UnicodeString) : Prop :=
  (wrapLine width line).getLast? = some .empty

/-- The last row with a cluster is as wide as the screen. -/
def LastFull (width : Nat) (line : UnicodeString) : Prop :=
  ∃ row, ((wrapLine width line).filter fun row => row.length ≠ 0).getLast? = some row ∧
    row.displayWidth = width

/-- A cell of the wrapped lines. -/
structure HasCell (width : Int) (lines : List UnicodeString) (row col : Int) : Prop where
  row_nonneg : 0 ≤ row
  row_lt : row < (wrapLines width lines).length
  col_nonneg : 0 ≤ col
  col_lt : col < width

section
variable {width : Nat} {line : UnicodeString}

/-- Every cluster takes some cells, and fits in a row. -/
def Fits (width : Nat) (line : UnicodeString) : Prop := ∀ w ∈ line.widths, 1 ≤ w ∧ w ≤ width

theorem displayWidth_eq_zero {row : UnicodeString} (h : row.WellFormed) (hlen : row.length = 0) :
    row.displayWidth = 0 := by
  have hwidths : row.widths = [] := List.length_eq_zero_iff.mp (by rw [h.widths_length, hlen])
  rw [UnicodeString.displayWidth, hwidths]
  rfl

/-- The rows with clusters, and the extra one. -/
theorem wrapLine_rows (hwf : line.WellFormed) (hwidth : 1 ≤ width) (hlen : line.length ≠ 0) :
    ∃ rows, rows.map UnicodeString.widths = fill width [] line.widths ∧
      (∀ row ∈ rows, row.length ≠ 0) ∧ wrapLine width line = rows ++
        if line.displayWidth > 0 ∧ (line.displayWidth : Int) % (width : Int) = 0 then [.empty] else [] := by
  have hempty : line.isEmpty = false := by
    by_contra h
    exact hlen (hwf.length_of_isEmpty (by simpa using h))
  exact ⟨_, (UnicodeString.wrapRows_widths hwf.widths_length _).1,
    UnicodeString.length_ne_zero_of_mem_wrapRows hwf.widths_length _, UnicodeString.wrap_eq (by omega) hempty⟩

variable {rows : List UnicodeString}

theorem sums_eq (hwidths : rows.map UnicodeString.widths = fill width [] line.widths) :
    rows.map UnicodeString.displayWidth = (fill width [] line.widths).map List.sum := by
  rw [← hwidths, List.map_map]
  rfl

theorem displayWidth_le (hwf : line.WellFormed) (hwidth : 1 ≤ width) (hfits : Fits width line)
    {row : UnicodeString} (hrow : row ∈ wrapLine width line) : row.displayWidth ≤ width := by
  by_cases hlen : line.length = 0
  · have hzero : row.displayWidth = 0 := by
      have hsum := (UnicodeString.wrap_lengths hwf (width : Int)).trans hlen
      exact displayWidth_eq_zero (hwf.wrap width row hrow)
        (List.sum_eq_zero_iff_forall_eq_nat.mp hsum _ (List.mem_map_of_mem hrow))
    omega
  · obtain ⟨rows, hwidths, -, hwrap⟩ := wrapLine_rows hwf hwidth hlen
    rw [hwrap] at hrow
    rcases List.mem_append.mp hrow with hrow | hrow
    · have hmem := List.mem_map_of_mem (f := UnicodeString.displayWidth) hrow
      rw [sums_eq hwidths] at hmem
      obtain ⟨r, hr, hsum⟩ := List.mem_map.mp hmem
      have hle := @Filling.fill_sum_le width [] line.widths (by simp)
        (fun w hw => Int.ofNat_le.mpr (hfits w hw).2) r hr
      omega
    · split at hrow
      · rw [List.mem_singleton.mp hrow]
        exact Nat.zero_le _
      · cases hrow

theorem displayWidth_pos (hwf : line.WellFormed) (hfits : Fits width line) (hlen : line.length ≠ 0) :
    0 < line.displayWidth := by
  unfold UnicodeString.displayWidth
  obtain ⟨w, ws, hws⟩ := List.exists_cons_of_ne_nil
    (fun h => hlen (by rw [← hwf.widths_length, h]; rfl) : line.widths ≠ [])
  have := (hfits w (by rw [hws]; exact List.mem_cons_self ..)).1
  rw [hws, List.sum_cons]
  omega

theorem endsEmpty_iff (hwf : line.WellFormed) (hwidth : 1 ≤ width) (hfits : Fits width line)
    (hlen : line.length ≠ 0) : EndsEmpty width line ↔ line.displayWidth % width = 0 := by
  have hpos := displayWidth_pos hwf hfits hlen
  obtain ⟨rows, -, hrows, hwrap⟩ := wrapLine_rows hwf hwidth hlen
  unfold EndsEmpty
  rw [hwrap]
  by_cases hmod : line.displayWidth % width = 0
  · rw [if_pos ⟨hpos, by omega⟩]
    simp [hmod]
  · rw [if_neg (by omega), List.append_nil]
    simp only [hmod, iff_false]
    intro hlast
    exact hrows _ (List.mem_of_getLast? hlast) rfl

theorem lastFull_iff (hwf : line.WellFormed) (hwidth : 1 ≤ width) (hfits : Fits width line)
    (hlen : line.length ≠ 0) : LastFull width line ↔ (used width line.widths).1 = width := by
  obtain ⟨rows, hwidths, hrows, hwrap⟩ := wrapLine_rows hwf hwidth hlen
  have hfilter : (wrapLine width line).filter (fun row => row.length ≠ 0) = rows := by
    rw [hwrap, List.filter_append, List.filter_eq_self.mpr (by simpa using hrows)]
    split
    · rw [List.filter_cons_of_neg (by simp [UnicodeString.empty, UnicodeString.length]),
        List.filter_nil, List.append_nil]
    · rw [List.filter_nil, List.append_nil]
  have hne : line.widths ≠ [] := fun h => hlen (by rw [← hwf.widths_length, h]; rfl)
  have hlast := Filling.fill_last hne fun w hw => (hfits w hw).2
  rw [← List.getLast?_map, ← sums_eq hwidths, List.getLast?_map] at hlast
  obtain ⟨row, hrow, hsum⟩ := Option.map_eq_some_iff.mp hlast
  unfold LastFull
  rw [hfilter, hrow, ← hsum]
  constructor
  · rintro ⟨row', heq, hfull⟩
    cases heq
    exact hfull
  · exact fun h => ⟨row, rfl, h⟩

theorem fullIsTold_iff (hwf : line.WellFormed) (hwidth : 1 ≤ width) (hfits : Fits width line)
    (hlen : line.length ≠ 0) :
    (EndsEmpty width line ↔ LastFull width line) ↔ FullIsTold width line.widths := by
  rw [endsEmpty_iff hwf hwidth hfits hlen, lastFull_iff hwf hwidth hfits hlen,
    UnicodeString.displayWidth, Filling.sum_dvd_iff fun w hw => (hfits w hw).2]
  exact Iff.comm

/-- A cursor within a row is left of its end. -/
theorem prefixWidth_lt {row : UnicodeString} (hwf : row.WellFormed) (hpos : ∀ w ∈ row.widths, 1 ≤ w)
    {off : Nat} (hoff : off < row.length) : row.prefixWidth off < row.displayWidth := by
  have hlt : off < row.widths.length := by rw [hwf.widths_length]; exact hoff
  unfold UnicodeString.prefixWidth UnicodeString.displayWidth
  rw [show (min (off : Int) row.length).toNat = off by omega]
  have hsplit := congrArg List.sum (List.take_append_drop off row.widths)
  rw [List.sum_append, List.drop_eq_getElem_cons hlt, List.sum_cons] at hsplit
  have := hpos _ (List.getElem_mem hlt)
  omega

theorem prefixWidth_length {row : UnicodeString} (hwf : row.WellFormed) :
    row.prefixWidth row.length = row.displayWidth := by
  unfold UnicodeString.prefixWidth UnicodeString.displayWidth
  rw [show (min (row.length : Int) row.length).toNat = row.widths.length by
    rw [hwf.widths_length]; omega, List.take_length]

/-- A line without clusters has no last row. -/
theorem rowless_ends (hwf : line.WellFormed) (hwidth : 1 ≤ width) (h : Clusterless line) :
    ¬EndsEmpty width line ∧ ¬LastFull width line := by
  have hnil : wrapLine width line = [] :=
    (UnicodeString.wrap_eq_nil_iff hwf (by omega)).mpr h
  unfold EndsEmpty LastFull
  rw [hnil]
  exact ⟨nofun, by rintro ⟨row, hrow, -⟩; cases hrow⟩

theorem endings_iff (hwf : line.WellFormed) (hwidth : 1 ≤ width) (hfits : Fits width line) :
    (line.isEmpty = false → (EndsEmpty width line ↔ LastFull width line)) ↔
      (line.length ≠ 0 → FullIsTold width line.widths) := by
  by_cases hlen : line.length = 0
  · simp only [hlen, ne_eq, not_true_eq_false, false_implies, iff_true]
    intro hempty
    obtain ⟨hends, hfull⟩ := rowless_ends hwf hwidth ⟨hempty, hlen⟩
    exact iff_of_false hends hfull
  · have hempty : line.isEmpty = false := by
      by_contra h
      exact hlen (hwf.length_of_isEmpty (by simpa using h))
    simp only [hempty, hlen, ne_eq, not_false_eq_true, true_implies]
    exact fullIsTold_iff hwf hwidth hfits hlen

/-- The column of a cursor is on the screen, if full lines have their extra row. -/
theorem standsIn_col_lt {before after : List UnicodeString} {row : UnicodeString} {col off : Nat}
    (hwf : line.WellFormed) (hwidth : 1 ≤ width) (hfits : Fits width line)
    (hends : line.isEmpty = false → (EndsEmpty width line ↔ LastFull width line))
    (h : StandsIn (wrapLine width line) before row after col off) : row.prefixWidth off < width := by
  have hrow : row ∈ line.wrap (width : Int) := by
    show row ∈ wrapLine width line
    rw [h.split]
    simp
  have hrowwf := hwf.wrap width row hrow
  have hle := displayWidth_le hwf hwidth hfits hrow
  rcases h.within with hlt | ⟨rfl, hafter⟩
  · have := prefixWidth_lt hrowwf
      (fun w hw => (hfits w (UnicodeString.mem_wrap_widths hwf hrow w hw)).1) hlt
    omega
  · rw [prefixWidth_length hrowwf]
    by_cases hzero : row.length = 0
    · rw [displayWidth_eq_zero hrowwf hzero]
      omega
    · have hsplit := h.split
      rw [hafter] at hsplit
      have hempty : line.isEmpty = false := by
        by_contra hne
        have hsum := UnicodeString.wrap_lengths hwf (width : Int)
        rw [hwf.length_of_isEmpty (by simpa using hne)] at hsum
        exact hzero (List.sum_eq_zero_iff_forall_eq_nat.mp hsum _ (List.mem_map_of_mem hrow))
      refine lt_of_le_of_ne hle fun hfull => hzero ?_
      have hlast : LastFull width line := by
        refine ⟨row, ?_, hfull⟩
        rw [hsplit, List.filter_append, List.filter_cons_of_pos (by simpa using hzero),
          List.filter_nil, List.getLast?_concat]
      have hend : (wrapLine width line).getLast? = some .empty := (hends hempty).mpr hlast
      rw [hsplit, List.getLast?_concat, Option.some.injEq] at hend
      rw [hend]
      rfl

theorem wrapLines_length_append (width : Int) (lines lines' : List UnicodeString) :
    (wrapLines width (lines ++ lines')).length =
      (wrapLines width lines).length + (wrapLines width lines').length := by
  simp [wrapLines]

theorem wrapLines_length_cons (width : Int) (line : UnicodeString) (lines : List UnicodeString) :
    (wrapLines width (line :: lines)).length =
      (wrapLine width line).length + (wrapLines width lines).length := by
  simp [wrapLines]

theorem wrapLines_length_pos_iff {lines : List UnicodeString} (hwidth : 1 ≤ width)
    (hlines : ∀ line ∈ lines, line.WellFormed) :
    0 < (wrapLines width lines).length ↔ ∃ line ∈ lines, ¬Clusterless line := by
  rw [List.length_pos_iff, wrapLines, ne_eq, List.flatMap_eq_nil_iff]
  push Not
  refine exists_congr fun line => and_congr_right fun hline => ?_
  exact not_congr (UnicodeString.wrap_eq_nil_iff (hlines line hline) (by omega))

end

/-- The cursor has a cell of the wrapped lines, and exactly the full lines end in an extra row, unless
columns left unused before wide clusters make the total width of a line misleading, or the cursor is
on a line without a cluster and no row follows. -/
theorem cursor_cell_iff {width : Nat} {lines : List UnicodeString} {cursorLine cursorPos : Int}
    (hwidth : 1 ≤ width) (hlines : ∀ line ∈ lines, line.WellFormed ∧ Fits width line)
    (hcursor : ValidCursor lines cursorLine cursorPos) :
    ((∃ row col, internalToTerminal width lines cursorLine cursorPos = .ok (row, col) ∧
        HasCell width lines row col) ∧
      ∀ line ∈ lines, line.isEmpty = false → (EndsEmpty width line ↔ LastFull width line)) ↔
    (∀ line ∈ lines, line.length ≠ 0 → FullIsTold width line.widths) ∧
      (Clusterless (lines.getD cursorLine.toNat .empty) →
        ∃ line ∈ lines.drop (cursorLine.toNat + 1), ¬Clusterless line) := by
  have hends : (∀ line ∈ lines, line.isEmpty = false → (EndsEmpty width line ↔ LastFull width line)) ↔
      ∀ line ∈ lines, line.length ≠ 0 → FullIsTold width line.widths :=
    forall₂_congr fun line hline => endings_iff (hlines line hline).1 hwidth (hlines line hline).2
  rw [and_comm, hends]
  refine and_congr_right fun htold => ?_
  have hends := hends.mpr htold
  obtain ⟨above, line, below, col, rfl, rfl, rfl, hcol, hline⟩ := hcursor.split
  obtain ⟨hwf, hfits⟩ := hlines line (by simp)
  have hbelow : (above ++ line :: below).drop ((above.length : Int).toNat + 1) = below := by
    rw [show (above.length : Int).toNat + 1 = above.length + 1 by omega]
    simp
  rw [hline, hbelow, ← wrapLines_length_pos_iff hwidth
    fun l hl => (hlines l (by simp [hl])).1]
  have htotal := wrapLines_length_append width above (line :: below)
  rw [wrapLines_length_cons] at htotal
  by_cases hrows : wrapLine width line = []
  · have hless := (UnicodeString.wrap_eq_nil_iff hwf (by omega : (0 : Int) < width)).mp hrows
    rw [internalToTerminal_rowless hrows]
    rw [hrows, List.length_nil] at htotal
    constructor
    · rintro ⟨row, displayCol, heq, hcell⟩ -
      cases heq
      have := hcell.row_lt
      omega
    · intro h
      have := h hless
      exact ⟨_, _, rfl, by omega, by omega, by omega, by omega⟩
  · have hclusters : ¬Clusterless line := fun h =>
      hrows ((UnicodeString.wrap_eq_nil_iff hwf (by omega)).mpr h)
    simp only [hclusters, false_implies, iff_true]
    obtain ⟨before, row, after, off, h⟩ :=
      exists_standsIn hrows (hcol.trans (UnicodeString.wrap_lengths hwf (width : Int)).ge)
    have hlt := standsIn_col_lt hwf hwidth hfits (hends line (by simp)) h
    rw [h.split, List.length_append, List.length_cons] at htotal
    exact ⟨_, _, internalToTerminal_of h, by omega, by omega, by omega, by omega⟩

section
attribute [local instance] asciiUcd

theorem cursor_cell_iff_wide : ∃ line, UnicodeString.ofString (bytes "abc漢") = .ok line ∧
    (((∃ row col, internalToTerminal (3 : Nat) [line] 0 4 = .ok (row, col) ∧
        HasCell (3 : Nat) [line] row col) ∧
      ∀ l ∈ [line], l.isEmpty = false → (EndsEmpty 3 l ↔ LastFull 3 l)) ↔
    (∀ l ∈ [line], l.length ≠ 0 → FullIsTold 3 l.widths) ∧
      (Clusterless ([line].getD (0 : Int).toNat .empty) →
        ∃ l ∈ [line].drop ((0 : Int).toNat + 1), ¬Clusterless l)) := by
  obtain ⟨line, hline⟩ : ∃ line, UnicodeString.ofString (bytes "abc漢") = .ok line := ⟨_, rfl⟩
  have hwf := UnicodeString.wellFormed_of_ofString hline
  have hfits : Fits 3 line := by
    cases hline
    unfold Fits
    decide
  have hlen : (4 : Int) ≤ line.length := by
    cases hline
    decide
  exact ⟨line, hline, cursor_cell_iff (by decide) (List.forall_mem_singleton.mpr ⟨hwf, hfits⟩)
    ⟨by decide, show (0 : Int) < 1 by decide, by decide, hlen⟩⟩

/-- Two wide characters and a letter on three columns: the last row is full, the total width is no
multiple of three, and the cursor at the end is past the right edge. -/
theorem cursor_past_edge : ∃ line, UnicodeString.ofString (bytes "漢漢a") = .ok line ∧
    Fits 3 line ∧ ValidCursor [line] 0 3 ∧
    internalToTerminal (3 : Nat) [line] 0 3 = .ok ((1, 3) : Int × Int) ∧
    LastFull 3 line ∧ ¬EndsEmpty 3 line := by
  obtain ⟨line, hline⟩ : ∃ line, UnicodeString.ofString (bytes "漢漢a") = .ok line := ⟨_, rfl⟩
  refine ⟨line, hline, ?_⟩
  cases hline
  refine ⟨by unfold Fits; decide, ⟨by decide, by decide, by decide, by decide⟩, by rfl,
    ⟨_, by rfl, by decide⟩, by unfold EndsEmpty; decide⟩

end
/-! ## Vertical motion -/

/-- Row `k` of the wrapped lines is the last one of its line. -/
def isLastRow (width : Int) : List UnicodeString → Nat → Bool
  | [], _ => true
  | line :: rest, k =>
    if k < (wrapLine width line).length then k + 1 = (wrapLine width line).length
    else isLastRow width rest (k - (wrapLine width line).length)

/-- Where row `k` of the wrapped lines is. -/
structure RowAt (width : Int) (lines : List UnicodeString) (k : Nat) (above : List UnicodeString)
    (line : UnicodeString) (below before : List UnicodeString) (row : UnicodeString)
    (after : List UnicodeString) : Prop where
  lines : lines = above ++ line :: below
  rows : wrapLine width line = before ++ row :: after
  index : k = (wrapLines width above).length + before.length

section
variable {width : Int} {lines above below before after : List UnicodeString}
  {line row : UnicodeString} {k : Nat}

theorem exists_rowAt (hk : k < (wrapLines width lines).length) :
    ∃ above line below before row after, RowAt width lines k above line below before row after := by
  induction lines generalizing k with
  | nil => cases hk
  | cons line rest ih =>
    by_cases hlt : k < (wrapLine width line).length
    · refine ⟨[], line, rest, (wrapLine width line).take k, (wrapLine width line)[k],
        (wrapLine width line).drop (k + 1), rfl, ?_, ?_⟩
      · rw [← List.drop_eq_getElem_cons hlt, List.take_append_drop]
      · rw [List.length_take, Nat.min_eq_left hlt.le]
        simp [wrapLines]
    · rw [wrapLines_length_cons] at hk
      obtain ⟨above, line', below, before, row, after, h⟩ :=
        @ih (k - (wrapLine width line).length) (by omega)
      refine ⟨line :: above, line', below, before, row, after, by rw [h.lines, List.cons_append],
        h.rows, ?_⟩
      have := h.index
      rw [wrapLines_length_cons]
      omega

theorem RowAt.nth (h : RowAt width lines k above line below before row after) :
    nth (wrapLines width lines) k = .ok row := by
  refine nth_eq (Int.natCast_nonneg k) ?_
  have hrows : wrapLines width lines = wrapLines width above ++ before ++ row ::
      (after ++ wrapLines width below) := by
    rw [h.lines, wrapLines, List.flatMap_append, List.flatMap_cons, h.rows]
    simp [wrapLines]
  rw [show (k : Int).toNat = k by omega, hrows, h.index, ← List.length_append]
  simp

theorem RowAt.isLastRow_iff (h : RowAt width lines k above line below before row after) :
    isLastRow width lines k = true ↔ after = [] := by
  obtain ⟨rfl, hrows, hindex⟩ := h
  induction above generalizing k with
  | nil =>
    have hk : k = before.length := by simpa [wrapLines] using hindex
    rw [List.nil_append, isLastRow, hrows, if_pos, hk, ← List.length_eq_zero_iff]
    · rw [decide_eq_true_eq, List.length_append, List.length_cons]
      omega
    · rw [List.length_append, List.length_cons]
      omega
  | cons first above ih =>
    rw [wrapLines_length_cons] at hindex
    rw [List.cons_append, isLastRow, if_neg (by omega)]
    exact ih (by omega)

theorem RowAt.length_ne_zero (h : RowAt width lines k above line below before row after)
    (hwf : line.WellFormed) (hafter : after ≠ []) : row.length ≠ 0 := by
  refine UnicodeString.length_ne_zero_of_mem_dropLast hwf (show row ∈ (wrapLine width line).dropLast from ?_)
  rw [h.rows, List.dropLast_append_of_ne_nil (List.cons_ne_nil _ _),
    List.dropLast_cons_of_ne_nil hafter]
  simp

/-- A row is passed as a whole exactly by a column at or behind its end. -/
theorem fitting_lt_iff {limit : Int} {used : Nat} {ws : List Nat} (hne : ws ≠ []) :
    UnicodeString.fitting limit used ws < ws.length ↔ limit < ((used + ws.sum : Nat) : Int) := by
  induction ws generalizing used with
  | nil => exact absurd rfl hne
  | cons w ws ih =>
    rw [UnicodeString.fitting, List.length_cons, List.sum_cons]
    split
    · exact iff_of_true (Nat.succ_pos _) (by omega)
    · by_cases hws : ws = []
      · subst hws
        rw [UnicodeString.fitting, List.sum_nil]
        simp only [List.length_nil]
        omega
      · have := @ih (used + w) hws
        rw [Nat.add_lt_add_iff_right, this, Nat.add_assoc]

theorem RowAt.graphemeAtWidth_lt_iff (h : RowAt width lines k above line below before row after)
    (hwf : line.WellFormed) (hafter : after ≠ []) (col : Int) :
    row.graphemeAtWidth col < row.length ↔ col < row.displayWidth := by
  have hrow : row.WellFormed := hwf.wrap width row (by
    show row ∈ wrapLine width line
    rw [h.rows]
    simp)
  have hne : row.widths ≠ [] := fun hnil =>
    h.length_ne_zero hwf hafter (by rw [← hrow.widths_length, hnil]; rfl)
  have := @fitting_lt_iff col 0 row.widths hne
  rw [hrow.widths_length, Nat.zero_add] at this
  exact this

/-- Back on the screen from where `terminal_to_internal` puts the cursor: in the row it was put in,
or at the start of the next when it was put behind all clusters of a row that is not the last. -/
theorem RowAt.internalToTerminal (h : RowAt width lines k above line below before row after)
    (hwf : line.WellFormed) {off : Nat} (hoff : off ≤ row.length) :
    ∃ k' displayCol, Raoui.internalToTerminal width lines above.length (clusterSum before + off) =
        .ok ((k', displayCol) : Int × Int) ∧ (k' = k ↔ after = [] ∨ off < row.length) := by
  obtain ⟨rfl, hrows, hindex⟩ := id h
  by_cases hlands : after = [] ∨ off < row.length
  · have hstands : StandsIn (wrapLine width line) before row after (clusterSum before + off) off := by
      refine ⟨hrows, rfl, ?_⟩
      rcases Nat.lt_or_ge off row.length with hlt | hge
      · exact .inl hlt
      · exact .inr ⟨by omega, hlands.resolve_right (by omega)⟩
    refine ⟨_, _, internalToTerminal_of hstands, ?_⟩
    simp only [hlands, iff_true]
    omega
  · push Not at hlands
    obtain ⟨next, rest, hafter⟩ := List.exists_cons_of_ne_nil hlands.1
    have hstands : StandsIn (wrapLine width line) (before ++ [row]) next rest
        (clusterSum before + off) 0 := by
      refine ⟨by rw [hrows, hafter]; simp, ?_, ?_⟩
      · rw [clusterSum_append, clusterSum_cons, clusterSum_nil]
        omega
      · rcases Nat.eq_zero_or_pos next.length with hzero | hpos
        · refine .inr ⟨hzero.symm, ?_⟩
          by_contra hrest
          have hnext : RowAt width (above ++ line :: below) (k + 1) above line below
              (before ++ [row]) next rest :=
            ⟨rfl, by rw [hrows, hafter]; simp, by simp; omega⟩
          exact hnext.length_ne_zero hwf hrest hzero
        · exact .inl hpos
    refine ⟨_, _, internalToTerminal_of hstands, ?_⟩
    simp only [hlands.1, Nat.not_lt.mpr hlands.2, or_self, iff_false, List.length_append,
      List.length_singleton]
    omega

end
namespace Model

open Transition (Run Restrict)

def visualRows (m : Model) : Nat := (wrapLines m.effectiveWidth m.input.lines).length

/-- A vertical move to row `newRow` comes to stand in that row: it is the last row of its line, or
wider than the column the move aims at. -/
def Lands (m : Model) (newRow currentCol : Int) : Prop :=
  isLastRow m.effectiveWidth m.input.lines newRow.toNat = true ∨
    m.targetCol currentCol <
      ((wrapLines m.effectiveWidth m.input.lines).getD newRow.toNat .empty).displayWidth

/-- A model of Normal mode with its cursor in the prompt. -/
structure Standing (m : Model) : Prop where
  coherent : m.Coherent
  inRange : m.InRange
  mode : m.input.mode = .normal

variable [Ucd] {m m' : Model}

omit [Ucd] in
theorem Standing.validCursor (h : m.Standing) :
    ValidCursor m.input.lines m.input.cursorLine m.input.cursorPos :=
  ⟨h.coherent.line_nonneg, h.coherent.line_lt, h.coherent.pos_nonneg, h.inRange⟩

omit [Ucd] in
theorem cursorTerminalPos_normal (h : m.input.mode = .normal) : m.cursorTerminalPos =
    internalToTerminal m.effectiveWidth m.input.lines m.input.cursorLine m.input.cursorPos := by
  unfold cursorTerminalPos
  rw [h]

omit [Ucd] in
/-- The row of the cursor; a line without a row has the cursor where its rows would be. -/
theorem Standing.cursor (h : m.Standing) : ∃ row col,
    m.cursorTerminalPos = .ok (row, col) ∧ 0 ≤ row ∧ row ≤ m.visualRows := by
  obtain ⟨above, line, below, col, hlines, hline, hpos, hcol, -⟩ := h.validCursor.split
  have hwf := h.coherent.wellFormed line (by rw [hlines]; simp)
  have htotal : m.visualRows = (wrapLines m.effectiveWidth above).length +
      ((wrapLine m.effectiveWidth line).length + (wrapLines m.effectiveWidth below).length) := by
    unfold visualRows
    rw [hlines, wrapLines_length_append, wrapLines_length_cons]
  rw [cursorTerminalPos_normal h.mode, hlines, hline, hpos]
  by_cases hrows : wrapLine m.effectiveWidth line = []
  · exact ⟨_, _, internalToTerminal_rowless hrows col, by omega, by omega⟩
  · obtain ⟨before, row, after, off, hstands⟩ := exists_standsIn hrows
      (hcol.trans (UnicodeString.wrap_lengths hwf m.effectiveWidth).ge)
    rw [hstands.split, List.length_append, List.length_cons] at htotal
    exact ⟨_, _, internalToTerminal_of hstands, by omega, by omega⟩

omit [Ucd] in
/-- A vertical move goes to the line of the row, to the cluster of it at the column. -/
theorem moveToRow_of {k : Nat} {above below before after : List UnicodeString}
    {line row : UnicodeString}
    (h : RowAt m.effectiveWidth m.input.lines k above line below before row after)
    (currentCol : Int) : m.moveToRow k currentCol = .ok { m with
      input.cursorLine := above.length
      input.cursorPos := clusterSum before +
        row.graphemeAtWidth (min (m.targetCol currentCol) row.displayWidth)
      input.persistentCol := m.targetCol currentCol } := by
  have hback : terminalToInternal m.effectiveWidth m.input.lines k
      (min (m.targetCol currentCol) row.displayWidth) = .ok (above.length, clusterSum before +
        row.graphemeAtWidth (min (m.targetCol currentCol) row.displayWidth)) := by
    rw [show (k : Int) = (wrapLines m.effectiveWidth above).length + before.length by
      have := h.index
      omega, h.lines]
    exact terminalToInternal_of h.rows _
  exact bind_eq_ok.mpr ⟨row, h.nth, bind_eq_ok.mpr ⟨_, hback, rfl⟩⟩

theorem Standing.moveToRow (h : m.Standing) {k : Nat} (hk : k < m.visualRows) (currentCol : Int) :
    ∃ m' row col, m.moveToRow k currentCol = .ok m' ∧ m'.Standing ∧
      m'.visualRows = m.visualRows ∧ m'.cursorTerminalPos = .ok (row, col) ∧
        (row = k ↔ m.Lands k currentCol) := by
  obtain ⟨above, line, below, before, row, after, hat⟩ := exists_rowAt hk
  have hwf := h.coherent.wellFormed line (by rw [hat.lines]; simp)
  have hmoved := moveToRow_of hat currentCol
  have hle := UnicodeString.graphemeAtWidth_le (hwf.wrap m.effectiveWidth row (by
    show row ∈ wrapLine m.effectiveWidth line
    rw [hat.rows]
    simp)) (min (m.targetCol currentCol) row.displayWidth)
  obtain ⟨row', col', hpos, hiff⟩ := hat.internalToTerminal hwf hle
  have hedits := (h.coherent.moveToRow (Int.natCast_nonneg k) currentCol).of_eq_ok hmoved
  refine ⟨_, row', col', hmoved, ⟨hedits.coherent, hedits.inRange h.inRange trivial, h.mode⟩, rfl,
    ?_, hiff.trans ?_⟩
  · exact (cursorTerminalPos_normal (by exact h.mode)).trans hpos
  · have hget : (wrapLines m.effectiveWidth m.input.lines).getD k .empty = row := by
      have hnth := hat.nth
      rw [nth_eq (Int.natCast_nonneg k) (List.getElem?_eq_getElem hk)] at hnth
      cases hnth
      exact List.getD_eq_getElem _ _ hk
    unfold Lands
    rw [show (k : Int).toNat = k by omega, hat.isLastRow_iff, hget]
    by_cases hafter : after = []
    · simp only [hafter, true_or]
    · simp only [hafter, false_or]
      rw [hat.graphemeAtWidth_lt_iff hwf hafter]
      omega

/-- One row up, if there is one above. -/
theorem Standing.moveUp (h : m.Standing) {row col : Int} (hcursor : m.cursorTerminalPos = .ok (row, col)) :
    ∃ m' row' col', m.moveUp = .ok m' ∧ m'.Standing ∧ m'.visualRows = m.visualRows ∧
      m'.cursorTerminalPos = .ok (row', col') ∧ (row ≤ 0 → row' = row) ∧
        (0 < row → (row' = row - 1 ↔ m.Lands (row - 1) col)) := by
  obtain ⟨row₀, col₀, hcursor₀, hnonneg, hle⟩ := h.cursor
  rw [hcursor] at hcursor₀
  cases hcursor₀
  unfold Model.moveUp
  rw [hcursor]
  show ∃ m' row' col', (if row > 0 then m.moveToRow (row - 1) col else .ok m) = .ok m' ∧ _
  by_cases hpos : 0 < row
  · rw [if_pos hpos]
    obtain ⟨m', row', col', hmoved, hstanding, hrows, hcursor', hiff⟩ :=
      h.moveToRow (k := (row - 1).toNat) (by omega) col
    rw [show ((row - 1).toNat : Int) = row - 1 by omega] at hmoved hiff
    exact ⟨m', row', col', hmoved, hstanding, hrows, hcursor', fun h => by omega, fun _ => hiff⟩
  · rw [if_neg hpos]
    exact ⟨m, row, col, rfl, h, rfl, hcursor, fun _ => rfl, fun h => absurd h hpos⟩

/-- One row down, if there is one below. -/
theorem Standing.moveDown (h : m.Standing) {row col : Int}
    (hcursor : m.cursorTerminalPos = .ok (row, col)) :
    ∃ m' row' col', m.moveDown = .ok m' ∧ m'.Standing ∧ m'.visualRows = m.visualRows ∧
      m'.cursorTerminalPos = .ok (row', col') ∧ (m.visualRows ≤ row + 1 → row' = row) ∧
        (row + 1 < m.visualRows → (row' = row + 1 ↔ m.Lands (row + 1) col)) := by
  obtain ⟨row₀, col₀, hcursor₀, hnonneg, hle⟩ := h.cursor
  rw [hcursor] at hcursor₀
  cases hcursor₀
  unfold Model.moveDown
  rw [hcursor]
  show ∃ m' row' col', (if row < (m.visualRows : Int) - 1 then m.moveToRow (row + 1) col
    else .ok m) = .ok m' ∧ _
  by_cases hlt : row < (m.visualRows : Int) - 1
  · rw [if_pos hlt]
    obtain ⟨m', row', col', hmoved, hstanding, hrows, hcursor', hiff⟩ :=
      h.moveToRow (k := (row + 1).toNat) (by omega) col
    rw [show ((row + 1).toNat : Int) = row + 1 by omega] at hmoved hiff
    exact ⟨m', row', col', hmoved, hstanding, hrows, hcursor', fun h => by omega, fun _ => hiff⟩
  · rw [if_neg hlt]
    exact ⟨m, row, col, rfl, h, rfl, hcursor, fun _ => rfl, fun h => by omega⟩

/-! ## Repeated motion -/

inductive Vertical where
  | up
  | down

/-- A vertical move that returns; the key that made it is the previous one of the next. -/
def Presses (m : Model) (v : Vertical) (m' : Model) : Prop :=
  match v with
  | .up => ∃ moved, m.moveUp = .ok moved ∧ m' = { moved with input.previousKey := some .up }
  | .down => ∃ moved, m.moveDown = .ok moved ∧ m' = { moved with input.previousKey := some .down }

/-- The move lands in the row it goes to, if there is one. -/
def PressLands (m : Model) (v : Vertical) : Prop :=
  ∀ row col, m.cursorTerminalPos = .ok (row, col) →
    match v with
    | .up => 0 < row → m.Lands (row - 1) col
    | .down => row + 1 < m.visualRows → m.Lands (row + 1) col

omit [Ucd] in
theorem Standing.remember (h : m.Standing) (key : Option Tty.Key) :
    ({ m with input.previousKey := key } : Model).Standing :=
  ⟨⟨h.coherent.wellFormed, h.coherent.line_nonneg, h.coherent.line_lt, h.coherent.pos_nonneg,
    h.coherent.cached⟩, h.inRange, h.mode⟩

/-- The row one move later. -/
def Vertical.next (rows : Nat) (row : Int) : Vertical → Int
  | .up => if 0 < row then row - 1 else row
  | .down => if row + 1 < rows then row + 1 else row

theorem Standing.presses (h : m.Standing) {v : Vertical} {row col : Int}
    (hcursor : m.cursorTerminalPos = .ok (row, col)) (hlands : PressLands m v)
    (hstep : Presses m v m') : m'.Standing ∧ m'.visualRows = m.visualRows ∧
      ∃ col', m'.cursorTerminalPos = .ok (v.next m.visualRows row, col') := by
  have hlands := hlands row col hcursor
  cases v with
  | up =>
    obtain ⟨moved, hmoved, rfl⟩ := hstep
    obtain ⟨moved', row', col', hmoved', hstanding, hrows, hcursor', hstay, hiff⟩ := h.moveUp hcursor
    rw [hmoved] at hmoved'
    cases hmoved'
    have hrow' : row' = Vertical.next m.visualRows row .up := by
      show row' = if 0 < row then row - 1 else row
      split
      · exact (hiff ‹_›).mpr (hlands ‹_›)
      · exact hstay (by omega)
    exact ⟨hstanding.remember _, hrows, col', hrow' ▸ hcursor'⟩
  | down =>
    obtain ⟨moved, hmoved, rfl⟩ := hstep
    obtain ⟨moved', row', col', hmoved', hstanding, hrows, hcursor', hstay, hiff⟩ :=
      h.moveDown hcursor
    rw [hmoved] at hmoved'
    cases hmoved'
    have hrow' : row' = Vertical.next m.visualRows row .down := by
      show row' = if row + 1 < m.visualRows then row + 1 else row
      split
      · exact (hiff ‹_›).mpr (hlands ‹_›)
      · exact hstay (by omega)
    exact ⟨hstanding.remember _, hrows, col', hrow' ▸ hcursor'⟩

theorem Standing.presses_run (h : m.Standing) {vs : List Vertical} {row col : Int}
    (hcursor : m.cursorTerminalPos = .ok (row, col))
    (hrun : Run (Restrict PressLands Presses) m vs m') :
    ∃ col', m'.cursorTerminalPos = .ok (vs.foldl (Vertical.next m.visualRows) row, col') := by
  induction hrun generalizing row col with
  | nil => exact ⟨col, hcursor⟩
  | cons hstep _ ih =>
    obtain ⟨hstanding, hrows, col', hcursor'⟩ := h.presses hcursor hstep.1 hstep.2
    rw [List.foldl_cons, ← hrows]
    rw [← hrows] at hcursor'
    exact ih hstanding hcursor'

omit [Ucd] in
theorem foldl_up {rows n : Nat} {row : Int} (h0 : 0 ≤ row) (hn : row ≤ n) :
    (List.replicate n Vertical.up).foldl (Vertical.next rows) row = 0 := by
  induction n generalizing row with
  | zero => exact Int.le_antisymm hn h0
  | succ n ih =>
    rw [List.replicate_succ, List.foldl_cons]
    show (List.replicate n Vertical.up).foldl (Vertical.next rows) (if 0 < row then row - 1 else row) = 0
    split
    · exact ih (by omega) (by omega)
    · exact ih (by omega) (by omega)

omit [Ucd] in
theorem foldl_down {rows n : Nat} {row : Int} (hrow : row < rows) (hn : rows ≤ row + 1 + n) :
    (List.replicate n Vertical.down).foldl (Vertical.next rows) row = rows - 1 := by
  induction n generalizing row with
  | zero =>
    rw [List.replicate_zero, List.foldl_nil]
    omega
  | succ n ih =>
    rw [List.replicate_succ, List.foldl_cons]
    show (List.replicate n Vertical.down).foldl (Vertical.next rows)
      (if row + 1 < rows then row + 1 else row) = rows - 1
    split
    · exact ih (by omega) (by omega)
    · exact ih (by omega) (by omega)

end Model

open Transition (Run Restrict) in
/-- `move_up` and `move_down` return in every model of Normal mode that is reached, and change the
row of the cursor by one exactly when the row they go to is the last of its line or wider than the
column they aim at. Repeating such moves leads to the first and to the last row. -/
theorem vertical_moves [Ucd] {db : History.Db} {row width height : Int} {m₀ m : Model} {msgs : List Msg}
    (h₀ : Update.initialModel (History.init db) row width height = .ok m₀)
    (hrun : Run Update.Steps m₀ msgs m) (hmode : m.input.mode = .normal) :
    ∃ row col, m.cursorTerminalPos = .ok (row, col) ∧
      (∃ m' row' col', m.moveUp = .ok m' ∧ m'.cursorTerminalPos = .ok (row', col') ∧
        ((0 < row → row' = row - 1) ↔ (0 < row → m.Lands (row - 1) col))) ∧
      (∃ m' row' col', m.moveDown = .ok m' ∧ m'.cursorTerminalPos = .ok (row', col') ∧
        ((row + 1 < m.visualRows → row' = row + 1) ↔
          (row + 1 < m.visualRows → m.Lands (row + 1) col))) ∧
      (∀ (n : Nat) m', row ≤ n →
        Run (Restrict Model.PressLands Model.Presses) m (List.replicate n .up) m' →
        ∃ col', m'.cursorTerminalPos = .ok (0, col')) ∧
      (∀ (n : Nat) m', row < m.visualRows → m.visualRows ≤ row + 1 + n →
        Run (Restrict Model.PressLands Model.Presses) m (List.replicate n .down) m' →
        ∃ col', m'.cursorTerminalPos = .ok (m.visualRows - 1, col')) := by
  obtain ⟨hsound, hwithin⟩ := Update.reachable_sound h₀ hrun
  have hstanding : m.Standing := ⟨hsound.coherent,
    (Model.within_of_not_search (by rw [hmode]; exact nofun)).mp hwithin, hmode⟩
  obtain ⟨row, col, hcursor, hnonneg, hle⟩ := hstanding.cursor
  refine ⟨row, col, hcursor, ?_, ?_, fun n m' hn hpresses => ?_, fun n m' hlt hn hpresses => ?_⟩
  · obtain ⟨m', row', col', hmoved, -, -, hcursor', -, hiff⟩ := hstanding.moveUp hcursor
    exact ⟨m', row', col', hmoved, hcursor', forall_congr' hiff⟩
  · obtain ⟨m', row', col', hmoved, -, -, hcursor', -, hiff⟩ := hstanding.moveDown hcursor
    exact ⟨m', row', col', hmoved, hcursor', forall_congr' hiff⟩
  · rw [← @Model.foldl_up m.visualRows n row hnonneg hn]
    exact hstanding.presses_run hcursor hpresses
  · rw [← Model.foldl_down hlt hn]
    exact hstanding.presses_run hcursor hpresses

section
attribute [local instance] asciiUcd

open Transition (Run)

/-- A wide character above another on three columns: Up puts the cursor behind the first of them, and
that is the start of the row it came from. -/
theorem up_stays_in_row : ∃ m₀ m m', Update.initialModel (History.init ⟨[], []⟩) 1 5 24 = .ok m₀ ∧
    Run Update.Steps m₀ [.key (.char (bytes "漢")), .key (.char (bytes "字"))] m ∧
    m.input.mode = .normal ∧ m.cursorTerminalPos = .ok ((1, 2) : Int × Int) ∧
    m.moveUp = .ok m' ∧ m'.cursorTerminalPos = .ok ((1, 0) : Int × Int) := by
  obtain ⟨m₀, m, m', h₀, hrun, h⟩ : ∃ m₀ m m',
      Update.initialModel (History.init ⟨[], []⟩) 1 5 24 = .ok m₀ ∧
      Transition.exec Update.next m₀ [.key (.char (bytes "漢")), .key (.char (bytes "字"))] = some m ∧
      m.input.mode = .normal ∧ m.cursorTerminalPos = .ok ((1, 2) : Int × Int) ∧
      m.moveUp = .ok m' ∧ m'.cursorTerminalPos = .ok ((1, 0) : Int × Int) :=
    ⟨_, _, _, rfl, rfl, rfl, rfl, rfl, rfl⟩
  exact ⟨m₀, m, m', h₀, (Transition.run_of_exec hrun).mono Update.steps_of_next, h⟩

theorem vertical_moves_typed : ∃ m₀ m row col,
    Update.initialModel (History.init ⟨[], []⟩) 1 5 24 = .ok m₀ ∧
    Run Update.Steps m₀ (List.replicate 4 (.key (.char (bytes "a")))) m ∧
    m.cursorTerminalPos = .ok (row, col) ∧
    (∃ m' row' col', m.moveUp = .ok m' ∧ m'.cursorTerminalPos = .ok (row', col') ∧
      ((0 < row → row' = row - 1) ↔ (0 < row → m.Lands (row - 1) col))) := by
  obtain ⟨m₀, m, h₀, hrun, hmode⟩ : ∃ m₀ m,
      Update.initialModel (History.init ⟨[], []⟩) 1 5 24 = .ok m₀ ∧
      Transition.exec Update.next m₀ (List.replicate 4 (.key (.char (bytes "a")))) = some m ∧
      m.input.mode = .normal :=
    ⟨_, _, rfl, rfl, rfl⟩
  have hrun := (Transition.run_of_exec hrun).mono Update.steps_of_next
  obtain ⟨row, col, hcursor, hup, -⟩ := vertical_moves h₀ hrun hmode
  exact ⟨m₀, m, row, col, h₀, hrun, hcursor, hup⟩

end
end Raoui
