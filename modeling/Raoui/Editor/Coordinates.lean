import Mathlib.Data.List.GetD
import Raoui.Editor.Coherent
import Raoui.Text.Wrapping

/-!
# Raoui.Editor.Coordinates

The two coordinate conversions over wrapped lines. A cursor stands in one row of its line, at a
cluster of it, or behind the last cluster of the last row.

* `StandsIn`: the row and the offset in it.
* `internalToTerminal_of`, `terminalToInternal_of`: the two loops, for a cursor that stands in a row.
* `terminal_roundtrip_iff`: when going there and back is the identity.
-/

namespace Raoui

open Outcome (bind_eq_ok)
open UnicodeString (WellFormed Clusterless)

/-- How many clusters the rows hold. -/
def clusterSum (rows : List UnicodeString) : Nat := (rows.map UnicodeString.length).sum

@[simp] theorem clusterSum_nil : clusterSum [] = 0 := rfl

@[simp] theorem clusterSum_cons (row : UnicodeString) (rows : List UnicodeString) :
    clusterSum (row :: rows) = row.length + clusterSum rows := rfl

@[simp] theorem clusterSum_append (rows rows' : List UnicodeString) :
    clusterSum (rows ++ rows') = clusterSum rows + clusterSum rows' := by
  simp [clusterSum]

/-- The cursor after `col` clusters of the rows stands in `row`, before its cluster `off`. Only in
the last row it can stand behind all clusters. -/
structure StandsIn (rows before : List UnicodeString) (row : UnicodeString)
    (after : List UnicodeString) (col off : Nat) : Prop where
  split : rows = before ++ row :: after
  col : col = clusterSum before + off
  within : off < row.length ∨ (off = row.length ∧ after = [])

section
variable {rows before after : List UnicodeString} {row : UnicodeString} {col off : Nat}

theorem StandsIn.off_le (h : StandsIn rows before row after col off) : off ≤ row.length := by
  rcases h.within with hlt | ⟨heq, -⟩ <;> omega

theorem exists_standsIn (hne : rows ≠ []) (hcol : col ≤ clusterSum rows) :
    ∃ before row after off, StandsIn rows before row after col off := by
  induction rows generalizing col with
  | nil => exact absurd rfl hne
  | cons row rest ih =>
    by_cases hlt : col < row.length
    · exact ⟨[], row, rest, col, rfl, (Nat.zero_add _).symm, .inl hlt⟩
    · rw [clusterSum_cons] at hcol
      by_cases hrest : rest = []
      · subst hrest
        rw [clusterSum_nil] at hcol
        exact ⟨[], row, [], col, rfl, (Nat.zero_add _).symm, .inr ⟨by omega, rfl⟩⟩
      · obtain ⟨before, row', after, off, h⟩ := @ih (col - row.length) hrest (by omega)
        refine ⟨row :: before, row', after, off, by rw [h.split, List.cons_append], ?_, h.within⟩
        have := h.col
        rw [clusterSum_cons]
        omega

theorem findRow_standsIn (h : StandsIn rows before row after col off) (idx sofar : Int) :
    findRow (sofar + col) idx sofar rows =
      ((idx + before.length, row.prefixWidth off) : Int × Int) := by
  obtain ⟨rfl, hcol, hwithin⟩ := h
  induction before generalizing idx sofar col with
  | nil =>
    rw [clusterSum_nil, Nat.zero_add] at hcol
    subst hcol
    rw [List.nil_append, findRow, if_pos]
    · rw [show sofar + (col : Int) - sofar = col by omega]
      simp
    · rcases hwithin with hlt | ⟨heq, hafter⟩
      · exact .inl (by omega)
      · exact .inr ⟨by omega, hafter⟩
  | cons first before ih =>
    rw [clusterSum_cons] at hcol
    have hrec := @ih (clusterSum before + off) (idx + 1) (sofar + first.length) rfl
    rw [List.cons_append, findRow, if_neg]
    · rw [show sofar + (col : Int) = sofar + first.length + (clusterSum before + off : Nat) by omega,
        hrec, List.length_cons]
      congr 1
      push_cast
      omega
    · rintro (hlt | ⟨-, hnil⟩)
      · omega
      · exact absurd hnil (by simp)

end

section
variable {width : Int} {line : UnicodeString} {above below before after : List UnicodeString}
  {row : UnicodeString} {col off : Nat}

theorem nth_append_cons {α : Type} (above : List α) (a : α) (below : List α) :
    nth (above ++ a :: below) above.length = .ok a :=
  nth_eq (Int.natCast_nonneg _) (by simp)

theorem internalToTerminal_of (h : StandsIn (wrapLine width line) before row after col off) :
    internalToTerminal width (above ++ line :: below) above.length col =
      .ok ((wrapLines width above).length + before.length, row.prefixWidth off) := by
  have hfind := findRow_standsIn h 0 0
  rw [Int.zero_add, Int.zero_add] at hfind
  unfold internalToTerminal
  rw [nth_append_cons, show (above.length : Int).toNat = above.length by omega, List.take_left]
  show Except.ok _ = _
  rw [hfind]

theorem internalToTerminal_rowless (h : wrapLine width line = []) (col : Int) :
    internalToTerminal width (above ++ line :: below) above.length col =
      .ok ((wrapLines width above).length, 0) := by
  unfold internalToTerminal
  rw [nth_append_cons, show (above.length : Int).toNat = above.length by omega, List.take_left]
  show Except.ok _ = _
  rw [h]
  simp [findRow]

/-- The search for a row passes the lines whose rows are above it. -/
theorem terminalToInternalFrom_append {row displayCol current internal : Int}
    (hbelow : below ≠ []) (hrow : current + (wrapLines width above).length ≤ row) :
    terminalToInternalFrom width row displayCol internal current (above ++ below) =
      terminalToInternalFrom width row displayCol (internal + above.length)
        (current + (wrapLines width above).length) below := by
  induction above generalizing current internal with
  | nil => simp [wrapLines]
  | cons line above ih =>
    have hcount : (wrapLines width (line :: above)).length =
        (wrapLine width line).length + (wrapLines width above).length := by
      simp [wrapLines]
    rw [hcount] at hrow ⊢
    rw [List.cons_append, terminalToInternalFrom]
    dsimp only
    rw [if_neg, ih (by push_cast at hrow; omega), List.length_cons]
    · congr 1
      · push_cast
        omega
      · push_cast
        omega
    · rintro (hlt | ⟨hnil, -⟩)
      · push_cast at hrow
        omega
      · exact hbelow (List.append_eq_nil_iff.mp hnil).2

theorem terminalToInternal_of (hrows : wrapLine width line = before ++ row :: after)
    (displayCol : Int) :
    terminalToInternal width (above ++ line :: below)
        ((wrapLines width above).length + before.length) displayCol =
      .ok (above.length, clusterSum before + row.graphemeAtWidth displayCol) := by
  unfold terminalToInternal
  rw [terminalToInternalFrom_append (List.cons_ne_nil _ _) (by omega), terminalToInternalFrom, hrows]
  dsimp only
  rw [if_pos (.inl (by rw [List.length_append, List.length_cons]; omega))]
  rw [Int.zero_add, Int.zero_add, show ((wrapLines width above).length : Int) + before.length -
      (wrapLines width above).length = before.length by omega,
    if_pos (by rw [List.length_append, List.length_cons]; omega), if_neg (by omega), nth_append_cons, show (before.length : Int).toNat = before.length by omega, List.take_left]
  rfl

/-- The line found for a row is one of those searched. -/
theorem le_of_terminalToInternalFrom {lines : List UnicodeString} {row displayCol internal current : Int}
    {p : Int × Int} (h : terminalToInternalFrom width row displayCol internal current lines = .ok p) :
    internal ≤ p.1 := by
  induction lines generalizing internal current with
  | nil => cases h
  | cons line rest ih =>
    rw [terminalToInternalFrom] at h
    dsimp only at h
    split at h
    · split at h
      all_goals
        obtain ⟨chunk, -, h⟩ := bind_eq_ok.mp h
        cases h
        exact Int.le_refl _
    · have := ih h
      omega

/-- A row of no line is found only at the end. -/
theorem terminalToInternal_rowless (h : wrapLine width line = []) (displayCol : Int) :
    terminalToInternal width (above ++ line :: below) (wrapLines width above).length displayCol =
      .ok ((above.length, 0) : Int × Int) ↔ below = [] := by
  unfold terminalToInternal
  rw [terminalToInternalFrom_append (List.cons_ne_nil _ _) (by omega), terminalToInternalFrom, h,
    Int.zero_add, Int.zero_add]
  dsimp only
  by_cases hbelow : below = []
  · subst hbelow
    rw [if_pos (.inr ⟨rfl, by simp⟩)]
    simp only [iff_true]
    rw [Int.sub_self, if_neg (by simp)]
    rfl
  · rw [if_neg (by simp [hbelow])]
    simp only [hbelow, iff_false]
    intro hpos
    have := le_of_terminalToInternalFrom hpos
    dsimp only at this
    omega

end

/-! ## There and back -/

theorem fitting_prefix {ws : List Nat} (hpos : ∀ w ∈ ws, 0 < w) {n : Nat} (hn : n ≤ ws.length)
    (used : Nat) : UnicodeString.fitting ((used + (ws.take n).sum : Nat) : Int) used ws = n := by
  induction ws generalizing n used with
  | nil => simp_all [UnicodeString.fitting]
  | cons w ws ih =>
    obtain ⟨hw, hws⟩ := List.forall_mem_cons.mp hpos
    cases n with
    | zero =>
      rw [UnicodeString.fitting, if_pos]
      simp only [List.take_zero, List.sum_nil]
      omega
    | succ n =>
      have := ih hws (Nat.le_of_succ_le_succ hn) (used + w)
      rw [UnicodeString.fitting, if_neg]
      · rw [List.take_succ_cons, List.sum_cons, ← Nat.add_assoc, this]
      · simp only [List.take_succ_cons, List.sum_cons]
        omega

theorem graphemeAtWidth_prefixWidth {row : UnicodeString} (h : row.WellFormed)
    (hpos : ∀ w ∈ row.widths, 0 < w) {off : Nat} (hoff : off ≤ row.length) :
    row.graphemeAtWidth (row.prefixWidth off) = off := by
  unfold UnicodeString.graphemeAtWidth UnicodeString.prefixWidth
  rw [show (min (off : Int) row.length).toNat = off by omega]
  have := fitting_prefix hpos (n := off) (by rw [h.widths_length]; exact hoff) 0
  rwa [Nat.zero_add] at this

/-- A cursor within the lines: a line, and at most as many clusters as it has. -/
structure ValidCursor (lines : List UnicodeString) (cursorLine cursorPos : Int) : Prop where
  line_nonneg : 0 ≤ cursorLine
  line_lt : cursorLine < lines.length
  pos_nonneg : 0 ≤ cursorPos
  pos_le : cursorPos ≤ (lines.getD cursorLine.toNat .empty).length

/-- The lines above the cursor, its line and the lines below. -/
theorem ValidCursor.split {lines : List UnicodeString} {cursorLine cursorPos : Int}
    (h : ValidCursor lines cursorLine cursorPos) : ∃ above line below, ∃ col : Nat,
      lines = above ++ line :: below ∧ cursorLine = above.length ∧ cursorPos = col ∧
        col ≤ line.length ∧ lines.getD cursorLine.toNat .empty = line := by
  have hlt : cursorLine.toNat < lines.length := by have := h.line_nonneg; have := h.line_lt; omega
  have hline : lines.getD cursorLine.toNat .empty = lines[cursorLine.toNat] :=
    List.getD_eq_getElem _ _ hlt
  have hpos := h.pos_le
  rw [hline] at hpos
  refine ⟨lines.take cursorLine.toNat, lines[cursorLine.toNat], lines.drop (cursorLine.toNat + 1),
    cursorPos.toNat, ?_, ?_, ?_, ?_, hline⟩
  · rw [← List.drop_eq_getElem_cons hlt, List.take_append_drop]
  · rw [List.length_take]
    have := h.line_nonneg
    omega
  · have := h.pos_nonneg
    omega
  · omega

/-- There and back gives the cursor again, unless its line is without a cluster and another follows:
such a line has no row. -/
theorem terminal_roundtrip_iff {width : Int} {lines : List UnicodeString} {cursorLine cursorPos : Int}
    (hwidth : 1 ≤ width) (hlines : ∀ line ∈ lines, line.WellFormed ∧ ∀ w ∈ line.widths, 1 ≤ w)
    (hcursor : ValidCursor lines cursorLine cursorPos) :
    ((do
        let (row, displayCol) ← internalToTerminal width lines cursorLine cursorPos
        terminalToInternal width lines row displayCol) = .ok (cursorLine, cursorPos)) ↔
      (Clusterless (lines.getD cursorLine.toNat .empty) → cursorLine + 1 = lines.length) := by
  obtain ⟨above, line, below, col, rfl, rfl, rfl, hcol, hline⟩ := hcursor.split
  obtain ⟨hwf, hpos⟩ := hlines line (by simp)
  rw [hline]
  have hsum : clusterSum (wrapLine width line) = line.length := UnicodeString.wrap_lengths hwf width
  by_cases hrows : wrapLine width line = []
  · have hless := (UnicodeString.wrap_eq_nil_iff hwf hwidth).mp hrows
    have hzero : col = 0 := by have := hless.2; omega
    subst hzero
    rw [internalToTerminal_rowless hrows]
    have hback := @terminalToInternal_rowless width line above below hrows 0
    show terminalToInternal width (above ++ line :: below) _ 0 = _ ↔ _
    rw [Int.natCast_zero, hback, List.length_append, List.length_cons, ← List.length_eq_zero_iff]
    constructor
    · intro hbelow _
      omega
    · intro hlast
      have := hlast hless
      omega
  · have hclusters : ¬Clusterless line := fun h =>
      hrows ((UnicodeString.wrap_eq_nil_iff hwf hwidth).mpr h)
    obtain ⟨before, row, after, off, h⟩ := exists_standsIn hrows (hcol.trans hsum.ge)
    have hrow : row ∈ line.wrap width := by
      show row ∈ wrapLine width line
      rw [h.split]
      simp
    rw [internalToTerminal_of h]
    show terminalToInternal width (above ++ line :: below) _ _ = _ ↔ _
    rw [terminalToInternal_of h.split, graphemeAtWidth_prefixWidth (hwf.wrap width row hrow)
      (fun w hw => hpos w (UnicodeString.mem_wrap_widths hwf hrow w hw)) h.off_le, h.col]
    simp [hclusters]

section
attribute [local instance] asciiUcd

theorem terminal_roundtrip_iff_wide : ∃ line, UnicodeString.ofString (bytes "a漢b") = .ok line ∧
    (((do
        let (row, displayCol) ← internalToTerminal 2 [line, line] 1 2
        terminalToInternal 2 [line, line] row displayCol) = .ok ((1, 2) : Int × Int)) ↔
      (Clusterless ([line, line].getD (1 : Int).toNat .empty) →
        (1 : Int) + 1 = [line, line].length)) := by
  obtain ⟨line, hline⟩ : ∃ line, UnicodeString.ofString (bytes "a漢b") = .ok line := ⟨_, rfl⟩
  have hwf := UnicodeString.wellFormed_of_ofString hline
  have hwidths : ∀ w ∈ line.widths, 1 ≤ w := by
    cases hline
    decide
  have hlen : line.length = 3 := by
    cases hline
    rfl
  refine ⟨line, hline, terminal_roundtrip_iff (by decide) (fun l hl => ?_)
    ⟨by decide, show (1 : Int) < 2 by decide, by decide, ?_⟩⟩
  · rcases List.mem_cons.mp hl with rfl | hl
    · exact ⟨hwf, hwidths⟩
    · rw [List.mem_singleton.mp hl]
      exact ⟨hwf, hwidths⟩
  · show (2 : Int) ≤ line.length
    omega

/-- What is left of a byte-order mark and a letter when the letter is deleted has no row, and the
cursor on it comes back on the next line. -/
theorem mark_alone_moves_cursor : ∃ marked next,
    UnicodeString.ofString ([0xEF, 0xBB, 0xBF] ++ bytes "b") = .ok marked ∧
    UnicodeString.ofString (bytes "a") = .ok next ∧
    (∀ line ∈ [marked.delete 0, next], line.WellFormed ∧ ∀ w ∈ line.widths, 1 ≤ w) ∧
    ValidCursor [marked.delete 0, next] 0 0 ∧
    (do
      let (row, displayCol) ← internalToTerminal 80 [marked.delete 0, next] 0 0
      terminalToInternal 80 [marked.delete 0, next] row displayCol) = .ok ((1, 0) : Int × Int) := by
  obtain ⟨marked, hmarked⟩ : ∃ marked,
      UnicodeString.ofString ([0xEF, 0xBB, 0xBF] ++ bytes "b") = .ok marked := ⟨_, rfl⟩
  obtain ⟨next, hnext⟩ : ∃ next, UnicodeString.ofString (bytes "a") = .ok next := ⟨_, rfl⟩
  have hwf := (UnicodeString.wellFormed_of_ofString hmarked).delete 0
  have hwf' := UnicodeString.wellFormed_of_ofString hnext
  refine ⟨marked, next, hmarked, hnext, ?_⟩
  cases hmarked
  cases hnext
  refine ⟨?_, ⟨by decide, by decide, by decide, by decide⟩, by rfl⟩
  refine List.forall_mem_cons.mpr ⟨⟨hwf, by decide⟩, List.forall_mem_cons.mpr ⟨⟨hwf', by decide⟩, nofun⟩⟩

end
end Raoui
