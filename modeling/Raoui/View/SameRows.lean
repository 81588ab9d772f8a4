import Raoui.Text.Wrapping
import Raoui.View.Shown

/-!
# Raoui.View.SameRows

The rows the renderer draws against the rows the cursor arithmetic counts. Both loops put clusters
into rows by their widths; they part over clusters without a width and clusters wider than a row.

* `SameBreaks`: the widths at which both loops begin the same rows.
* `fill_lengths_eq_iff`: the two ways of counting.
* `wrapStyledLine_bytes_iff`: when the rows hold the same bytes.
-/

namespace Raoui
namespace View

open Filling (fill)
open RHighlight (StyledRange)
open UnicodeString (WellFormed pieces)

/-- Both loops begin their rows at the same clusters: none without a width comes where the row is
exactly full, and none wider than a row behind clusters without a width only. -/
def SameBreaks (width : Int) : Nat → Nat → List Nat → Prop
  | _, _, [] => True
  | rowWidth, k, w :: ws =>
    if (rowWidth : Int) + w ≤ width then
      (rowWidth : Int) ≠ width ∧ SameBreaks width (rowWidth + w) (k + 1) ws
    else if k = 0 then SameBreaks width 0 0 ws
    else 0 < rowWidth ∧
      if (w : Int) ≤ width then SameBreaks width w 1 ws else SameBreaks width 0 0 ws

/-! ## Counting -/

section
variable {width : Int} {row ws : List Nat}

/-- The first row holds at least what is in it already. -/
theorem fill_head (hrow : row ≠ []) :
    ∃ first rows, fill width row ws = first :: rows ∧ row.length ≤ first.length := by
  induction ws generalizing row with
  | nil => exact ⟨row, [], Filling.fill_nil hrow, Nat.le_refl _⟩
  | cons w ws ih =>
    by_cases h : (row.sum : Int) + w ≤ width
    · obtain ⟨first, rows, heq, hle⟩ := @ih (row ++ [w]) (by simp)
      rw [List.length_append] at hle
      exact ⟨first, rows, (Filling.fill_fits h).trans heq, by omega⟩
    · exact ⟨row, _, Filling.fill_breaks hrow (by omega), Nat.le_refl _⟩

theorem fill_lengths_eq_iff (hwidth : 0 < width) (hrow : (row.sum : Int) ≤ width) :
    (fill width row ws).map List.length = packStyled width row.sum row.length ws ↔
      SameBreaks width row.sum row.length ws := by
  induction ws generalizing row with
  | nil =>
    unfold packStyled SameBreaks fill
    by_cases h : row = []
    · simp [h]
    · simp [h]
  | cons w ws ih =>
    have hfresh : (w : Int) ≤ width → ((fill width [w] ws).map List.length = packStyled width w 1 ws ↔
        SameBreaks width w 1 ws) := by
      intro hw
      have := @ih [w] (by simpa using hw)
      simpa using this
    have hempty := @ih [] (by simpa using hwidth.le)
    rw [List.sum_nil, List.length_nil] at hempty
    unfold packStyled SameBreaks
    by_cases hfits : (row.sum : Int) + w ≤ width
    · rw [Filling.fill_fits hfits, if_pos hfits]
      by_cases hfull : (row.sum : Int) = width
      · -- the renderer begins a row, `wrap` does not
        rw [if_pos (.inl hfull)]
        simp only [hfull, ne_eq, not_true_eq_false, false_and, iff_false]
        obtain ⟨first, rows, heq, hle⟩ := @fill_head width (row ++ [w]) ws (by simp)
        rw [heq, List.map_cons]
        intro h
        have := (List.cons_eq_cons.mp h).1
        rw [List.length_append, List.length_singleton] at hle
        omega
      · rw [if_neg (by omega), if_neg (by omega)]
        simp only [hfull, ne_eq, not_false_eq_true, true_and]
        have := @ih (row ++ [w]) (by simpa using hfits)
        simpa using this
    · rw [if_neg hfits]
      by_cases hnil : row = []
      · subst hnil
        have hwide : width < (w : Int) := by simpa using hfits
        rw [Filling.fill_alone hwide, List.sum_nil, List.length_nil, if_neg (by simp; omega),
          if_pos (by simpa using hwide), if_pos rfl, List.map_cons, List.length_singleton,
          List.cons_eq_cons]
        simpa using hempty
      · have hlen := List.length_pos_of_ne_nil hnil
        rw [if_neg (show ¬row.length = 0 by omega), Filling.fill_breaks hnil (by omega), List.map_cons]
        by_cases hpos : 0 < row.sum
        · rw [if_pos (show (row.sum : Int) = width ∨ 0 < row.sum ∧ (row.sum : Int) + w > width by omega),
            List.cons_eq_cons]
          simp only [hpos, true_and]
          by_cases hw : (w : Int) ≤ width
          · rw [if_neg (show ¬(w : Int) > width by omega), if_pos hw, Filling.fill_fits (by simpa using hw), List.nil_append]
            exact hfresh hw
          · rw [if_pos (show (w : Int) > width by omega), if_neg hw, Filling.fill_alone (by omega), List.map_cons,
              List.length_singleton, List.cons_eq_cons]
            simpa using hempty
        · -- `wrap` begins a row, the renderer does not
          rw [if_neg (show ¬((row.sum : Int) = width ∨ 0 < row.sum ∧ (row.sum : Int) + w > width) by
            omega), if_pos (show (row.sum : Int) + w > width by omega)]
          simp only [hpos, false_and, iff_false]
          intro h
          have := (List.cons_eq_cons.mp h).1
          omega

theorem packStyled_pos (hwidth : 0 < width) :
    ∀ {rowWidth k : Nat}, (0 < rowWidth → 0 < k) → ∀ n ∈ packStyled width rowWidth k ws, 0 < n := by
  induction ws with
  | nil =>
    intro rowWidth k _ n hn
    unfold packStyled at hn
    split at hn
    · cases hn
    · rw [List.mem_singleton.mp hn]
      omega
  | cons w ws ih =>
    intro rowWidth k hk n hn
    unfold packStyled at hn
    split at hn
    · rename_i hbreak
      rcases List.mem_cons.mp hn with rfl | hn
      · exact hk (by omega)
      · split at hn
        · rcases List.mem_cons.mp hn with rfl | hn
          · exact Nat.one_pos
          · exact ih (fun h => absurd h (Nat.lt_irrefl 0)) n hn
        · exact ih (fun _ => Nat.one_pos) n hn
    · split at hn
      · rcases List.mem_cons.mp hn with rfl | hn
        · exact Nat.succ_pos k
        · exact ih (fun h => absurd h (Nat.lt_irrefl 0)) n hn
      · exact ih (fun _ => Nat.succ_pos k) n hn

end

/-! ## Bytes -/

/-- What a row of segments prints. -/
def rowBytes (line : UnicodeString) (row : List StyledSegment) : Bytes :=
  row.flatMap fun segment => UnicodeString.slice line.bytes segment.startByte segment.endByte

/-- The bytes of consecutive clusters from `start` on, as many to each piece as the list says. -/
def chunkBytes (line : UnicodeString) : Nat → List Nat → List Bytes
  | _, [] => []
  | start, k :: ks =>
    UnicodeString.slice line.bytes (line.boundary start) (line.boundary (start + k)) ::
      chunkBytes line (start + k) ks

section
variable {line : UnicodeString} {start : Nat}

theorem slice_append {s : Bytes} {a b c : Nat} (hab : a ≤ b) (hbc : b ≤ c) :
    UnicodeString.slice s a b ++ UnicodeString.slice s b c = UnicodeString.slice s a c := by
  unfold UnicodeString.slice
  have hdrop : s.drop b = (s.drop a).drop (b - a) := by rw [List.drop_drop, Nat.add_sub_cancel' hab]
  rw [hdrop, ← List.take_add, show b - a + (c - b) = c - a by omega]

theorem slice_length {s : Bytes} {a b : Nat} (hb : b ≤ s.length) :
    (UnicodeString.slice s a b).length = b - a := by
  unfold UnicodeString.slice
  rw [List.length_take, List.length_drop]
  omega

theorem Chain.bytes {a b : Nat} {row : List StyledSegment} (h : Chain a b row) :
    rowBytes line row = UnicodeString.slice line.bytes a b := by
  induction row generalizing a with
  | nil =>
    cases h
    simp [rowBytes, UnicodeString.slice]
  | cons s rest ih =>
    obtain ⟨rfl, hlt, hrest⟩ := h
    have hcons : rowBytes line (s :: rest) =
        UnicodeString.slice line.bytes s.startByte s.endByte ++ rowBytes line rest := rfl
    rw [hcons, ih hrest, slice_append hlt.le hrest.le]

theorem Cover.bytes {rows : List (List StyledSegment)} {ks : List Nat} (h : Cover line start rows ks) :
    rows.map (rowBytes line) = chunkBytes line start ks := by
  induction rows generalizing start ks with
  | nil =>
    cases ks with
    | nil => rfl
    | cons k ks => exact h.elim
  | cons row rows ih =>
    cases ks with
    | nil => exact h.elim
    | cons k ks =>
      rw [List.map_cons, chunkBytes, h.1.bytes, ih h.2]

theorem sub_bytes {len : Nat} (hlen : 0 < len) (hle : start + len ≤ line.length) :
    (line.sub start len).toBytes =
      UnicodeString.slice line.bytes (line.boundary start) (line.boundary (start + len)) := by
  unfold UnicodeString.sub
  rw [if_neg (by omega)]
  show UnicodeString.slice line.bytes (line.offset (start : Int).toNat)
    (line.stopOf (start : Int).toNat (min (len : Int) (line.length - start)).toNat) = _
  rw [show (start : Int).toNat = start by omega,
    show (min (len : Int) (line.length - start)).toNat = len by omega,
    ← UnicodeString.boundary_of_lt (by omega), UnicodeString.stopOf_eq_boundary]

theorem pieces_bytes {rows : List (List Nat)} (hne : ∀ r ∈ rows, r ≠ [])
    (hle : start + (rows.map List.length).sum ≤ line.length) :
    (pieces line start rows).map UnicodeString.toBytes =
      chunkBytes line start (rows.map List.length) := by
  induction rows generalizing start with
  | nil => rfl
  | cons row rows ih =>
    obtain ⟨hrow, hrows⟩ := List.forall_mem_cons.mp hne
    rw [List.map_cons, List.sum_cons] at hle
    have hpos := List.length_pos_of_ne_nil hrow
    rw [UnicodeString.pieces, List.map_cons, List.map_cons, chunkBytes, ih hrows (by omega),
      sub_bytes hpos (by omega)]

/-- A cluster has bytes, so the pieces tell how many clusters each holds. -/
theorem chunkBytes_inj (h : line.WellFormed) {ks ks' : List Nat} (hks : ∀ k ∈ ks, 0 < k)
    (hks' : ∀ k ∈ ks', 0 < k) (hle : start + ks.sum ≤ line.length) (hle' : start + ks'.sum ≤ line.length) :
    chunkBytes line start ks = chunkBytes line start ks' ↔ ks = ks' := by
  induction ks generalizing start ks' with
  | nil =>
    cases ks' with
    | nil => simp
    | cons k' ks' => simp [chunkBytes]
  | cons k ks ih =>
    cases ks' with
    | nil => simp [chunkBytes]
    | cons k' ks' =>
      rw [List.sum_cons] at hle hle'
      obtain ⟨hk, hrest⟩ := List.forall_mem_cons.mp hks
      obtain ⟨hk', hrest'⟩ := List.forall_mem_cons.mp hks'
      refine ⟨fun heq => ?_, fun heq => by rw [heq]⟩
      obtain ⟨hhead, htail⟩ := List.cons_eq_cons.mp heq
      have hsame : k = k' := by
        have hstop : ∀ n : Nat, start + n ≤ line.length →
            line.boundary (start + n) ≤ line.bytes.length := by
          intro n hn
          rw [← UnicodeString.boundary_length]
          exact h.boundary_le hn (Nat.le_refl line.length)
        have hlen := congrArg List.length hhead
        rw [slice_length (hstop k (by omega)), slice_length (hstop k' (by omega))] at hlen
        have hstart := h.boundary_lt (show start < start + k by omega) (by omega)
        have hstart' := h.boundary_lt (show start < start + k' by omega) (by omega)
        rcases Nat.lt_trichotomy k k' with hlt | heq | hgt
        · have := h.boundary_lt (show start + k < start + k' by omega) (by omega)
          omega
        · exact heq
        · have := h.boundary_lt (show start + k' < start + k by omega) (by omega)
          omega
      subst hsame
      rw [(ih hrest hrest' (by omega) (by omega)).mp htail]

/-- The rows drawn hold the bytes of the rows counted exactly when both loops break at the same
clusters, whatever the ranges of the highlighter. -/
theorem wrapStyledLine_bytes_iff {width : Int} (hwidth : 1 ≤ width) (hline : line.WellFormed)
    (ranges : List StyledRange) :
    ∃ rows, wrapStyledLine width line ranges = .ok rows ∧
      (rows.map (rowBytes line) = (line.wrap width).map UnicodeString.toBytes ↔
        SameBreaks width 0 0 line.widths) := by
  by_cases hempty : line.isEmpty = true
  · have hwidths : line.widths = [] :=
      List.length_eq_zero_iff.mp (by rw [hline.widths_length, hline.length_of_isEmpty hempty])
    refine ⟨[[]], ?_, ?_⟩
    · unfold wrapStyledLine
      rw [if_neg (by omega), if_pos hempty]
      rfl
    · unfold UnicodeString.wrap
      rw [if_neg (by omega), if_pos hempty, hwidths]
      exact iff_of_true rfl trivial
  · have hempty : line.isEmpty = false := by simpa using hempty
    obtain ⟨rows, hrows, hcover⟩ := wrapStyledLine_covers hline hwidth hempty ranges
    refine ⟨_, hrows, ?_⟩
    have hextra : (List.replicate (cursorRow width line) []).map (rowBytes line) =
        (if line.displayWidth > 0 ∧ (line.displayWidth : Int) % width = 0 then [UnicodeString.empty]
          else []).map UnicodeString.toBytes := by
      unfold cursorRow
      split <;> rfl
    have hfill := Filling.fill_ne_nil width [] line.widths
    have hsum : ((fill width [] line.widths).map List.length).sum = line.length := by
      rw [← List.length_flatten, Filling.fill_flatten, List.nil_append, hline.widths_length]
    have hsum' := packStyled_sum width line.widths 0 0
    rw [hline.widths_length] at hsum'
    have hpieces : (UnicodeString.wrapRows line width line.length 0).map UnicodeString.toBytes =
        chunkBytes line 0 ((fill width [] line.widths).map List.length) := by
      rw [UnicodeString.wrapRows_eq hline.widths_length (by omega), List.drop_zero]
      exact pieces_bytes hfill (by omega)
    rw [UnicodeString.wrap_eq hwidth hempty, List.map_append, List.map_append, hextra,
      List.append_cancel_right_eq, hpieces, hcover.bytes,
      chunkBytes_inj hline (packStyled_pos hwidth fun h => absurd h (Nat.lt_irrefl 0))
        (fun k hk => ?_) (by omega) (by omega), eq_comm]
    · have := @fill_lengths_eq_iff width [] line.widths hwidth (by simp; omega)
      simpa using this
    · obtain ⟨r, hr, rfl⟩ := List.mem_map.mp hk
      exact List.length_pos_of_ne_nil (hfill r hr)

end

section
attribute [local instance] asciiUcd

theorem wrapStyledLine_bytes_iff_wide : ∃ line, UnicodeString.ofString (bytes "ab漢c") = .ok line ∧
    ∃ rows, wrapStyledLine 3 line [⟨0, 5, .plain⟩] = .ok rows ∧
      (rows.map (rowBytes line) = (line.wrap 3).map UnicodeString.toBytes ↔
        SameBreaks 3 0 0 line.widths) := by
  obtain ⟨line, hline⟩ : ∃ line, UnicodeString.ofString (bytes "ab漢c") = .ok line := ⟨_, rfl⟩
  exact ⟨line, hline, wrapStyledLine_bytes_iff (by decide)
    (UnicodeString.wellFormed_of_ofString hline) _⟩

/-- A tab behind two letters on two columns: drawn on a row of its own, counted to the first one. -/
theorem tab_drawn_on_next_row : ∃ line rows, UnicodeString.ofString (bytes "ab\t") = .ok line ∧
    wrapStyledLine 2 line [⟨0, 3, .plain⟩] = .ok rows ∧
    rows.map (rowBytes line) = [bytes "ab", bytes "\t", []] ∧
    (line.wrap 2).map UnicodeString.toBytes = [bytes "ab\t", []] := by
  refine ⟨_, _, rfl, rfl, ?_, ?_⟩
  · decide
  · decide

end
end View
end Raoui
