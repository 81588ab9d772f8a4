import Mathlib.Data.List.Chain
import Raoui.Lib.Filling
import Raoui.Text.Aligned

/-!
# Raoui.Text.Wrapping

`wrap` against the filling of rows: the rows of a line are consecutive pieces of it, with the widths
that filling rows with its clusters gives.

* `wrapRows_eq`: the rows as pieces.
* `wrapRows_widths`: what is in them.
* `wrap_lengths`, `mem_wrap_widths`: the same of a whole line.
* `Clusterless`: a text of bytes without a cluster, which wraps to no row at all.
* `wrap_wraps`: what a line is wrapped to.
-/

namespace Raoui
namespace UnicodeString

open Filling (fill)

variable {t : UnicodeString} {width : Int} {start : Nat}

/-! ## The row `find_end` finds -/

theorem fill_take_fitting (limit : Int) (row ws : List Nat) :
    fill limit row ws =
      fill limit (row ++ ws.take (fitting limit row.sum ws)) (ws.drop (fitting limit row.sum ws)) := by
  induction ws generalizing row with
  | nil => simp
  | cons w ws ih =>
    unfold fitting
    split
    · rw [List.take_zero, List.drop_zero, List.append_nil]
    · rename_i h
      have hsum : (row ++ [w]).sum = row.sum + w := by rw [List.sum_append, List.sum_singleton]
      rw [Filling.fill_fits (by omega), ih, hsum, List.take_succ_cons,
        List.drop_succ_cons, List.append_assoc, List.singleton_append]

/-- What follows the clusters that fit does not fit. -/
theorem fitting_stops {limit : Int} {used w : Nat} {ws rest : List Nat}
    (h : ws.drop (fitting limit used ws) = w :: rest) :
    limit < ((used + (ws.take (fitting limit used ws)).sum : Nat) : Int) + w := by
  induction ws generalizing used with
  | nil => cases h
  | cons v ws ih =>
    unfold fitting at h ⊢
    split at h
    · rename_i hv
      cases h
      rw [if_pos hv, List.take_zero, List.sum_nil]
      omega
    · rename_i hv
      rw [List.drop_succ_cons] at h
      have := ih h
      rw [if_neg hv, List.take_succ_cons, List.sum_cons, ← Nat.add_assoc]
      exact this

theorem fill_fitting {limit : Int} {ws : List Nat} (h : 0 < fitting limit 0 ws) :
    fill limit [] ws =
      ws.take (fitting limit 0 ws) :: fill limit [] (ws.drop (fitting limit 0 ws)) := by
  have hle := fitting_le limit 0 ws
  have hne : ws.take (fitting limit 0 ws) ≠ [] := by
    rw [ne_eq, List.take_eq_nil_iff]
    rintro (hzero | rfl)
    · omega
    · simp [fitting] at h
  rw [fill_take_fitting, List.sum_nil, List.nil_append]
  cases hdrop : ws.drop (fitting limit 0 ws) with
  | nil => rw [Filling.fill_nil hne, Filling.fill_nil_nil]
  | cons w rest =>
    refine Filling.fill_breaks hne ?_
    have := fitting_stops hdrop
    rwa [Nat.zero_add] at this

/-! ## Pieces -/

/-- Consecutive pieces from cluster `start` on, as long as the rows. -/
def pieces (t : UnicodeString) : Nat → List (List Nat) → List UnicodeString
  | _, [] => []
  | start, row :: rows => t.sub start row.length :: pieces t (start + row.length) rows

theorem wrapRows_eq (h : t.widths.length = t.length) {fuel : Nat} (hfuel : t.length ≤ start + fuel) :
    wrapRows t width fuel start = pieces t start (fill width [] (t.widths.drop start)) := by
  have hstop : ∀ {start : Nat}, t.length ≤ start →
      pieces t start (fill width [] (t.widths.drop start)) = [] := by
    intro start hle
    rw [List.drop_eq_nil_of_le (by rw [h]; exact hle), Filling.fill_nil_nil]
    rfl
  induction fuel generalizing start with
  | zero =>
    rw [hstop (by omega)]
    rfl
  | succ fuel ih =>
    unfold wrapRows
    by_cases hlt : start ≥ t.length
    · rw [if_pos hlt, hstop hlt]
    · rw [if_neg hlt]
      have hwidths : start < t.widths.length := by rw [h]; omega
      dsimp only
      split
      · rename_i hzero
        have hdrop := List.drop_eq_getElem_cons hwidths
        have hwide : width < ((t.widths[start] : Nat) : Int) := by
          have := @fitting_stops width 0 t.widths[start] (t.widths.drop start)
            (t.widths.drop (start + 1))
          rw [show fitting width 0 (t.widths.drop start) = 0 by omega] at this
          simpa using this hdrop
        rw [hdrop, Filling.fill_alone hwide, ih (by omega)]
        rfl
      · rename_i hpos
        have hfit := fitting_le width 0 (t.widths.drop start)
        rw [List.length_drop, h] at hfit
        have hlen : ((t.widths.drop start).take (fitting width 0 (t.widths.drop start))).length =
            fitting width 0 (t.widths.drop start) := by
          rw [List.length_take, List.length_drop, h]
          omega
        rw [fill_fitting (by omega), pieces, hlen, List.drop_drop, ih (by omega)]
        congr 2
        push_cast
        omega

theorem sub_widths {len : Nat} (hlen : 0 < len) (hle : start + len ≤ t.length) :
    (t.sub start len).widths = (t.widths.drop start).take len := by
  unfold sub
  rw [if_neg (by omega)]
  show ((t.widths.drop (start : Int).toNat).take (min (len : Int) (t.length - start)).toNat) = _
  rw [show (start : Int).toNat = start by omega,
    show (min (len : Int) (t.length - start)).toNat = len by omega]

theorem pieces_widths (h : t.widths.length = t.length) {rows : List (List Nat)} (hne : ∀ r ∈ rows, r ≠ [])
    (hflat : rows.flatten = t.widths.drop start) :
    (pieces t start rows).map widths = rows ∧
      (pieces t start rows).map length = rows.map List.length := by
  induction rows generalizing start with
  | nil => exact ⟨rfl, rfl⟩
  | cons row rows ih =>
    obtain ⟨hrow, hrows⟩ := List.forall_mem_cons.mp hne
    have hpos := List.length_pos_of_ne_nil hrow
    rw [List.flatten_cons] at hflat
    have hlen := congrArg List.length hflat
    rw [List.length_append, List.length_drop, h] at hlen
    have hrest : rows.flatten = t.widths.drop (start + row.length) := by
      rw [← List.drop_drop, ← hflat, List.drop_left]
    obtain ⟨hw, hl⟩ := ih hrows hrest
    have hsub := @sub_length t start row.length (by omega) (by omega)
    rw [pieces, List.map_cons, List.map_cons, List.map_cons, hw, hl,
      sub_widths hpos (by omega), ← hflat, List.take_left]
    refine ⟨rfl, ?_⟩
    congr 1
    omega

theorem wrapRows_widths (h : t.widths.length = t.length) (width : Int) :
    (wrapRows t width t.length 0).map widths = fill width [] t.widths ∧
      (wrapRows t width t.length 0).map length = (fill width [] t.widths).map List.length := by
  rw [wrapRows_eq h (by omega), List.drop_zero]
  refine pieces_widths h (Filling.fill_ne_nil _ _ _) ?_
  rw [Filling.fill_flatten, List.nil_append, List.drop_zero]

/-- No cluster is lost. -/
theorem wrapRows_lengths (h : t.widths.length = t.length) (width : Int) :
    ((wrapRows t width t.length 0).map length).sum = t.length := by
  rw [(wrapRows_widths h width).2, ← List.length_flatten, Filling.fill_flatten, List.nil_append, h]

/-! ## The rows of a line -/

/-- A text that has bytes and no cluster: a byte-order mark alone. -/
def Clusterless (t : UnicodeString) : Prop := t.isEmpty = false ∧ t.length = 0

instance (t : UnicodeString) : Decidable t.Clusterless := inferInstanceAs (Decidable (_ ∧ _))

/-- A line that fills its last row gets an empty one for the cursor. -/
theorem wrap_eq (hwidth : 0 < width) (hne : t.isEmpty = false) :
    t.wrap width = wrapRows t width t.length 0 ++
      if t.displayWidth > 0 ∧ (t.displayWidth : Int) % width = 0 then [empty] else [] := by
  unfold wrap
  rw [if_neg (by omega), hne]
  simp only [Bool.false_eq_true, if_false]
  split
  · rfl
  · rw [List.append_nil]

theorem length_ne_zero_of_mem_wrapRows (h : t.widths.length = t.length) (width : Int) :
    ∀ row ∈ wrapRows t width t.length 0, row.length ≠ 0 := by
  intro row hrow
  have hmem := List.mem_map_of_mem (f := length) hrow
  rw [(wrapRows_widths h width).2] at hmem
  obtain ⟨r, hr, hlen⟩ := List.mem_map.mp hmem
  have := List.length_pos_of_ne_nil (Filling.fill_ne_nil _ _ _ r hr)
  omega

/-- Only the last row of a line can be without a cluster. -/
theorem length_ne_zero_of_mem_dropLast (h : t.WellFormed) {row : UnicodeString}
    (hrow : row ∈ (t.wrap width).dropLast) : row.length ≠ 0 := by
  by_cases hwidth : 0 < width
  · by_cases hempty : t.isEmpty = true
    · unfold wrap at hrow
      rw [if_neg (by omega), if_pos hempty] at hrow
      cases hrow
    · rw [wrap_eq hwidth (by simpa using hempty)] at hrow
      refine length_ne_zero_of_mem_wrapRows h.widths_length width row ?_
      split at hrow
      · rwa [List.dropLast_concat] at hrow
      · rw [List.append_nil] at hrow
        exact List.dropLast_subset _ hrow
  · unfold wrap at hrow
    rw [if_pos (by omega)] at hrow
    cases hrow

/-- Every cluster of a line is in one of its rows. -/
theorem wrap_lengths (h : t.WellFormed) (width : Int) : ((t.wrap width).map length).sum = t.length := by
  by_cases hwidth : 0 < width
  · by_cases hempty : t.isEmpty = true
    · unfold wrap
      rw [if_neg (by omega), if_pos hempty, h.length_of_isEmpty hempty]
      rfl
    · have hrows := wrapRows_lengths h.widths_length width
      rw [wrap_eq hwidth (by simpa using hempty), List.map_append, List.sum_append, hrows]
      split <;> rfl
  · unfold wrap
    rw [if_pos (by omega), List.map_singleton, List.sum_singleton]

theorem mem_wrap_widths (h : t.WellFormed) {width : Int} {row : UnicodeString}
    (hrow : row ∈ t.wrap width) : ∀ w ∈ row.widths, w ∈ t.widths := by
  by_cases hwidth : 0 < width
  · by_cases hempty : t.isEmpty = true
    · unfold wrap at hrow
      rw [if_neg (by omega), if_pos hempty, List.mem_singleton] at hrow
      subst hrow
      nofun
    · rw [wrap_eq hwidth (by simpa using hempty)] at hrow
      rcases List.mem_append.mp hrow with hrow | hrow
      · intro w hw
        have hmem : row.widths ∈ (wrapRows t width t.length 0).map widths := List.mem_map_of_mem hrow
        rw [(wrapRows_widths h.widths_length width).1] at hmem
        have := List.mem_flatten.mpr ⟨row.widths, hmem, hw⟩
        rwa [Filling.fill_flatten, List.nil_append] at this
      · split at hrow
        · rw [List.mem_singleton.mp hrow]
          nofun
        · cases hrow
  · unfold wrap at hrow
    rw [if_pos (by omega), List.mem_singleton] at hrow
    rw [hrow]
    exact fun w hw => hw

/-- Only a text without clusters has no row. -/
theorem wrap_eq_nil_iff (h : t.WellFormed) (hwidth : 0 < width) :
    t.wrap width = [] ↔ t.Clusterless := by
  by_cases hempty : t.isEmpty = true
  · unfold wrap Clusterless
    rw [if_neg (by omega), if_pos hempty, hempty]
    simp
  · have hempty : t.isEmpty = false := by simpa using hempty
    have hlengths := wrap_lengths h width
    constructor
    · intro hnil
      rw [hnil] at hlengths
      exact ⟨hempty, hlengths.symm⟩
    · rintro ⟨-, hlen⟩
      have hwidths : t.widths = [] := List.length_eq_zero_iff.mp (by rw [h.widths_length, hlen])
      rw [wrap_eq hwidth hempty, hlen, displayWidth, hwidths]
      rfl

/-! ## Wrapping an aligned line -/

/-- The rows make up the line, are no wider than `width` unless they are one cluster, and end only
where the next cluster does not fit. The one row that may be empty is the last: that of an empty
line, or the one a line gets that fills its rows. -/
structure Wraps (t : UnicodeString) (width : Int) (rows : List UnicodeString) : Prop where
  bytes : rows.flatMap UnicodeString.bytes = t.bytes
  length : (rows.map UnicodeString.length).sum = t.length
  widths : rows.flatMap UnicodeString.widths = t.widths
  empties : ∃ full, (∀ row ∈ full, row.isEmpty = false ∧ row.length ≠ 0) ∧ rows = full ++
    if t.isEmpty ∨ (t.displayWidth > 0 ∧ (t.displayWidth : Int) % width = 0) then [empty] else []
  within : ∀ row ∈ rows, (row.displayWidth : Int) ≤ width ∨ row.length = 1
  greedy : rows.IsChain fun row next =>
    ∀ w ∈ next.widths.head?, width < ((row.displayWidth + w : Nat) : Int)

theorem pieces_bytes (h : t.Aligned) {rows : List (List Nat)} (hne : ∀ r ∈ rows, r ≠ [])
    (hflat : rows.flatten = t.widths.drop start) :
    (pieces t start rows).flatMap bytes = slice t.bytes (t.edge start) t.bytes.length ∧
      ∀ row ∈ pieces t start rows, row.isEmpty = false := by
  induction rows generalizing start with
  | nil =>
    have hend : t.length ≤ start := by
      rw [← h.widths_length]
      exact List.drop_eq_nil_iff.mp hflat.symm
    rw [edge_of_le hend, slice_self]
    exact ⟨rfl, fun row hrow => absurd hrow List.not_mem_nil⟩
  | cons row rows ih =>
    obtain ⟨hrow, hrows⟩ := List.forall_mem_cons.mp hne
    have hpos := List.length_pos_of_ne_nil hrow
    rw [List.flatten_cons] at hflat
    have hlen := congrArg List.length hflat
    rw [List.length_append, List.length_drop, h.widths_length] at hlen
    have hrest : rows.flatten = t.widths.drop (start + row.length) := by
      rw [← List.drop_drop, ← hflat, List.drop_left]
    obtain ⟨hbytes, hfull⟩ := ih hrows hrest
    have hsub := @sub_bytes t start row.length hpos (by omega)
    have hlt : t.edge start < t.edge (start + row.length) :=
      edge_lt h.increasing h.below (by omega) (by omega)
    have hle : t.edge (start + row.length) ≤ t.bytes.length :=
      edge_of_le (Nat.le_refl t.length) ▸ h.edge_le (by omega)
    rw [pieces, List.flatMap_cons, hbytes, hsub, slice_append (Nat.le_of_lt hlt) hle]
    refine ⟨rfl, List.forall_mem_cons.mpr ⟨decide_eq_false ?_, hfull⟩⟩
    rw [hsub, slice, List.length_take, List.length_drop]
    omega

theorem wrapRows_bytes (h : t.Aligned) (width : Int) :
    (wrapRows t width t.length 0).flatMap bytes = t.bytes ∧
      ∀ row ∈ wrapRows t width t.length 0, row.isEmpty = false ∧ row.length ≠ 0 := by
  have hflat : (fill width [] t.widths).flatten = t.widths.drop 0 := by
    rw [Filling.fill_flatten, List.nil_append, List.drop_zero]
  obtain ⟨hbytes, hfull⟩ := pieces_bytes h (Filling.fill_ne_nil _ _ _) hflat
  have heq := @wrapRows_eq t width 0 h.widths_length t.length (by omega)
  rw [List.drop_zero] at heq
  rw [heq, hbytes, h.edge_zero, slice_all]
  refine ⟨rfl, fun row hrow => ⟨hfull row hrow, ?_⟩⟩
  rw [← heq] at hrow
  exact length_ne_zero_of_mem_wrapRows h.widths_length width row hrow

/-- The rows hold the widths that filling rows gives, so what `Filling` says of those holds of them,
whether or not an empty row follows. -/
theorem wrapRows_fills (h : t.Aligned) (hwidth : 1 ≤ width) :
    (∀ row ∈ wrapRows t width t.length 0, (row.displayWidth : Int) ≤ width ∨ row.length = 1) ∧
      (wrapRows t width t.length 0 ++ [empty]).IsChain fun row next =>
        ∀ w ∈ next.widths.head?, width < ((row.displayWidth + w : Nat) : Int) := by
  obtain ⟨hwidths, hlengths⟩ := wrapRows_widths h.widths_length width
  constructor
  · intro row hrow
    have hmem : row.widths ∈ fill width [] t.widths := hwidths ▸ List.mem_map_of_mem hrow
    rcases Filling.fill_within (by rw [List.sum_nil]; omega) _ hmem with hle | ⟨w, -, hone, -⟩
    · exact .inl hle
    · have hcount : (wrapRows t width t.length 0).map length =
          (wrapRows t width t.length 0).map fun row => row.widths.length := by
        rw [hlengths, ← hwidths, List.map_map]
        rfl
      right
      rw [List.map_inj_left.mp hcount row hrow, hone]
      rfl
  · have hgreedy := Filling.fill_greedy width [] t.widths
    rw [← hwidths, List.isChain_map] at hgreedy
    refine List.isChain_append.mpr ⟨hgreedy, .singleton _, fun row _ next hnext w hw => ?_⟩
    cases hnext
    cases hw

/-- What a line is wrapped to, and that the loop ends within as many rounds as it has clusters. -/
theorem wrap_wraps (h : t.Aligned) (hwidth : 1 ≤ width) :
    Wraps t width (t.wrap width) ∧
      ∀ fuel, t.length ≤ fuel → wrapRows t width fuel 0 = wrapRows t width t.length 0 := by
  refine ⟨?_, fun fuel hfuel => ?_⟩
  · by_cases hempty : t.isEmpty = true
    · have hbytes : t.bytes = [] := List.length_eq_zero_iff.mp (of_decide_eq_true hempty)
      have hoffsets : t.length = 0 := by
        by_contra hne
        obtain ⟨o, ho⟩ := List.exists_mem_of_length_pos (Nat.pos_of_ne_zero hne)
        have := h.below o ho
        rw [hbytes] at this
        exact absurd this (Nat.not_lt_zero o)
      have hwidths : t.widths = [] := List.length_eq_zero_iff.mp (h.widths_length.trans hoffsets)
      have hrows : t.wrap width = [empty] := by
        unfold wrap
        rw [if_neg (by omega), if_pos hempty]
      rw [hrows]
      exact {
        bytes := hbytes.symm
        length := hoffsets.symm
        widths := hwidths.symm
        empties := ⟨[], fun row hrow => absurd hrow List.not_mem_nil, (if_pos (.inl hempty)).symm⟩
        within := List.forall_mem_singleton.mpr (.inl (Int.le_trans (by decide) hwidth))
        greedy := .singleton _ }
    · obtain ⟨hbytes, hfull⟩ := wrapRows_bytes h width
      obtain ⟨hwithin, hgreedy⟩ := wrapRows_fills h hwidth
      have hwidths : (wrapRows t width t.length 0).flatMap widths = t.widths := by
        rw [List.flatMap_def, (wrapRows_widths h.widths_length width).1,
          Filling.fill_flatten, List.nil_append]
      have hlengths := wrapRows_lengths h.widths_length width
      have hrows := wrap_eq (show 0 < width by omega) (by simpa using hempty : t.isEmpty = false)
      by_cases hlast : t.displayWidth > 0 ∧ (t.displayWidth : Int) % width = 0
      · rw [if_pos hlast] at hrows
        rw [hrows]
        exact {
          bytes := by rw [List.flatMap_append, hbytes]; exact List.append_nil _
          length := by rw [List.map_append, List.sum_append, hlengths]; rfl
          widths := by rw [List.flatMap_append, hwidths]; exact List.append_nil _
          empties := ⟨_, hfull, by rw [if_pos (.inr hlast)]⟩
          within := List.forall_mem_append.mpr ⟨hwithin,
            List.forall_mem_singleton.mpr (.inl (Int.le_trans (by decide) hwidth))⟩
          greedy := hgreedy }
      · rw [if_neg hlast, List.append_nil] at hrows
        rw [hrows]
        exact {
          bytes := hbytes
          length := hlengths
          widths := hwidths
          empties := ⟨_, hfull, by rw [if_neg (not_or.mpr ⟨hempty, hlast⟩), List.append_nil]⟩
          within := hwithin
          greedy := (List.isChain_append.mp hgreedy).1 }
  · rw [wrapRows_eq h.widths_length (by omega), wrapRows_eq h.widths_length (by omega)]

theorem wrap_wraps_wide : Wraps (ofClusters [] [(['a'], 1), (['世'], 2), (['b'], 1)]) 1
    ((ofClusters [] [(['a'], 1), (['世'], 2), (['b'], 1)]).wrap 1) :=
  (wrap_wraps (aligned_ofClusters (by decide)) (by decide)).1

end UnicodeString
end Raoui
