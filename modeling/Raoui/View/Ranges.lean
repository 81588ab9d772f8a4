import Raoui.View.RHighlight

/-!
# Raoui.View.Ranges

Merging and normalizing styled ranges. A range that starts behind the text makes the gap before it be
filled too far; if there is none, what comes out is within the text.
-/

namespace Raoui
namespace RHighlight

/-! ## Merging -/

theorem mergeLoop_forall {P : StyledRange → Prop}
    (hmerge : ∀ prev range : StyledRange, P prev → P range → prev.endByte = range.startByte →
      P { prev with endByte := range.endByte })
    (acc ranges : List StyledRange) (hacc : ∀ r ∈ acc, P r) (h : ∀ r ∈ ranges, P r) :
    ∀ r ∈ mergeLoop acc ranges, P r := by
  induction ranges generalizing acc with
  | nil =>
    intro r hr
    cases acc <;> exact hacc r (List.mem_reverse.mp hr)
  | cons range rest ih =>
    obtain ⟨hrange, hrest⟩ := List.forall_mem_cons.mp h
    cases acc with
    | nil => exact ih [range] (by simpa using hrange) hrest
    | cons prev accRest =>
      obtain ⟨hprev, haccRest⟩ := List.forall_mem_cons.mp hacc
      unfold mergeLoop
      split
      · rename_i hjoin
        exact ih _ (List.forall_mem_cons.mpr ⟨hmerge prev range hprev hrange hjoin.2, haccRest⟩) hrest
      · exact ih _ (List.forall_mem_cons.mpr ⟨hrange, hacc⟩) hrest

/-- Where merging starts a range, there was one that started there. -/
theorem mergeRanges_starts {P : Nat → Prop} {ranges : List StyledRange}
    (h : ∀ r ∈ ranges, P r.startByte) : ∀ r ∈ mergeRanges ranges, P r.startByte :=
  mergeLoop_forall (fun _ _ hprev _ _ => hprev) [] ranges (List.forall_mem_nil _) h

theorem mergeLoop_ne_nil {acc ranges : List StyledRange} (h : acc ≠ [] ∨ ranges ≠ []) :
    mergeLoop acc ranges ≠ [] := by
  induction ranges generalizing acc with
  | nil =>
    have hacc : acc ≠ [] := h.resolve_right (not_not.mpr rfl)
    cases acc with
    | nil => exact absurd rfl hacc
    | cons prev accRest => simp [mergeLoop]
  | cons range rest ih =>
    cases acc with
    | nil => exact ih (.inl (List.cons_ne_nil _ _))
    | cons prev accRest =>
      unfold mergeLoop
      split
      · exact ih (.inl (List.cons_ne_nil _ _))
      · exact ih (.inl (List.cons_ne_nil _ _))

/-- Merging does not lose how far the ranges reach. -/
theorem mergeLoop_reaches {n : Nat} {acc ranges : List StyledRange}
    (hranges : ∀ r ∈ ranges, r.startByte ≤ r.endByte)
    (h : (∃ r ∈ acc, n < r.endByte) ∨ ∃ r ∈ ranges, n < r.endByte) :
    ∃ r ∈ mergeLoop acc ranges, n < r.endByte := by
  induction ranges generalizing acc with
  | nil =>
    obtain ⟨r, hr, hlt⟩ := h.resolve_right (by rintro ⟨_, hr, -⟩; cases hr)
    refine ⟨r, ?_, hlt⟩
    cases acc <;> exact List.mem_reverse.mpr hr
  | cons range rest ih =>
    obtain ⟨hrange, hrest⟩ := List.forall_mem_cons.mp hranges
    cases acc with
    | nil =>
      refine ih hrest ?_
      obtain ⟨r, hr, hlt⟩ := h.resolve_left (by rintro ⟨_, hr, -⟩; cases hr)
      rcases List.mem_cons.mp hr with rfl | hr
      · exact .inl ⟨r, List.mem_singleton.mpr rfl, hlt⟩
      · exact .inr ⟨r, hr, hlt⟩
    | cons prev accRest =>
      unfold mergeLoop
      split
      · rename_i hjoin
        refine ih hrest ?_
        rcases h with ⟨r, hr, hlt⟩ | ⟨r, hr, hlt⟩
        · rcases List.mem_cons.mp hr with rfl | hr
          · exact .inl ⟨_, List.mem_cons_self .., show n < range.endByte by omega⟩
          · exact .inl ⟨r, List.mem_cons_of_mem _ hr, hlt⟩
        · rcases List.mem_cons.mp hr with rfl | hr
          · exact .inl ⟨_, List.mem_cons_self .., hlt⟩
          · exact .inr ⟨r, hr, hlt⟩
      · refine ih hrest ?_
        rcases h with ⟨r, hr, hlt⟩ | ⟨r, hr, hlt⟩
        · exact .inl ⟨r, List.mem_cons_of_mem _ hr, hlt⟩
        · rcases List.mem_cons.mp hr with rfl | hr
          · exact .inl ⟨r, List.mem_cons_self .., hlt⟩
          · exact .inr ⟨r, hr, hlt⟩

/-- The range is within a text of `n` bytes. -/
def StyledRange.Bounded (n : Nat) (r : StyledRange) : Prop := r.startByte ≤ r.endByte ∧ r.endByte ≤ n

theorem mergeRanges_bounded {n : Nat} {ranges : List StyledRange} (h : ∀ r ∈ ranges, r.Bounded n) :
    ∀ r ∈ mergeRanges ranges, r.Bounded n :=
  mergeLoop_forall (fun prev range hprev hrange hjoin =>
    ⟨show prev.startByte ≤ range.endByte by have := hprev.1; have := hrange.1; omega, hrange.2⟩)
    [] ranges (List.forall_mem_nil _) h

/-! ## Normalizing -/

theorem forall_fillGap {P : StyledRange → Prop} {startByte endByte : Nat} {acc : List StyledRange}
    (hacc : ∀ r ∈ acc, P r) (h : startByte < endByte → P ⟨startByte, endByte, .plain⟩) :
    ∀ r ∈ fillGap startByte endByte acc, P r := by
  unfold fillGap
  split
  · rename_i hlt
    exact List.forall_mem_cons.mpr ⟨h hlt, hacc⟩
  · exact hacc

theorem normalizeLoop_bounded {n pos : Nat} {acc ranges : List StyledRange} (hpos : pos ≤ n)
    (hacc : ∀ r ∈ acc, r.Bounded n) (h : ∀ r ∈ ranges, r.startByte ≤ n) :
    ∀ r ∈ normalizeLoop n pos acc ranges, r.Bounded n := by
  induction ranges generalizing pos acc with
  | nil =>
    refine mergeRanges_bounded fun r hr => ?_
    exact forall_fillGap hacc (fun hlt => ⟨hlt.le, Nat.le_refl n⟩) r (List.mem_reverse.mp hr)
  | cons range rest ih =>
    obtain ⟨hrange, hrest⟩ := List.forall_mem_cons.mp h
    have hgap : ∀ r ∈ fillGap pos (max pos range.startByte) acc, r.Bounded n :=
      forall_fillGap hacc fun hlt => ⟨hlt.le, Nat.max_le.mpr ⟨hpos, hrange⟩⟩
    unfold normalizeLoop
    dsimp only
    split
    · exact ih hpos hgap hrest
    · rename_i hlt
      refine ih (Nat.min_le_left ..) (List.forall_mem_cons.mpr ⟨?_, hgap⟩) hrest
      exact ⟨(Nat.not_le.mp hlt).le, Nat.min_le_left ..⟩

/-- Wherever the ranges to normalize start, what comes out starts within the text. -/
theorem normalizeLoop_starts {n pos : Nat} {acc ranges : List StyledRange} (hpos : pos ≤ n)
    (hacc : ∀ r ∈ acc, r.startByte ≤ n) : ∀ r ∈ normalizeLoop n pos acc ranges, r.startByte ≤ n := by
  induction ranges generalizing pos acc with
  | nil =>
    refine mergeRanges_starts (P := fun k => k ≤ n) fun r hr => ?_
    exact forall_fillGap (P := fun r => r.startByte ≤ n) hacc (fun _ => hpos) r
      (List.mem_reverse.mp hr)
  | cons range rest ih =>
    have hgap : ∀ r ∈ fillGap pos (max pos range.startByte) acc, r.startByte ≤ n :=
      forall_fillGap (P := fun r => r.startByte ≤ n) hacc fun _ => hpos
    unfold normalizeLoop
    dsimp only
    split
    · exact ih hpos hgap
    · rename_i hlt
      refine ih (Nat.min_le_left ..) (List.forall_mem_cons.mpr ⟨?_, hgap⟩)
      have := Nat.min_le_left n range.endByte
      show max pos range.startByte ≤ n
      omega

theorem normalizeLoop_reaches {n pos : Nat} {acc ranges : List StyledRange} (hpos : pos ≤ n)
    (hacc : ∀ r ∈ acc, r.startByte ≤ r.endByte)
    (h : (∃ r ∈ acc, n < r.endByte) ∨ ∃ r ∈ ranges, n < r.startByte) :
    ∃ r ∈ normalizeLoop n pos acc ranges, n < r.endByte := by
  induction ranges generalizing pos acc with
  | nil =>
    obtain ⟨r, hr, hlt⟩ := h.resolve_right (by rintro ⟨_, hr, -⟩; cases hr)
    have hgap : ∀ r ∈ fillGap pos n acc, r.startByte ≤ r.endByte := forall_fillGap hacc Nat.le_of_lt
    refine mergeLoop_reaches (fun r hr => hgap r (List.mem_reverse.mp hr)) (.inr ⟨r, ?_, hlt⟩)
    rw [List.mem_reverse]
    unfold fillGap
    split
    · exact List.mem_cons_of_mem _ hr
    · exact hr
  | cons range rest ih =>
    have hgap : ∀ r ∈ fillGap pos (max pos range.startByte) acc, r.startByte ≤ r.endByte :=
      forall_fillGap hacc Nat.le_of_lt
    -- a range that starts behind the text leaves a gap that reaches behind it too
    have hreach : (∃ r ∈ fillGap pos (max pos range.startByte) acc, n < r.endByte) ∨
        ∃ r ∈ rest, n < r.startByte := by
      have hkeep : ∀ r ∈ acc, r ∈ fillGap pos (max pos range.startByte) acc := by
        unfold fillGap
        split
        · exact fun r => List.mem_cons_of_mem _
        · exact fun r => id
      rcases h with ⟨r, hr, hlt⟩ | ⟨r, hr, hlt⟩
      · exact .inl ⟨r, hkeep r hr, hlt⟩
      · rcases List.mem_cons.mp hr with rfl | hr
        · refine .inl ⟨⟨pos, max pos r.startByte, .plain⟩, ?_, lt_of_lt_of_le hlt (Nat.le_max_right ..)⟩
          unfold fillGap
          rw [if_pos (by omega)]
          exact List.mem_cons_self ..
        · exact .inr ⟨r, hr, hlt⟩
    unfold normalizeLoop
    dsimp only
    split
    · exact ih hpos hgap hreach
    · rename_i hlt
      refine ih (Nat.min_le_left ..) (List.forall_mem_cons.mpr ⟨(Nat.not_le.mp hlt).le, hgap⟩) ?_
      refine hreach.imp_left ?_
      rintro ⟨r, hr, hlt⟩
      exact ⟨r, List.mem_cons_of_mem _ hr, hlt⟩

theorem normalizeRanges_starts (n : Nat) (ranges : List StyledRange) :
    ∀ r ∈ normalizeRanges n ranges, r.startByte ≤ n :=
  normalizeLoop_starts (Nat.zero_le n) (List.forall_mem_nil _)

/-- Normalized ranges are within the text exactly when none of the given ones starts behind it. -/
theorem normalizeRanges_bounded_iff {n : Nat} {ranges : List StyledRange} :
    (∀ r ∈ normalizeRanges n ranges, r.Bounded n) ↔ ∀ r ∈ ranges, r.startByte ≤ n := by
  constructor
  · intro h
    by_contra hno
    simp only [not_forall, not_le, exists_prop] at hno
    obtain ⟨r, hr, hlt⟩ := hno
    obtain ⟨r', hr', hlt'⟩ := normalizeLoop_reaches (Nat.zero_le n)
      (List.forall_mem_nil fun r : StyledRange => r.startByte ≤ r.endByte)
      (.inr ⟨r, (List.mem_insertionSort Before).mpr hr, hlt⟩)
    have := (h r' hr').2
    omega
  · intro h
    exact normalizeLoop_bounded (Nat.zero_le n) (List.forall_mem_nil _)
      fun r hr => h r ((List.mem_insertionSort Before).mp hr)

end RHighlight
end Raoui
