import Raoui.Lib.Tiling
import Raoui.View.Ranges

/-!
# Raoui.View.Painting

What merging and normalizing do to the styles of the bytes.

* `Lays.merge`: merged ranges style the same bytes.
* `normalizeRanges_spec`: ranges without gaps that start within the text are made a tiling of it.
* `normalizeRanges_lays`: if they style every byte once, the tiling does it in the same way.
-/

namespace Raoui
namespace RHighlight

open TerminalOps (Style)
open Tiling

instance : Tile StyledRange Style :=
  ⟨StyledRange.startByte, StyledRange.endByte, StyledRange.style⟩

/-! ## Merging -/

/-- Two ranges of one style that meet are one range. -/
theorem covers_joined {prev range : StyledRange} (hprev : prev.startByte ≤ prev.endByte)
    (hrange : range.startByte ≤ range.endByte) (hmeet : prev.endByte = range.startByte) (i : Nat) :
    Covers { prev with endByte := range.endByte } i ↔ Covers prev i ∨ Covers range i := by
  show prev.startByte ≤ i ∧ i < range.endByte ↔
    (prev.startByte ≤ i ∧ i < prev.endByte) ∨ (range.startByte ≤ i ∧ i < range.endByte)
  omega

theorem mergeLoop_paints {acc ranges : List StyledRange}
    (hacc : ∀ r ∈ acc, r.startByte ≤ r.endByte) (h : ∀ r ∈ ranges, r.startByte ≤ r.endByte)
    (i : Nat) (s : Style) :
    Paints (mergeLoop acc ranges) i s ↔ Paints acc i s ∨ Paints ranges i s := by
  induction ranges generalizing acc with
  | nil =>
    have hreverse : mergeLoop acc [] = acc.reverse := by cases acc <;> rfl
    rw [hreverse, paints_congr (fun _ => List.mem_reverse), or_iff_left not_paints_nil]
  | cons range rest ih =>
    obtain ⟨hrange, hrest⟩ := List.forall_mem_cons.mp h
    cases acc with
    | nil =>
      rw [mergeLoop, ih (List.forall_mem_singleton.mpr hrange) hrest, paints_cons, paints_cons,
        or_iff_left not_paints_nil, or_iff_right not_paints_nil]
    | cons prev accRest =>
      obtain ⟨hprev, haccRest⟩ := List.forall_mem_cons.mp hacc
      unfold mergeLoop
      split
      · rename_i hjoin
        have hjoined := covers_joined hprev hrange hjoin.2 i
        have hle : prev.startByte ≤ range.endByte := by omega
        rw [ih (List.forall_mem_cons.mpr ⟨hle, haccRest⟩) hrest]
        simp only [paints_cons, hjoined]
        have hstyle : Tile.label range = Tile.label prev := hjoin.1.symm
        rw [hstyle, or_and_right]
        tauto
      · rw [ih (List.forall_mem_cons.mpr ⟨hrange, hacc⟩) hrest]
        simp only [paints_cons]
        tauto

theorem mergeLoop_tiles {a b : Nat} {acc ranges : List StyledRange}
    (h : Tiles a b (acc.reverse ++ ranges)) : Tiles a b (mergeLoop acc ranges) := by
  induction ranges generalizing acc with
  | nil =>
    rw [List.append_nil] at h
    cases acc <;> exact h
  | cons range rest ih =>
    cases acc with
    | nil => exact ih h
    | cons prev accRest =>
      unfold mergeLoop
      split
      · rename_i hjoin
        refine ih ?_
        rw [List.reverse_cons, List.append_assoc, tiles_append_iff] at h ⊢
        obtain ⟨c, hacc, hstart, hlt, hstart', hlt', hrest⟩ := h
        exact ⟨c, hacc, hstart, hlt.trans hlt', hrest⟩
      · refine ih ?_
        rw [List.reverse_cons, List.append_assoc]
        exact h

theorem Lays.merge {a : Nat} {ls : List Style} {ranges : List StyledRange} (h : Lays a ls ranges) :
    Lays a ls (mergeRanges ranges) where
  within := mergeRanges_bounded h.within
  paints i s := by
    have hmerge := mergeLoop_paints (List.forall_mem_nil _) (fun r hr => (h.within r hr).1) i s
    exact (hmerge.trans (or_iff_right not_paints_nil)).trans (h.paints i s)

/-! ## Normalizing -/

/-- The gap at the end, or nothing if there is none. -/
theorem fillGap_tiles {n pos : Nat} {acc : List StyledRange} (hpos : pos ≤ n)
    (hacc : Tiles 0 pos acc.reverse) : Tiles 0 n (fillGap pos n acc).reverse := by
  unfold fillGap
  split
  · rename_i hlt
    rw [List.reverse_cons]
    exact tiles_append_iff.mpr ⟨pos, hacc, rfl, hlt, rfl⟩
  · obtain rfl : pos = n := by omega
    exact hacc

theorem fillGap_paints {n pos i : Nat} {acc : List StyledRange} {s : Style}
    (h : Paints (fillGap pos n acc) i s) : Paints acc i s ∨ (pos ≤ i ∧ i < n) := by
  unfold fillGap at h
  split at h
  · obtain ⟨hcovers, -⟩ | h := paints_cons.mp h
    · exact .inr hcovers
    · exact .inl h
  · exact .inl h

/-- What the loop does when no range starts behind the text and there are no gaps in front of the
end of the last range: the ranges tile the text, and keep their styles. -/
theorem normalizeLoop_spec {n pos : Nat} {acc ranges : List StyledRange} (hpos : pos ≤ n)
    (hacc : Tiles 0 pos acc.reverse)
    (hsorted : ranges.Pairwise fun a b => a.startByte ≤ b.startByte)
    (hranges : ∀ r ∈ ranges, r.startByte ≤ r.endByte ∧ r.startByte ≤ n)
    (hgap : Gapless pos n ranges) :
    Tiles 0 n (normalizeLoop n pos acc ranges) ∧
      ∀ i s, Paints (normalizeLoop n pos acc ranges) i s →
        Paints acc i s ∨ Paints ranges i s ∨ (pos ≤ i ∧ i < n ∧ ∀ r ∈ ranges, ¬ Covers r i) := by
  induction ranges generalizing pos acc with
  | nil =>
    have htiles := fillGap_tiles hpos hacc
    refine ⟨mergeLoop_tiles htiles, fun i s hs => ?_⟩
    rw [normalizeLoop, mergeRanges, mergeLoop_paints (List.forall_mem_nil _)
      (fun r hr => (htiles.lays.1.within r hr).1), or_iff_right not_paints_nil,
      paints_congr (fun _ => List.mem_reverse)] at hs
    obtain hs | ⟨hle, hlt⟩ := fillGap_paints hs
    · exact .inl hs
    · exact .inr (.inr ⟨hle, hlt, List.forall_mem_nil _⟩)
  | cons range rest ih =>
    obtain ⟨⟨hle, hstart⟩, hrest⟩ := List.forall_mem_cons.mp hranges
    obtain ⟨hfirst, hsorted⟩ := List.pairwise_cons.mp hsorted
    -- a later range starts no sooner, so a gap in front of this one would stay
    have hnogap : range.startByte ≤ pos := by
      by_contra hlt
      obtain ⟨r, hr, hcovers⟩ := hgap range List.mem_cons_self pos (Nat.le_refl _) (by omega)
        (show pos < range.endByte by omega)
      have hcovers : r.startByte ≤ pos := hcovers.1
      obtain rfl | hr := List.mem_cons.mp hr
      · omega
      · have := hfirst r hr
        omega
    -- behind the end of this range only the rest counts
    have hlater {pos' : Nat} (hpos' : pos ≤ pos') (hend : min n range.endByte ≤ pos') :
        Gapless pos' n rest ∧ ∀ i, pos' ≤ i → i < n → ¬ Covers range i := by
      have hnot (i : Nat) (hi : pos' ≤ i) (hn : i < n) : ¬ Covers range i := by
        rintro ⟨-, hcovers⟩
        have hcovers : i < range.endByte := hcovers
        omega
      refine ⟨fun r hr i hi hn hstop => ?_, hnot⟩
      obtain ⟨r', hr', hcovers⟩ := hgap r (List.mem_cons_of_mem _ hr) i (by omega) hn hstop
      obtain rfl | hr' := List.mem_cons.mp hr'
      · exact absurd hcovers (hnot i hi hn)
      · exact ⟨r', hr', hcovers⟩
    unfold normalizeLoop
    dsimp only
    rw [Nat.max_eq_left hnogap, fillGap, if_neg (Nat.lt_irrefl pos)]
    split
    · rename_i hend
      obtain ⟨hgap', hnot⟩ := hlater (Nat.le_refl pos) hend
      obtain ⟨htiles, hpaints⟩ := ih hpos hacc hsorted hrest hgap'
      refine ⟨htiles, fun i s hs => ?_⟩
      obtain hs | hs | ⟨hi, hn, hno⟩ := hpaints i s hs
      · exact .inl hs
      · exact .inr (.inl (paints_cons.mpr (.inr hs)))
      · exact .inr (.inr ⟨hi, hn, List.forall_mem_cons.mpr ⟨hnot i hi hn, hno⟩⟩)
    · rename_i hend
      obtain ⟨hgap', hnot⟩ := hlater (by omega) (Nat.le_refl _)
      have hacc' : Tiles 0 (min n range.endByte)
          (⟨pos, min n range.endByte, range.style⟩ :: acc).reverse := by
        rw [List.reverse_cons]
        exact tiles_append_iff.mpr ⟨pos, hacc, rfl, Nat.not_le.mp hend, rfl⟩
      obtain ⟨htiles, hpaints⟩ := ih (Nat.min_le_left ..) hacc' hsorted hrest hgap'
      refine ⟨htiles, fun i s hs => ?_⟩
      obtain hs | hs | ⟨hi, hn, hno⟩ := hpaints i s hs
      · obtain ⟨⟨hlow, hhigh⟩, hstyle⟩ | hs := paints_cons.mp hs
        · have hlow : pos ≤ i := hlow
          have hhigh : i < min n range.endByte := hhigh
          exact .inr (.inl (paints_cons.mpr (.inl ⟨⟨by
            show range.startByte ≤ i
            omega, by
            show i < range.endByte
            omega⟩, hstyle⟩)))
        · exact .inl hs
      · exact .inr (.inl (paints_cons.mpr (.inr hs)))
      · exact .inr (.inr ⟨by omega, hn, List.forall_mem_cons.mpr ⟨hnot i hi hn, hno⟩⟩)

theorem pairwise_sorted (ranges : List StyledRange) :
    (ranges.insertionSort Before).Pairwise fun a b => a.startByte ≤ b.startByte := by
  have : IsTrans StyledRange Before := ⟨fun a b c hab hbc => by
    unfold Before at *
    omega⟩
  have : Std.Total Before := ⟨fun a b => by
    unfold Before
    omega⟩
  refine (List.pairwise_insertionSort Before ranges).imp fun {a b} hab => ?_
  unfold Before at hab
  omega

variable {n : Nat} {ls : List Style} {ranges : List StyledRange}

theorem normalizeRanges_spec (h : Lays 0 ls ranges) (hstart : ∀ r ∈ ranges, r.startByte ≤ n) :
    Tiles 0 n (normalizeRanges n ranges) ∧ ∀ i s, Paints (normalizeRanges n ranges) i s →
      Paints ranges i s ∨ (i < n ∧ ∀ r ∈ ranges, ¬ Covers r i) := by
  have hmem {r : StyledRange} : r ∈ ranges ↔ r ∈ ranges.insertionSort Before :=
    (List.mem_insertionSort Before).symm
  have hsorted : Lays 0 ls (ranges.insertionSort Before) := h.congr fun _ => hmem
  have hacc : Tiles 0 0 ([] : List StyledRange).reverse := rfl
  obtain ⟨htiles, hpaints⟩ := normalizeLoop_spec (Nat.zero_le n) hacc
    (pairwise_sorted ranges) (fun r hr => ⟨(hsorted.within r hr).1, hstart r (hmem.mpr hr)⟩)
    (hsorted.gapless n)
  refine ⟨htiles, fun i s hs => ?_⟩
  obtain hs | hs | ⟨-, hn, hno⟩ := hpaints i s hs
  · exact absurd hs not_paints_nil
  · exact .inl ((paints_congr (fun _ => hmem) i s).mpr hs)
  · exact .inr ⟨hn, fun r hr => hno r (hmem.mp hr)⟩

/-- Ranges that style every byte of the text keep its styles. -/
theorem normalizeRanges_lays (h : Lays 0 ls ranges) (hn : ls.length = n) :
    Lays 0 ls (normalizeRanges n ranges) := by
  have hstart (r : StyledRange) (hr : r ∈ ranges) : r.startByte ≤ n := by
    have hle : r.startByte ≤ r.endByte := (h.within r hr).1
    have hend : r.endByte ≤ 0 + ls.length := (h.within r hr).2
    omega
  obtain ⟨htiles, hpaints⟩ := normalizeRanges_spec h hstart
  obtain ⟨hlays, hlength⟩ := htiles.lays
  have hsame : ls = labels (normalizeRanges n ranges) := by
    refine List.ext_getElem (by omega) fun i hi hi' => ?_
    have hlabel := (hlays.paints i _).mpr ⟨Nat.zero_le i, List.getElem?_eq_getElem hi'⟩
    obtain hs | ⟨-, hno⟩ := hpaints i _ hlabel
    · have hls := ((h.paints i _).mp hs).2
      rw [Nat.sub_zero, List.getElem?_eq_getElem hi] at hls
      exact Option.some_inj.mp hls
    · obtain ⟨r, hr, hcovers⟩ := h.exists_covers (Nat.zero_le i) (by omega)
      exact absurd hcovers (hno r hr)
  rw [hsame]
  exact hlays

end RHighlight
end Raoui
