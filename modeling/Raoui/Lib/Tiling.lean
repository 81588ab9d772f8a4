import Mathlib.Data.List.Basic

/-!
# Tilings

Labelled intervals of positions.

* `Tiles`: non-empty intervals, one behind the other.
* `Lays`: the labels that a list of intervals gives the positions, in whatever order it stands.
* `Tiles.lays`, `Lays.unique`: a tiling gives each position one label.
-/

namespace Tiling

class Tile (ρ : Type) (α : outParam Type) where
  start : ρ → Nat
  stop : ρ → Nat
  label : ρ → α

open Tile (start stop label)

variable {ρ α : Type} [Tile ρ α]

def Covers (r : ρ) (i : Nat) : Prop := start r ≤ i ∧ i < stop r

/-- Position `i` is labelled `s`. -/
def Paints (rs : List ρ) (i : Nat) (s : α) : Prop := ∃ r ∈ rs, Covers r i ∧ label r = s

/-- The intervals follow each other from `a` to `b`, and none of them is empty. -/
def Tiles (a b : Nat) : List ρ → Prop
  | [] => a = b
  | r :: rest => start r = a ∧ a < stop r ∧ Tiles (stop r) b rest

/-- The positions from `a` on are labelled `ls`, and no others. -/
structure Lays (a : Nat) (ls : List α) (rs : List ρ) : Prop where
  within : ∀ r ∈ rs, start r ≤ stop r ∧ stop r ≤ a + ls.length
  paints : ∀ i s, Paints rs i s ↔ a ≤ i ∧ ls[i - a]? = some s

/-- Every position from `pos` on, below `n`, that lies in front of the end of an interval is
covered. -/
def Gapless (pos n : Nat) (rs : List ρ) : Prop :=
  ∀ r ∈ rs, ∀ i, pos ≤ i → i < n → i < stop r → ∃ r' ∈ rs, Covers r' i

variable {a b c n : Nat} {ls ls' : List α} {rs rs' : List ρ}

/-! ## Painting -/

theorem paints_append {i : Nat} {s : α} :
    Paints (rs ++ rs') i s ↔ Paints rs i s ∨ Paints rs' i s := by
  simp only [Paints, List.mem_append, or_and_right, exists_or]

theorem paints_cons {r : ρ} {i : Nat} {s : α} :
    Paints (r :: rs) i s ↔ (Covers r i ∧ label r = s) ∨ Paints rs i s := by
  simp only [Paints, List.mem_cons, or_and_right, exists_or, exists_eq_left]

theorem not_paints_nil {i : Nat} {s : α} : ¬ Paints ([] : List ρ) i s := by
  rintro ⟨r, hr, -⟩
  cases hr

theorem paints_congr (h : ∀ r, r ∈ rs ↔ r ∈ rs') (i : Nat) (s : α) :
    Paints rs i s ↔ Paints rs' i s := by
  simp only [Paints, h]

/-! ## Laying -/

theorem Lays.congr (h : ∀ r, r ∈ rs ↔ r ∈ rs') (hlays : Lays a ls rs) : Lays a ls rs' where
  within r hr := hlays.within r ((h r).mpr hr)
  paints i s := (paints_congr h i s).symm.trans (hlays.paints i s)

theorem Lays.nil (a : Nat) : Lays a [] ([] : List ρ) where
  within := List.forall_mem_nil _
  paints _ _ := ⟨fun h => absurd h not_paints_nil, fun h => by cases h.2⟩

theorem Lays.single {r : ρ} (hstart : start r = a) (hstop : stop r = a + n) :
    Lays a (List.replicate n (label r)) [r] where
  within := List.forall_mem_singleton.mpr ⟨by omega,
    Nat.le_of_eq (by rw [hstop, List.length_replicate])⟩
  paints i s := by
    rw [paints_cons, Covers, hstart, hstop, List.getElem?_replicate]
    constructor
    · rintro (⟨⟨hle, hlt⟩, rfl⟩ | h)
      · exact ⟨hle, if_pos (by omega)⟩
      · exact absurd h not_paints_nil
    · rintro ⟨hle, hs⟩
      split at hs
      · cases hs
        exact .inl ⟨⟨hle, by omega⟩, rfl⟩
      · cases hs

theorem Lays.append (h : Lays a ls rs) (h' : Lays (a + ls.length) ls' rs') :
    Lays a (ls ++ ls') (rs ++ rs') where
  within := by
    rw [List.length_append]
    refine List.forall_mem_append.mpr ⟨fun r hr => ?_, fun r hr => ?_⟩
    · have := h.within r hr
      omega
    · have := h'.within r hr
      omega
  paints i s := by
    rw [paints_append, h.paints, h'.paints]
    constructor
    · rintro (⟨hle, hs⟩ | ⟨hle, hs⟩)
      · obtain ⟨hlt, -⟩ := List.getElem?_eq_some_iff.mp hs
        exact ⟨hle, by rw [List.getElem?_append_left hlt, hs]⟩
      · refine ⟨by omega, ?_⟩
        rw [List.getElem?_append_right (by omega), ← hs]
        congr 1
        omega
    · rintro ⟨hle, hs⟩
      by_cases hlt : i - a < ls.length
      · rw [List.getElem?_append_left hlt] at hs
        exact .inl ⟨hle, hs⟩
      · rw [List.getElem?_append_right (by omega)] at hs
        refine .inr ⟨by omega, ?_⟩
        rw [← hs]
        congr 1
        omega

/-- Intervals that go on where the others end, put in front of them with the last one first. -/
theorem Lays.push (h : Lays a ls rs) (h' : Lays (a + ls.length) ls' rs') :
    Lays a (ls ++ ls') (rs'.reverse ++ rs) :=
  (h.append h').congr fun r => by
    rw [List.mem_append, List.mem_append, List.mem_reverse, or_comm]

/-- The intervals are the same shifted by `k`. -/
theorem Lays.shift {f : ρ → ρ} {k : Nat}
    (hf : ∀ r, start (f r) = start r + k ∧ stop (f r) = stop r + k ∧ label (f r) = label r)
    (h : Lays a ls rs) : Lays (a + k) ls (rs.map f) where
  within := by
    intro r' hr'
    obtain ⟨r, hr, rfl⟩ := List.mem_map.mp hr'
    have := h.within r hr
    have := hf r
    omega
  paints i s := by
    have hshift : Paints (rs.map f) i s ↔ k ≤ i ∧ Paints rs (i - k) s := by
      simp only [Paints, List.mem_map, exists_exists_and_eq_and, Covers, hf]
      constructor
      · rintro ⟨r, hr, ⟨hle, hlt⟩, hs⟩
        exact ⟨by omega, r, hr, ⟨by omega, by omega⟩, hs⟩
      · rintro ⟨hk, r, hr, ⟨hle, hlt⟩, hs⟩
        exact ⟨r, hr, ⟨by omega, by omega⟩, hs⟩
    rw [hshift, h.paints, Nat.sub_sub, Nat.add_comm k a]
    constructor
    · rintro ⟨hk, hle, hs⟩
      exact ⟨by omega, hs⟩
    · rintro ⟨hle, hs⟩
      exact ⟨by omega, by omega, hs⟩

theorem Lays.exists_covers (h : Lays a ls rs) {i : Nat} (hle : a ≤ i) (hlt : i < a + ls.length) :
    ∃ r ∈ rs, Covers r i := by
  have hi : i - a < ls.length := by omega
  obtain ⟨r, hr, hcovers, -⟩ := (h.paints i _).mpr ⟨hle, List.getElem?_eq_getElem hi⟩
  exact ⟨r, hr, hcovers⟩

theorem Lays.gapless (h : Lays a ls rs) (n : Nat) : Gapless a n rs := by
  intro r hr i hle _ hstop
  have := (h.within r hr).2
  exact h.exists_covers hle (by omega)

theorem Lays.unique (h : Lays a ls rs) (h' : Lays a ls' rs) : ls = ls' := by
  refine List.ext_getElem? fun i => Option.ext fun s => ?_
  have hiff := (h.paints (a + i) s).symm.trans (h'.paints (a + i) s)
  rw [Nat.add_sub_cancel_left] at hiff
  exact ⟨fun hs => (hiff.mp ⟨Nat.le_add_right a i, hs⟩).2,
    fun hs => (hiff.mpr ⟨Nat.le_add_right a i, hs⟩).2⟩

/-! ## Tiling -/

theorem tiles_append_iff : Tiles a c (rs ++ rs') ↔ ∃ b, Tiles a b rs ∧ Tiles b c rs' := by
  induction rs generalizing a with
  | nil => exact ⟨fun h => ⟨a, rfl, h⟩, fun ⟨b, hab, h⟩ => by cases hab; exact h⟩
  | cons r rs ih =>
    constructor
    · rintro ⟨hstart, hlt, hrest⟩
      obtain ⟨b, hb, hc⟩ := ih.mp hrest
      exact ⟨b, ⟨hstart, hlt, hb⟩, hc⟩
    · rintro ⟨b, ⟨hstart, hlt, hb⟩, hc⟩
      exact ⟨hstart, hlt, ih.mpr ⟨b, hb, hc⟩⟩

/-- The labels of a tiling, position by position. -/
def labels (rs : List ρ) : List α := rs.flatMap fun r => List.replicate (stop r - start r) (label r)

theorem Tiles.lays (h : Tiles a b rs) : Lays a (labels rs) rs ∧ a + (labels rs).length = b := by
  induction rs generalizing a with
  | nil => exact ⟨.nil a, h⟩
  | cons r rs ih =>
    obtain ⟨hstart, hlt, hrest⟩ := h
    obtain ⟨hlays, hlength⟩ := ih hrest
    have hfirst : Lays a (List.replicate (stop r - start r) (label r)) [r] :=
      .single hstart (by omega)
    have hstop : a + (List.replicate (stop r - start r) (label r)).length = stop r := by
      rw [List.length_replicate]
      omega
    rw [labels, List.flatMap_cons]
    refine ⟨hfirst.append (by rw [hstop]; exact hlays), ?_⟩
    rw [List.length_append, ← Nat.add_assoc, hstop]
    exact hlength

theorem Tiles.le (h : Tiles a b rs) : a ≤ b := by
  have := h.lays.2
  omega

end Tiling
