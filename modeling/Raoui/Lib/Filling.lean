import Mathlib.Algebra.GroupWithZero.Nat
import Mathlib.Data.List.Basic
import Mathlib.Algebra.BigOperators.Group.List.Basic
import Mathlib.Data.Nat.ModEq

/-!
# Raoui.Lib.Filling

Items of given widths put into rows one after the other, a new row when the next item does not fit.
An item wider than a row has one to itself.

* `fill`: the rows.
* `fill_flatten`, `fill_ne_nil`, `fill_within`: nothing is lost, no row is empty, and only an item
  too wide for any row is wider than it.
* `fill_greedy`: a row ends only where the next item does not fit.
* `used`: how full the last row is and how many columns the rows before it leave unused.
* `sum_dvd_iff`: what the total width says about them.
-/

namespace Raoui
namespace Filling

/-- The rows, with `row` begun. -/
def fill (limit : Int) : List Nat → List Nat → List (List Nat)
  | row, [] => if row = [] then [] else [row]
  | row, w :: ws =>
    if (row.sum : Int) + w ≤ limit then fill limit (row ++ [w]) ws
    else if row = [] then [w] :: fill limit [] ws
    else row :: if (w : Int) ≤ limit then fill limit [w] ws else [w] :: fill limit [] ws

variable {limit : Int} {row ws : List Nat}

@[simp] theorem fill_nil_nil : fill limit [] [] = [] := rfl

theorem fill_nil (h : row ≠ []) : fill limit row [] = [row] := if_neg h

theorem fill_fits {w : Nat} (h : (row.sum : Int) + w ≤ limit) :
    fill limit row (w :: ws) = fill limit (row ++ [w]) ws := if_pos h

/-- An item that does not fit begins the next row. -/
theorem fill_breaks {w : Nat} (hrow : row ≠ []) (h : limit < (row.sum : Int) + w) :
    fill limit row (w :: ws) = row :: fill limit [] (w :: ws) := by
  rw [fill, if_neg (by omega), if_neg hrow]
  congr 1
  by_cases hw : (w : Int) ≤ limit
  · rw [if_pos hw, fill_fits (by simpa using hw), List.nil_append]
  · rw [if_neg hw, fill, if_neg (by simpa using hw), if_pos rfl]

/-- An item too wide for any row is alone in its own. -/
theorem fill_alone {w : Nat} (h : limit < (w : Int)) :
    fill limit [] (w :: ws) = [w] :: fill limit [] ws := by
  rw [fill, if_neg (by simpa using h), if_pos rfl]

/-- The cases of the loop: an item fits, begins the next row, or is alone in its own. -/
theorem fill_induct (limit : Int) {motive : List Nat → List Nat → Prop}
    (nil : motive [] [])
    (last : ∀ row, row ≠ [] → motive row [])
    (fits : ∀ (row : List Nat) (w : Nat) (ws : List Nat), (row.sum : Int) + w ≤ limit →
      motive (row ++ [w]) ws → motive row (w :: ws))
    (breaks : ∀ (row : List Nat) (w : Nat) (ws : List Nat), row ≠ [] → limit < (row.sum : Int) + w →
      motive [] (w :: ws) → motive row (w :: ws))
    (alone : ∀ (w : Nat) (ws : List Nat), limit < (w : Int) → motive [] ws → motive [] (w :: ws)) :
    ∀ row ws, motive row ws := by
  intro row ws
  induction ws generalizing row with
  | nil =>
    by_cases h : row = []
    · exact h ▸ nil
    · exact last row h
  | cons w ws ih =>
    have hfresh : motive [] (w :: ws) := by
      by_cases hw : (w : Int) ≤ limit
      · exact fits [] w ws (by simpa using hw) (ih _)
      · exact alone w ws (by omega) (ih _)
    by_cases hw : (row.sum : Int) + w ≤ limit
    · exact fits row w ws hw (ih _)
    · by_cases hrow : row = []
      · exact hrow ▸ hfresh
      · exact breaks row w ws hrow (by omega) hfresh

theorem fill_flatten (limit : Int) (row ws : List Nat) : (fill limit row ws).flatten = row ++ ws := by
  induction row, ws using fill_induct limit with
  | nil => rfl
  | last row h => rw [fill_nil h, List.flatten_singleton, List.append_nil]
  | fits row w ws h ih => rw [fill_fits h, ih, List.append_assoc, List.singleton_append]
  | breaks row w ws hrow h ih => rw [fill_breaks hrow h, List.flatten_cons, ih, List.nil_append]
  | alone w ws h ih => rw [fill_alone h, List.flatten_cons, ih]; rfl

theorem fill_ne_nil (limit : Int) (row ws : List Nat) : ∀ r ∈ fill limit row ws, r ≠ [] := by
  induction row, ws using fill_induct limit with
  | nil => nofun
  | last row h =>
    rw [fill_nil h]
    exact List.forall_mem_singleton.mpr h
  | fits row w ws h ih => rwa [fill_fits h]
  | breaks row w ws hrow h ih =>
    rw [fill_breaks hrow h]
    exact List.forall_mem_cons.mpr ⟨hrow, ih⟩
  | alone w ws h ih =>
    rw [fill_alone h]
    exact List.forall_mem_cons.mpr ⟨List.cons_ne_nil _ _, ih⟩

/-- A row is within the limit, or it is one item too wide for any. -/
theorem fill_within (hrow : (row.sum : Int) ≤ limit) :
    ∀ r ∈ fill limit row ws, (r.sum : Int) ≤ limit ∨ ∃ w ∈ ws, r = [w] ∧ limit < (w : Int) := by
  have hlater : ∀ {w : Nat} {ws r : List Nat},
      ((r.sum : Int) ≤ limit ∨ ∃ v ∈ ws, r = [v] ∧ limit < (v : Int)) →
        (r.sum : Int) ≤ limit ∨ ∃ v ∈ w :: ws, r = [v] ∧ limit < (v : Int) := by
    rintro w ws r (hle | ⟨v, hv, hr⟩)
    · exact .inl hle
    · exact .inr ⟨v, List.mem_cons_of_mem _ hv, hr⟩
  have hzero : ((List.sum [] : Nat) : Int) ≤ limit := by
    rw [List.sum_nil]
    omega
  induction row, ws using fill_induct limit with
  | nil => exact fun r hr => absurd hr List.not_mem_nil
  | last row h =>
    rw [fill_nil h]
    exact List.forall_mem_singleton.mpr (.inl hrow)
  | fits row w ws h ih =>
    rw [fill_fits h]
    refine fun r hr => hlater (ih ?_ r hr)
    rw [List.sum_append, List.sum_singleton, Int.natCast_add]
    exact h
  | breaks row w ws hne h ih =>
    rw [fill_breaks hne h]
    exact List.forall_mem_cons.mpr ⟨.inl hrow, ih hzero⟩
  | alone w ws h ih =>
    rw [fill_alone h]
    exact List.forall_mem_cons.mpr
      ⟨.inr ⟨w, List.mem_cons_self, rfl, h⟩, fun r hr => hlater (ih hzero r hr)⟩

/-- Items no wider than a row stay within it. -/
theorem fill_sum_le (hrow : (row.sum : Int) ≤ limit) (hws : ∀ w ∈ ws, (w : Int) ≤ limit) :
    ∀ r ∈ fill limit row ws, (r.sum : Int) ≤ limit := by
  intro r hr
  rcases fill_within hrow r hr with hle | ⟨w, hw, -, hwide⟩
  · exact hle
  · have := hws w hw
    omega

/-- The first item is the first of the first row. -/
theorem fill_first {w : Nat} {rest : List Nat} (h : row ++ ws = w :: rest) :
    ∃ first rows, fill limit row ws = (w :: first) :: rows := by
  have hflat := fill_flatten limit row ws
  cases hfill : fill limit row ws with
  | nil =>
    rw [hfill, h] at hflat
    cases hflat
  | cons r rows =>
    have hr := fill_ne_nil limit row ws r (hfill ▸ List.mem_cons_self)
    obtain ⟨v, first, rfl⟩ := List.exists_cons_of_ne_nil hr
    rw [hfill, h, List.flatten_cons, List.cons_append] at hflat
    obtain ⟨rfl, -⟩ := List.cons.inj hflat
    exact ⟨first, rows, rfl⟩

/-- A row ends only where the next item does not fit. -/
theorem fill_greedy (limit : Int) (row ws : List Nat) :
    (fill limit row ws).IsChain fun r next => ∀ w ∈ next.head?, limit < ((r.sum + w : Nat) : Int) := by
  induction row, ws using fill_induct limit with
  | nil => exact .nil
  | last row h =>
    rw [fill_nil h]
    exact .singleton row
  | fits row w ws h ih => rwa [fill_fits h]
  | breaks row w ws hrow h ih =>
    obtain ⟨first, rows, hfill⟩ := @fill_first limit [] (w :: ws) w ws rfl
    rw [fill_breaks hrow h]
    rw [hfill] at ih ⊢
    refine List.isChain_cons_cons.mpr ⟨fun v hv => ?_, ih⟩
    cases hv
    exact_mod_cast h
  | alone w ws h ih =>
    rw [fill_alone h]
    cases hfill : fill limit [] ws with
    | nil => exact .singleton _
    | cons next rows =>
      rw [hfill] at ih
      refine List.isChain_cons_cons.mpr ⟨fun v _ => ?_, ih⟩
      rw [List.sum_singleton]
      omega

/-! ## Columns -/

/-- One item put down, with `cols` columns used in the row and `spare` unused in those before. -/
def put (limit : Nat) (used : Nat × Nat) (w : Nat) : Nat × Nat :=
  if used.1 + w ≤ limit then (used.1 + w, used.2) else (w, used.2 + (limit - used.1))

theorem put_fits {limit cols spare w : Nat} (h : cols + w ≤ limit) :
    put limit (cols, spare) w = (cols + w, spare) := if_pos h

theorem put_breaks {limit cols spare w : Nat} (h : ¬cols + w ≤ limit) :
    put limit (cols, spare) w = (w, spare + (limit - cols)) := if_neg h

/-- How full the last row is, and how many columns the rows before it leave unused. -/
def used (limit : Nat) (ws : List Nat) : Nat × Nat := ws.foldl (put limit) (0, 0)

theorem foldl_put_last {limit : Nat} (spare : Nat) (hne : row ++ ws ≠ [])
    (hws : ∀ w ∈ ws, w ≤ limit) :
    (fill limit row ws).getLast?.map List.sum = some (ws.foldl (put limit) (row.sum, spare)).1 := by
  induction ws generalizing row spare with
  | nil =>
    rw [List.append_nil] at hne
    rw [fill_nil hne]
    rfl
  | cons w ws ih =>
    have hw := hws w (List.mem_cons_self ..)
    have hrest : ∀ v ∈ ws, v ≤ limit := fun v hv => hws v (List.mem_cons_of_mem _ hv)
    have hfits : ∀ row : List Nat, row.sum + w ≤ limit → ∀ spare,
        (fill limit row (w :: ws)).getLast?.map List.sum =
          some (ws.foldl (put limit) (row.sum + w, spare)).1 := by
      intro row h spare
      rw [fill_fits (by exact_mod_cast h), ih spare (by simp) hrest, List.sum_append,
        List.sum_singleton]
    rw [List.foldl_cons]
    by_cases h : row.sum + w ≤ limit
    · rw [put_fits h]
      exact hfits row h spare
    · have hrow : row ≠ [] := by
        rintro rfl
        exact h (by simpa using hw)
      rw [put_breaks h, fill_breaks hrow (by omega), List.getLast?_cons_of_ne_nil]
      · have := hfits [] (by simpa using hw) (spare + (limit - row.sum))
        rwa [List.sum_nil, Nat.zero_add] at this
      · intro hnil
        have := fill_flatten limit [] (w :: ws)
        rw [hnil] at this
        cases this

/-- The last row is as full as `used` says. -/
theorem fill_last {limit : Nat} (hne : ws ≠ []) (hws : ∀ w ∈ ws, w ≤ limit) :
    (fill limit [] ws).getLast?.map List.sum = some (used limit ws).1 :=
  foldl_put_last 0 (by simpa using hne) hws

theorem foldl_put_sum {limit cols spare : Nat} (hcols : cols ≤ limit) (hws : ∀ w ∈ ws, w ≤ limit) :
    ∃ n : Nat, cols + ws.sum + (ws.foldl (put limit) (cols, spare)).2 =
      (ws.foldl (put limit) (cols, spare)).1 + spare + n * limit := by
  induction ws generalizing cols spare with
  | nil => exact ⟨0, by simp⟩
  | cons w ws ih =>
    have hw := hws w (List.mem_cons_self ..)
    have hrest : ∀ v ∈ ws, v ≤ limit := fun v hv => hws v (List.mem_cons_of_mem _ hv)
    rw [List.foldl_cons, List.sum_cons]
    by_cases h : cols + w ≤ limit
    · rw [put_fits h]
      obtain ⟨n, hn⟩ := @ih (cols + w) spare h hrest
      exact ⟨n, by omega⟩
    · rw [put_breaks h]
      obtain ⟨n, hn⟩ := @ih w (spare + (limit - cols)) hw hrest
      refine ⟨n + 1, ?_⟩
      rw [Nat.succ_mul]
      omega

/-- The total width is a multiple of the row's exactly when the last row is as full as the rows
before it leave columns unused, up to whole rows. -/
theorem sum_dvd_iff {limit : Nat} (hws : ∀ w ∈ ws, w ≤ limit) :
    ws.sum % limit = 0 ↔ (used limit ws).1 % limit = (used limit ws).2 % limit := by
  obtain ⟨n, hn⟩ := @foldl_put_sum ws limit 0 0 (Nat.zero_le limit) hws
  change 0 + ws.sum + (used limit ws).2 = (used limit ws).1 + 0 + n * limit at hn
  have hmod : ws.sum + (used limit ws).2 ≡ (used limit ws).1 [MOD limit] := by
    unfold Nat.ModEq
    rw [show ws.sum + (used limit ws).2 = (used limit ws).1 + n * limit by omega,
      Nat.add_mul_mod_self_right]
  constructor
  · intro h
    have hzero : ws.sum ≡ 0 [MOD limit] := h
    have := (hzero.add_right (used limit ws).2).symm.trans hmod
    rw [Nat.zero_add] at this
    exact this.symm
  · intro h
    have hback : ws.sum + (used limit ws).2 ≡ 0 + (used limit ws).2 [MOD limit] := by
      rw [Nat.zero_add]
      exact hmod.trans h
    exact Nat.ModEq.add_right_cancel' _ hback

end Filling
end Raoui
