import Mathlib.Data.List.Forall2
import Mathlib.Data.List.Infix

/-!
# LIKE patterns

The matcher of SQL's `LIKE` over any alphabet, and the patterns that look for a text literally.

* `like_escaped`: an escaped text matches just the texts that are the same character by character.
* `like_contains`, `like_contains_map`: between two wildcards it matches the texts it occurs in.
-/

namespace Like

/-- The characters with a meaning of their own, and which characters count as the same. -/
structure Wildcards (α : Type*) where
  any : α
  one : α
  escape : α
  same : α → α → Bool
  any_ne_escape : any ≠ escape

variable {α : Type*} [DecidableEq α] (w : Wildcards α)

/-- Pattern and text. An escape at the end of the pattern matches nothing. -/
def like : List α → List α → Bool
  | [], s => s.isEmpty
  | p :: ps, s =>
    if p = w.any then s.tails.any (like ps)
    else if p = w.escape then
      match ps, s with
      | q :: ps, c :: s => w.same q c && like ps s
      | _, _ => false
    else
      match s with
      | [] => false
      | c :: s => (w.same p c || p = w.one) && like ps s

/-- With an escape in front of each character that has a meaning of its own. -/
def escaped (k : List α) : List α :=
  k.flatMap fun c => if c = w.escape ∨ c = w.any ∨ c = w.one then [w.escape, c] else [c]

variable {w} {k ps s : List α}

theorem like_any : like w (w.any :: ps) s = true ↔ ∃ u v, s = u ++ v ∧ like w ps v = true := by
  rw [like.eq_def]
  dsimp only
  rw [if_pos rfl, List.any_eq_true]
  constructor
  · rintro ⟨v, hv, hlike⟩
    obtain ⟨u, rfl⟩ := (List.mem_tails _ _).mp hv
    exact ⟨u, v, rfl, hlike⟩
  · rintro ⟨u, v, rfl, hlike⟩
    exact ⟨v, (List.mem_tails _ _).mpr (List.suffix_append u v), hlike⟩

theorem like_any_nil : like w [w.any] s = true := by
  rw [like_any]
  exact ⟨s, [], (List.append_nil s).symm, rfl⟩

/-- An escaped character takes one character of the text, and that is the same. -/
theorem like_escaped_cons (c : α) :
    like w (escaped w [c] ++ ps) s = true ↔ ∃ d v, s = d :: v ∧ w.same c d = true ∧
      like w ps v = true := by
  have hsame : ∀ d v, (w.same c d && like w ps v) = true ↔ ∃ d' v', d :: v = d' :: v' ∧
      w.same c d' = true ∧ like w ps v' = true := by
    intro d v
    rw [Bool.and_eq_true]
    constructor
    · intro h
      exact ⟨d, v, rfl, h⟩
    · rintro ⟨_, _, heq, h⟩
      cases heq
      exact h
  have hnil : ¬ ∃ d v, ([] : List α) = d :: v ∧ w.same c d = true ∧ like w ps v = true := by
    rintro ⟨_, _, heq, -⟩
    cases heq
  rw [escaped, List.flatMap_singleton]
  split
  · rw [List.cons_append, like.eq_def]
    dsimp only
    rw [if_neg w.any_ne_escape.symm, if_pos rfl]
    cases s with
    | nil => exact iff_of_false Bool.false_ne_true hnil
    | cons d v => exact hsame d v
  · rename_i hplain
    rw [not_or, not_or] at hplain
    obtain ⟨hescape, hany, hone⟩ := hplain
    rw [List.cons_append, List.nil_append, like.eq_def]
    dsimp only
    rw [if_neg hany, if_neg hescape]
    cases s with
    | nil => exact iff_of_false Bool.false_ne_true hnil
    | cons d v =>
      dsimp only
      rw [decide_eq_false hone, Bool.or_false]
      exact hsame d v

theorem escaped_cons (c : α) : escaped w (c :: k) = escaped w [c] ++ escaped w k := by
  rw [escaped, List.flatMap_cons, escaped, List.flatMap_singleton]
  rfl

theorem like_escaped : like w (escaped w k ++ ps) s = true ↔
    ∃ u v, s = u ++ v ∧ List.Forall₂ (fun c d => w.same c d = true) k u ∧ like w ps v = true := by
  induction k generalizing s with
  | nil =>
    constructor
    · intro h
      exact ⟨[], s, rfl, .nil, h⟩
    · rintro ⟨_, v, rfl, hnil, h⟩
      cases hnil
      exact h
  | cons c k ih =>
    rw [escaped_cons, List.append_assoc, like_escaped_cons]
    constructor
    · rintro ⟨d, v, rfl, hsame, h⟩
      obtain ⟨u, v, rfl, hall, h⟩ := ih.mp h
      exact ⟨d :: u, v, rfl, .cons hsame hall, h⟩
    · rintro ⟨_, v, rfl, hall, h⟩
      cases hall with
      | @cons _ d _ u hsame hall => exact ⟨d, u ++ v, rfl, hsame, ih.mpr ⟨u, v, rfl, hall, h⟩⟩

/-- No character of the text looked for acts as a wildcard. -/
theorem like_contains : like w (w.any :: escaped w k ++ [w.any]) s = true ↔
    ∃ u v x, s = u ++ v ++ x ∧ List.Forall₂ (fun c d => w.same c d = true) k v := by
  rw [List.cons_append, like_any]
  constructor
  · rintro ⟨u, _, rfl, h⟩
    obtain ⟨v, x, rfl, hall, -⟩ := like_escaped.mp h
    exact ⟨u, v, x, (List.append_assoc u v x).symm, hall⟩
  · rintro ⟨u, v, x, rfl, hall⟩
    exact ⟨u, v ++ x, List.append_assoc u v x, like_escaped.mpr ⟨v, x, rfl, hall, like_any_nil⟩⟩

/-- Where characters are the same that a function sends to the same value. -/
theorem like_contains_map {β : Type*} {f : α → β} (hf : ∀ c d, w.same c d = true ↔ f c = f d) :
    like w (w.any :: escaped w k ++ [w.any]) s = true ↔ k.map f <:+: s.map f := by
  have hall : ∀ v : List α, List.Forall₂ (fun c d => w.same c d = true) k v ↔ v.map f = k.map f := by
    intro v
    simp only [hf]
    rw [eq_comm, ← List.forall₂_eq_eq_eq, List.forall₂_map_left_iff, List.forall₂_map_right_iff]
  rw [like_contains]
  simp only [hall]
  constructor
  · rintro ⟨u, v, x, rfl, hv⟩
    exact ⟨u.map f, x.map f, by rw [List.map_append, List.map_append, hv]⟩
  · rintro ⟨u, x, heq⟩
    obtain ⟨uv, x', rfl, huv, -⟩ := List.map_eq_append_iff.mp heq.symm
    obtain ⟨u', v, rfl, -, hv⟩ := List.map_eq_append_iff.mp huv
    exact ⟨u', v, x', rfl, hv⟩

end Like
