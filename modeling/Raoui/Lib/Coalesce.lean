/-!
# Coalescing

Neighbours of a list that a partial `join` can put together, put together greedily from the right.

* `Lawful`: joining three in a row works or fails alike in both orders.
* `coalesce_append`: what was coalesced piecemeal coalesces to the same list, so the grouping does
  not matter.
* `invariant_congr`: what joining does not change is the same for lists that coalesce alike.
-/

namespace Coalesce

variable {α : Type} (join : α → α → Option α)

def push (x : α) : List α → List α
  | [] => [x]
  | y :: ys =>
    match join x y with
    | some z => z :: ys
    | none => x :: y :: ys

def coalesce : List α → List α
  | [] => []
  | x :: xs => push join x (coalesce xs)

structure Lawful : Prop where
  assoc : ∀ {a b c ab bc}, join a b = some ab → join b c = some bc →
    ∃ abc, join a bc = some abc ∧ join ab c = some abc
  apart : ∀ {a b c ab}, join a b = some ab → join b c = none → join ab c = none

variable {join}

@[simp] theorem coalesce_nil : coalesce join [] = [] := rfl

@[simp] theorem coalesce_cons (x : α) (xs : List α) :
    coalesce join (x :: xs) = push join x (coalesce join xs) := rfl

theorem push_of_some {x y z : α} (h : join x y = some z) (ys : List α) :
    push join x (y :: ys) = z :: ys := by
  simp only [push, h]

theorem push_of_none {x y : α} (h : join x y = none) (ys : List α) :
    push join x (y :: ys) = x :: y :: ys := by
  simp only [push, h]

/-- Pushing two that join is pushing what they join to. -/
theorem push_push (hlaw : Lawful join) {x y z : α} (h : join x y = some z) (l : List α) :
    push join x (push join y l) = push join z l := by
  cases l with
  | nil => exact push_of_some h []
  | cons c l =>
    cases hyc : join y c with
    | some d =>
      obtain ⟨e, hxd, hzc⟩ := hlaw.assoc h hyc
      rw [push_of_some hyc, push_of_some hxd, push_of_some hzc]
    | none => rw [push_of_none hyc, push_of_some h, push_of_none (hlaw.apart h hyc)]

theorem coalesce_join (hlaw : Lawful join) {x y z : α} (h : join x y = some z) (pre post : List α) :
    coalesce join (pre ++ x :: y :: post) = coalesce join (pre ++ z :: post) := by
  induction pre with
  | nil => exact push_push hlaw h _
  | cons a pre ih => simp only [List.cons_append, coalesce_cons, ih]

theorem coalesce_push_append (hlaw : Lawful join) (x : α) (l zs : List α) :
    coalesce join (push join x l ++ zs) = push join x (coalesce join (l ++ zs)) := by
  cases l with
  | nil => rfl
  | cons y l =>
    cases h : join x y with
    | some z => rw [push_of_some h, List.cons_append, List.cons_append, coalesce_cons, coalesce_cons,
        push_push hlaw h]
    | none => rw [push_of_none h]; rfl

theorem coalesce_append (hlaw : Lawful join) (xs zs : List α) :
    coalesce join (coalesce join xs ++ zs) = coalesce join (xs ++ zs) := by
  induction xs with
  | nil => rfl
  | cons x xs ih => rw [coalesce_cons, coalesce_push_append hlaw, ih, List.cons_append, coalesce_cons]

/-- Lists that coalesce alike still do after more is appended to both. -/
theorem append_congr (hlaw : Lawful join) {xs ys : List α}
    (h : coalesce join xs = coalesce join ys) (zs : List α) :
    coalesce join (xs ++ zs) = coalesce join (ys ++ zs) := by
  rw [← coalesce_append hlaw xs, h, coalesce_append hlaw]

/-- What joining two neighbours does not change, coalescing does not change. -/
theorem coalesce_invariant {β : Type} {F : List α → β}
    (hF : ∀ {x y z}, join x y = some z → ∀ pre post, F (pre ++ z :: post) = F (pre ++ x :: y :: post))
    (pre xs : List α) : F (pre ++ coalesce join xs) = F (pre ++ xs) := by
  induction xs generalizing pre with
  | nil => rfl
  | cons x xs ih =>
    have hx : F (pre ++ x :: coalesce join xs) = F (pre ++ x :: xs) := by
      have := ih (pre ++ [x])
      simpa using this
    rw [coalesce_cons, ← hx]
    cases hc : coalesce join xs with
    | nil => rfl
    | cons y ys =>
      cases hj : join x y with
      | some z => rw [push_of_some hj, hF hj]
      | none => rw [push_of_none hj]

theorem invariant_congr {β : Type} {F : List α → β}
    (hF : ∀ {x y z}, join x y = some z → ∀ pre post, F (pre ++ z :: post) = F (pre ++ x :: y :: post))
    {xs ys : List α} (h : coalesce join xs = coalesce join ys) : F xs = F ys :=
  calc F xs = F (coalesce join xs) := (coalesce_invariant hF [] xs).symm
    _ = F (coalesce join ys) := by rw [h]
    _ = F ys := coalesce_invariant hF [] ys

end Coalesce
