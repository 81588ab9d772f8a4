import Mathlib.Data.List.Basic
import Mathlib.Data.List.TakeWhile

/-!
# Grapheme cluster boundaries

The rules of Unicode text segmentation for extended grapheme clusters, over the classes its
properties put a character in.

* `boundary`: whether there is a boundary before a character, from all that precedes it.
* `boundary_append`: behind a boundary segmentation starts afresh.
* `boundary_control_left`, `boundary_control_right`: a control character is a cluster of its own.
-/

namespace Uax29

/-- The part a nonspacing character has in an Indic conjunct. -/
inductive Conjunct where
  | none
  | extend
  | linker
  deriving DecidableEq

/-- The class of a character: its break property, where the conjunct and pictographic properties
split the classes Extend and Other. -/
inductive Kind where
  | cr
  | lf
  | control
  | extend (conjunct : Conjunct)
  | zwj
  | regionalIndicator
  | prepend
  | spacingMark
  | l
  | v
  | t
  | lv
  | lvt
  | pictographic
  | consonant
  | other
  deriving DecidableEq

namespace Kind

def isControl : Kind → Bool
  | cr | lf | control => true
  | _ => false

def isExtend : Kind → Bool
  | extend _ => true
  | _ => false

def inConjunct : Kind → Bool
  | extend .extend | extend .linker | zwj => true
  | _ => false

/-- The rules that look at two neighbours only: no boundary between them. -/
def joins : Kind → Kind → Bool
  | l, l | l, v | l, lv | l, lvt => true
  | lv, v | lv, t | v, v | v, t => true
  | lvt, t | t, t => true
  | _, extend _ | _, zwj | _, spacingMark => true
  | prepend, _ => true
  | _, _ => false

end Kind

open Kind

/-! The rules that look back further take what precedes with the nearest character first. -/

/-- A consonant and, behind it, the characters of a conjunct with a linker among them. -/
def conjunctOpen (back : List Kind) : Bool :=
  (back.takeWhile inConjunct).any (· = extend .linker) &&
    (back.dropWhile inConjunct).head? = some consonant

/-- A pictograph with its extensions, and a joiner. -/
def emojiOpen : List Kind → Bool
  | zwj :: back => (back.dropWhile isExtend).head? = some pictographic
  | _ => false

/-- An odd number of regional indicators: the last is still without its partner. -/
def flagOpen (back : List Kind) : Bool :=
  (back.takeWhile (· = regionalIndicator)).length % 2 = 1

def boundaryAfter (back : List Kind) (next : Kind) : Bool :=
  match back.head? with
  | none => true
  | some prev =>
    if prev = cr ∧ next = lf then false
    else if prev.isControl || next.isControl then true
    else if prev.joins next then false
    else if next = consonant ∧ conjunctOpen back then false
    else if next = pictographic ∧ emojiOpen back then false
    else if next = regionalIndicator ∧ flagOpen back then false
    else true

/-- Whether there is a boundary before `next`. -/
def boundary (before : List Kind) (next : Kind) : Bool := boundaryAfter before.reverse next

/-! ## Runs -/

section
variable {α : Type} {p : α → Bool} {xs ys : List α}

theorem takeWhile_append_of_not (h : ¬ ∀ a ∈ xs, p a = true) :
    (xs ++ ys).takeWhile p = xs.takeWhile p := by
  rw [List.takeWhile_append, if_neg]
  intro hlen
  refine h fun a ha => ?_
  rw [← (List.takeWhile_prefix p).eq_of_length hlen] at ha
  exact List.mem_takeWhile_imp ha

theorem dropWhile_append_of_not (h : ¬ ∀ a ∈ xs, p a = true) :
    (xs ++ ys).dropWhile p = xs.dropWhile p ++ ys ∧ xs.dropWhile p ≠ [] := by
  have hne : xs.dropWhile p ≠ [] := fun hnil => h (List.dropWhile_eq_nil_iff.mp hnil)
  rw [List.dropWhile_append, if_neg]
  · exact ⟨rfl, hne⟩
  · rwa [List.isEmpty_iff]

theorem head?_dropWhile_append_of_not (h : ¬ ∀ a ∈ xs, p a = true) :
    ((xs ++ ys).dropWhile p).head? = (xs.dropWhile p).head? := by
  obtain ⟨happ, hne⟩ := @dropWhile_append_of_not α p xs ys h
  rw [happ, List.head?_append_of_ne_nil _ hne]

end

/-! ## Starting afresh -/

/-- Behind nothing, or a control character. -/
def Severed (back : List Kind) : Prop := ∀ prev ∈ back.head?, prev.isControl = true

theorem Severed.dropWhile {back : List Kind} {p : Kind → Bool} (h : Severed back)
    (hp : ∀ k, k.isControl = true → p k = false) : back.dropWhile p = back := by
  cases back with
  | nil => rfl
  | cons prev back => exact List.dropWhile_cons_of_neg (by simp [hp prev (h prev rfl)])

theorem Severed.head?_ne {back : List Kind} {k : Kind} (h : Severed back)
    (hk : k.isControl = false) : back.head? ≠ some k := by
  intro hhead
  rw [h k hhead] at hk
  cases hk

/-- A boundary before a character that extends what precedes it is due to a control character. -/
theorem severed_of_boundaryAfter {back : List Kind} {next : Kind}
    (hnext : next.inConjunct = true ∨ next.isExtend = true ∨ next = zwj)
    (h : boundaryAfter back next = true) : Severed back := by
  intro prev hprev
  have hhead : back.head? = some prev := hprev
  have hjoins : prev.joins next = true ∧ next.isControl = false ∧ next ≠ lf := by
    cases next <;> simp_all [inConjunct, isExtend, isControl] <;> cases prev <;> rfl
  rw [boundaryAfter, hhead] at h
  dsimp only at h
  rw [if_neg fun hcr => hjoins.2.2 hcr.2, hjoins.1, hjoins.2.1, Bool.or_false, if_pos rfl] at h
  by_contra hcontrol
  rw [if_neg hcontrol] at h
  cases h

theorem conjunctOpen_append {back far : List Kind}
    (h : (∀ k ∈ back, k.inConjunct = true) → Severed far) :
    conjunctOpen (back ++ far) = conjunctOpen back := by
  by_cases hall : ∀ k ∈ back, k.inConjunct = true
  · have hfar := h hall
    have hclosed : conjunctOpen back = false := by
      rw [conjunctOpen, List.dropWhile_eq_nil_iff.mpr hall, List.head?_nil, Bool.and_eq_false_iff]
      exact .inr rfl
    rw [hclosed, conjunctOpen, List.dropWhile_append_of_pos hall,
      hfar.dropWhile (by intro k; cases k <;> simp [isControl, inConjunct]), Bool.and_eq_false_iff]
    exact .inr (decide_eq_false (hfar.head?_ne rfl))
  · rw [conjunctOpen, conjunctOpen, takeWhile_append_of_not hall,
      head?_dropWhile_append_of_not hall]

theorem emojiOpen_append {back far : List Kind} (hne : back ≠ [])
    (h : (∀ k ∈ back, k.isExtend = true ∨ k = zwj) → Severed far) :
    emojiOpen (back ++ far) = emojiOpen back := by
  cases back with
  | nil => exact absurd rfl hne
  | cons prev back =>
    by_cases hprev : prev = zwj
    · subst hprev
      rw [List.cons_append, emojiOpen, emojiOpen, decide_eq_decide]
      by_cases hall : ∀ k ∈ back, k.isExtend = true
      · have hfar : Severed far := by
          refine h fun k hk => ?_
          obtain rfl | hk := List.mem_cons.mp hk
          · exact .inr rfl
          · exact .inl (hall k hk)
        rw [List.dropWhile_append_of_pos hall, List.dropWhile_eq_nil_iff.mpr hall,
          hfar.dropWhile (by intro k; cases k <;> simp [isControl, isExtend])]
        simp [hfar.head?_ne (show pictographic.isControl = false from rfl)]
      · rw [head?_dropWhile_append_of_not hall]
    · have hclosed : ∀ rest, emojiOpen (prev :: rest) = false := by
        intro rest
        cases prev <;> first | rfl | exact absurd rfl hprev
      rw [List.cons_append, hclosed, hclosed]

theorem flagOpen_append {back far : List Kind}
    (h : (∀ k ∈ back, k = regionalIndicator) → flagOpen far = false) :
    flagOpen (back ++ far) = flagOpen back := by
  by_cases hall : ∀ k ∈ back, decide (k = regionalIndicator) = true
  · have hfar := h fun k hk => of_decide_eq_true (hall k hk)
    rw [flagOpen, decide_eq_false_iff_not] at hfar
    rw [flagOpen, flagOpen, List.takeWhile_append_of_pos hall, List.length_append,
      List.takeWhile_eq_self_iff.mpr hall, decide_eq_decide]
    omega
  · rw [flagOpen, flagOpen, takeWhile_append_of_not hall]

/-- Before a regional indicator there is no boundary when one is still without its partner. -/
theorem flagOpen_of_boundaryAfter {back : List Kind}
    (h : boundaryAfter back regionalIndicator = true) : flagOpen back = false := by
  cases back with
  | nil => rfl
  | cons prev back =>
    by_cases hprev : prev = regionalIndicator
    · subst hprev
      by_contra hopen
      rw [Bool.not_eq_false] at hopen
      rw [boundaryAfter] at h
      simp [isControl, joins, hopen] at h
    · rw [flagOpen, List.takeWhile_cons_of_neg (by simpa using hprev)]
      rfl

theorem boundaryAfter_append {back far : List Kind} {first next : Kind}
    (hfirst : back.getLast? = some first) (h : boundaryAfter far first = true) :
    boundaryAfter (back ++ far) next = boundaryAfter back next := by
  have hmem := List.mem_of_getLast? hfirst
  have hne : back ≠ [] := List.ne_nil_of_mem hmem
  have hconjunct := @conjunctOpen_append back far fun hall =>
    severed_of_boundaryAfter (.inl (hall first hmem)) h
  have hemoji := @emojiOpen_append back far hne fun hall =>
    severed_of_boundaryAfter (.inr (hall first hmem)) h
  have hflag := @flagOpen_append back far fun hall =>
    flagOpen_of_boundaryAfter (hall first hmem ▸ h)
  rw [boundaryAfter, boundaryAfter, List.head?_append_of_ne_nil _ hne, hconjunct, hemoji, hflag]

/-- What precedes a boundary has no part in the boundaries behind the character after it. -/
theorem boundary_append {before after : List Kind} {first next : Kind}
    (hfirst : after.head? = some first) (h : boundary before first = true) :
    boundary (before ++ after) next = boundary after next := by
  rw [boundary, boundary, List.reverse_append]
  exact boundaryAfter_append (by rw [List.getLast?_reverse, hfirst]) h

/-! ## Control characters -/

theorem boundary_control_right {before : List Kind} {next : Kind} (hnext : next.isControl = true)
    (hlf : next ≠ lf) : boundary before next = true := by
  rw [boundary, boundaryAfter]
  cases before.reverse.head? with
  | none => rfl
  | some prev =>
    dsimp only
    rw [if_neg fun h => hlf h.2, if_pos (by rw [hnext, Bool.or_true])]

theorem boundary_control_left {before : List Kind} {prev next : Kind}
    (hprev : prev.isControl = true) (hcr : prev ≠ cr) : boundary (before ++ [prev]) next = true := by
  rw [boundary, boundaryAfter, List.reverse_append, List.reverse_singleton]
  dsimp only [List.singleton_append, List.head?_cons]
  rw [if_neg fun h => hcr h.1, if_pos (by rw [hprev, Bool.true_or])]

end Uax29
