import Mathlib.Data.List.Basic

/-!
# Raoui.Lib.WordWrap

Texts of words laid out on lines, over an arbitrary alphabet and an arbitrary test of what fits.

* `words`: the maximal pieces of a text without separators.
* `IsWrap`: as many words on each line as fit, and no line without a word.
* `fill_isWrap`, `IsWrap.unique`: filling line after line gives such a layout, and there is no
  other.
-/

namespace Raoui
namespace WordWrap

variable {α β : Type}

/-! ## Words -/

def words (p : α → Bool) (l : List α) : List (List α) := (l.splitOnP p).filter fun w => !w.isEmpty

variable {p : α → Bool}

@[simp] theorem words_nil : words p [] = [] := by simp [words, List.splitOnP_nil]

theorem words_append_cons (l l' : List α) {a : α} (h : p a = true) :
    words p (l ++ a :: l') = words p l ++ words p l' := by
  rw [words, List.splitOnP_append_cons l l' h, List.filter_append]
  rfl

/-- A text without separators is one word, if it is not empty. -/
theorem words_of_forall {l : List α} (h : ∀ a ∈ l, p a = false) :
    words p l = if l = [] then [] else [l] := by
  rw [words, List.splitOnP_eq_singleton h]
  cases l <;> rfl

/-- Up to its first separator a text is one word. -/
theorem words_cases (l : List α) :
    (∀ a ∈ l, p a = false) ∨ ∃ w a l', l = w ++ a :: l' ∧ (∀ b ∈ w, p b = false) ∧ p a = true := by
  induction l with
  | nil => exact .inl (List.forall_mem_nil _)
  | cons b l ih =>
    cases hb : p b with
    | true => exact .inr ⟨[], b, l, rfl, List.forall_mem_nil _, hb⟩
    | false =>
      obtain h | ⟨w, a, l', rfl, hw, ha⟩ := ih
      · exact .inl (List.forall_mem_cons.mpr ⟨hb, h⟩)
      · exact .inr ⟨b :: w, a, l', rfl, List.forall_mem_cons.mpr ⟨hb, hw⟩, ha⟩

theorem words_induct {motive : List α → Prop} (last : ∀ l, (∀ a ∈ l, p a = false) → motive l)
    (cut : ∀ w a l, (∀ b ∈ w, p b = false) → p a = true → motive l → motive (w ++ a :: l))
    (l : List α) : motive l := by
  induction hn : l.length using Nat.strongRecOn generalizing l with
  | ind n ih =>
    obtain h | ⟨w, a, l', rfl, hw, ha⟩ := words_cases (p := p) l
    · exact last l h
    · refine cut w a l' hw ha (ih l'.length ?_ l' rfl)
      rw [← hn, List.length_append, List.length_cons]
      omega

theorem mem_words {l w : List α} (h : w ∈ words p l) : w ≠ [] ∧ ∀ a ∈ w, p a = false := by
  induction l using words_induct (p := p) with
  | last l hl =>
    rw [words_of_forall hl] at h
    split at h
    · cases h
    · rename_i hne
      rw [List.mem_singleton.mp h]
      exact ⟨hne, hl⟩
  | cut w' a l hw' ha ih =>
    rw [words_append_cons _ _ ha, words_of_forall hw', List.mem_append] at h
    obtain h | h := h
    · split at h
      · cases h
      · rename_i hne
        rw [List.mem_singleton.mp h]
        exact ⟨hne, hw'⟩
    · exact ih h

/-- The words hold everything but the separators. -/
theorem flatten_words (l : List α) : (words p l).flatten = l.filter fun a => !p a := by
  have hword {w : List α} (hw : ∀ a ∈ w, p a = false) :
      (words p w).flatten = w.filter fun a => !p a := by
    rw [words_of_forall hw, List.filter_eq_self.mpr fun a ha => by rw [hw a ha]; rfl]
    split
    · rename_i hnil
      rw [hnil]
      rfl
    · exact List.flatten_singleton
  induction l using words_induct (p := p) with
  | last l hl => exact hword hl
  | cut w a l hw ha ih =>
    rw [words_append_cons _ _ ha, List.flatten_append, hword hw, ih, List.filter_append,
      List.filter_cons_of_neg (by rw [ha]; decide)]

theorem words_map {q : β → Bool} (f : α → β) (hf : ∀ a, q (f a) = p a) (l : List α) :
    words q (l.map f) = (words p l).map (List.map f) := by
  have hword {w : List α} (hw : ∀ a ∈ w, p a = false) :
      words q (w.map f) = (words p w).map (List.map f) := by
    rw [words_of_forall hw, words_of_forall (List.forall_mem_map.mpr fun a ha => by rw [hf, hw a ha])]
    cases w <;> rfl
  induction l using words_induct (p := p) with
  | last l hl => exact hword hl
  | cut w a l hw ha ih =>
    rw [List.map_append, List.map_cons, words_append_cons _ _ (by rw [hf, ha]), hword hw, ih,
      words_append_cons _ _ ha, List.map_append]

/-! ## Lines -/

/-- The words on lines from number `k` on, where `fits i line` says that the words stand together on
line `i`. A word that stands alone need not fit. -/
structure IsWrap (fits : Nat → List α → Prop) (k : Nat) (ws : List α) (lines : List (List α)) :
    Prop where
  flatten : lines.flatten = ws
  line_ne : ∀ line ∈ lines, line ≠ []
  within : ∀ i line, lines[i]? = some line → ∀ start, start <+: line → 2 ≤ start.length →
    fits (k + i) start
  full : ∀ i line w next, lines[i]? = some line → lines[i + 1]? = some (w :: next) →
    ¬ fits (k + i) (line ++ [w])

variable {fits : Nat → List α → Prop}

theorem isWrap_nil (k : Nat) : IsWrap fits k [] [] :=
  ⟨rfl, List.forall_mem_nil _, fun i line h => absurd h (by simp), fun i line w next h => absurd h (by simp)⟩

theorem IsWrap.cons {k : Nat} {line ws : List α} {lines : List (List α)} (hline : line ≠ [])
    (hfits : ∀ start, start <+: line → 2 ≤ start.length → fits k start)
    (hfull : ∀ w next, lines.head? = some (w :: next) → ¬ fits k (line ++ [w]))
    (h : IsWrap fits (k + 1) ws lines) : IsWrap fits k (line ++ ws) (line :: lines) := by
  refine ⟨by rw [List.flatten_cons, h.flatten], List.forall_mem_cons.mpr ⟨hline, h.line_ne⟩, ?_, ?_⟩
  · intro i line' hi
    cases i with
    | zero =>
      cases hi
      exact hfits
    | succ i =>
      rw [show k + (i + 1) = k + 1 + i by omega]
      exact h.within i line' hi
  · intro i line' w next hi hnext
    cases i with
    | zero =>
      cases hi
      rw [List.getElem?_cons_succ, ← List.head?_eq_getElem?] at hnext
      exact hfull w next hnext
    | succ i =>
      rw [show k + (i + 1) = k + 1 + i by omega]
      exact h.full i line' w next hi hnext

theorem IsWrap.tail {k : Nat} {line ws : List α} {lines : List (List α)}
    (h : IsWrap fits k ws (line :: lines)) : IsWrap fits (k + 1) lines.flatten lines := by
  refine ⟨rfl, fun l hl => h.line_ne l (List.mem_cons_of_mem _ hl), ?_, ?_⟩
  · intro i line' hi
    rw [show k + 1 + i = k + (i + 1) by omega]
    exact h.within (i + 1) line' hi
  · intro i line' w next hi hnext
    rw [show k + 1 + i = k + (i + 1) by omega]
    exact h.full (i + 1) line' w next hi hnext

section
variable (fits) [∀ k line, Decidable (fits k line)]

/-- The lines, with `line` begun as line `k`. -/
def fill (k : Nat) (line : List α) : List α → List (List α)
  | [] => [line]
  | w :: ws =>
    if fits k (line ++ [w]) then fill k (line ++ [w]) ws else line :: fill (k + 1) [w] ws

/-- The lines from number `k` on. -/
def wrap (k : Nat) : List α → List (List α)
  | [] => []
  | w :: ws => fill fits k [w] ws

theorem fill_eq_cons (k : Nat) (line ws : List α) :
    ∃ rest lines, fill fits k line ws = (line ++ rest) :: lines := by
  induction ws generalizing line with
  | nil => exact ⟨[], [], by rw [List.append_nil]; rfl⟩
  | cons w ws ih =>
    unfold fill
    split
    · obtain ⟨rest, lines, h⟩ := ih (line ++ [w])
      exact ⟨w :: rest, lines, by rw [h, List.append_assoc]; rfl⟩
    · exact ⟨[], _, by rw [List.append_nil]⟩

variable {fits}

theorem fill_isWrap {k : Nat} {line : List α} (ws : List α) (hline : line ≠ [])
    (hfits : ∀ start, start <+: line → 2 ≤ start.length → fits k start) :
    IsWrap fits k (line ++ ws) (fill fits k line ws) := by
  induction ws generalizing k line with
  | nil =>
    refine .cons hline hfits (fun w next h => ?_) (isWrap_nil _)
    cases h
  | cons w ws ih =>
    unfold fill
    split
    · rename_i hw
      rw [← List.singleton_append, ← List.append_assoc]
      refine ih (List.append_ne_nil_of_right_ne_nil _ (List.cons_ne_nil _ _)) fun start hstart => ?_
      obtain rfl | hstart := List.prefix_concat_iff.mp hstart
      · exact fun _ => hw
      · exact hfits start hstart
    · rename_i hw
      have hnext : IsWrap fits (k + 1) ([w] ++ ws) (fill fits (k + 1) [w] ws) :=
        ih (List.cons_ne_nil _ _) fun start hstart hlen => by
          have := hstart.length_le
          rw [List.length_singleton] at this
          omega
      refine .cons hline hfits (fun w' next h => ?_) hnext
      · obtain ⟨rest, lines, heq⟩ := fill_eq_cons fits (k + 1) [w] ws
        rw [heq] at h
        cases h
        exact hw

theorem wrap_isWrap (k : Nat) (ws : List α) : IsWrap fits k ws (wrap fits k ws) := by
  cases ws with
  | nil => exact isWrap_nil k
  | cons w ws =>
    show IsWrap fits k ([w] ++ ws) (fill fits k [w] ws)
    refine fill_isWrap ws (List.cons_ne_nil _ _) fun start hstart => ?_
    have := hstart.length_le
    rw [List.length_singleton] at this
    omega

/-- There is no other such layout. -/
theorem IsWrap.eq_fill {k : Nat} {line rest ws : List α} {lines : List (List α)}
    (h : IsWrap fits k (line ++ ws) ((line ++ rest) :: lines)) (hline : line ≠ []) :
    (line ++ rest) :: lines = fill fits k line ws := by
  have hflatten : rest ++ lines.flatten = ws := by
    have := h.flatten
    rwa [List.flatten_cons, List.append_assoc, List.append_cancel_left_eq] at this
  induction ws generalizing k line rest lines with
  | nil =>
    obtain ⟨rfl, hlines⟩ := List.append_eq_nil_iff.mp hflatten
    cases lines with
    | nil => rw [List.append_nil, fill]
    | cons next lines =>
      refine absurd ?_ (h.line_ne next (List.mem_cons_of_mem _ List.mem_cons_self))
      exact (List.append_eq_nil_iff.mp hlines).1
  | cons w ws ih =>
    cases rest with
    | nil =>
      cases lines with
      | nil => cases hflatten
      | cons next lines =>
        cases next with
        | nil => exact absurd rfl (h.line_ne [] (List.mem_cons_of_mem _ List.mem_cons_self))
        | cons w' next =>
          rw [List.nil_append, List.flatten_cons, List.cons_append] at hflatten
          obtain ⟨rfl, hrest⟩ := List.cons.inj hflatten
          have hw : ¬ fits k (line ++ [w']) := by
            have := h.full 0 line w' next (by rw [List.append_nil]; rfl) rfl
            exact this
          have htail := h.tail
          rw [List.flatten_cons, List.cons_append, hrest, ← List.singleton_append,
            ← List.singleton_append (l := next)] at htail
          rw [List.append_nil, fill, if_neg hw]
          exact congrArg _ (ih htail (List.cons_ne_nil _ _) hrest)
    | cons w' rest =>
      rw [List.cons_append] at hflatten
      obtain ⟨rfl, hrest⟩ := List.cons.inj hflatten
      have hw : fits k (line ++ [w']) := by
        refine h.within 0 _ rfl (line ++ [w']) ⟨rest, by simp⟩ ?_
        have := List.length_pos_iff.mpr hline
        simp only [List.length_append, List.length_singleton]
        omega
      have happend : line ++ w' :: rest = (line ++ [w']) ++ rest := by simp
      rw [fill, if_pos hw, happend]
      rw [happend, show line ++ w' :: ws = (line ++ [w']) ++ ws by simp] at h
      exact ih h (List.append_ne_nil_of_right_ne_nil _ (List.cons_ne_nil _ _)) hrest

theorem IsWrap.eq_wrap {k : Nat} {ws : List α} {lines : List (List α)}
    (h : IsWrap fits k ws lines) : lines = wrap fits k ws := by
  cases lines with
  | nil =>
    obtain rfl := h.flatten
    rfl
  | cons line lines =>
    cases line with
    | nil => exact absurd rfl (h.line_ne [] List.mem_cons_self)
    | cons w rest =>
      obtain rfl := h.flatten
      rw [List.flatten_cons, List.cons_append, ← List.singleton_append,
        ← List.singleton_append (l := rest)] at h
      exact h.eq_fill (List.cons_ne_nil _ _)

end

theorem IsWrap.unique {k : Nat} {ws : List α} {lines lines' : List (List α)}
    (h : IsWrap fits k ws lines) (h' : IsWrap fits k ws lines') : lines = lines' := by
  classical
  rw [h.eq_wrap, ← h'.eq_wrap]

/-- The layout of words that are told apart by what fits only. -/
theorem IsWrap.map {gits : Nat → List β → Prop} (f : α → β) {k : Nat} {ws : List α}
    {lines : List (List α)} (h : IsWrap fits k ws lines)
    (hf : ∀ k line, gits k (line.map f) ↔ fits k line) :
    IsWrap gits k (ws.map f) (lines.map (List.map f)) := by
  refine ⟨by rw [← List.map_flatten, h.flatten], ?_, ?_, ?_⟩
  · refine List.forall_mem_map.mpr fun line hline hnil => h.line_ne line hline ?_
    exact List.map_eq_nil_iff.mp hnil
  · intro i line' hi start hstart hlen
    rw [List.getElem?_map] at hi
    obtain ⟨line, hline, rfl⟩ := Option.map_eq_some_iff.mp hi
    rw [List.prefix_iff_eq_take.mp hstart, ← List.map_take, hf]
    refine h.within i line hline _ (List.take_prefix _ _) ?_
    have := hstart.length_le
    rw [List.length_map] at this
    rw [List.length_take]
    omega
  · intro i line' w next hi hnext
    rw [List.getElem?_map] at hi hnext
    obtain ⟨line, hline, rfl⟩ := Option.map_eq_some_iff.mp hi
    obtain ⟨second, hsecond, heq⟩ := Option.map_eq_some_iff.mp hnext
    obtain ⟨a, rest, rfl, rfl, rfl⟩ := List.map_eq_cons_iff.mp heq
    rw [show line.map f ++ [f a] = (line ++ [a]).map f by simp, hf]
    exact h.full i line a rest hline hsecond

end WordWrap
end Raoui
