import Mathlib.Algebra.GroupWithZero.Nat
import Mathlib.Data.List.Basic

/-!
# Flat texts

A text with an offset, edited at the offset, and the same text kept as lines. The lines are what a
separator cuts the text into, and the offset is given by a line and a column in it.

* `gap`: a text cut at its offset; each operation has its rule on gaps.
* `ofLines_split`: lines cut at the cursor are a gap.
-/

structure FlatText (α : Type) where
  text : List α
  offset : Nat
  deriving DecidableEq, Repr

namespace FlatText

variable {α : Type}

/-! ## Operations -/

def insert (c : α) (f : FlatText α) : FlatText α :=
  ⟨f.text.take f.offset ++ c :: f.text.drop f.offset, f.offset + 1⟩

/-- Removes what is before the offset, if anything. -/
def backspace (f : FlatText α) : FlatText α :=
  ⟨f.text.take (f.offset - 1) ++ f.text.drop f.offset, f.offset - 1⟩

/-- Removes what is after the offset, if anything. -/
def delete (f : FlatText α) : FlatText α :=
  ⟨f.text.take f.offset ++ f.text.drop (f.offset + 1), f.offset⟩

def left (f : FlatText α) : FlatText α := ⟨f.text, f.offset - 1⟩

def right (f : FlatText α) : FlatText α := ⟨f.text, min (f.offset + 1) f.text.length⟩

section
variable [DecidableEq α] (sep : α)

/-- How far the offset is from the start of its line. -/
def column (f : FlatText α) : Nat :=
  ((f.text.take f.offset).reverse.takeWhile (· ≠ sep)).length

def lineStart (f : FlatText α) : FlatText α := ⟨f.text, f.offset - f.column sep⟩

def lineEnd (f : FlatText α) : FlatText α :=
  ⟨f.text, f.offset + ((f.text.drop f.offset).takeWhile (· ≠ sep)).length⟩

/-- Removes the line up to the offset, or the separator before an empty part. -/
def deleteBefore (f : FlatText α) : FlatText α :=
  if f.column sep = 0 then f.backspace
  else ⟨f.text.take (f.offset - f.column sep) ++ f.text.drop f.offset, f.offset - f.column sep⟩

end

/-! ## Gaps -/

/-- The text `b ++ a` with the offset between the two. -/
def gap (b a : List α) : FlatText α := ⟨b ++ a, b.length⟩

@[simp] theorem gap_text (b a : List α) : (gap b a).text = b ++ a := rfl

@[simp] theorem gap_offset (b a : List α) : (gap b a).offset = b.length := rfl

variable {a b l r : List α} {c : α}

theorem insert_gap : (gap b a).insert c = gap (b ++ [c]) a := by
  simp [insert, gap]

@[simp] theorem backspace_gap_nil : (gap [] a).backspace = gap [] a := by
  simp [backspace, gap]

theorem backspace_gap : (gap (b ++ [c]) a).backspace = gap b a := by
  simp [backspace, gap]

@[simp] theorem delete_gap_nil : (gap b []).delete = gap b [] := by
  simp [delete, gap]

theorem delete_gap : (gap b (c :: a)).delete = gap b a := by
  simp [delete, gap, List.drop_append]

@[simp] theorem left_gap_nil : (gap [] a).left = gap [] a := rfl

theorem left_gap : (gap (b ++ [c]) a).left = gap b (c :: a) := by
  simp [left, gap]

@[simp] theorem right_gap_nil : (gap b []).right = gap b [] := by
  simp [right, gap]

theorem right_gap : (gap b (c :: a)).right = gap (b ++ [c]) a := by
  simp only [right, gap, FlatText.mk.injEq, List.append_assoc, List.singleton_append,
    List.length_append, List.length_cons, List.length_nil, true_and]
  omega

section
variable [DecidableEq α] {sep : α}

/-- A line starts behind the text: at its start, or after a separator. -/
def EndsLine (sep : α) (b : List α) : Prop := b = [] ∨ ∃ b', b = b' ++ [sep]

/-- A line stops before the text: at its end, or before a separator. -/
def StartsLine (sep : α) (a : List α) : Prop := a = [] ∨ ∃ a', a = sep :: a'

theorem takeWhile_line (hl : sep ∉ l) (ha : StartsLine sep a) :
    (l ++ a).takeWhile (· ≠ sep) = l := by
  have hall : ∀ x ∈ l, (decide (x ≠ sep)) = true := by
    intro x hx
    exact decide_eq_true fun h => hl (h ▸ hx)
  rw [List.takeWhile_append_of_pos hall]
  obtain rfl | ⟨a', rfl⟩ := ha
  · simp
  · simp

theorem column_gap (hl : sep ∉ l) (hb : EndsLine sep b) :
    (gap (b ++ l) a).column sep = l.length := by
  have hb' : StartsLine sep b.reverse := by
    obtain rfl | ⟨b', rfl⟩ := hb
    · exact .inl rfl
    · exact .inr ⟨b'.reverse, by simp⟩
  rw [column, gap_text, gap_offset, List.take_left, List.reverse_append,
    takeWhile_line (by simpa using hl) hb', List.length_reverse]

theorem lineStart_gap (hl : sep ∉ l) (hb : EndsLine sep b) :
    (gap (b ++ l) a).lineStart sep = gap b (l ++ a) := by
  rw [lineStart, column_gap hl hb]
  simp [gap]

theorem lineEnd_gap (hr : sep ∉ r) (ha : StartsLine sep a) :
    (gap b (r ++ a)).lineEnd sep = gap (b ++ r) a := by
  rw [lineEnd, gap_text, gap_offset, List.drop_left, takeWhile_line hr ha]
  simp [gap]

theorem deleteBefore_gap_nil (hb : EndsLine sep b) :
    (gap b a).deleteBefore sep = (gap b a).backspace := by
  have hcol := column_gap (a := a) List.not_mem_nil hb
  rw [List.append_nil] at hcol
  exact if_pos hcol

theorem deleteBefore_gap (hne : l ≠ []) (hl : sep ∉ l) (hb : EndsLine sep b) :
    (gap (b ++ l) a).deleteBefore sep = gap b a := by
  have hcol := column_gap (a := a) hl hb
  rw [deleteBefore, hcol, if_neg (by simpa using hne)]
  simp [gap]

end

/-! ## Lines -/

/-- The lines joined by the separator, with the offset of column `col` of line `line`. -/
def ofLines (sep : α) (lines : List (List α)) (line col : Nat) : FlatText α :=
  ⟨[sep].intercalate lines, ((lines.take line).map fun l => l.length + 1).sum + col⟩

/-- The lines above the cursor's, each with the separator after it. -/
def above (sep : α) (ls : List (List α)) : List α := (ls.map (· ++ [sep])).flatten

/-- The lines below the cursor's, each with the separator before it. -/
def below (sep : α) (ls : List (List α)) : List α := (ls.map (sep :: ·)).flatten

variable {sep : α} {ls : List (List α)}

@[simp] theorem above_nil : above sep [] = [] := rfl

@[simp] theorem below_nil : below sep [] = [] := rfl

@[simp] theorem below_cons : below sep (l :: ls) = sep :: (l ++ below sep ls) := rfl

@[simp] theorem above_concat : above sep (ls ++ [l]) = above sep ls ++ l ++ [sep] := by
  simp [above]

theorem endsLine_above : EndsLine sep (above sep ls) := by
  obtain rfl | ⟨ls', l, rfl⟩ := List.eq_nil_or_concat' ls
  · exact .inl rfl
  · exact .inr ⟨_, above_concat⟩

theorem startsLine_below : StartsLine sep (below sep ls) := by
  cases ls with
  | nil => exact .inl rfl
  | cons l ls => exact .inr ⟨_, below_cons⟩

theorem above_length : (above sep ls).length = (ls.map fun l => l.length + 1).sum := by
  induction ls with
  | nil => rfl
  | cons l ls ih =>
    have hcons : above sep (l :: ls) = l ++ [sep] ++ above sep ls := rfl
    rw [hcons, List.length_append, List.length_append, ih, List.map_cons, List.sum_cons]
    rfl

theorem intercalate_cons : [sep].intercalate (l :: ls) = l ++ below sep ls := by
  induction ls generalizing l with
  | nil => simp
  | cons l' ls ih => simp [List.intercalate_cons_cons, ih]

theorem intercalate_split {ls bs : List (List α)} :
    [sep].intercalate (ls ++ l :: bs) = above sep ls ++ l ++ below sep bs := by
  induction ls with
  | nil => exact intercalate_cons
  | cons l' ls ih =>
    have hcons : above sep (l' :: ls) = l' ++ [sep] ++ above sep ls := rfl
    rw [List.cons_append, List.intercalate_cons_of_ne_nil (by simp), ih, hcons]
    simp

/-- Lines cut at the cursor. -/
theorem ofLines_split {bs : List (List α)} :
    ofLines sep (ls ++ (l ++ r) :: bs) ls.length l.length =
      gap (above sep ls ++ l) (r ++ below sep bs) := by
  rw [ofLines, intercalate_split, List.take_left, gap, List.length_append, above_length]
  simp

end FlatText
