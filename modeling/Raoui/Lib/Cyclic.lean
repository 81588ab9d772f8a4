import Mathlib.Data.List.Basic

/-!
# Cyclic buffers

A list used as a circular store. `window buf start n` is the run of `n` cells read from `start`
onwards, wrapping past the end; `copyIn` writes a run of cells the way two `memcpy` calls do and
`copyOut` reads one the same way. The lemmas say that reading is taking a window, that a write
is read back, and that a write leaves the cells of every window it does not overlap alone.
-/

namespace Cyclic

variable {α : Type}

/-- `memcpy` of `src` over `dst` at offset `off`. -/
def blit (dst : List α) (off : Nat) (src : List α) : List α :=
  dst.take off ++ src ++ dst.drop (off + src.length)

/-- Write `src` at `pos`, in two pieces when it runs past the end. -/
def copyIn (buf : List α) (pos : Nat) (src : List α) : List α :=
  let first := buf.length - pos
  if first ≥ src.length then blit buf pos src
  else blit (blit buf pos (src.take first)) 0 (src.drop first)

/-- Read `n` cells at `pos`, in two pieces when they run past the end. -/
def copyOut (buf : List α) (pos n : Nat) : List α :=
  let first := buf.length - pos
  if first ≥ n then (buf.drop pos).take n
  else (buf.drop pos).take first ++ buf.take (n - first)

@[simp] theorem blit_length {dst src : List α} {off : Nat} (h : off + src.length ≤ dst.length) :
    (blit dst off src).length = dst.length := by
  simp [blit]; omega

@[simp] theorem copyIn_length {buf src : List α} {pos : Nat} (hpos : pos < buf.length)
    (hn : src.length ≤ buf.length) : (copyIn buf pos src).length = buf.length := by
  simp only [copyIn]
  split
  · exact blit_length (by omega)
  · have hlen : (blit buf pos (src.take (buf.length - pos))).length = buf.length :=
      blit_length (by simp; omega)
    rw [blit_length (by rw [hlen]; simp; omega), hlen]

variable [Inhabited α]

/-- The cell at distance `i` from `start`, going round. -/
def cell (buf : List α) (start i : Nat) : α := buf.getD ((start + i) % buf.length) default

def window (buf : List α) (start n : Nat) : List α := (List.range n).map (cell buf start)

@[simp] theorem window_length (buf : List α) (start n : Nat) :
    (window buf start n).length = n := by simp [window]

@[simp] theorem window_zero (buf : List α) (start : Nat) : window buf start 0 = [] := rfl

theorem getElem_window (buf : List α) (start n i : Nat) (h : i < (window buf start n).length) :
    (window buf start n)[i] = cell buf start i := by simp [window]

theorem wrap_eq {n : Nat} {a b : Nat} (ha : a < n) (hb : b ≤ n) :
    (a + b) % n = if a + b < n then a + b else a + b - n := by
  split
  · rename_i h; exact Nat.mod_eq_of_lt h
  · rename_i h
    rw [Nat.mod_eq_sub_mod (by omega), Nat.mod_eq_of_lt (by omega)]

theorem cell_shift (buf : List α) (start m i : Nat) :
    cell buf ((start + m) % buf.length) i = cell buf start (m + i) := by
  simp [cell, Nat.add_assoc]

theorem window_append (buf : List α) (start m n : Nat) :
    window buf start (m + n) =
      window buf start m ++ window buf ((start + m) % buf.length) n := by
  simp only [window, List.range_add, List.map_append, List.map_map]
  congr 1
  apply List.map_congr_left
  intro i _
  exact (cell_shift buf start m i).symm

theorem window_take (buf : List α) (start : Nat) {m n : Nat} (h : m ≤ n) :
    (window buf start n).take m = window buf start m := by
  obtain ⟨k, rfl⟩ := Nat.exists_eq_add_of_le h
  rw [window_append, List.take_left' (window_length ..)]

theorem window_drop (buf : List α) (start : Nat) {m n : Nat} (h : m ≤ n) :
    (window buf start n).drop m = window buf ((start + m) % buf.length) (n - m) := by
  obtain ⟨k, rfl⟩ := Nat.exists_eq_add_of_le h
  rw [window_append, List.drop_left' (window_length ..), Nat.add_sub_cancel_left]

theorem getD_blit {dst src : List α} {off : Nat} (h : off + src.length ≤ dst.length) (k : Nat) :
    (blit dst off src).getD k default =
      if off ≤ k ∧ k < off + src.length then src.getD (k - off) default
      else dst.getD k default := by
  have hoff : (dst.take off).length = off := by simp; omega
  simp only [blit, List.getD_eq_getElem?_getD, List.append_assoc]
  by_cases h1 : k < off
  · rw [List.getElem?_append_left (by omega), if_neg (by omega), List.getElem?_take_of_lt h1]
  · rw [List.getElem?_append_right (by omega), hoff]
    by_cases h2 : k - off < src.length
    · rw [List.getElem?_append_left h2, if_pos (by omega)]
    · rw [List.getElem?_append_right (by omega), if_neg (by omega), List.getElem?_drop]
      congr 2; omega

/-- Where a write at `pos` puts its cells: cell `k` gets `src[i]` when `k` is `i` steps past
`pos`, and keeps its value when no such `i` exists. -/
theorem getD_copyIn {buf src : List α} {pos : Nat} (hpos : pos < buf.length)
    (hn : src.length ≤ buf.length) {k : Nat} (hk : k < buf.length) :
    (copyIn buf pos src).getD k default =
      let i := if pos ≤ k then k - pos else k + buf.length - pos
      if i < src.length then src.getD i default else buf.getD k default := by
  simp only [copyIn]
  by_cases hfit : buf.length - pos ≥ src.length
  · rw [if_pos hfit, getD_blit (by omega)]
    by_cases hle : pos ≤ k
    · simp only [hle, if_true, true_and]
      by_cases hlt : k < pos + src.length
      · rw [if_pos hlt, if_pos (by omega)]
      · rw [if_neg hlt, if_neg (by omega)]
    · simp only [hle, if_false, false_and]
      rw [if_neg (by omega)]
  · rw [if_neg hfit]
    have hlen : (blit buf pos (src.take (buf.length - pos))).length = buf.length :=
      blit_length (by simp; omega)
    rw [getD_blit (by rw [hlen]; simp; omega), getD_blit (by simp; omega)]
    simp only [List.length_drop, List.length_take, Nat.zero_le, true_and, Nat.zero_add,
      Nat.sub_zero]
    by_cases hle : pos ≤ k
    · simp only [hle, if_true, true_and]
      rw [if_neg (by omega), if_pos (by omega), if_pos (by omega)]
      simp only [List.getD_eq_getElem?_getD]
      rw [List.getElem?_take_of_lt (by omega)]
    · simp only [hle, if_false, false_and]
      by_cases hlt : k < src.length - (buf.length - pos)
      · rw [if_pos hlt, if_pos (by omega)]
        simp only [List.getD_eq_getElem?_getD, List.getElem?_drop]
        congr 2; omega
      · rw [if_neg hlt, if_neg (by omega)]

/-- The distance from `pos` to `k`, going round, is a difference of distances from `start`. -/
theorem ahead_wrap {n start m i : Nat} (hs : start < n) (hm : m ≤ n) (hi : i < n) :
    let pos := (start + m) % n
    let k := (start + i) % n
    (if pos ≤ k then k - pos else k + n - pos) = if m ≤ i then i - m else i + n - m := by
  simp only [wrap_eq hs hm, wrap_eq hs (Nat.le_of_lt hi)]
  split_ifs <;> omega

theorem cell_copyIn {buf src : List α} {start m : Nat} (hs : start < buf.length)
    (hn : m + src.length ≤ buf.length) {i : Nat} (hi : i < buf.length) :
    cell (copyIn buf ((start + m) % buf.length) src) start i =
      if m ≤ i ∧ i < m + src.length then src.getD (i - m) default else cell buf start i := by
  have hpos : (start + m) % buf.length < buf.length := Nat.mod_lt _ (by omega)
  have hk : (start + i) % buf.length < buf.length := Nat.mod_lt _ (by omega)
  rw [cell, copyIn_length hpos (by omega), getD_copyIn hpos (by omega) hk]
  have key := ahead_wrap hs (by omega : m ≤ buf.length) hi
  simp only at key ⊢
  rw [key]
  by_cases hmi : m ≤ i
  · by_cases hlt : i < m + src.length
    · rw [if_pos hmi, if_pos (by omega), if_pos ⟨hmi, hlt⟩]
    · rw [if_pos hmi, if_neg (by omega), if_neg (by omega), cell]
  · rw [if_neg hmi, if_neg (by omega), if_neg (by omega), cell]

/-- Appending at the end of a window: the old cells stay, the new ones follow. -/
theorem window_copyIn {buf src : List α} {start m : Nat} (hs : start < buf.length)
    (hn : m + src.length ≤ buf.length) :
    window (copyIn buf ((start + m) % buf.length) src) start (m + src.length) =
      window buf start m ++ src := by
  apply List.ext_getElem (by simp)
  intro i h1 h2
  simp only [window_length] at h1
  rw [getElem_window, cell_copyIn hs hn (by omega)]
  by_cases hi : i < m
  · rw [if_neg (by omega), List.getElem_append_left (by simpa using hi), getElem_window]
  · rw [if_pos (by omega), List.getElem_append_right (by simpa using hi)]
    simp [List.getD_eq_getElem?_getD, List.getElem?_eq_getElem (show i - m < src.length by omega)]

theorem getElem?_window (buf : List α) (start n i : Nat) :
    (window buf start n)[i]? = if i < n then some (cell buf start i) else none := by
  by_cases h : i < n <;> simp [window, h]

theorem getElem?_eq_getD {l : List α} {i : Nat} (h : i < l.length) :
    l[i]? = some (l.getD i default) := by
  simp [List.getD_eq_getElem?_getD, List.getElem?_eq_getElem h]

/-- Reading `n` cells in at most two pieces is taking the window. -/
theorem copyOut_eq_window {buf : List α} {pos n : Nat} (hpos : pos < buf.length)
    (hn : n ≤ buf.length) : copyOut buf pos n = window buf pos n := by
  apply List.ext_getElem?
  intro i
  rw [getElem?_window]
  by_cases hi : i < n
  · rw [if_pos hi, cell, wrap_eq hpos (by omega)]
    by_cases hin : i < buf.length - pos
    · rw [if_pos (by omega), ← getElem?_eq_getD (by omega)]
      simp only [copyOut]
      split
      · rw [List.getElem?_take_of_lt hi, List.getElem?_drop]
      · rw [List.getElem?_append_left (by simp; omega), List.getElem?_take_of_lt hin,
          List.getElem?_drop]
    · rw [if_neg (by omega), ← getElem?_eq_getD (by omega)]
      simp only [copyOut]
      rw [if_neg (by omega), List.getElem?_append_right (by simp; omega),
        List.getElem?_take_of_lt (by simp; omega)]
      congr 1; simp; omega
  · rw [if_neg hi, List.getElem?_eq_none]
    simp only [copyOut]; split <;> simp <;> omega

end Cyclic
