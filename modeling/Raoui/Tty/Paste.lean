import Raoui.Tty.Listener

/-!
# Raoui.Tty.Paste

`read_bracketed_paste` in `lib/tty_listener.ml`, on an input that ends with the end of the file.

* `decode_paste`: it is what the reader of keys does behind `ESC[200~`.
* `readBracketedPaste_iff`: when a pasted text comes back as it was sent. `check_end` takes the byte
  that does not fit for text without looking whether an end marker starts there.
-/

namespace Raoui
namespace Tty

mutual

/-- The text and what is left unread. -/
def pasteLoop (buf : Bytes) : Bytes → Bytes × Bytes
  | [] => (buf, [])
  | c :: rest => if c = 27 then checkEnd buf [27] rest else pasteLoop (buf ++ [c]) rest
termination_by s => (s.length, 0)

def checkEnd (buf acc s : Bytes) : Bytes × Bytes :=
  if acc = pasteExpected then (buf, s)
  else if acc.length ≥ 6 then pasteLoop (buf ++ acc) s
  else
    match s with
    | [] => (buf ++ acc, [])
    | c :: rest =>
      let next := acc ++ [c]
      if pasteExpected[acc.length]? = some c then checkEnd buf next rest
      else pasteLoop (buf ++ next) rest
termination_by (s.length, 1)

end

def readBracketedPaste (s : Bytes) : Bytes × Bytes := pasteLoop [] s

/-- A piece of the end marker that `check_end` can be left holding. -/
def MarkerPiece (acc : Bytes) : Prop := ∃ n, 0 < n ∧ n < 6 ∧ acc = pasteExpected.take n

/-- The pieces of the end marker at the end of a text that is given from its last byte on. -/
def piecesBack : Bytes → Nat
  | 27 :: s => piecesBack s + 1
  | 91 :: 27 :: s => piecesBack s + 1
  | 50 :: 91 :: 27 :: s => piecesBack s + 1
  | 48 :: 50 :: 91 :: 27 :: s => piecesBack s + 1
  | 49 :: 48 :: 50 :: 91 :: 27 :: s => piecesBack s + 1
  | _ => 0

/-- How many pieces of the end marker, none of them whole, the text ends with, one behind the
other. -/
def trailingPieces (s : Bytes) : Nat := piecesBack s.reverse

theorem markerPiece_cases {acc : Bytes} (h : MarkerPiece acc) :
    acc = [27] ∨ acc = [27, 91] ∨ acc = [27, 91, 50] ∨ acc = [27, 91, 50, 48] ∨
      acc = [27, 91, 50, 48, 49] := by
  obtain ⟨n, hpos, hlt, rfl⟩ := h
  have hn : n = 1 ∨ n = 2 ∨ n = 3 ∨ n = 4 ∨ n = 5 := by omega
  obtain rfl | rfl | rfl | rfl | rfl := hn <;> simp [pasteExpected]

theorem markerPiece_escape : MarkerPiece [27] := ⟨1, by decide, by decide, rfl⟩

theorem trailingPieces_append {acc : Bytes} (q : Bytes) (h : MarkerPiece acc) :
    trailingPieces (q ++ acc) = trailingPieces q + 1 := by
  obtain rfl | rfl | rfl | rfl | rfl := markerPiece_cases h <;>
    simp [trailingPieces, piecesBack]

/-- A text ends with such a piece or counts none. -/
theorem trailingPieces_cases (s : Bytes) :
    trailingPieces s = 0 ∨ ∃ q acc, s = q ++ acc ∧ MarkerPiece acc := by
  rw [trailingPieces]
  generalize hr : s.reverse = r
  have hs : s = r.reverse := by rw [← hr, List.reverse_reverse]
  subst hs
  fun_cases piecesBack r with
  | case1 t => exact .inr ⟨t.reverse, [27], by simp, 1, by decide, by decide, rfl⟩
  | case2 t => exact .inr ⟨t.reverse, [27, 91], by simp, 2, by decide, by decide, rfl⟩
  | case3 t => exact .inr ⟨t.reverse, [27, 91, 50], by simp, 3, by decide, by decide, rfl⟩
  | case4 t => exact .inr ⟨t.reverse, [27, 91, 50, 48], by simp, 4, by decide, by decide, rfl⟩
  | case5 t => exact .inr ⟨t.reverse, [27, 91, 50, 48, 49], by simp, 5, by decide, by decide, rfl⟩
  | case6 => exact .inl rfl

theorem MarkerPiece.eq_cons {acc : Bytes} (h : MarkerPiece acc) : ∃ t, acc = 27 :: t ∧ 27 ∉ t := by
  obtain rfl | rfl | rfl | rfl | rfl := markerPiece_cases h <;> exact ⟨_, rfl, by decide⟩

/-- An Escape stands only at the front of a piece, so a text ends with one piece at most. -/
theorem markerPiece_unique {q q' acc acc' : Bytes} (h : MarkerPiece acc) (h' : MarkerPiece acc')
    (heq : q ++ acc = q' ++ acc') : q = q' ∧ acc = acc' := by
  obtain ⟨t, rfl, ht⟩ := h.eq_cons
  obtain ⟨t', rfl, ht'⟩ := h'.eq_cons
  obtain ⟨a, rfl, ha⟩ | ⟨a, rfl, ha⟩ := List.append_eq_append_iff.mp heq
  · cases a with
    | nil => exact ⟨(List.append_nil q).symm, ha⟩
    | cons b a =>
      rw [List.cons_append, List.cons.injEq] at ha
      exact absurd (ha.2 ▸ List.mem_append_right a List.mem_cons_self) ht
  · cases a with
    | nil => exact ⟨List.append_nil q', ha.symm⟩
    | cons b a =>
      rw [List.cons_append, List.cons.injEq] at ha
      exact absurd (ha.2 ▸ List.mem_append_right a List.mem_cons_self) ht'

/-- The byte that makes the piece longer. -/
def Fits (acc : Bytes) (c : UInt8) : Prop := pasteExpected[acc.length]? = some c

instance (acc : Bytes) (c : UInt8) : Decidable (Fits acc c) :=
  inferInstanceAs (Decidable (pasteExpected[acc.length]? = some c))

theorem length_take_expected {n : Nat} (h : n ≤ 6) : (pasteExpected.take n).length = n := by
  rw [List.length_take]
  exact Nat.min_eq_left h

theorem markerPiece_snoc {acc : Bytes} {c : UInt8} (h : MarkerPiece acc) (hc : Fits acc c) :
    MarkerPiece (acc ++ [c]) ∨ acc ++ [c] = pasteExpected := by
  obtain ⟨n, hpos, hlt, rfl⟩ := h
  rw [Fits, length_take_expected (Nat.le_of_lt hlt)] at hc
  have hnext : pasteExpected.take n ++ [c] = pasteExpected.take (n + 1) := by
    rw [List.take_add_one, hc]
    rfl
  rw [hnext]
  by_cases h5 : n + 1 < 6
  · exact .inl ⟨n + 1, by omega, h5, rfl⟩
  · exact .inr (List.take_of_length_le (Nat.le_of_not_lt h5))

/-- A byte that is no Escape ends a piece only by fitting the piece before it. -/
theorem markerPiece_of_snoc {p q acc : Bytes} {c : UInt8} (h : MarkerPiece acc) (hc : c ≠ 27)
    (heq : p ++ [c] = q ++ acc) : ∃ acc', p = q ++ acc' ∧ MarkerPiece acc' ∧ Fits acc' c := by
  obtain ⟨n, hpos, hlt, rfl⟩ := h
  obtain ⟨m, rfl⟩ : ∃ m, n = m + 1 := ⟨n - 1, by omega⟩
  have hm : m < pasteExpected.length := Nat.lt_of_succ_lt hlt
  rw [List.take_succ_eq_append_getElem hm, ← List.append_assoc] at heq
  obtain ⟨hp, hlast⟩ := List.append_inj' heq rfl
  have hlast : c = pasteExpected[m] := List.head_eq_of_cons_eq hlast
  have hpos : m ≠ 0 := by
    rintro rfl
    exact hc hlast
  refine ⟨pasteExpected.take m, hp, ⟨m, Nat.pos_of_ne_zero hpos, by omega, rfl⟩, ?_⟩
  rw [Fits, length_take_expected (by omega), hlast]
  exact List.getElem?_eq_getElem hm

section Runs

variable {buf acc s : Bytes} {c : UInt8}

theorem pasteLoop_text (hc : c ≠ 27) : pasteLoop buf (c :: s) = pasteLoop (buf ++ [c]) s := by
  rw [pasteLoop, if_neg hc]

theorem pasteLoop_escape : pasteLoop buf (27 :: s) = checkEnd buf [27] s := by
  rw [pasteLoop, if_pos rfl]

theorem checkEnd_expected : checkEnd buf pasteExpected s = (buf, s) := by
  rw [checkEnd.eq_def, if_pos rfl]

theorem MarkerPiece.length_lt (h : MarkerPiece acc) : acc.length < 6 := by
  obtain ⟨n, _, hlt, rfl⟩ := h
  rwa [length_take_expected (Nat.le_of_lt hlt)]

theorem MarkerPiece.ne_expected (h : MarkerPiece acc) : acc ≠ pasteExpected := by
  rintro rfl
  exact absurd h.length_lt (by decide)

theorem checkEnd_fits (h : MarkerPiece acc) (hc : Fits acc c) :
    checkEnd buf acc (c :: s) = checkEnd buf (acc ++ [c]) s := by
  rw [checkEnd, if_neg h.ne_expected, if_neg (Nat.not_le.mpr h.length_lt)]
  exact if_pos hc

theorem checkEnd_differs (h : MarkerPiece acc) (hc : ¬ Fits acc c) :
    checkEnd buf acc (c :: s) = pasteLoop (buf ++ (acc ++ [c])) s := by
  rw [checkEnd, if_neg h.ne_expected, if_neg (Nat.not_le.mpr h.length_lt)]
  exact if_neg hc

/-- Behind a text the loop walks along the end marker, as far as it comes. -/
theorem pasteLoop_walk (n : Nat) (hn : n < 6) :
    pasteLoop buf (pasteExpected.take (n + 1) ++ s) = checkEnd buf (pasteExpected.take (n + 1)) s := by
  induction n generalizing s with
  | zero => exact pasteLoop_escape
  | succ n ih =>
    have hlt : n + 1 < pasteExpected.length := hn
    have hfits : Fits (pasteExpected.take (n + 1)) pasteExpected[n + 1] := by
      rw [Fits, length_take_expected (by omega)]
      exact List.getElem?_eq_getElem hlt
    rw [List.take_succ_eq_append_getElem hlt, List.append_assoc, ih (by omega)]
    exact checkEnd_fits ⟨n + 1, Nat.succ_pos n, hn, rfl⟩ hfits

theorem pasteLoop_expected : pasteLoop buf (pasteExpected ++ s) = (buf, s) :=
  (pasteLoop_walk 5 (by decide)).trans checkEnd_expected

mutual

/-- What was read stays in front. -/
theorem prefix_pasteLoop (buf s : Bytes) : buf <+: (pasteLoop buf s).1 := by
  cases s with
  | nil =>
    unfold pasteLoop
    exact List.prefix_refl buf
  | cons c rest =>
    rw [pasteLoop]
    split
    · exact prefix_checkEnd buf [27] rest
    · exact (List.prefix_append buf [c]).trans (prefix_pasteLoop (buf ++ [c]) rest)
termination_by (s.length, 0)

theorem prefix_checkEnd (buf acc s : Bytes) : buf <+: (checkEnd buf acc s).1 := by
  rw [checkEnd.eq_def]
  split
  · exact List.prefix_refl buf
  split
  · exact (List.prefix_append buf acc).trans (prefix_pasteLoop (buf ++ acc) s)
  cases s with
  | nil => exact List.prefix_append buf acc
  | cons c rest =>
    dsimp only
    split
    · exact prefix_checkEnd buf (acc ++ [c]) rest
    · exact (List.prefix_append buf _).trans (prefix_pasteLoop (buf ++ (acc ++ [c])) rest)
termination_by (s.length, 1)

end

end Runs

/-- Where the code stands behind a text: in the loop with the whole text, or in `check_end` with
the last piece. -/
inductive Stands (p : Bytes) : Prop where
  | loop (heven : trailingPieces p % 2 = 0) (h : ∀ s, pasteLoop [] (p ++ s) = pasteLoop p s)
  | checkEnd (hodd : trailingPieces p % 2 = 1) (q acc : Bytes) (hp : p = q ++ acc)
      (hacc : MarkerPiece acc) (h : ∀ s, pasteLoop [] (p ++ s) = checkEnd q acc s)

theorem stands_snoc {p : Bytes} {c : UInt8} (h : Stands p) (hm : ¬ pasteExpected <:+ p ++ [c]) :
    Stands (p ++ [c]) := by
  cases h with
  | loop heven h =>
    by_cases hc : c = 27
    · subst hc
      refine .checkEnd ?_ p [27] rfl markerPiece_escape fun s => ?_
      · rw [trailingPieces_append p markerPiece_escape]
        omega
      · rw [List.append_assoc, h]
        exact pasteLoop_escape
    · refine .loop ?_ fun s => ?_
      · obtain h0 | ⟨q, acc, heq, hacc⟩ := trailingPieces_cases (p ++ [c])
        · rw [h0]
        · -- the piece was there before `c`
          obtain ⟨acc', rfl, hacc', _⟩ := markerPiece_of_snoc hacc hc heq
          rw [heq, trailingPieces_append q hacc, ← trailingPieces_append q hacc']
          exact heven
      · rw [List.append_assoc, h]
        exact pasteLoop_text hc
  | checkEnd hodd q acc hp hacc h =>
    by_cases hfits : Fits acc c
    · obtain hnext | hnext := markerPiece_snoc hacc hfits
      · refine .checkEnd ?_ q (acc ++ [c]) (by rw [hp, List.append_assoc]) hnext fun s => ?_
        · rw [hp, trailingPieces_append q hacc] at hodd
          rw [hp, List.append_assoc, trailingPieces_append q hnext]
          exact hodd
        · rw [List.append_assoc, h]
          exact checkEnd_fits hacc hfits
      · refine absurd ?_ hm
        rw [hp, List.append_assoc, hnext]
        exact List.suffix_append q pasteExpected
    · refine .loop ?_ fun s => ?_
      · by_cases hc : c = 27
        · subst hc
          rw [trailingPieces_append p markerPiece_escape]
          omega
        · obtain h0 | ⟨q', acc', heq, hacc'⟩ := trailingPieces_cases (p ++ [c])
          · rw [h0]
          · obtain ⟨acc'', hp', hacc'', hfits'⟩ := markerPiece_of_snoc hacc' hc heq
            obtain ⟨_, rfl⟩ := markerPiece_unique hacc hacc'' (hp.symm.trans hp')
            exact absurd hfits' hfits
      · rw [List.append_assoc, h, List.singleton_append, checkEnd_differs hacc hfits, hp,
          List.append_assoc]

theorem stands (p : Bytes) (h : ¬ pasteExpected <:+: p) : Stands p := by
  rw [← List.reverse_reverse p] at h ⊢
  generalize p.reverse = r at h ⊢
  induction r with
  | nil => exact .loop rfl fun s => rfl
  | cons c r ih =>
    rw [List.reverse_cons] at h ⊢
    refine stands_snoc (ih fun hr => h (hr.trans ?_)) fun hsuffix => h hsuffix.isInfix
    exact (List.prefix_append r.reverse [c]).isInfix

theorem readBracketedPaste_iff (payload following : Bytes) (h : ¬ pasteExpected <:+: payload) :
    readBracketedPaste (payload ++ pasteExpected ++ following) = (payload, following) ↔
      trailingPieces payload % 2 = 0 := by
  rw [readBracketedPaste, List.append_assoc]
  cases stands payload h with
  | loop heven hrun =>
    rw [hrun, pasteLoop_expected]
    exact ⟨fun _ => heven, fun _ => rfl⟩
  | checkEnd hodd q acc hp hacc hrun =>
    refine ⟨fun heq => absurd heq fun heq => ?_, fun heven => by omega⟩
    -- the Escape of the marker goes into the text
    have hescape : ¬ Fits acc 27 := by
      obtain rfl | rfl | rfl | rfl | rfl := markerPiece_cases hacc <;> decide
    rw [hrun, pasteExpected, List.cons_append, checkEnd_differs hacc hescape] at heq
    have hprefixed := prefix_pasteLoop (q ++ (acc ++ [27])) ([91, 50, 48, 49, 126] ++ following)
    rw [heq, hp, ← List.append_assoc] at hprefixed
    exact absurd hprefixed.length_le (by simp)

theorem readBracketedPaste_x :
    ¬ pasteExpected <:+: bytes "x" ∧
      (readBracketedPaste (bytes "x" ++ pasteExpected ++ bytes "y") = (bytes "x", bytes "y") ↔
        trailingPieces (bytes "x") % 2 = 0) :=
  ⟨by decide, readBracketedPaste_iff (bytes "x") (bytes "y") (by decide)⟩

/-- A text that ends with an Escape swallows the end marker and all that is typed behind it. -/
theorem readBracketedPaste_trailing_escape :
    ¬ pasteExpected <:+: [120, 27] ∧
      readBracketedPaste ([120, 27] ++ pasteExpected ++ [121]) ≠ ([120, 27], [121]) := by
  refine ⟨by decide, fun heq => ?_⟩
  change pasteLoop [] (120 :: 27 :: 27 :: [91, 50, 48, 49, 126, 121]) = _ at heq
  rw [pasteLoop_text (by decide), pasteLoop_escape,
    checkEnd_differs markerPiece_escape (by decide)] at heq
  have hprefixed := prefix_pasteLoop [120, 27, 27] [91, 50, 48, 49, 126, 121]
  exact absurd (heq ▸ hprefixed) (by decide)

/-- The loop and `check_end` are the states `paste` and `pasteEnd` of the reader. -/
theorem decode_paste (s : Bytes) :
    (∀ buf, (decode (.paste buf) (s.map .byte ++ [.eof])).1.head? =
      some (.paste (pasteLoop buf s).1)) ∧
    ∀ buf acc, MarkerPiece acc → (decode (.pasteEnd buf acc) (s.map .byte ++ [.eof])).1.head? =
      some (.paste (checkEnd buf acc s).1) := by
  induction s with
  | nil =>
    refine ⟨fun buf => ?_, fun buf acc hacc => ?_⟩
    · rw [pasteLoop]
      rfl
    · rw [checkEnd.eq_def, if_neg hacc.ne_expected, if_neg (Nat.not_le.mpr hacc.length_lt)]
      rfl
  | cons c s ih =>
    refine ⟨fun buf => ?_, fun buf acc hacc => ?_⟩
    · rw [List.map_cons, List.cons_append, decode, Reading.take, Reading.feed]
      by_cases hc : c = 27
      · rw [if_pos hc, hc, pasteLoop_escape]
        exact ih.2 buf [27] markerPiece_escape
      · rw [if_neg hc, pasteLoop_text hc]
        exact ih.1 (buf ++ [c])
    · rw [List.map_cons, List.cons_append, decode, Reading.take, Reading.feed]
      by_cases hfits : pasteExpected[acc.length]? = some c
      · rw [if_pos hfits, checkEnd_fits hacc hfits]
        obtain hnext | hnext := markerPiece_snoc hacc hfits
        · rw [if_neg hnext.ne_expected, if_neg (Nat.not_le.mpr hnext.length_lt)]
          exact ih.2 buf (acc ++ [c]) hnext
        · rw [if_pos hnext, hnext, checkEnd_expected]
          rfl
      · rw [if_neg hfits, checkEnd_differs hacc hfits]
        exact ih.1 (buf ++ (acc ++ [c]))

end Tty
end Raoui
