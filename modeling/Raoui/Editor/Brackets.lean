import Raoui.Editor.Prompt
import Raoui.Text.Reparse

/-!
# Raoui.Editor.Brackets

An opening bracket typed and deleted again. Typing looks at the whole cluster after the cursor to
decide whether to add the partner; deleting looks at the first byte of the clusters on either side.
The two disagree on a cluster that is a closing bracket with something combined to it.

* `bracket_undone_iff`: when deleting undoes the typing.
-/

namespace Raoui

open Utf8 (encode)
open Outcome (bind_eq_ok)

namespace UnicodeString

section
variable {lead : List Char} {l r : List Cluster} {s : Cluster} {c : UInt8} [Ucd]

theorem delete_ascii (hc : 32 ≤ c ∧ c < 127) :
    (ofClusters lead (l ++ ascii c :: r)).delete l.length = ofClusters lead (l ++ r) := by
  have hbytes : (ofClusters lead (l ++ ascii c :: r)).bytes.getD (encode (lead ++ text l)).length
      0 = c := by
    rw [bytes_split, encode_ascii_cluster hc, List.getD_eq_getElem?_getD,
      List.getElem?_append_right (Nat.le_refl _), Nat.sub_self]
    rfl
  have hwidth : (ofClusters lead (l ++ ascii c :: r)).widths.getD l.length 0 = 1 := by
    simp [ofClusters, ascii]
  have hascii : (ofClusters lead (l ++ ascii c :: r)).isAsciiAt l.length = true := by
    rw [isAsciiAt, offset_split, stop_split, hbytes, hwidth, encode_ascii_cluster hc]
    simpa using lt_of_printable hc
  rw [delete_ofClusters (Int.natCast_nonneg _) (by simp) (by rwa [Int.toNat_natCast]),
    Int.toNat_natCast, List.take_left, List.drop_length_add_append]
  rfl

/-- A cluster of several bytes is deleted by reading the text again. -/
theorem delete_wide (hs : 1 < (encode s.1).length) :
    (ofClusters lead (l ++ s :: r)).delete l.length = (ofString (encode
      (lead ++ text (l ++ r)))).toOption.getD (ofClusters lead (l ++ s :: r)) := by
  have hascii : (ofClusters lead (l ++ s :: r)).isAsciiAt l.length = false := by
    rw [isAsciiAt, offset_split, stop_split, Nat.add_sub_cancel_left,
      decide_eq_false (p := (encode s.1).length = 1) (by omega), Bool.and_false, Bool.false_and]
  have hrest : (ofClusters lead (l ++ s :: r)).bytes.take (encode (lead ++ text l)).length ++
      (ofClusters lead (l ++ s :: r)).bytes.drop
        ((encode (lead ++ text l)).length + (encode s.1).length) =
      encode (lead ++ text (l ++ r)) := by
    rw [bytes_split, List.take_left, ← List.drop_drop, List.drop_left, List.drop_left,
      ← Utf8.encode_append, text_append, List.append_assoc]
  rw [delete, if_neg (by rw [length_ofClusters, List.length_append, List.length_cons]; omega)]
  simp only [Int.toNat_natCast, hascii, Bool.false_eq_true, if_false, offset_split, stop_split]
  rw [reparseWithout, hrest]
  cases ofString (encode (lead ++ text (l ++ r))) with
  | ok t => rfl
  | error e => rfl

/-- The text can be read: it does not begin with a mark that combines with what is before it. -/
def Reads (t : UnicodeString) : Prop := ∃ u, ofString t.bytes = .ok u

theorem reads_iff {cs : List Char} : (∃ u, ofString (encode cs) = .ok u) ↔
    ∀ u ∈ (stripMark cs).2.head?, isCombiner u = false := by
  rw [ofString_encode]
  cases (stripMark cs).2 with
  | nil => simp
  | cons u rest =>
    cases hu : isCombiner u with
    | true => simp [hu]
    | false => simp [hu]

/-- No printable ASCII character is a mark. -/
def AsciiUnmarked : Prop := ∀ c : UInt8, 32 ≤ c → c < 127 → isCombiner (Char.ofUInt8 c) = false

/-- What reads at the start of a text reads there with another character behind it. -/
theorem reads_behind {cs ds es : List Char} {u v : Char} (hu : u ≠ byteOrderMark)
    (hv : v ≠ byteOrderMark) (hmark : isCombiner u = isCombiner v) :
    (∃ t, ofString (encode (cs ++ u :: ds)) = .ok t) ↔
      ∃ t, ofString (encode (cs ++ v :: es)) = .ok t := by
  rw [reads_iff, reads_iff]
  cases hstrip : (stripMark cs).2 with
  | cons w rest => rw [stripMark_append_snd hstrip, stripMark_append_snd hstrip]; rfl
  | nil =>
    cases cs with
    | nil => simp [stripMark, hu, hv, hmark]
    | cons w cs =>
      by_cases hw : w = byteOrderMark
      · simp only [stripMark, hw, if_true] at hstrip
        simp [stripMark, hw, hstrip, hmark]
      · simp [stripMark, hw] at hstrip

theorem WellFormed.bytes_delete_le {t : UnicodeString} (h : t.WellFormed) (pos : Int) :
    (t.delete pos).bytes.length ≤ t.bytes.length := by
  have hcut : ∀ i < t.length, (t.bytes.take (t.offset i) ++ t.bytes.drop (t.stop i)).length ≤
      t.bytes.length := by
    intro i hi
    have hlt := h.offset_lt_stop hi
    rw [List.length_append, List.length_take, List.length_drop]
    omega
  unfold UnicodeString.delete
  split
  · exact Nat.le_refl _
  · rename_i hpos
    have hcut := hcut pos.toNat (by omega)
    dsimp only
    split
    · exact hcut
    · rw [UnicodeString.reparseWithout]
      split
      · rename_i u hu
        obtain rfl | hu := bytes_of_ofString hu
        · exact Nat.zero_le _
        · rwa [hu]
      · exact Nat.le_refl _

end

end UnicodeString

namespace Model

open UnicodeString (AsciiUnmarked Cluster ascii ofClusters)

/-- What the two functions take for brackets. -/
theorem closingBracket_bytes {c closing : Bytes} (h : closingBracket c = some closing) :
    ∃ b b' : UInt8, c = [b] ∧ closing = [b'] ∧ (32 ≤ b ∧ b < 127) ∧ (32 ≤ b' ∧ b' < 127) ∧
      (∀ a, isMatchedPair b a = true ↔ a = b') ∧
        [bytes ")", bytes "]", bytes "\x7d", bytes " ", bytes "\t"].contains [b'] = true := by
  have hmatched : ∀ {b b' : UInt8}, (b, b') ∈
      [((91 : UInt8), (93 : UInt8)), (40, 41), (123, 125)] →
        ∀ a, isMatchedPair b a = true ↔ a = b' := by
    intro b b' hmem a
    simp only [isMatchedPair, List.contains_iff_mem, List.mem_cons, Prod.mk.injEq, List.not_mem_nil,
      or_false] at hmem ⊢
    obtain ⟨rfl, rfl⟩ | ⟨rfl, rfl⟩ | ⟨rfl, rfl⟩ := hmem <;> simp
  unfold closingBracket at h
  split at h
  · rename_i hc
    cases h
    exact ⟨91, 93, hc, rfl, by decide, by decide, hmatched (by decide), by decide⟩
  · split at h
    · rename_i hc
      cases h
      exact ⟨40, 41, hc, rfl, by decide, by decide, hmatched (by decide), by decide⟩
    · split at h
      · rename_i hc
        cases h
        exact ⟨123, 125, hc, rfl, by decide, by decide, hmatched (by decide), by decide⟩
      · cases h

section
variable [Ucd] {m n n' : Model} {above below : List UnicodeString} {lead : List Char}
  {l r : List Cluster} {s : Cluster} {b b' : UInt8} {t : UnicodeString}

theorem Prompt.charAt_split (h : m.Prompt n above (ofClusters lead (l ++ r)) l.length below) :
    n.charAt = .ok (r.head?.map fun s => Utf8.encode s.1) := by
  rw [h.charAt, UnicodeString.length_ofClusters]
  cases r with
  | nil =>
    rw [List.append_nil, if_pos (Int.le_refl _)]
    rfl
  | cons s r =>
    have hlt : ¬ (l.length : Int) ≥ (l ++ s :: r).length := by
      rw [List.length_append, List.length_cons]
      omega
    rw [if_neg hlt, UnicodeString.clusterAt_split]
    rfl

/-- Deleting the bracket that was typed. -/
theorem Prompt.deleteChar_typed (hb : 32 ≤ b ∧ b < 127)
    (h : m.Prompt n above (ofClusters lead (l ++ ascii b :: r)) (l.length + 1) below) :
    n.deleteChar =
      m.withPrompt (above ++ ofClusters lead (l ++ r) :: below) above.length l.length := by
  rw [h.deleteChar (by omega), Int.add_sub_cancel, UnicodeString.delete_ascii hb]

theorem Prompt.charBefore_typed (hb : 32 ≤ b ∧ b < 127)
    (h : m.Prompt n above (ofClusters lead (l ++ ascii b :: r)) (l.length + 1) below) :
    n.charBefore = .ok (some [b]) := by
  rw [h.charBefore, if_neg (by omega), Int.add_sub_cancel, UnicodeString.clusterAt_split,
    UnicodeString.encode_ascii_cluster hb]
  rfl

/-- The first byte of the cluster after the cursor. -/
def firstAfter (r : List Cluster) : Option UInt8 := r.head?.bind fun s => (Utf8.encode s.1).head?

theorem typed_behind (hb' : 32 ≤ b' ∧ b' < 127) :
    (ofClusters lead (l ++ ascii b :: r)).typed (l.length + 1) [b'] =
      ofClusters lead (l ++ ascii b :: ascii b' :: r) := by
  have htyped : (ofClusters lead ((l ++ [ascii b]) ++ r)).typed (l ++ [ascii b]).length [b'] = _ :=
    UnicodeString.typed_split hb'
  rwa [length_concat, List.append_assoc, List.append_assoc] at htyped

theorem Prompt.userInputDelete_typed (hb : 32 ≤ b ∧ b < 127)
    (hmatched : ∀ a, isMatchedPair b a = true ↔ a = b') (hne : ∀ s ∈ r, s.1 ≠ [])
    (h : m.Prompt n above (ofClusters lead (l ++ ascii b :: r)) (l.length + 1) below) :
    n.userInputDelete =
      if firstAfter r = some b' then do (← (← n.moveRight).deleteChar).deleteChar
      else n.deleteChar := by
  have hstart : n.atLineStart = false := by
    rw [h.atLineStart]
    exact decide_eq_false (by omega)
  rw [userInputDelete, hstart, h.atLineEnd]
  cases r with
  | nil =>
    have hend : (l.length : Int) + 1 ≥ (ofClusters lead (l ++ [ascii b])).length := by simp
    rw [decide_eq_true hend]
    rfl
  | cons s r =>
    have hend : ¬ (l.length : Int) + 1 ≥ (ofClusters lead (l ++ ascii b :: s :: r)).length := by
      rw [UnicodeString.length_ofClusters, List.length_append, List.length_cons, List.length_cons]
      omega
    obtain ⟨u, us, hu⟩ := List.exists_cons_of_ne_nil (hne s (List.mem_cons_self ..))
    obtain ⟨a, as, ha⟩ : ∃ a as, Utf8.encode s.1 = a :: as := by
      refine List.exists_cons_of_ne_nil ?_
      rw [hu, Utf8.encode_cons]
      simp [Utf8.encodeChar_ne_nil]
    have hfirst : firstAfter (s :: r) = some a := by
      simp [firstAfter, ha]
    have hat : n.charAt = .ok (some (a :: as)) := by
      rw [h.behind.charAt_split, List.head?_cons, Option.map_some, ha]
    rw [decide_eq_false hend, h.charBefore_typed hb, hat, hfirst]
    simp only [bind, Except.bind, firstByte, Bool.false_eq_true, if_false, Option.some.injEq,
      hmatched]

/-- Typing `b'` behind the `b` that was typed. -/
theorem Prompt.insertChar_behind (hb' : 32 ≤ b' ∧ b' < 127)
    (h : m.Prompt n above (ofClusters lead (l ++ ascii b :: r)) (l.length + 1) below) :
    n.insertChar [b'] = m.withPrompt (linesWith above lead (l ++ ascii b :: ascii b' :: r) below)
      above.length (l.length + 2) := by
  rw [h.behind.insertChar_split hb', length_concat, Int.add_assoc, List.append_assoc,
    List.singleton_append]
  rfl

/-- With its partner added, the bracket is typed in two steps. -/
theorem Prompt.userInputChar_paired (hb : 32 ≤ b ∧ b < 127) (hb' : 32 ≤ b' ∧ b' < 127)
    (hclosing : closingBracket [b] = some [b'])
    (h : m.Prompt m above (ofClusters lead (l ++ r)) l.length below)
    (hpair : m.shouldAutoPair = .ok true) :
    m.userInputChar [b] = .ok n ↔ Lexes (linesWith above lead (l ++ ascii b :: r) below) ∧
      m.withPrompt (linesWith above lead (l ++ ascii b :: ascii b' :: r) below) above.length
        (l.length + 1) = .ok n := by
  have hmoved : ∀ n₁ n₂, m.insertChar [b] = .ok n₁ → n₁.insertChar [b'] = .ok n₂ →
      n₂.moveLeft = m.withPrompt (linesWith above lead (l ++ ascii b :: ascii b' :: r) below)
        above.length (l.length + 1) := by
    intro n₁ n₂ hn₁ hn₂
    have h₁ := h.goesTo ((h.insertChar_split hb).symm.trans hn₁)
    have h₂ := h.goesTo ((h₁.insertChar_behind hb').symm.trans hn₂)
    rw [h₂.moveLeft (by omega)]
    congr 1
    omega
  have hrun : m.userInputChar [b] = .ok n ↔ ∃ n₁, m.insertChar [b] = .ok n₁ ∧
      ∃ n₂, n₁.insertChar [b'] = .ok n₂ ∧ n₂.moveLeft = .ok n := by
    rw [userInputChar, hclosing, hpair]
    show (do
      let after1 ← m.insertChar [b]
      (← after1.insertChar [b']).moveLeft) = .ok n ↔ _
    simp only [bind_eq_ok]
  rw [hrun]
  constructor
  · rintro ⟨n₁, hn₁, n₂, hn₂, hn⟩
    rw [hmoved n₁ n₂ hn₁ hn₂] at hn
    exact ⟨lexes_iff.mpr ⟨n₁, (h.insertChar_split hb).symm.trans hn₁⟩, hn⟩
  · rintro ⟨hlexes, hn⟩
    obtain ⟨n₁, hn₁⟩ : ∃ n₁, m.insertChar [b] = .ok n₁ := by
      rw [h.insertChar_split hb]
      exact lexes_iff.mp hlexes
    have h₁ := h.goesTo ((h.insertChar_split hb).symm.trans hn₁)
    obtain ⟨n₂, hn₂⟩ : ∃ n₂, n₁.insertChar [b'] = .ok n₂ := by
      rw [h₁.insertChar_behind hb']
      exact lexes_iff.mp (lexes_iff.mpr ⟨n, hn⟩)
    exact ⟨n₁, hn₁, n₂, hn₂, (hmoved n₁ n₂ hn₁ hn₂).trans hn⟩

/-- A pair with nothing between is deleted in two steps. -/
theorem Prompt.userInputDelete_paired (hb : 32 ≤ b ∧ b < 127) (hb' : 32 ≤ b' ∧ b' < 127)
    (hmatched : ∀ a, isMatchedPair b a = true ↔ a = b') (hne : ∀ s ∈ r, s.1 ≠ [])
    (hlexes : Lexes (linesWith above lead (l ++ ascii b :: r) below))
    (h : m.Prompt n above (ofClusters lead (l ++ ascii b :: ascii b' :: r)) (l.length + 1) below) :
    n.userInputDelete =
      m.withPrompt (linesWith above lead (l ++ r) below) above.length l.length := by
  have hfirst : firstAfter (ascii b' :: r) = some b' := by
    rw [firstAfter, List.head?_cons, Option.bind_some, UnicodeString.encode_ascii_cluster hb']
    rfl
  have hne' : ∀ s ∈ ascii b' :: r, s.1 ≠ [] := by
    intro s hs
    obtain rfl | hs := List.mem_cons.mp hs
    · exact List.cons_ne_nil _ _
    · exact hne s hs
  obtain ⟨n₁, hn₁⟩ : ∃ n₁, m.withPrompt _ above.length (l.length + 1 + 1) = .ok n₁ :=
    lexes_iff.mp (lexes_iff.mpr ⟨n, h.shows⟩)
  obtain ⟨n₂, hn₂⟩ : ∃ n₂, m.withPrompt _ above.length (l.length + 1) = .ok n₂ :=
    lexes_iff.mp hlexes
  have hmoved : n.moveRight = .ok n₁ := by
    rw [h.moveRight (by simp), hn₁]
  have hdeleted : n₁.deleteChar = .ok n₂ := by
    have h₁ : m.Prompt n₁ above (ofClusters lead ((l ++ [ascii b]) ++ ascii b' :: r))
        ((l ++ [ascii b]).length + 1) below := by
      rw [List.append_assoc, List.singleton_append, length_concat]
      exact h.goesTo hn₁
    rw [h₁.deleteChar_typed hb', length_concat, List.append_assoc, List.singleton_append]
    exact hn₂
  rw [h.userInputDelete_typed hb hmatched hne', if_pos hfirst, hmoved]
  simp only [bind, Except.bind, hdeleted]
  exact (h.goesTo hn₂).deleteChar_typed hb

theorem Prompt.userInputChar_unpaired (hb : 32 ≤ b ∧ b < 127)
    (hclosing : closingBracket [b] = some [b'])
    (h : m.Prompt m above (ofClusters lead (l ++ r)) l.length below)
    (hpair : m.shouldAutoPair = .ok false) : m.userInputChar [b] =
      m.withPrompt (linesWith above lead (l ++ ascii b :: r) below) above.length
        (l.length + 1) := by
  rw [← h.insertChar_split hb, userInputChar, hclosing, hpair]
  rfl

/-- A cluster that begins as the partner is deleted with the bracket, unless what is left cannot be
read. -/
theorem Prompt.userInputDelete_wide (hb : 32 ≤ b ∧ b < 127)
    (hmatched : ∀ a, isMatchedPair b a = true ↔ a = b') (hne : ∀ d ∈ s :: r, d.1 ≠ [])
    (hfirst : firstAfter (s :: r) = some b')
    (h : m.Prompt n above (ofClusters lead (l ++ ascii b :: s :: r)) (l.length + 1) below)
    (hdelete : (ofClusters lead (l ++ ascii b :: s :: r)).delete (l.length + 1) = t) :
    n.userInputDelete = .ok n' ↔ Lexes (above ++ t :: below) ∧
      m.withPrompt (above ++ t.delete l.length :: below) above.length l.length = .ok n' := by
  obtain ⟨n₁, hn₁⟩ : ∃ n₁, m.withPrompt _ above.length (l.length + 1 + 1) = .ok n₁ :=
    lexes_iff.mp (lexes_iff.mpr ⟨n, h.shows⟩)
  have hmoved : n.moveRight = .ok n₁ := by
    rw [h.moveRight (by simp), hn₁]
  have hdeleted : n₁.deleteChar =
      m.withPrompt (above ++ t :: below) above.length (l.length + 1) := by
    rw [(h.goesTo hn₁).deleteChar (by omega), Int.add_sub_cancel, hdelete]
  have hagain : ∀ n₂, n₁.deleteChar = .ok n₂ →
      n₂.deleteChar = m.withPrompt (above ++ t.delete l.length :: below) above.length l.length := by
    intro n₂ hn₂
    rw [(h.goesTo (hdeleted.symm.trans hn₂)).deleteChar (by omega), Int.add_sub_cancel]
  rw [h.userInputDelete_typed hb hmatched hne, if_pos hfirst, hmoved]
  show (do (← n₁.deleteChar).deleteChar) = .ok n' ↔ _
  rw [bind_eq_ok]
  constructor
  · rintro ⟨n₂, hn₂, hn'⟩
    exact ⟨lexes_iff.mpr ⟨n₂, hdeleted.symm.trans hn₂⟩, (hagain n₂ hn₂).symm.trans hn'⟩
  · rintro ⟨hlexes, hn'⟩
    obtain ⟨n₂, hn₂⟩ : ∃ n₂, n₁.deleteChar = .ok n₂ := by
      rw [hdeleted]
      exact lexes_iff.mp hlexes
    exact ⟨n₂, hn₂, (hagain n₂ hn₂).trans hn'⟩

/-- Deleting undoes the typing of `c`: the lines, the cursor and the tokens are as before. -/
def Undone (m : Model) (c : Bytes) : Prop :=
  ∃ m₁ m₂, m.userInputChar c = .ok m₁ ∧ m₁.userInputDelete = .ok m₂ ∧
    m₂.input.lines = m.input.lines ∧ m₂.input.cursorLine = m.input.cursorLine ∧
    m₂.input.cursorPos = m.input.cursorPos ∧ m₂.input.lexCache = m.input.lexCache

/-- The lexer gets through the prompt with `c` typed, and with its partner where one is added. -/
def LexesTyped (m : Model) (c closing : Bytes) : Prop :=
  let typed := m.line.typed m.input.cursorPos c
  let pair := typed.typed (m.input.cursorPos + 1) closing
  Lexes (updateLine m.input.lines m.input.cursorLine typed) ∧
    (m.shouldAutoPair = .ok true → Lexes (updateLine m.input.lines m.input.cursorLine pair))

/-- The cluster after the cursor is the closing bracket with something combined to it. -/
def Decorated (m : Model) (closing : Bytes) : Prop :=
  ∃ s, m.charAt = .ok (some s) ∧ closing <+: s ∧ s ≠ closing

theorem Prompt.undone_of (h : m.Prompt m above (ofClusters lead (l ++ r)) l.length below)
    {c : Bytes} (hchar : m.userInputChar c = .ok n) (hdelete : n.userInputDelete =
      m.withPrompt (linesWith above lead (l ++ r) below) above.length l.length) : m.Undone c :=
  ⟨n, m, hchar, hdelete.trans h.shows, rfl, rfl, rfl, rfl⟩

theorem Prompt.undone_paired (hb : 32 ≤ b ∧ b < 127) (hb' : 32 ≤ b' ∧ b' < 127)
    (hclosing : closingBracket [b] = some [b'])
    (hmatched : ∀ a, isMatchedPair b a = true ↔ a = b') (hne : ∀ s ∈ r, s.1 ≠ [])
    (h : m.Prompt m above (ofClusters lead (l ++ r)) l.length below)
    (hpair : m.shouldAutoPair = .ok true) :
    m.Undone [b] ↔ Lexes (linesWith above lead (l ++ ascii b :: r) below) ∧
      Lexes (linesWith above lead (l ++ ascii b :: ascii b' :: r) below) := by
  constructor
  · rintro ⟨n, -, hn, -⟩
    obtain ⟨hlexes, hn⟩ := (h.userInputChar_paired hb hb' hclosing hpair).mp hn
    exact ⟨hlexes, lexes_iff.mpr ⟨n, hn⟩⟩
  · rintro ⟨hlexes, hpaired⟩
    obtain ⟨n, hn⟩ : ∃ n, m.withPrompt _ above.length (l.length + 1) = .ok n :=
      lexes_iff.mp hpaired
    exact h.undone_of ((h.userInputChar_paired hb hb' hclosing hpair).mpr ⟨hlexes, hn⟩)
      ((h.goesTo hn).userInputDelete_paired hb hb' hmatched hne hlexes)

theorem Prompt.undone_unmatched (hb : 32 ≤ b ∧ b < 127) (hclosing : closingBracket [b] = some [b'])
    (hmatched : ∀ a, isMatchedPair b a = true ↔ a = b') (hne : ∀ s ∈ r, s.1 ≠ [])
    (hfirst : firstAfter r ≠ some b')
    (h : m.Prompt m above (ofClusters lead (l ++ r)) l.length below)
    (hpair : m.shouldAutoPair = .ok false) :
    m.Undone [b] ↔ Lexes (linesWith above lead (l ++ ascii b :: r) below) := by
  have hchar := h.userInputChar_unpaired hb hclosing hpair
  constructor
  · rintro ⟨n, -, hn, -⟩
    exact lexes_iff.mpr ⟨n, hchar.symm.trans hn⟩
  · intro hlexes
    obtain ⟨n, hn⟩ : ∃ n, m.userInputChar [b] = .ok n := by
      rw [hchar]
      exact lexes_iff.mp hlexes
    have hp := h.goesTo (hchar.symm.trans hn)
    refine h.undone_of hn ?_
    rw [hp.userInputDelete_typed hb hmatched hne, if_neg hfirst, hp.deleteChar_typed hb]
    rfl

omit [Ucd] in
theorem firstAfter_cons : firstAfter (s :: r) = some b' ↔ [b'] <+: Utf8.encode s.1 := by
  rw [firstAfter, List.head?_cons, Option.bind_some]
  cases Utf8.encode s.1 with
  | nil => simp
  | cons a as => simp [eq_comm]

omit [Ucd] in
theorem text_typed : lead ++ UnicodeString.text ((l ++ [ascii b]) ++ r) =
    (lead ++ UnicodeString.text l) ++ Char.ofUInt8 b :: UnicodeString.text r := by
  rw [UnicodeString.text_append, UnicodeString.text_append, List.append_assoc, List.append_assoc]
  rfl

/-- The text with the bracket in place of what begins as its partner reads if the line does. -/
theorem reads_typed (hascii : AsciiUnmarked) (hb : 32 ≤ b ∧ b < 127) (hb' : 32 ≤ b' ∧ b' < 127)
    (hfirst : [b'] <+: Utf8.encode s.1) : (ofClusters lead (l ++ s :: r)).Reads ↔
      ∃ t, UnicodeString.ofString (encode (lead ++ UnicodeString.text ((l ++ [ascii b]) ++ r))) =
        .ok t := by
  rw [← UnicodeString.encode_ascii_cluster hb'] at hfirst
  obtain ⟨us, hus⟩ := Utf8.encode_prefixed hfirst
  have hline : lead ++ UnicodeString.text (l ++ s :: r) =
      (lead ++ UnicodeString.text l) ++ Char.ofUInt8 b' :: (us ++ UnicodeString.text r) := by
    rw [UnicodeString.text_append, UnicodeString.text_cons, ← hus, ← List.append_assoc,
      List.append_assoc (ascii b').1]
    rfl
  rw [UnicodeString.Reads, UnicodeString.bytes_ofClusters, hline, text_typed]
  exact UnicodeString.reads_behind UnicodeString.ofUInt8_ne_mark UnicodeString.ofUInt8_ne_mark
    ((hascii b' hb'.1 hb'.2).trans (hascii b hb.1 hb.2).symm)

/-- Read again without a cluster of several bytes, the line cannot become what it was. -/
theorem delete_shorter {pos : Int} (hb : 32 ≤ b ∧ b < 127) (hwide : 1 < (encode s.1).length)
    (hread : UnicodeString.ofString
      (encode (lead ++ UnicodeString.text ((l ++ [ascii b]) ++ r))) = .ok t) :
    t.delete pos ≠ ofClusters lead (l ++ s :: r) := by
  intro hsame
  have hdelete := (UnicodeString.wellFormed_of_ofString hread).bytes_delete_le pos
  rw [hsame, UnicodeString.bytes_split] at hdelete
  have hbytes : t.bytes.length ≤ (encode (lead ++ UnicodeString.text l)).length + 1 +
      (encode (UnicodeString.text r)).length := by
    obtain rfl | hbytes := UnicodeString.bytes_of_ofString hread
    · exact Nat.zero_le _
    · rw [hbytes, text_typed, Utf8.encode_append, Utf8.encode_cons,
        UnicodeString.encodeChar_ascii (UnicodeString.lt_of_printable hb), List.length_append]
      simp
      omega
  rw [List.length_append, List.length_append] at hdelete
  omega

theorem Prompt.undone_decorated (hascii : AsciiUnmarked) (hb : 32 ≤ b ∧ b < 127)
    (hb' : 32 ≤ b' ∧ b' < 127) (hclosing : closingBracket [b] = some [b'])
    (hmatched : ∀ a, isMatchedPair b a = true ↔ a = b') (hne : ∀ d ∈ l ++ s :: r, d.1 ≠ [])
    (hfirst : [b'] <+: Utf8.encode s.1) (hwide : 1 < (Utf8.encode s.1).length)
    (h : m.Prompt m above (ofClusters lead (l ++ s :: r)) l.length below)
    (hpair : m.shouldAutoPair = .ok false) :
    m.Undone [b] ↔ Lexes (linesWith above lead (l ++ ascii b :: s :: r) below) ∧
      ¬ (ofClusters lead (l ++ s :: r)).Reads := by
  have hchar := h.userInputChar_unpaired hb hclosing hpair
  have hne' : ∀ d ∈ s :: r, d.1 ≠ [] := fun d hd => hne d (List.mem_append_right _ hd)
  have hcut : (ofClusters lead ((l ++ [ascii b]) ++ s :: r)).delete (l ++ [ascii b]).length =
      (UnicodeString.ofString
        (encode (lead ++ UnicodeString.text ((l ++ [ascii b]) ++ r)))).toOption.getD
        (ofClusters lead ((l ++ [ascii b]) ++ s :: r)) := UnicodeString.delete_wide hwide
  rw [length_concat, List.append_assoc l _ (s :: r), List.singleton_append] at hcut
  rw [reads_typed hascii hb hb' hfirst]
  have hmatch : firstAfter (s :: r) = some b' := firstAfter_cons.mpr hfirst
  cases hread : UnicodeString.ofString
      (encode (lead ++ UnicodeString.text ((l ++ [ascii b]) ++ r))) with
  | ok t =>
    rw [hread] at hcut
    refine iff_of_false ?_ fun hnot => hnot.2 ⟨t, rfl⟩
    rintro ⟨n, n', hn, hn', hlines, -⟩
    have hp := h.goesTo (hchar.symm.trans hn)
    obtain ⟨-, hn'⟩ := (hp.userInputDelete_wide hb hmatched hne' hmatch hcut).mp hn'
    rw [(h.goesTo hn').fields.1, h.fields.1] at hlines
    have hsame : t.delete l.length = ofClusters lead (l ++ s :: r) :=
      (List.cons.inj (List.append_cancel_left hlines)).1
    exact absurd hsame (delete_shorter hb hwide hread)
  | error e =>
    rw [hread] at hcut
    replace hcut : (ofClusters lead (l ++ ascii b :: s :: r)).delete (l.length + 1) =
        ofClusters lead (l ++ ascii b :: s :: r) := hcut
    have hback : (ofClusters lead (l ++ ascii b :: s :: r)).delete l.length =
        ofClusters lead (l ++ s :: r) := UnicodeString.delete_ascii hb
    constructor
    · rintro ⟨n, -, hn, -⟩
      refine ⟨lexes_iff.mpr ⟨n, hchar.symm.trans hn⟩, ?_⟩
      rintro ⟨t, ht⟩
      cases ht
    · rintro ⟨hlexes, -⟩
      obtain ⟨n, hn⟩ : ∃ n, m.userInputChar [b] = .ok n := by
        rw [hchar]
        exact lexes_iff.mp hlexes
      have hp := h.goesTo (hchar.symm.trans hn)
      refine ⟨n, m, hn, ?_, rfl, rfl, rfl, rfl⟩
      refine (hp.userInputDelete_wide hb hmatched hne' hmatch hcut).mpr ⟨hlexes, ?_⟩
      rw [hback]
      exact h.shows

theorem Prompt.shouldAutoPair_split
    (h : m.Prompt n above (ofClusters lead (l ++ r)) l.length below) : n.shouldAutoPair =
      .ok (r.head?.all fun s =>
        [bytes ")", bytes "]", bytes "\x7d", bytes " ", bytes "\t"].contains (encode s.1)) := by
  rw [shouldAutoPair, h.charAt_split]
  cases r with
  | nil => rfl
  | cons s r => rfl

theorem Prompt.decorated_iff {closing : Bytes}
    (h : m.Prompt m above (ofClusters lead (l ++ r)) l.length below) :
    m.Decorated closing ↔ ∃ s ∈ r.head?, closing <+: encode s.1 ∧ encode s.1 ≠ closing := by
  rw [Decorated, h.charAt_split]
  cases r.head? with
  | none => simp
  | some s => simp

theorem Prompt.undone_iff (hascii : AsciiUnmarked) (hb : 32 ≤ b ∧ b < 127)
    (hb' : 32 ≤ b' ∧ b' < 127) (hclosing : closingBracket [b] = some [b'])
    (hmatched : ∀ a, isMatchedPair b a = true ↔ a = b')
    (hpairs : [bytes ")", bytes "]", bytes "\x7d", bytes " ", bytes "\t"].contains [b'] = true)
    (hne : ∀ d ∈ l ++ r, d.1 ≠ [])
    (h : m.Prompt m above (ofClusters lead (l ++ r)) l.length below) :
    m.Undone [b] ↔ (Lexes (linesWith above lead (l ++ ascii b :: r) below) ∧
      (m.shouldAutoPair = .ok true →
        Lexes (linesWith above lead (l ++ ascii b :: ascii b' :: r) below))) ∧
      ¬ (m.Decorated [b'] ∧ (ofClusters lead (l ++ r)).Reads) := by
  have hauto := h.shouldAutoPair_split
  have hne' : ∀ d ∈ r, d.1 ≠ [] := fun d hd => hne d (List.mem_append_right _ hd)
  rw [h.decorated_iff]
  by_cases hpair : m.shouldAutoPair = .ok true
  · have hplain : ¬ ∃ s ∈ r.head?, [b'] <+: encode s.1 ∧ encode s.1 ≠ [b'] := by
      rintro ⟨s, hs, hbegins, hother⟩
      rw [Option.mem_def.mp hs, hpair] at hauto
      have hmem := Except.ok.inj hauto.symm
      rw [Option.all_some, List.contains_iff_mem] at hmem
      have hone : (encode s.1).length = 1 :=
        (by decide : ∀ p ∈ [bytes ")", bytes "]", bytes "\x7d", bytes " ", bytes "\t"],
          p.length = 1) _ hmem
      exact hother (hbegins.eq_of_length hone.symm).symm
    rw [h.undone_paired hb hb' hclosing hmatched hne' hpair]
    simp only [hpair, hplain, true_implies, false_and, not_false_eq_true, and_true]
  · have hpair' : m.shouldAutoPair = .ok false := by
      rw [hauto, Except.ok.injEq, ← Bool.not_eq_true]
      rwa [hauto, Except.ok.injEq] at hpair
    cases r with
    | nil => exact absurd hauto hpair
    | cons s r =>
      have hother : encode s.1 ≠ [b'] := by
        intro hs
        refine hpair (hauto.trans ?_)
        rw [List.head?_cons, Option.all_some, hs, hpairs]
      by_cases hfirst : [b'] <+: encode s.1
      · have hwide : 1 < (encode s.1).length :=
          Nat.lt_of_le_of_ne hfirst.length_le fun hlen => hother (hfirst.eq_of_length hlen).symm
        rw [h.undone_decorated hascii hb hb' hclosing hmatched hne hfirst hwide hpair']
        simp [hpair, hfirst, hother]
      · rw [h.undone_unmatched hb hclosing hmatched hne' (by rwa [Ne, firstAfter_cons]) hpair']
        simp [hpair, hfirst]

/-- Typing an opening bracket is undone by deleting when the lexer gets through the prompt with the
bracket, unless the cluster after the cursor is the closing bracket with something combined to it
and the line can be read again. -/
theorem bracket_undone_iff (hascii : AsciiUnmarked) {c closing : Bytes}
    (hclosing : closingBracket c = some closing) (hmode : m.input.mode = .normal)
    (hwf : ∀ line ∈ m.input.lines, line.WellFormed) (hinv : m.invariants = true)
    (hlexed : RLexCache.create m.input.lines = .ok m.input.lexCache) :
    m.Undone c ↔ m.LexesTyped c closing ∧ ¬ (m.Decorated closing ∧ m.line.Reads) := by
  obtain ⟨above, below, lead, l, r, hcs, hline, hlen, h⟩ :=
    exists_prompt_split hmode hwf hinv hlexed
  obtain ⟨hlines, hcursor, -⟩ := h.fields
  obtain ⟨b, b', rfl, rfl, hb, hb', hmatched, hpairs⟩ := closingBracket_bytes hclosing
  rw [h.undone_iff hascii hb hb' hclosing hmatched hpairs hcs, LexesTyped, hline, hlen,
    UnicodeString.typed_split hb, typed_behind hb', hlines, hcursor, updateLine_split,
    updateLine_split]
  rfl

end

section
open Update (initialModel)
open UnicodeString (sampleUcd sampleKind sample_segments)

attribute [local instance] sampleUcd

/-- A closing parenthesis with an accent is pasted and the cursor set before it. -/
def accented : Res Model := do
  let m ← initialModel (History.init ⟨[], []⟩) 1 80 24
  return (← m.insertPaste (encode [')', '\u0301'])).goToLineStart

theorem accented_not_undone : UnicodeString.Segments sampleKind ∧ ∃ m, accented = .ok m ∧
    m.input.mode = .normal ∧ (∀ line ∈ m.input.lines, line.WellFormed) ∧ m.invariants = true ∧
    RLexCache.create m.input.lines = .ok m.input.lexCache ∧ ¬ m.Undone (bytes "(") := by
  obtain ⟨m, hm, hmode, hlines, hinv, hlexed, m₁, m₂, hchar, hdelete, hempty⟩ :
      ∃ m, accented = .ok m ∧ m.input.mode = .normal ∧
        m.input.lines = [ofClusters [] [([')', '\u0301'], 1)]] ∧ m.invariants = true ∧
        RLexCache.create m.input.lines = .ok m.input.lexCache ∧
        ∃ m₁ m₂, m.userInputChar (bytes "(") = .ok m₁ ∧ m₁.userInputDelete = .ok m₂ ∧
          m₂.input.lines = [.empty] :=
    ⟨_, rfl, rfl, rfl, rfl, rfl, _, _, rfl, rfl, rfl⟩
  refine ⟨sample_segments, m, hm, hmode, ?_, hinv, hlexed, ?_⟩
  · intro line hline
    rw [hlines, List.mem_singleton] at hline
    subst hline
    exact UnicodeString.wellFormed_ofClusters (by decide)
  · rintro ⟨n₁, n₂, hn₁, hn₂, hsame, -⟩
    obtain rfl := Except.ok.inj (hchar.symm.trans hn₁)
    obtain rfl := Except.ok.inj (hdelete.symm.trans hn₂)
    rw [hempty, hlines] at hsame
    exact absurd hsame (by decide)

/-- In the empty prompt. -/
theorem bracket_undone_iff_empty : ∃ m, initialModel (History.init ⟨[], []⟩) 1 80 24 = .ok m ∧
    (m.Undone (bytes "[") ↔
      m.LexesTyped (bytes "[") (bytes "]") ∧ ¬ (m.Decorated (bytes "]") ∧ m.line.Reads)) := by
  obtain ⟨m, hm, hmode, hlines, hinv, hlexed⟩ : ∃ m,
      initialModel (History.init ⟨[], []⟩) 1 80 24 = .ok m ∧ m.input.mode = .normal ∧
        m.input.lines = [.empty] ∧ m.invariants = true ∧
        RLexCache.create m.input.lines = .ok m.input.lexCache :=
    ⟨_, rfl, rfl, rfl, rfl, rfl⟩
  refine ⟨m, hm, bracket_undone_iff sample_segments.ascii_mark (by decide) hmode ?_ hinv hlexed⟩
  intro line hline
  rw [hlines, List.mem_singleton] at hline
  subst hline
  exact UnicodeString.wellFormed_empty

end

end Model
end Raoui
