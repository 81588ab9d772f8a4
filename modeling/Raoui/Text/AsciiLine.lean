import Raoui.Text.Clusters

/-!
# Raoui.Text.AsciiLine

Lines of printable ASCII. Each byte is a cluster of width one, so a position is a byte offset and
the edits are those of the bytes.

* `PrintableAscii`: what the Unicode data says of the printable ASCII characters.
* `ofString_asciiLine`: reading such a text.
-/

namespace Raoui

/-- The printable ASCII characters are no marks, one column wide, and clusters of their own. -/
structure PrintableAscii [Ucd] : Prop where
  isMark : ∀ c : Char, 32 ≤ c.toNat → c.toNat < 127 → Ucd.isMark c = false
  width : ∀ c : Char, 32 ≤ c.toNat → c.toNat < 127 → Ucd.ttyWidthHint c = 1
  boundary : ∀ (before : List Char) (c : Char), (∀ b ∈ before, 32 ≤ b.toNat ∧ b.toNat < 127) →
    32 ≤ c.toNat → c.toNat < 127 → Ucd.boundary before c = true

theorem printableAscii_asciiUcd : @PrintableAscii asciiUcd :=
  letI := asciiUcd
  { isMark := fun _ _ _ => rfl
    width := by
      intro c h h'
      simp only [Ucd.ttyWidthHint]
      rw [if_neg (by omega), if_neg (by omega), if_pos h']
    boundary := by
      intro before c _ h h'
      have hc : c ≠ '\n' := by
        rintro rfl
        exact absurd h (by decide)
      simp [Ucd.boundary, hc] }

namespace UnicodeString

def Printable (s : Bytes) : Prop := ∀ c ∈ s, 32 ≤ c ∧ c < 127

instance : DecidablePred Printable := fun s =>
  decidable_of_iff (s.all fun c => 32 ≤ c && c < 127) (by
    simp only [Printable, List.all_eq_true, Bool.and_eq_true, decide_eq_true_eq])

variable {l r s : Bytes} {c : UInt8}

theorem Printable.append (hl : Printable l) (hr : Printable r) : Printable (l ++ r) := by
  intro c hc
  exact (List.mem_append.mp hc).elim (hl c) (hr c)

theorem encodeChar_ascii (hc : c < 128) : Utf8.encodeChar (Char.ofUInt8 c) = [c] := by
  have h := encode_ascii hc
  rwa [Utf8.encode_cons, Utf8.encode_nil, List.append_nil] at h

theorem lt_of_printable (h : 32 ≤ c ∧ c < 127) : c < 128 := by
  have h := h.2
  rw [UInt8.lt_iff_toNat_lt] at h ⊢
  exact Nat.lt_succ_of_lt h

theorem encode_chars (hs : Printable s) : Utf8.encode (s.map Char.ofUInt8) = s := by
  induction s with
  | nil => rfl
  | cons c s ih =>
    rw [List.map_cons, Utf8.encode_cons, encodeChar_ascii (lt_of_printable (hs c (by simp))),
      ih fun c hc => hs c (List.mem_cons_of_mem _ hc)]
    rfl

theorem toNat_ofUInt8 (h : 32 ≤ c ∧ c < 127) :
    32 ≤ (Char.ofUInt8 c).toNat ∧ (Char.ofUInt8 c).toNat < 127 := by
  have h₁ := UInt8.le_iff_toNat_le.mp h.1
  have h₂ := UInt8.lt_iff_toNat_lt.mp h.2
  exact ⟨h₁, h₂⟩

/-! ## Editing -/

/-- A printable text as a line. -/
def asciiLine (s : Bytes) : UnicodeString :=
  ⟨s, List.range s.length, List.replicate s.length 1⟩

@[simp] theorem bytes_asciiLine : (asciiLine s).bytes = s := rfl

@[simp] theorem toBytes_asciiLine : (asciiLine s).toBytes = s := rfl

@[simp] theorem length_asciiLine : (asciiLine s).length = s.length := by
  simp [asciiLine, length]

@[simp] theorem isEmpty_asciiLine : (asciiLine s).isEmpty = s.isEmpty := by
  cases s <;> rfl

theorem asciiLine_nil : asciiLine [] = empty := rfl

theorem offset_asciiLine {i : Nat} (h : i < s.length) : (asciiLine s).offset i = i := by
  simp [offset, asciiLine, List.getD_eq_getElem?_getD, h]

theorem insert_asciiLine (h : 0 ≤ (l.length : Int) ∧ isSingleAsciiWidth1 [c] = true) :
    insertAsciiWidth1 (asciiLine (l ++ r)) l.length [c] h = asciiLine (l ++ c :: r) := by
  have hpos : (min (l.length : Int) (l ++ r).length).toNat = l.length := by
    rw [List.length_append]
    omega
  have hbyte : (if l.length = (l ++ r).length then (l ++ r).length
      else (asciiLine (l ++ r)).offset l.length) = l.length := by
    split
    · rename_i heq
      exact heq.symm
    · rename_i hne
      refine offset_asciiLine ?_
      rw [List.length_append] at hne ⊢
      omega
  simp only [insertAsciiWidth1, length_asciiLine, bytes_asciiLine, hpos, hbyte]
  simp only [asciiLine, UnicodeString.mk.injEq]
  refine ⟨by simp, ?_, ?_⟩
  · apply List.ext_getElem
    · simp
    · intro i h₁ h₂
      simp only [List.getElem_append, List.length_take, List.length_range, List.length_append,
        List.getElem_take, List.getElem_range, List.getElem_cons, List.getElem_map,
        List.getElem_drop]
      split
      · rfl
      · split <;> omega
  · refine List.eq_replicate_iff.mpr ⟨by simp, fun w hw => ?_⟩
    obtain hw | hw := List.mem_append.mp hw
    · exact List.eq_of_mem_replicate (List.mem_of_mem_take hw)
    · obtain rfl | hw := List.mem_cons.mp hw
      · rfl
      · exact List.eq_of_mem_replicate (List.mem_of_mem_drop hw)

theorem stop_asciiLine {i : Nat} (h : i < s.length) : (asciiLine s).stop i = i + 1 := by
  have hlen : (asciiLine s).offsets.length = s.length := length_asciiLine
  unfold stop
  rw [hlen]
  split
  · rename_i hlt
    exact offset_asciiLine hlt
  · rw [bytes_asciiLine]
    omega

theorem stopOf_asciiLine {start len : Nat} (h : start + len ≤ s.length) :
    (asciiLine s).stopOf start len = start + len := by
  unfold stopOf
  rw [length_asciiLine]
  split
  · rw [bytes_asciiLine]
    omega
  · exact offset_asciiLine (by omega)

theorem sub_asciiLine {start len : Nat} (h : start + len ≤ s.length) :
    (asciiLine s).sub start len = asciiLine ((s.drop start).take len) := by
  unfold sub
  rw [length_asciiLine]
  split
  · have hlen : len = 0 ∨ s.length ≤ start := by omega
    have hnil : (s.drop start).take len = [] := by
      obtain rfl | hs := hlen
      · rfl
      · rw [List.drop_of_length_le hs, List.take_nil]
    rw [hnil, asciiLine_nil]
  · rename_i hin
    have hmin : (min (len : Int) ((s.length : Int) - start)).toNat = len := by omega
    have hstart : (start : Int).toNat = start := rfl
    simp only [hmin, hstart, stopOf_asciiLine h, offset_asciiLine (s := s) (i := start) (by omega)]
    simp only [asciiLine, slice, UnicodeString.mk.injEq, Nat.add_sub_cancel_left, true_and,
      List.length_take, List.length_drop]
    constructor
    · apply List.ext_getElem
      · simp
      · intro i h₁ h₂
        simp only [List.getElem_map, List.getElem_take, List.getElem_drop, List.getElem_range]
        omega
    · simp [List.take_replicate, List.drop_replicate]

theorem clusterAt_asciiLine {i : Nat} (h : i < s.length) :
    (asciiLine s).clusterAt i = .ok [s[i]] := by
  unfold clusterAt
  rw [if_pos (by rw [length_asciiLine]; omega), Int.toNat_natCast, offset_asciiLine h,
    stop_asciiLine h]
  simp only [slice, bytes_asciiLine, Nat.add_sub_cancel_left, Except.ok.injEq]
  rw [List.drop_eq_getElem_cons h]
  rfl

theorem split_asciiLine :
    (asciiLine (l ++ r)).split l.length = (asciiLine l, asciiLine r) := by
  unfold split
  rw [length_asciiLine, List.length_append]
  split
  · have hl : l = [] := List.length_eq_zero_iff.mp (by omega)
    rw [hl, asciiLine_nil]
    rfl
  · split
    · have hr : r = [] := List.length_eq_zero_iff.mp (by omega)
      rw [hr, List.append_nil, asciiLine_nil]
    · have hbefore := @sub_asciiLine (l ++ r) 0 l.length (by simp)
      have hafter := @sub_asciiLine (l ++ r) l.length r.length (by simp)
      have hlen : ((l.length + r.length : Nat) : Int) - l.length = r.length := by omega
      rw [List.drop_zero, List.take_left] at hbefore
      rw [List.drop_left, List.take_length] at hafter
      rw [hlen, hafter]
      exact congrArg (·, asciiLine r) hbefore

section
variable [Ucd]

theorem delete_asciiLine (hc : c < 128) :
    (asciiLine (l ++ c :: r)).delete l.length = asciiLine (l ++ r) := by
  have hlt : l.length < (l ++ c :: r).length := by simp
  have hascii : (asciiLine (l ++ c :: r)).isAsciiAt l.length = true := by
    have hbyte : (l ++ c :: r).getD l.length 0 = c := by
      simp [List.getD_eq_getElem?_getD]
    have hwidth : (asciiLine (l ++ c :: r)).widths.getD l.length 0 = 1 := by
      simp [asciiLine, List.getD_eq_getElem?_getD]
    simp only [isAsciiAt, stop_asciiLine hlt, offset_asciiLine hlt, bytes_asciiLine, hbyte, hwidth,
      Nat.add_sub_cancel_left]
    simpa using hc
  have hpos : (l.length : Int).toNat = l.length := rfl
  unfold delete
  rw [length_asciiLine, if_neg (by omega)]
  simp only [hpos, hascii, if_true, offset_asciiLine hlt, stop_asciiLine hlt, bytes_asciiLine]
  simp only [asciiLine, UnicodeString.mk.injEq]
  have hlen : l.length + (r.length + 1) - (l.length + 1) = r.length := by omega
  refine ⟨by simp [List.drop_append], ?_, ?_⟩
  · apply List.ext_getElem
    · simp [hlen]
    · intro i h₁ h₂
      simp only [List.getElem_append, List.length_take, List.length_range, List.length_append,
        List.getElem_take, List.getElem_range, List.getElem_map, List.getElem_drop]
      split
      · rfl
      · omega
  · refine List.eq_replicate_iff.mpr ⟨by simp [hlen], fun w hw => ?_⟩
    obtain hw | hw := List.mem_append.mp hw
    · exact List.eq_of_mem_replicate (List.mem_of_mem_take hw)
    · exact List.eq_of_mem_replicate (List.mem_of_mem_drop hw)

/-! ## Reading -/

theorem ucharWidth_printable (hucd : PrintableAscii) (h : 32 ≤ c ∧ c < 127) :
    ucharWidth (Char.ofUInt8 c) = 1 := by
  obtain ⟨h₁, h₂⟩ := toNat_ofUInt8 h
  rw [ucharWidth, hucd.width _ h₁ h₂]
  rfl

theorem segment_printable (hucd : PrintableAscii) {before : List Char}
    (hbefore : ∀ b ∈ before, 32 ≤ b.toNat ∧ b.toNat < 127) (hs : Printable s) (start : Nat) :
    segment before start 1 (withPositions (start + 1) (s.map Char.ofUInt8)) =
      (List.range' start (s.length + 1)).map fun i => (i, 1) := by
  induction s generalizing before start with
  | nil => rfl
  | cons c s ih =>
    have hc := hs c (by simp)
    obtain ⟨h₁, h₂⟩ := toNat_ofUInt8 hc
    have hbefore' : ∀ b ∈ before ++ [Char.ofUInt8 c], 32 ≤ b.toNat ∧ b.toNat < 127 := by
      intro b hb
      obtain hb | hb := List.mem_append.mp hb
      · exact hbefore b hb
      · rw [List.mem_singleton.mp hb]
        exact ⟨h₁, h₂⟩
    simp only [List.map_cons, withPositions, segment, hucd.boundary before _ hbefore h₁ h₂, if_true,
      encodeChar_ascii (lt_of_printable hc), List.length_singleton, ucharWidth_printable hucd hc]
    rw [ih hbefore' (fun c hc => hs c (List.mem_cons_of_mem _ hc)), List.length_cons,
      List.range'_succ (n := s.length + 1), List.map_cons]

/-- A printable text reads as its line. -/
theorem ofString_asciiLine (hucd : PrintableAscii) (hs : Printable s) :
    ofString s = .ok (asciiLine s) := by
  have hdecode : Utf8.decode s = some (s.map Char.ofUInt8) := by
    have h := Utf8.decode_encode (s.map Char.ofUInt8)
    rwa [encode_chars hs] at h
  cases s with
  | nil => rfl
  | cons c s =>
    have hc := hs c (by simp)
    have hs' : Printable s := fun c hc => hs c (List.mem_cons_of_mem _ hc)
    obtain ⟨h₁, h₂⟩ := toNat_ofUInt8 hc
    have hmark : Char.ofUInt8 c ≠ byteOrderMark := by
      intro h
      rw [h] at h₂
      exact absurd h₂ (by decide)
    have hfirst : ∀ b ∈ [Char.ofUInt8 c], 32 ≤ b.toNat ∧ b.toNat < 127 := by
      intro b hb
      rw [List.mem_singleton.mp hb]
      exact ⟨h₁, h₂⟩
    have hsegment := segment_printable hucd hfirst hs'
    unfold ofString
    rw [if_neg (by simp), hdecode]
    simp only [List.map_cons, codepoints, if_neg hmark, withPositions,
      encodeChar_ascii (lt_of_printable hc), List.length_singleton, isCombiner,
      hucd.isMark _ h₁ h₂, Bool.false_eq_true, if_false, ucharWidth_printable hucd hc]
    rw [hsegment 0]
    simp only [asciiLine, List.map_map, List.length_cons, Except.ok.injEq, UnicodeString.mk.injEq,
      true_and]
    constructor
    · rw [List.range_eq_range']
      exact List.map_id _
    · refine List.eq_replicate_iff.mpr ⟨by simp, fun w hw => ?_⟩
      obtain ⟨i, -, rfl⟩ := List.mem_map.mp hw
      rfl

theorem append_asciiLine (hucd : PrintableAscii) (hl : Printable l) (hr : Printable r) :
    (asciiLine l).append (asciiLine r) = asciiLine (l ++ r) := by
  unfold append
  rw [isEmpty_asciiLine, isEmpty_asciiLine, bytes_asciiLine, bytes_asciiLine,
    ofString_asciiLine hucd (hl.append hr)]
  cases l with
  | nil => rfl
  | cons c l =>
    cases r with
    | nil => rw [List.append_nil]; rfl
    | cons d r => rfl

theorem concat_asciiLine (hucd : PrintableAscii) {a b c : Bytes} (ha : Printable a)
    (hb : Printable b) (hc : Printable c) :
    concat [asciiLine a, asciiLine b, asciiLine c] = asciiLine (a ++ b ++ c) := by
  have hbytes : [asciiLine a, asciiLine b, asciiLine c].flatMap toBytes = a ++ b ++ c := by
    simp
  unfold concat
  rw [hbytes, ofString_asciiLine hucd ((ha.append hb).append hc)]

theorem deleteRange_asciiLine (hucd : PrintableAscii) (hr : Printable r) (hne : l ≠ []) :
    (asciiLine (l ++ r)).deleteRange 0 l.length = asciiLine r := by
  have hpos : 0 < l.length := List.length_pos_iff.mpr hne
  have hmin : (min (l.length : Int) (((l ++ r).length : Int) - 0)).toNat = l.length := by
    rw [List.length_append]
    omega
  have hlen : (l ++ r).length = l.length + r.length := List.length_append
  have hstop := @stopOf_asciiLine (l ++ r) 0 l.length (by omega)
  have hstart : (asciiLine (l ++ r)).offset 0 = 0 := offset_asciiLine (by omega)
  unfold deleteRange
  rw [length_asciiLine, if_neg (by omega)]
  simp only [hmin, Int.toNat_zero, hstart, hstop, Nat.zero_add, reparseWithout, bytes_asciiLine,
    List.take_zero, List.nil_append, List.drop_left, ofString_asciiLine hucd hr]

end

end UnicodeString
end Raoui
