import Raoui.Text.UnicodeString

/-!
# Raoui.Text.Clusters

A Unicode string as its grapheme clusters. `ofClusters` lays clusters out as bytes, offsets and
widths; `lead` is what precedes the first one, a byte-order mark the parser dropped. A string is
well formed when it is such a layout, and every operation keeps it so.

* `ofString_cases`: what parsing gives.
* `clusterCount_append_le`: a text has no more clusters on its own than as the start of a longer one.
* `insertString_cases`, `WellFormed.le_length_delete`, `WellFormed.le_length_append`: how many clusters
  an edit leaves.
-/

namespace Raoui
namespace UnicodeString

open Utf8 (encode)

/-- A cluster: its characters and its display width. -/
abbrev Cluster := List Char × Nat

def text (cs : List Cluster) : List Char := cs.flatMap Prod.fst

/-- The offsets of clusters laid out from `pos` on. -/
def starts : Nat → List Cluster → List Nat
  | _, [] => []
  | pos, c :: cs => pos :: starts (pos + (encode c.1).length) cs

def ofClusters (lead : List Char) (cs : List Cluster) : UnicodeString :=
  ⟨encode (lead ++ text cs), starts (encode lead).length cs, cs.map Prod.snd⟩

def WellFormed (t : UnicodeString) : Prop :=
  ∃ lead cs, (∀ c ∈ cs, c.1 ≠ []) ∧ t = ofClusters lead cs

/-! ## Layout -/

@[simp] theorem text_nil : text [] = [] := rfl

@[simp] theorem text_cons (c : Cluster) (cs : List Cluster) : text (c :: cs) = c.1 ++ text cs := rfl

@[simp] theorem text_append (cs ds : List Cluster) : text (cs ++ ds) = text cs ++ text ds := by
  simp [text]

@[simp] theorem starts_length (pos : Nat) (cs : List Cluster) : (starts pos cs).length = cs.length := by
  induction cs generalizing pos with
  | nil => rfl
  | cons c cs ih => simp [starts, ih]

theorem starts_add (pos k : Nat) (cs : List Cluster) :
    starts (pos + k) cs = (starts pos cs).map (· + k) := by
  induction cs generalizing pos with
  | nil => rfl
  | cons c cs ih =>
    simp only [starts, List.map_cons, List.cons.injEq, true_and]
    rw [← ih, Nat.add_right_comm]

theorem starts_append (pos : Nat) (cs ds : List Cluster) :
    starts pos (cs ++ ds) = starts pos cs ++ starts (pos + (encode (text cs)).length) ds := by
  induction cs generalizing pos with
  | nil => simp [starts]
  | cons c cs ih => simp [starts, ih, Nat.add_assoc]

theorem starts_getD (pos : Nat) (cs : List Cluster) {i : Nat} (h : i < cs.length) :
    (starts pos cs).getD i 0 = pos + (encode (text (cs.take i))).length := by
  induction cs generalizing pos i with
  | nil => simp at h
  | cons c cs ih =>
    cases i with
    | zero => simp [starts]
    | succ i =>
      simp only [starts, List.getD_cons_succ, List.take_succ_cons, text_cons, Utf8.encode_append,
        List.length_append]
      rw [ih _ (by simpa using h), Nat.add_assoc]

theorem starts_take (pos : Nat) (cs : List Cluster) (k : Nat) :
    (starts pos cs).take k = starts pos (cs.take k) := by
  induction cs generalizing pos k with
  | nil => simp [starts]
  | cons c cs ih =>
    cases k with
    | zero => rfl
    | succ k => simp [starts, ih]

theorem starts_drop (pos : Nat) (cs : List Cluster) (k : Nat) :
    (starts pos cs).drop k = starts (pos + (encode (text (cs.take k))).length) (cs.drop k) := by
  induction cs generalizing pos k with
  | nil => simp [starts]
  | cons c cs ih =>
    cases k with
    | zero => simp
    | succ k => simp [starts, ih, Nat.add_assoc]

section
variable {lead : List Char} {cs : List Cluster}

@[simp] theorem length_ofClusters : (ofClusters lead cs).length = cs.length := by
  simp [ofClusters, length]

theorem bytes_ofClusters : (ofClusters lead cs).bytes = encode (lead ++ text cs) := rfl

/-- Where cluster `i` starts, or the text ends. -/
theorem offset_ofClusters {i : Nat} (h : i < cs.length) :
    (ofClusters lead cs).offset i = (encode (lead ++ text (cs.take i))).length := by
  rw [Utf8.encode_append, List.length_append, ← starts_getD _ _ h]
  rfl

theorem stopOf_ofClusters {i n : Nat} :
    (ofClusters lead cs).stopOf i n = (encode (lead ++ text (cs.take (i + n)))).length := by
  unfold stopOf
  split
  · rename_i h
    rw [length_ofClusters] at h
    rw [List.take_of_length_le h]
    rfl
  · rename_i h
    rw [length_ofClusters] at h
    exact offset_ofClusters (by omega)

theorem stop_ofClusters {i : Nat} : (ofClusters lead cs).stop i =
    (encode (lead ++ text (cs.take (i + 1)))).length := by
  have : (ofClusters lead cs).stopOf i 1 = _ := stopOf_ofClusters
  rw [← this]
  unfold stop stopOf length
  split <;> rename_i h
  · rw [if_neg (by omega)]
  · rw [if_pos (by omega)]

theorem encode_take_drop (k : Nat) : encode (lead ++ text cs) =
    encode (lead ++ text (cs.take k)) ++ encode (text (cs.drop k)) := by
  rw [← Utf8.encode_append, List.append_assoc, ← text_append, List.take_append_drop]

theorem bytes_take (k : Nat) : (ofClusters lead cs).bytes.take
    (encode (lead ++ text (cs.take k))).length = encode (lead ++ text (cs.take k)) := by
  have hsplit : encode (lead ++ text cs) = _ := encode_take_drop k
  rw [bytes_ofClusters, hsplit, List.take_left]

theorem bytes_drop (k : Nat) : (ofClusters lead cs).bytes.drop
    (encode (lead ++ text (cs.take k))).length = encode (text (cs.drop k)) := by
  have hsplit : encode (lead ++ text cs) = _ := encode_take_drop k
  rw [bytes_ofClusters, hsplit, List.drop_left]

end

theorem wellFormed_ofClusters {lead : List Char} {cs : List Cluster} (h : ∀ c ∈ cs, c.1 ≠ []) :
    WellFormed (ofClusters lead cs) := ⟨lead, cs, h, rfl⟩

theorem wellFormed_empty : WellFormed empty := ⟨[], [], by simp, rfl⟩

theorem WellFormed.widths_length {t : UnicodeString} (h : WellFormed t) :
    t.widths.length = t.length := by
  obtain ⟨lead, cs, -, rfl⟩ := h
  simp [ofClusters, length]

/-- The bytes left of a cluster, and those from it on, are texts. -/
theorem WellFormed.decodes {t : UnicodeString} (h : WellFormed t) :
    ∃ cs, t.bytes = encode cs := by
  obtain ⟨lead, cs, -, rfl⟩ := h
  exact ⟨_, rfl⟩

theorem WellFormed.length_of_isEmpty {t : UnicodeString} (h : WellFormed t)
    (he : t.isEmpty = true) : t.length = 0 := by
  obtain ⟨lead, cs, hcs, rfl⟩ := h
  have hnil : encode (lead ++ text cs) = [] := by simpa [isEmpty, ofClusters] using he
  cases cs with
  | nil => rfl
  | cons c cs =>
    exfalso
    obtain ⟨u, us, hu⟩ := List.exists_cons_of_ne_nil (hcs c (List.mem_cons_self ..))
    simp only [text_cons, hu, List.cons_append, Utf8.encode_append, Utf8.encode_cons,
      List.append_eq_nil_iff] at hnil
    exact Utf8.encodeChar_ne_nil u hnil.2.1

/-- A cluster has bytes of its own, within the text. -/
theorem WellFormed.offset_lt_stop {t : UnicodeString} (h : WellFormed t) {i : Nat}
    (hi : i < t.length) : t.offset i < t.stop i ∧ t.stop i ≤ t.bytes.length := by
  obtain ⟨lead, cs, hcs, rfl⟩ := h
  rw [length_ofClusters] at hi
  have hnext : text (cs.take (i + 1)) = text (cs.take i) ++ (cs[i]).1 := by
    rw [← List.take_append_getElem hi, text_append, text_cons, text_nil, List.append_nil]
  have hpos : 0 < (encode (cs[i]).1).length := by
    obtain ⟨u, us, hu⟩ := List.exists_cons_of_ne_nil (hcs _ (List.getElem_mem hi))
    have := Utf8.encodeChar_length_pos u
    rw [hu, Utf8.encode_cons, List.length_append]
    omega
  have hsplit : encode (lead ++ text cs) = _ := encode_take_drop (i + 1)
  have hall := congrArg List.length hsplit
  rw [List.length_append] at hall
  rw [offset_ofClusters hi, stop_ofClusters, bytes_ofClusters, hall]
  refine ⟨?_, Nat.le_add_right ..⟩
  rw [hnext, ← List.append_assoc, Utf8.encode_append (lead ++ text _), List.length_append]
  omega

/-- What is cut out: cluster `i`. -/
theorem starts_eraseIdx {pos : Nat} {cs : List Cluster} {i : Nat} (hi : i < cs.length) :
    starts pos (cs.take i ++ cs.drop (i + 1)) = (starts pos cs).take i ++
      ((starts pos cs).drop (i + 1)).map (· - (encode (cs.getD i ([], 0)).1).length) := by
  rw [starts_append, starts_take, starts_drop]
  congr 1
  have hsplit : text (cs.take (i + 1)) = text (cs.take i) ++ (cs.getD i ([], 0)).1 := by
    rw [List.take_succ_eq_append_getElem hi, text_append]
    simp [text, List.getElem?_eq_getElem hi]
  rw [hsplit, Utf8.encode_append, List.length_append, ← Nat.add_assoc,
    starts_add (pos + _) (encode (cs.getD i ([], 0)).1).length, List.map_map]
  exact (List.map_id _).symm.trans (List.map_congr_left fun x _ => (Nat.add_sub_cancel x _).symm)

/-- Text behind some clusters goes to the last of them, or to what precedes the first. -/
theorem exists_absorb (lead : List Char) (cs : List Cluster) (more : List Char)
    (hcs : ∀ c ∈ cs, c.1 ≠ []) : ∃ lead' cs', (∀ c ∈ cs', c.1 ≠ []) ∧
      lead' ++ text cs' = lead ++ text cs ++ more ∧ cs'.map Prod.snd = cs.map Prod.snd ∧
      starts (encode lead').length cs' = starts (encode lead).length cs := by
  rcases List.eq_nil_or_concat cs with rfl | ⟨cs, c, rfl⟩
  · exact ⟨lead ++ more, [], by simp, by simp, rfl, rfl⟩
  · refine ⟨lead, cs ++ [(c.1 ++ more, c.2)], ?_, ?_, ?_, ?_⟩
    · intro d hd
      rcases List.mem_append.mp hd with hd | hd
      · exact hcs d (by simp [hd])
      · have hc := hcs c (by simp)
        simp only [List.mem_singleton] at hd
        subst hd
        simp [hc]
    · simp
    · simp
    · simp [starts_append, starts]

/-- Clusters of one text and, behind them, those of another. -/
theorem wellFormed_join {lead mark : List Char} {cs ds : List Cluster} (hcs : ∀ c ∈ cs, c.1 ≠ [])
    (hds : ∀ c ∈ ds, c.1 ≠ []) :
    WellFormed ⟨encode (lead ++ text cs) ++ encode (mark ++ text ds),
      starts (encode lead).length cs ++ (starts (encode mark).length ds).map
        (· + (encode (lead ++ text cs)).length),
      cs.map Prod.snd ++ ds.map Prod.snd⟩ := by
  obtain ⟨lead', cs', hcs', htext, hwidths, hstarts⟩ := exists_absorb lead cs mark hcs
  refine ⟨lead', cs' ++ ds, ?_, ?_⟩
  · intro c hc
    rcases List.mem_append.mp hc with hc | hc
    · exact hcs' c hc
    · exact hds c hc
  · have hlen : (encode lead').length + (encode (text cs')).length =
        (encode mark).length + (encode (lead ++ text cs)).length := by
      rw [← List.length_append, ← Utf8.encode_append, htext, Utf8.encode_append, List.length_append,
        Nat.add_comm]
    simp only [ofClusters, UnicodeString.mk.injEq]
    refine ⟨?_, ?_, ?_⟩
    · rw [text_append, ← List.append_assoc, htext]
      simp
    · rw [starts_append, hstarts, hlen, starts_add]
    · simp [hwidths]

/-- The byte an ASCII character is encoded as. -/
theorem encode_ascii {c : UInt8} (h : c < 128) : encode [Char.ofUInt8 c] = [c] := by
  have hlt : c.toNat < 128 := UInt8.lt_iff_toNat_lt.mp h
  have hval : (Char.ofUInt8 c).val.toNat = c.toNat := UInt8.toNat_toUInt32 c
  simp only [Utf8.encode_cons, Utf8.encode_nil, List.append_nil, Utf8.encodeChar,
    String.utf8EncodeChar, hval]
  rw [if_pos (by omega)]
  simp

/-- Where `insert_string` cuts the text. -/
theorem insertBytePos {lead : List Char} {cs : List Cluster} {pos : Int} (hpos : 0 ≤ pos) :
    (if pos ≥ (ofClusters lead cs).length then (ofClusters lead cs).bytes.length
      else (ofClusters lead cs).offset pos.toNat) =
        (encode (lead ++ text (cs.take (min pos cs.length).toNat))).length := by
  rw [length_ofClusters]
  split
  · rw [show (min pos (cs.length : Int)).toNat = cs.length by omega, List.take_length]
    rfl
  · rw [offset_ofClusters (by omega), show (min pos (cs.length : Int)).toNat = pos.toNat by omega]

theorem insertAsciiWidth1_length {t : UnicodeString} {pos : Int} {str : Bytes}
    (hok : 0 ≤ pos ∧ isSingleAsciiWidth1 str = true) :
    (t.insertAsciiWidth1 pos str hok).length = t.length + 1 := by
  have hlen : t.length = t.offsets.length := rfl
  simp only [UnicodeString.insertAsciiWidth1, length, List.length_append, List.length_take,
    List.length_cons, List.length_map, List.length_drop]
  omega

theorem isSingleAsciiWidth1_iff {str : Bytes} :
    isSingleAsciiWidth1 str = true ↔ ∃ c, str = [c] ∧ 32 ≤ c ∧ c < 127 := by
  unfold isSingleAsciiWidth1
  split
  · simp
  · rename_i hnot
    refine iff_of_false Bool.false_ne_true ?_
    rintro ⟨c, rfl, -⟩
    exact hnot c rfl

/-- The fast insertion puts one cluster between the others. -/
theorem insertAsciiWidth1_ofClusters {lead : List Char} {cs : List Cluster} {pos : Int} {c : UInt8}
    (hok : 0 ≤ pos ∧ isSingleAsciiWidth1 [c] = true) (hc : c < 128) :
    (ofClusters lead cs).insertAsciiWidth1 pos [c] hok =
      ofClusters lead (cs.take (min pos cs.length).toNat ++ ([Char.ofUInt8 c], 1) ::
        cs.drop (min pos cs.length).toNat) := by
  have hencode : encode [Char.ofUInt8 c] = [c] := encode_ascii hc
  have hcut : (if (min pos (cs.length : Int)).toNat = cs.length
      then (ofClusters lead cs).bytes.length
      else (ofClusters lead cs).offset (min pos (cs.length : Int)).toNat) =
        (encode (lead ++ text (cs.take (min pos cs.length).toNat))).length := by
    rw [← insertBytePos hok.1, length_ofClusters]
    by_cases hge : (cs.length : Int) ≤ pos
    · rw [if_pos (by omega), if_pos hge]
    · have hpos := hok.1
      rw [if_neg (by omega), if_neg (by omega), show (min pos (cs.length : Int)).toNat = pos.toNat
        by omega]
  simp only [UnicodeString.insertAsciiWidth1, length_ofClusters, hcut, bytes_take, bytes_drop]
  simp only [ofClusters, UnicodeString.mk.injEq]
  refine ⟨?_, ?_, ?_⟩
  · simp only [text_append, text_cons, Utf8.encode_append, hencode, List.append_assoc]
  · rw [starts_append, starts_take, starts, hencode, starts_drop, ← List.length_append,
      ← Utf8.encode_append, List.length_singleton, starts_add]
  · simp

theorem WellFormed.insertAsciiWidth1 {t : UnicodeString} (h : WellFormed t) {pos : Int} {str : Bytes}
    (hok : 0 ≤ pos ∧ isSingleAsciiWidth1 str = true) :
    WellFormed (t.insertAsciiWidth1 pos str hok) := by
  obtain ⟨lead, cs, hcs, rfl⟩ := h
  obtain ⟨c, rfl, -, hc⟩ := isSingleAsciiWidth1_iff.mp hok.2
  rw [insertAsciiWidth1_ofClusters hok (Nat.lt_trans (UInt8.lt_iff_toNat_lt.mp hc) (by decide))]
  refine wellFormed_ofClusters fun d hd => ?_
  rcases List.mem_append.mp hd with hd | hd
  · exact hcs d (List.mem_of_mem_take hd)
  · rcases List.mem_cons.mp hd with rfl | hd
    · exact List.cons_ne_nil _ _
    · exact hcs d (List.mem_of_mem_drop hd)

/-! ## Cutting -/

theorem slice_ofClusters {lead : List Char} {cs : List Cluster} (i n : Nat) :
    slice (ofClusters lead cs).bytes (encode (lead ++ text (cs.take i))).length
      (encode (lead ++ text (cs.take (i + n)))).length = encode (text ((cs.drop i).take n)) := by
  have hsplit : text (cs.drop i) = text ((cs.drop i).take n) ++ text ((cs.drop i).drop n) := by
    rw [← text_append, List.take_append_drop]
  rw [slice, bytes_drop, hsplit, List.take_add]
  simp only [text_append, Utf8.encode_append, List.length_append]
  rw [show ∀ a b c : Nat, a + (b + c) - (a + b) = c by omega, List.take_left]

theorem starts_shift_back (pos : Nat) (cs : List Cluster) :
    (starts pos cs).map (· - pos) = starts 0 cs := by
  have := starts_add 0 pos cs
  rw [Nat.zero_add] at this
  rw [this, List.map_map]
  calc (starts 0 cs).map ((· - pos) ∘ (· + pos)) = (starts 0 cs).map id :=
        List.map_congr_left fun x _ => Nat.add_sub_cancel x pos
    _ = starts 0 cs := List.map_id _

theorem sub_ofClusters {lead : List Char} {cs : List Cluster} {start len : Int} (hs : 0 ≤ start)
    (hl : 0 < len) (hlt : start < cs.length) : (ofClusters lead cs).sub start len =
      ofClusters [] ((cs.drop start.toNat).take len.toNat) := by
  have hcount : (min len (((ofClusters lead cs).length : Int) - start)).toNat =
      min len.toNat (cs.length - start.toNat) := by
    rw [length_ofClusters]
    omega
  have hn : start.toNat < cs.length := by omega
  have htake : (cs.drop start.toNat).take (min len.toNat (cs.length - start.toNat)) =
      (cs.drop start.toNat).take len.toNat := by
    rw [List.take_eq_take_iff]
    simp only [List.length_drop]
    omega
  rw [sub, if_neg (by rw [length_ofClusters]; omega)]
  simp only [hcount]
  rw [offset_ofClusters hn, stopOf_ofClusters, slice_ofClusters, htake]
  have hoffsets : ((ofClusters lead cs).offsets.drop start.toNat).take
      (min len.toNat (cs.length - start.toNat)) =
        starts (encode (lead ++ text (cs.take start.toNat))).length
          ((cs.drop start.toNat).take len.toNat) := by
    rw [← htake, ← starts_take, Utf8.encode_append, List.length_append, ← starts_drop]
    rfl
  have hwidths : ((ofClusters lead cs).widths.drop start.toNat).take
      (min len.toNat (cs.length - start.toNat)) =
        ((cs.drop start.toNat).take len.toNat).map Prod.snd := by
    rw [← htake, List.map_take, List.map_drop]
    rfl
  rw [hoffsets, hwidths, starts_shift_back]
  rfl

theorem WellFormed.sub {t : UnicodeString} (h : WellFormed t) (start len : Int) :
    WellFormed (t.sub start len) := by
  obtain ⟨lead, cs, hcs, rfl⟩ := h
  by_cases hin : 0 ≤ start ∧ 0 < len ∧ start < cs.length
  · obtain ⟨hs, hl, hlt⟩ := hin
    rw [sub_ofClusters hs hl hlt]
    exact wellFormed_ofClusters fun c hc => hcs c (List.mem_of_mem_drop (List.mem_of_mem_take hc))
  · rw [UnicodeString.sub, if_pos (by rw [length_ofClusters]; omega)]
    exact wellFormed_empty

theorem WellFormed.split {t : UnicodeString} (h : WellFormed t) (pos : Int) :
    WellFormed (t.split pos).1 ∧ WellFormed (t.split pos).2 := by
  unfold UnicodeString.split
  split
  · exact ⟨wellFormed_empty, h⟩
  · split
    · exact ⟨h, wellFormed_empty⟩
    · exact ⟨h.sub _ _, h.sub _ _⟩

theorem sub_length {t : UnicodeString} {start len : Int} (hs : 0 ≤ start) (hl : 0 ≤ len) :
    ((t.sub start len).length : Int) = max 0 (min len (t.length - start)) := by
  have hlen : t.length = t.offsets.length := rfl
  unfold sub
  split
  · simp only [empty, length, List.length_nil]
    omega
  · simp only [length, List.length_map, List.length_take, List.length_drop]
    omega

/-! ## Parsing -/

/-- The byte-order mark at the start of a text, and what follows it. -/
def stripMark : List Char → List Char × List Char
  | [] => ([], [])
  | u :: rest => if u = byteOrderMark then ([u], rest) else ([], u :: rest)

theorem stripMark_append (cs : List Char) : (stripMark cs).1 ++ (stripMark cs).2 = cs := by
  cases cs with
  | nil => rfl
  | cons u rest =>
    by_cases h : u = byteOrderMark
    · simp [stripMark, h]
    · simp [stripMark, h]

theorem stripMark_append_snd {cs rest : List Char} {u : Char} (h : (stripMark cs).2 = u :: rest)
    (ds : List Char) : (stripMark (cs ++ ds)).2 = u :: (rest ++ ds) := by
  cases cs with
  | nil => cases h
  | cons v cs =>
    by_cases hv : v = byteOrderMark
    · simp_all [stripMark]
    · simp_all [stripMark]

theorem codepoints_eq (cs : List Char) :
    codepoints cs = withPositions (encode (stripMark cs).1).length (stripMark cs).2 := by
  cases cs with
  | nil => rfl
  | cons u rest =>
    simp only [codepoints, stripMark]
    split <;> simp

section
variable [Ucd]

/-- The clusters of a text of which `before` has been read, `cur` in the current cluster. -/
def clustersFrom (before cur : List Char) (width : Nat) : List Char → List Cluster
  | [] => [(cur, width)]
  | u :: rest =>
    if Ucd.boundary before u then
      (cur, width) :: clustersFrom (before ++ [u]) [u] (ucharWidth u) rest
    else clustersFrom (before ++ [u]) (cur ++ [u]) (max width (ucharWidth u)) rest

theorem clustersFrom_ne_nil {before cur : List Char} {width : Nat} {rest : List Char}
    (hcur : cur ≠ []) : ∀ c ∈ clustersFrom before cur width rest, c.1 ≠ [] := by
  induction rest generalizing before cur width with
  | nil =>
    intro c hc
    simp only [clustersFrom, List.mem_singleton] at hc
    subst hc
    exact hcur
  | cons u rest ih =>
    intro c hc
    unfold clustersFrom at hc
    split at hc
    · rcases List.mem_cons.mp hc with rfl | hc
      · exact hcur
      · exact ih (by simp) c hc
    · exact ih (by simp) c hc

theorem text_clustersFrom (before cur : List Char) (width : Nat) (rest : List Char) :
    text (clustersFrom before cur width rest) = cur ++ rest := by
  induction rest generalizing before cur width with
  | nil => simp [clustersFrom]
  | cons u rest ih =>
    unfold clustersFrom
    split
    · simp [ih]
    · simp [ih]

/-- Reading on only adds clusters. -/
theorem clustersFrom_length_le (before cur : List Char) (width : Nat) (rest more : List Char) :
    (clustersFrom before cur width rest).length ≤
      (clustersFrom before cur width (rest ++ more)).length := by
  induction rest generalizing before cur width with
  | nil =>
    cases more with
    | nil => simp
    | cons u more =>
      have : clustersFrom before cur width ([] ++ u :: more) ≠ [] := by
        simp only [List.nil_append, clustersFrom]
        split
        · simp
        · intro hnil
          have := text_clustersFrom (before ++ [u]) (cur ++ [u]) (max width (ucharWidth u)) more
          rw [hnil] at this
          simp at this
      exact Nat.succ_le_of_lt (List.length_pos_iff.mpr this)
  | cons u rest ih =>
    simp only [List.cons_append, clustersFrom]
    split
    · simpa using ih _ _ _
    · exact ih _ _ _

theorem segment_eq (before cur : List Char) (start width : Nat) (rest : List Char) :
    (segment before start width (withPositions (start + (encode cur).length) rest)).map Prod.fst =
        starts start (clustersFrom before cur width rest) ∧
      (segment before start width (withPositions (start + (encode cur).length) rest)).map Prod.snd =
        (clustersFrom before cur width rest).map Prod.snd := by
  induction rest generalizing before cur start width with
  | nil => simp [withPositions, segment, clustersFrom, starts]
  | cons u rest ih =>
    simp only [withPositions, segment, clustersFrom]
    split
    · have := ih (before ++ [u]) [u] (start + (encode cur).length) (ucharWidth u)
      simp only [Utf8.encode_cons, Utf8.encode_nil, List.append_nil] at this
      simp [this, starts]
    · have := ih (before ++ [u]) (cur ++ [u]) start (max width (ucharWidth u))
      simp only [Utf8.encode_append, Utf8.encode_cons, Utf8.encode_nil, List.append_nil,
        List.length_append, ← Nat.add_assoc] at this
      exact this

/-- What reading a text gives: nothing, or its clusters behind a dropped mark. -/
theorem ofString_cases {s : Bytes} {t : UnicodeString} (h : ofString s = .ok t) :
    ∃ cs, Utf8.decode s = some cs ∧
      (((stripMark cs).2 = [] ∧ t = empty) ∨
        ∃ u rest, (stripMark cs).2 = u :: rest ∧ isCombiner u = false ∧
          t = ofClusters (stripMark cs).1 (clustersFrom [u] [u] (ucharWidth u) rest)) := by
  unfold ofString at h
  split at h
  · rename_i hnil
    cases h
    rw [List.length_eq_zero_iff] at hnil
    subst hnil
    exact ⟨[], rfl, .inl ⟨rfl, rfl⟩⟩
  · split at h
    · cases h
    · rename_i cs hdecode
      refine ⟨cs, hdecode, ?_⟩
      rw [codepoints_eq] at h
      cases hstrip : (stripMark cs).2 with
      | nil =>
        rw [hstrip] at h
        cases h
        exact .inl ⟨rfl, rfl⟩
      | cons u rest =>
        rw [hstrip] at h
        simp only [withPositions] at h
        split at h
        · cases h
        · rename_i hcomb
          cases h
          refine .inr ⟨u, rest, rfl, by simpa using hcomb, ?_⟩
          have hseg := segment_eq [u] [u] (encode (stripMark cs).1).length (ucharWidth u) rest
          simp only [Utf8.encode_cons, Utf8.encode_nil, List.append_nil] at hseg
          have hbytes := Utf8.encode_of_decode hdecode
          rw [← stripMark_append cs, hstrip] at hbytes
          rw [hseg.1, hseg.2, ofClusters, text_clustersFrom, ← hbytes]
          rfl

theorem wellFormed_of_ofString {s : Bytes} {t : UnicodeString} (h : ofString s = .ok t) :
    WellFormed t := by
  obtain ⟨cs, -, ⟨-, rfl⟩ | ⟨u, rest, -, -, rfl⟩⟩ := ofString_cases h
  · exact wellFormed_empty
  · exact wellFormed_ofClusters (clustersFrom_ne_nil (by simp))

theorem bytes_of_ofString {s : Bytes} {t : UnicodeString} (h : ofString s = .ok t) :
    t = empty ∨ t.bytes = s := by
  unfold ofString at h
  split at h
  · cases h
    exact .inl rfl
  · split at h
    · cases h
    · split at h
      · cases h
        exact .inl rfl
      · split at h
        · cases h
        · cases h
          exact .inr rfl

/-! ## Counting -/

/-- How many clusters a text reads as: none when it cannot be read. -/
def clusterCount (s : Bytes) : Nat :=
  match ofString s with
  | .ok t => t.length
  | .error _ => 0

/-- The text has at least `n` clusters, if it can be read at all. -/
def ReadsAs (n : Int) (s : Bytes) : Prop := ∀ u, ofString s = .ok u → n ≤ u.length

theorem clusterCount_of_ok {s : Bytes} {t : UnicodeString} (h : ofString s = .ok t) :
    clusterCount s = t.length := by
  simp [clusterCount, h]

theorem ofString_of_decode {s : Bytes} {cs rest : List Char} {u : Char}
    (hdecode : Utf8.decode s = some cs) (hstrip : (stripMark cs).2 = u :: rest)
    (hcomb : isCombiner u = false) : ∃ t, ofString s = .ok t ∧
      t.length = (clustersFrom [u] [u] (ucharWidth u) rest).length := by
  have hne : s.length ≠ 0 := by
    intro h0
    rw [List.length_eq_zero_iff] at h0
    subst h0
    cases hdecode
    cases hstrip
  unfold ofString
  rw [if_neg hne, hdecode]
  simp only [codepoints_eq, hstrip, withPositions, hcomb, Bool.false_eq_true, if_false]
  refine ⟨_, rfl, ?_⟩
  have hseg := segment_eq [u] [u] (encode (stripMark cs).1).length (ucharWidth u) rest
  simp only [Utf8.encode_cons, Utf8.encode_nil, List.append_nil] at hseg
  simp only [length, hseg.1, starts_length]

/-- A text has no more clusters on its own than as the start of a longer one. -/
theorem clusterCount_append_le (s : Bytes) (ds : List Char) :
    clusterCount s ≤ clusterCount (s ++ encode ds) := by
  cases hs : ofString s with
  | error e => simp [clusterCount, hs]
  | ok t =>
    rw [clusterCount_of_ok hs]
    obtain ⟨cs, hdecode, ⟨-, rfl⟩ | ⟨u, rest, hstrip, hcomb, rfl⟩⟩ := ofString_cases hs
    · exact Nat.zero_le _
    · have hdecode' : Utf8.decode (s ++ encode ds) = some (cs ++ ds) := by
        rw [← Utf8.encode_of_decode hdecode, ← Utf8.encode_append, Utf8.decode_encode]
      have hstrip' := stripMark_append_snd hstrip ds
      obtain ⟨t', ht', hlen⟩ := ofString_of_decode hdecode' hstrip' hcomb
      rw [clusterCount_of_ok ht', hlen, length_ofClusters]
      exact clustersFrom_length_le _ _ _ _ _

/-! ## Editing -/

theorem WellFormed.reparseWithout {t : UnicodeString} (h : WellFormed t) (start stop : Nat) :
    WellFormed (t.reparseWithout start stop) := by
  unfold UnicodeString.reparseWithout
  split
  · rename_i t' ht
    exact wellFormed_of_ofString ht
  · exact h

theorem WellFormed.deleteRange {t : UnicodeString} (h : WellFormed t) (start len : Int) :
    WellFormed (t.deleteRange start len) := by
  unfold UnicodeString.deleteRange
  split
  · exact h
  · exact h.reparseWithout _ _

theorem WellFormed.append {a b : UnicodeString} (ha : WellFormed a) (hb : WellFormed b) :
    WellFormed (a.append b) := by
  unfold UnicodeString.append
  split
  · exact hb
  · split
    · exact ha
    · split
      · rename_i t ht
        exact wellFormed_of_ofString ht
      · exact ha

theorem wellFormed_concat (ts : List UnicodeString) : WellFormed (concat ts) := by
  unfold concat
  split
  · rename_i t ht
    exact wellFormed_of_ofString ht
  · exact wellFormed_empty

theorem concat_length (ts : List UnicodeString) :
    (concat ts).length = clusterCount (ts.flatMap toBytes) := by
  unfold concat clusterCount
  cases ofString (ts.flatMap toBytes) with
  | ok t => rfl
  | error e => rfl

/-- The fast deletion leaves the other clusters as they are. -/
theorem delete_ofClusters {lead : List Char} {cs : List Cluster} {pos : Int} (h0 : 0 ≤ pos)
    (hlt : pos < cs.length) (hascii : (ofClusters lead cs).isAsciiAt pos.toNat = true) :
    (ofClusters lead cs).delete pos =
      ofClusters lead (cs.take pos.toNat ++ cs.drop (pos.toNat + 1)) := by
  have hi : pos.toNat < cs.length := by omega
  rw [UnicodeString.delete, if_neg (by rw [length_ofClusters]; omega)]
  dsimp only
  rw [if_pos hascii]
  rw [isAsciiAt, Bool.and_eq_true, Bool.and_eq_true, decide_eq_true_eq, decide_eq_true_eq,
    offset_ofClusters hi, stop_ofClusters] at hascii
  have hone : (encode (cs.getD pos.toNat ([], 0)).1).length = 1 := by
    have hsplit : cs.take (pos.toNat + 1) = cs.take pos.toNat ++ [cs.getD pos.toNat ([], 0)] := by
      rw [List.take_succ_eq_append_getElem hi]
      simp [List.getElem?_eq_getElem hi]
    have hlen := hascii.1.2
    rw [hsplit, text_append, ← List.append_assoc, Utf8.encode_append, List.length_append] at hlen
    simpa using hlen
  rw [offset_ofClusters hi, stop_ofClusters, bytes_take, bytes_drop]
  simp only [ofClusters, UnicodeString.mk.injEq]
  refine ⟨?_, ?_, ?_⟩
  · rw [← Utf8.encode_append, text_append, List.append_assoc]
  · rw [starts_eraseIdx hi, hone]
  · simp

theorem WellFormed.delete {t : UnicodeString} (h : WellFormed t) (pos : Int) :
    WellFormed (t.delete pos) := by
  by_cases hpos : pos < 0 ∨ pos ≥ t.length
  · rw [UnicodeString.delete, if_pos hpos]
    exact h
  · by_cases hascii : t.isAsciiAt pos.toNat = true
    · obtain ⟨lead, cs, hcs, rfl⟩ := h
      rw [length_ofClusters] at hpos
      rw [delete_ofClusters (by omega) (by omega) hascii]
      refine wellFormed_ofClusters fun c hc => ?_
      rcases List.mem_append.mp hc with hc | hc
      · exact hcs c (List.mem_of_mem_take hc)
      · exact hcs c (List.mem_of_mem_drop hc)
    · rw [UnicodeString.delete, if_neg hpos]
      dsimp only
      rw [if_neg hascii]
      exact h.reparseWithout _ _

/-- Deleting cluster `i` leaves at least `i`, when what remains reads as so many. -/
theorem le_length_delete {t : UnicodeString} {i : Int} (hi0 : 0 ≤ i) (hi : i < t.length)
    (hreads : t.isAsciiAt i.toNat = true ∨
      ReadsAs i (t.bytes.take (t.offset i.toNat) ++ t.bytes.drop (t.stop i.toNat))) :
    i ≤ (t.delete i).length := by
  unfold UnicodeString.delete
  rw [if_neg (by omega)]
  dsimp only
  split
  · have hlen : t.length = t.offsets.length := rfl
    simp only [length, List.length_append, List.length_take, List.length_map, List.length_drop]
    omega
  · rename_i hascii
    unfold UnicodeString.reparseWithout
    split
    · rename_i t' ht
      exact hreads.resolve_left hascii t' ht
    · omega

theorem WellFormed.le_length_append {a b : UnicodeString} (ha : WellFormed a)
    (hreads : b.isEmpty = true ∨ ReadsAs a.length (a.bytes ++ b.bytes)) :
    a.length ≤ (a.append b).length := by
  unfold UnicodeString.append
  split
  · rename_i he
    rw [ha.length_of_isEmpty he]
    exact Nat.zero_le _
  · split
    · exact Nat.le_refl _
    · rename_i hbne
      split
      · rename_i t ht
        exact Int.ofNat_le.mp (hreads.resolve_left hbne t ht)
      · exact Nat.le_refl _

/-- The bytes from the insertion point on. -/
def bytesAfter (t : UnicodeString) (pos : Int) : Bytes :=
  t.bytes.drop (if pos ≥ t.length then t.bytes.length else t.offset pos.toNat)

theorem insertString_cases {t t' : UnicodeString} {pos : Int} {str : Bytes} (ht : WellFormed t)
    (hpos : 0 ≤ pos) (h : t.insertString pos str = .ok t') : WellFormed t' ∧
      ((isSingleAsciiWidth1 str = true ∧ t'.length = t.length + 1) ∨
        ∃ suffix, ofString (str ++ t.bytesAfter pos) = .ok suffix ∧
          isSingleAsciiWidth1 str = false ∧ (t'.length : Int) = min pos t.length + suffix.length) := by
  unfold insertString at h
  split at h
  · rename_i hok
    cases h
    exact ⟨ht.insertAsciiWidth1 hok, .inl ⟨hok.2, insertAsciiWidth1_length hok⟩⟩
  · rename_i hslow
    have hsingle : isSingleAsciiWidth1 str = false := by
      by_contra hne
      exact hslow ⟨hpos, by simpa using hne⟩
    split at h
    · cases h
    · dsimp only at h
      split at h
      · cases h
      · rename_i suffix hsuffix
        cases h
        refine ⟨?_, .inr ⟨suffix, hsuffix, hsingle, ?_⟩⟩
        · obtain ⟨lead, cs, hcs, rfl⟩ := ht
          obtain ⟨mark, ds, hds, rfl⟩ := wellFormed_of_ofString hsuffix
          rw [insertBytePos hpos, bytes_take, length_ofClusters]
          have hjoin := @wellFormed_join lead mark (cs.take (min pos cs.length).toNat) ds
            (fun c hc => hcs c (List.mem_of_mem_take hc)) hds
          simp only [← starts_take, List.map_take] at hjoin
          exact hjoin
        · have hlen : t.length = t.offsets.length := rfl
          have hlen' : suffix.length = suffix.offsets.length := rfl
          simp only [length, List.length_append, List.length_take, List.length_map]
          omega

end

/-! ## Wrapping -/

theorem fitting_le (limit : Int) (w : Nat) (ws : List Nat) : fitting limit w ws ≤ ws.length := by
  induction ws generalizing w with
  | nil => exact Nat.le_refl 0
  | cons cw ws ih =>
    unfold fitting
    split
    · exact Nat.zero_le _
    · exact Nat.succ_le_succ (ih _)

theorem graphemeAtWidth_le {t : UnicodeString} (h : WellFormed t) (w : Int) :
    t.graphemeAtWidth w ≤ t.length := by
  rw [← h.widths_length]
  exact fitting_le _ _ _

theorem wrapRows_length_sum {t : UnicodeString} (h : WellFormed t) (width : Int) (fuel start : Nat)
    (hstart : start ≤ t.length) :
    start + ((wrapRows t width fuel start).map length).sum ≤ t.length := by
  induction fuel generalizing start with
  | zero => simpa [wrapRows] using hstart
  | succ fuel ih =>
    unfold wrapRows
    split
    · simpa using hstart
    · rename_i hlt
      have hfit := fitting_le width 0 (t.widths.drop start)
      rw [List.length_drop, h.widths_length] at hfit
      dsimp only
      split
      · have hsub := @sub_length t start 1 (by omega) (by omega)
        have := ih (start + 1) (by omega)
        simp only [List.map_cons, List.sum_cons]
        omega
      · have hsub := @sub_length t start
          (((start + fitting width 0 (t.widths.drop start) : Nat) : Int) - (start : Nat))
          (by omega) (by omega)
        have := ih (start + fitting width 0 (t.widths.drop start)) (by omega)
        simp only [List.map_cons, List.sum_cons]
        push_cast at hsub ⊢
        omega

/-- The rows a line wraps to have no more clusters than the line. -/
theorem wrap_length_sum {t : UnicodeString} (h : WellFormed t) (width : Int) :
    ((t.wrap width).map length).sum ≤ t.length := by
  have hrows := wrapRows_length_sum h width t.length 0 (Nat.zero_le _)
  unfold wrap
  split
  · simp
  · split
    · simp [empty, length]
    · dsimp only
      split
      · rw [List.map_append, List.sum_append]
        have hempty : ([empty].map length).sum = 0 := rfl
        omega
      · omega

theorem WellFormed.wrapRows {t : UnicodeString} (h : WellFormed t) (width : Int) (fuel start : Nat) :
    ∀ row ∈ UnicodeString.wrapRows t width fuel start, WellFormed row := by
  induction fuel generalizing start with
  | zero => simp [UnicodeString.wrapRows]
  | succ fuel ih =>
    intro row hrow
    unfold UnicodeString.wrapRows at hrow
    split at hrow
    · cases hrow
    · dsimp only at hrow
      split at hrow
      · rcases List.mem_cons.mp hrow with rfl | hrow
        · exact h.sub _ _
        · exact ih _ row hrow
      · rcases List.mem_cons.mp hrow with rfl | hrow
        · exact h.sub _ _
        · exact ih _ row hrow

theorem WellFormed.wrap {t : UnicodeString} (h : WellFormed t) (width : Int) :
    ∀ row ∈ t.wrap width, WellFormed row := by
  intro row hrow
  unfold UnicodeString.wrap at hrow
  split at hrow
  · rw [List.mem_singleton.mp hrow]
    exact h
  · split at hrow
    · rw [List.mem_singleton.mp hrow]
      exact wellFormed_empty
    · dsimp only at hrow
      split at hrow
      · rcases List.mem_append.mp hrow with hrow | hrow
        · exact h.wrapRows _ _ _ row hrow
        · rw [List.mem_singleton.mp hrow]
          exact wellFormed_empty
      · exact h.wrapRows _ _ _ row hrow

end UnicodeString
end Raoui
