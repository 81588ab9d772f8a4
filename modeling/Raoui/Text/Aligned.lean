import Raoui.Text.Clusters

/-!
# Raoui.Text.Aligned

The bytes, the offsets and the widths of a Unicode string against each other. Each operation lays
the three out by hand, so what they say together is stated of the three and not of a layout.

* `Aligned`: the offsets cut the bytes into clusters, one width each.
* `Built`: what the operations build from texts without a byte-order mark.
* `Plain`: such a string as a layout, which every operation keeps.
* `built_aligned`: what is built is aligned, and the halves of an aligned string make it up.
-/

namespace Raoui
namespace UnicodeString

open Utf8 (encode)

/-- The offsets increase strictly from 0 and stay within the bytes, there is a width for each, and
the clusters one after the other are the bytes. -/
structure Aligned (t : UnicodeString) : Prop where
  increasing : t.offsets.Pairwise (· < ·)
  first : ∀ o ∈ t.offsets.head?, o = 0
  below : ∀ o ∈ t.offsets, o < t.bytes.length
  widths_length : t.widths.length = t.length
  clusters : ∃ cs, (List.range t.length).mapM (fun i : Nat => t.clusterAt i) = .ok cs ∧
    cs.flatten = t.bytes

/-! ## Edges -/

theorem slice_append {s : Bytes} {a b c : Nat} (hab : a ≤ b) (hbc : b ≤ c) :
    slice s a b ++ slice s b c = slice s a c := by
  have hdrop : s.drop b = (s.drop a).drop (b - a) := by
    rw [List.drop_drop, Nat.add_sub_cancel' hab]
  rw [slice, slice, slice, hdrop, ← List.take_add, show b - a + (c - b) = c - a by omega]

@[simp] theorem slice_self (s : Bytes) (a : Nat) : slice s a a = [] := by
  rw [slice, Nat.sub_self, List.take_zero]

@[simp] theorem slice_all (s : Bytes) : slice s 0 s.length = s := by
  rw [slice, List.drop_zero, Nat.sub_zero, List.take_length]

/-- Where cluster `i` starts, and behind the last cluster the end of the text. -/
def edge (t : UnicodeString) (i : Nat) : Nat :=
  if i < t.length then t.offset i else t.bytes.length

section
variable {t : UnicodeString} {i j : Nat}

theorem edge_of_lt (h : i < t.length) : t.edge i = t.offset i := if_pos h

theorem edge_of_le (h : t.length ≤ i) : t.edge i = t.bytes.length := if_neg (by omega)

theorem stop_eq_edge : t.stop i = t.edge (i + 1) := rfl

theorem stopOf_eq_edge : t.stopOf i j = t.edge (i + j) := by
  unfold stopOf edge
  split
  · rw [if_neg (by omega)]
  · rw [if_pos (by omega)]

theorem offset_eq_getElem (h : i < t.offsets.length) : t.offset i = t.offsets[i] := by
  rw [offset, List.getD_eq_getElem?_getD, List.getElem?_eq_getElem h, Option.getD_some]

theorem edge_lt (hinc : t.offsets.Pairwise (· < ·)) (hbelow : ∀ o ∈ t.offsets, o < t.bytes.length)
    (hi : i < t.length) (hij : i < j) : t.edge i < t.edge j := by
  rw [edge_of_lt hi, offset_eq_getElem hi]
  by_cases hj : j < t.length
  · rw [edge_of_lt hj, offset_eq_getElem hj]
    exact List.pairwise_iff_getElem.mp hinc i j hi hj hij
  · rw [edge_of_le (by omega)]
    exact hbelow _ (List.getElem_mem hi)

theorem Aligned.edge_le (h : t.Aligned) (hij : i ≤ j) : t.edge i ≤ t.edge j := by
  by_cases hi : i < t.length
  · rcases Nat.eq_or_lt_of_le hij with rfl | hlt
    · exact Nat.le_refl _
    · exact Nat.le_of_lt (edge_lt h.increasing h.below hi hlt)
  · have hend : t.edge i = t.bytes.length := edge_of_le (by omega)
    exact Nat.le_of_eq (hend.trans (edge_of_le (by omega)).symm)

end

/-! ## The clusters one after the other -/

theorem mapM_clusterAt (t : UnicodeString) {n : Nat} (hn : n ≤ t.length) :
    (List.range n).mapM (fun i : Nat => t.clusterAt i) =
      .ok ((List.range n).map fun i => slice t.bytes (t.edge i) (t.edge (i + 1))) := by
  induction n with
  | zero => rfl
  | succ n ih =>
    have hlast : t.clusterAt n = .ok (slice t.bytes (t.edge n) (t.edge (n + 1))) := by
      rw [clusterAt, if_pos (by omega), edge_of_lt (by omega), ← stop_eq_edge, Int.toNat_natCast]
    rw [List.range_succ, List.mapM_append, ih (by omega), List.map_append]
    simp only [List.mapM_cons, List.mapM_nil, hlast]
    rfl

theorem flatten_slices {s : Bytes} {edge : Nat → Nat} (n : Nat)
    (hmono : ∀ i, i < n → edge i ≤ edge (i + 1)) :
    ((List.range n).map fun i => slice s (edge i) (edge (i + 1))).flatten =
        slice s (edge 0) (edge n) ∧ edge 0 ≤ edge n := by
  induction n with
  | zero => exact ⟨(slice_self s _).symm, Nat.le_refl _⟩
  | succ n ih =>
    obtain ⟨hflat, hle⟩ := ih fun i hi => hmono i (by omega)
    have hlast := hmono n (by omega)
    rw [List.range_succ, List.map_append, List.flatten_append, hflat]
    refine ⟨?_, by omega⟩
    rw [List.map_singleton, List.flatten_singleton, slice_append hle hlast]

/-- The clusters are the bytes as soon as the edges run over all of them. -/
theorem aligned_of_edges {t : UnicodeString} (hinc : t.offsets.Pairwise (· < ·))
    (hbelow : ∀ o ∈ t.offsets, o < t.bytes.length) (hwidths : t.widths.length = t.length)
    (hfirst : t.edge 0 = 0) : t.Aligned where
  increasing := hinc
  first := by
    intro o ho
    obtain ⟨rest, hoffsets⟩ := List.head?_eq_some_iff.mp ho
    have hlen : 0 < t.length := by
      rw [length, hoffsets]
      exact Nat.succ_pos _
    rw [edge_of_lt hlen, offset, hoffsets, List.getD_cons_zero] at hfirst
    exact hfirst
  below := hbelow
  widths_length := hwidths
  clusters := by
    refine ⟨_, mapM_clusterAt t (Nat.le_refl _), ?_⟩
    have hflat := @flatten_slices t.bytes t.edge t.length fun i hi =>
      Nat.le_of_lt (edge_lt hinc hbelow hi (Nat.lt_succ_self i))
    rw [hflat.1, hfirst, edge_of_le (Nat.le_refl _), slice_all]

theorem Aligned.edge_zero {t : UnicodeString} (h : t.Aligned) : t.edge 0 = 0 := by
  by_cases hlen : 0 < t.length
  · have hmem : t.offset 0 ∈ t.offsets.head? := by
      rw [offset_eq_getElem hlen, List.head?_eq_getElem?, List.getElem?_eq_getElem hlen]
      rfl
    rw [edge_of_lt hlen]
    exact h.first _ hmem
  · obtain ⟨cs, hcs, hbytes⟩ := h.clusters
    have hzero : t.length = 0 := by omega
    rw [hzero] at hcs
    cases hcs
    rw [edge_of_le (by omega), ← hbytes]
    rfl

/-! ## Cutting -/

section
variable {t : UnicodeString} {start len : Nat}

theorem sub_bytes (hlen : 0 < len) (hle : start + len ≤ t.length) :
    (t.sub start len).bytes = slice t.bytes (t.edge start) (t.edge (start + len)) := by
  rw [sub, if_neg (by omega)]
  dsimp only
  rw [Int.toNat_natCast, show (min (len : Int) (t.length - start)).toNat = len by omega,
    stopOf_eq_edge, ← edge_of_lt (show start < t.length by omega)]

theorem Aligned.split (h : t.Aligned) (pos : Int) :
    (t.split pos).1.bytes ++ (t.split pos).2.bytes = t.bytes ∧
      (t.split pos).1.length + (t.split pos).2.length = t.length := by
  unfold UnicodeString.split
  split
  · exact ⟨rfl, Nat.zero_add _⟩
  · split
    · exact ⟨List.append_nil _, rfl⟩
    · obtain ⟨n, rfl⟩ := Int.eq_ofNat_of_zero_le (show 0 ≤ pos by omega)
      have hrest : ((t.length : Int) - n) = ((t.length - n : Nat) : Int) := by omega
      have hleft := @sub_bytes t 0 n (by omega) (by omega)
      have hright := @sub_bytes t n (t.length - n) (by omega) (by omega)
      have hcount := @sub_length t 0 n (by omega) (by omega)
      have hcount' := @sub_length t n (t.length - n : Nat) (by omega) (by omega)
      rw [Nat.zero_add, Int.natCast_zero] at hleft
      refine ⟨?_, ?_⟩
      · dsimp only
        rw [hrest, hleft, hright, slice_append (h.edge_le (Nat.zero_le _)) (h.edge_le (by omega)),
          h.edge_zero, edge_of_le (by omega), slice_all]
      · dsimp only
        rw [hrest]
        omega

end

/-! ## Layouts without a mark -/

theorem starts_pairwise {pos : Nat} {cs : List Cluster} (hcs : ∀ c ∈ cs, c.1 ≠ []) :
    (starts pos cs).Pairwise (· < ·) ∧
      ∀ o ∈ starts pos cs, pos ≤ o ∧ o < pos + (encode (text cs)).length := by
  induction cs generalizing pos with
  | nil => exact ⟨List.Pairwise.nil, fun o ho => absurd ho List.not_mem_nil⟩
  | cons c cs ih =>
    obtain ⟨hc, hrest⟩ := List.forall_mem_cons.mp hcs
    obtain ⟨hinc, hbounds⟩ := @ih (pos + (encode c.1).length) hrest
    have hpos : 0 < (encode c.1).length := by
      obtain ⟨u, us, hu⟩ := List.exists_cons_of_ne_nil hc
      have := Utf8.encodeChar_length_pos u
      rw [hu, Utf8.encode_cons, List.length_append]
      omega
    rw [starts, text_cons, Utf8.encode_append, List.length_append]
    refine ⟨List.pairwise_cons.mpr ⟨fun o ho => ?_, hinc⟩, fun o ho => ?_⟩
    · have := (hbounds o ho).1
      omega
    · rcases List.mem_cons.mp ho with rfl | ho
      · omega
      · have := hbounds o ho
        omega

theorem aligned_ofClusters {cs : List Cluster} (hcs : ∀ c ∈ cs, c.1 ≠ []) :
    (ofClusters [] cs).Aligned := by
  obtain ⟨hinc, hbounds⟩ := @starts_pairwise 0 cs hcs
  refine aligned_of_edges hinc (fun o ho => ?_) (wellFormed_ofClusters hcs).widths_length ?_
  · have := (hbounds o ho).2
    rwa [Nat.zero_add] at this
  · cases cs with
    | nil => rfl
    | cons c cs => rfl

theorem mem_text_of_subset {cs ds : List Cluster} (hsub : ∀ c ∈ ds, c ∈ cs) {u : Char}
    (hu : u ∈ text ds) : u ∈ text cs := by
  obtain ⟨c, hc, hmem⟩ := List.mem_flatMap.mp hu
  exact List.mem_flatMap.mpr ⟨c, hsub c hc, hmem⟩

/-- A text that reads without a byte-order mark. -/
def MarkFree (s : Bytes) : Prop := ∀ us, Utf8.decode s = some us → byteOrderMark ∉ us

theorem markFree_encode {us : List Char} (h : byteOrderMark ∉ us) : MarkFree (encode us) := by
  intro vs hvs
  rw [Utf8.decode_encode] at hvs
  cases hvs
  exact h

/-- Clusters that start with the first byte, with no byte-order mark among them. -/
def Plain (t : UnicodeString) : Prop :=
  ∃ cs, (∀ c ∈ cs, c.1 ≠ []) ∧ byteOrderMark ∉ text cs ∧ t = ofClusters [] cs

theorem Plain.aligned {t : UnicodeString} (h : t.Plain) : t.Aligned := by
  obtain ⟨cs, hcs, -, rfl⟩ := h
  exact aligned_ofClusters hcs

theorem plain_empty : empty.Plain := ⟨[], by simp, List.not_mem_nil, rfl⟩

/-- Some of the clusters of a plain string. -/
theorem plain_of_subset {cs ds : List Cluster} (hcs : ∀ c ∈ cs, c.1 ≠ [])
    (hmark : byteOrderMark ∉ text cs) (hsub : ∀ c ∈ ds, c ∈ cs) : (ofClusters [] ds).Plain :=
  ⟨ds, fun c hc => hcs c (hsub c hc), fun hmem => hmark (mem_text_of_subset hsub hmem), rfl⟩

theorem Plain.exists_encode {t : UnicodeString} (h : t.Plain) :
    ∃ us, t.bytes = encode us ∧ byteOrderMark ∉ us := by
  obtain ⟨cs, -, hmark, rfl⟩ := h
  exact ⟨text cs, rfl, hmark⟩

theorem Plain.sub {t : UnicodeString} (h : t.Plain) (start len : Int) : (t.sub start len).Plain := by
  obtain ⟨cs, hcs, hmark, rfl⟩ := h
  by_cases hin : 0 ≤ start ∧ 0 < len ∧ start < cs.length
  · rw [sub_ofClusters hin.1 hin.2.1 hin.2.2]
    exact plain_of_subset hcs hmark fun c hc => List.mem_of_mem_drop (List.mem_of_mem_take hc)
  · rw [UnicodeString.sub, if_pos (by rw [length_ofClusters]; omega)]
    exact plain_empty

theorem Plain.split {t : UnicodeString} (h : t.Plain) (pos : Int) :
    (t.split pos).1.Plain ∧ (t.split pos).2.Plain := by
  unfold UnicodeString.split
  split
  · exact ⟨plain_empty, h⟩
  · split
    · exact ⟨h, plain_empty⟩
    · exact ⟨h.sub _ _, h.sub _ _⟩

/-! ## Building -/

section
variable [Ucd]

theorem plain_ofString {s : Bytes} {t : UnicodeString} (hs : MarkFree s) (h : ofString s = .ok t) :
    t.Plain := by
  obtain ⟨us, hdecode, hread⟩ := ofString_cases h
  have hmark := hs us hdecode
  have hstrip : stripMark us = ([], us) := by
    cases us with
    | nil => rfl
    | cons u us => exact if_neg fun heq : u = byteOrderMark => hmark (heq ▸ List.mem_cons_self)
  rw [hstrip] at hread
  obtain ⟨-, rfl⟩ | ⟨u, rest, hus, -, rfl⟩ := hread
  · exact plain_empty
  · refine ⟨_, clustersFrom_ne_nil (List.cons_ne_nil u []), ?_, rfl⟩
    rw [text_clustersFrom, List.singleton_append]
    exact hus ▸ hmark

/-- Reading again what is left between two edges. -/
theorem Plain.reparseWithout {t : UnicodeString} (h : t.Plain) {start stop : Nat}
    (hleft : ∃ us, t.bytes.take start ++ t.bytes.drop stop = encode us ∧ byteOrderMark ∉ us) :
    (t.reparseWithout start stop).Plain := by
  obtain ⟨us, hbytes, hmark⟩ := hleft
  unfold UnicodeString.reparseWithout
  split
  · rename_i t' ht
    refine plain_ofString ?_ ht
    rw [hbytes]
    exact markFree_encode hmark
  · exact h

omit [Ucd] in
/-- The bytes outside the clusters from `i` up to `j`. -/
theorem exists_encode_outside {cs : List Cluster} (hmark : byteOrderMark ∉ text cs) (i j : Nat) :
    ∃ us, (ofClusters [] cs).bytes.take (encode ([] ++ text (cs.take i))).length ++
        (ofClusters [] cs).bytes.drop (encode ([] ++ text (cs.take j))).length = encode us ∧
      byteOrderMark ∉ us := by
  refine ⟨text (cs.take i) ++ text (cs.drop j), ?_, fun hmem => hmark ?_⟩
  · rw [bytes_take, bytes_drop, List.nil_append, ← Utf8.encode_append]
  · rw [← text_append] at hmem
    exact mem_text_of_subset (fun c hc =>
      (List.mem_append.mp hc).elim List.mem_of_mem_take List.mem_of_mem_drop) hmem

theorem Plain.delete {t : UnicodeString} (h : t.Plain) (pos : Int) : (t.delete pos).Plain := by
  by_cases hpos : pos < 0 ∨ pos ≥ t.length
  · rw [UnicodeString.delete, if_pos hpos]
    exact h
  · have hplain := h
    obtain ⟨cs, hcs, hmark, rfl⟩ := h
    rw [length_ofClusters] at hpos
    by_cases hascii : (ofClusters [] cs).isAsciiAt pos.toNat = true
    · rw [delete_ofClusters (by omega) (by omega) hascii]
      exact plain_of_subset hcs hmark fun c hc =>
        (List.mem_append.mp hc).elim List.mem_of_mem_take List.mem_of_mem_drop
    · rw [UnicodeString.delete, if_neg (by rw [length_ofClusters]; omega)]
      dsimp only
      rw [if_neg hascii, offset_ofClusters (by omega), stop_ofClusters]
      exact hplain.reparseWithout (exists_encode_outside hmark _ _)

theorem Plain.deleteRange {t : UnicodeString} (h : t.Plain) (start len : Int) :
    (t.deleteRange start len).Plain := by
  unfold UnicodeString.deleteRange
  split
  · exact h
  · rename_i hin
    have hplain := h
    obtain ⟨cs, hcs, hmark, rfl⟩ := h
    rw [length_ofClusters] at hin
    dsimp only
    rw [offset_ofClusters (by omega), stopOf_ofClusters]
    exact hplain.reparseWithout (exists_encode_outside hmark _ _)

theorem plain_read {us : List Char} {t : UnicodeString} (hmark : byteOrderMark ∉ us)
    (h : ofString (encode us) = .ok t) : t.Plain :=
  plain_ofString (markFree_encode hmark) h

theorem Plain.append {a b : UnicodeString} (ha : a.Plain) (hb : b.Plain) : (a.append b).Plain := by
  unfold UnicodeString.append
  split
  · exact hb
  · split
    · exact ha
    · obtain ⟨us, hus, hmark⟩ := ha.exists_encode
      obtain ⟨vs, hvs, hmark'⟩ := hb.exists_encode
      split
      · rename_i t ht
        rw [hus, hvs, ← Utf8.encode_append] at ht
        exact plain_read (List.not_mem_append hmark hmark') ht
      · exact ha

theorem plain_concat {ts : List UnicodeString} (hts : ∀ t ∈ ts, t.Plain) : (concat ts).Plain := by
  have hbytes : ∃ us, ts.flatMap toBytes = encode us ∧ byteOrderMark ∉ us := by
    induction ts with
    | nil => exact ⟨[], rfl, List.not_mem_nil⟩
    | cons t ts ih =>
      obtain ⟨ht, hrest⟩ := List.forall_mem_cons.mp hts
      obtain ⟨us, hus, hmark⟩ := ht.exists_encode
      obtain ⟨vs, hvs, hmark'⟩ := ih hrest
      refine ⟨us ++ vs, ?_, List.not_mem_append hmark hmark'⟩
      rw [List.flatMap_cons, hvs, Utf8.encode_append, ← hus]
      rfl
  obtain ⟨us, hus, hmark⟩ := hbytes
  unfold concat
  split
  · rename_i t ht
    rw [hus] at ht
    exact plain_read hmark ht
  · exact plain_empty

omit [Ucd] in
/-- Where `insert_string` cuts the text, at whatever position. -/
theorem insertBytePos_plain (cs : List Cluster) (pos : Int) :
    (if pos ≥ (ofClusters [] cs).length then (ofClusters [] cs).bytes.length
      else (ofClusters [] cs).offset pos.toNat) =
        (encode ([] ++ text (cs.take (min pos cs.length).toNat))).length := by
  by_cases hpos : 0 ≤ pos
  · exact insertBytePos hpos
  · rw [length_ofClusters, if_neg (by omega), show (min pos (cs.length : Int)).toNat = 0 by omega,
      show pos.toNat = 0 by omega]
    cases cs with
    | nil => rfl
    | cons c cs => rfl

omit [Ucd] in
theorem Plain.insertAsciiWidth1 {t : UnicodeString} (h : t.Plain) {pos : Int} {str : Bytes}
    (hok : 0 ≤ pos ∧ isSingleAsciiWidth1 str = true) : (t.insertAsciiWidth1 pos str hok).Plain := by
  obtain ⟨cs, hcs, hmark, rfl⟩ := h
  obtain ⟨c, rfl, -, hc⟩ := isSingleAsciiWidth1_iff.mp hok.2
  have hlt : c < 128 := Nat.lt_trans (UInt8.lt_iff_toNat_lt.mp hc) (by decide)
  have hne : byteOrderMark ≠ Char.ofUInt8 c := by
    intro heq
    have hlen : (encode [byteOrderMark]).length = 1 := by rw [heq, encode_ascii hlt]; rfl
    exact absurd hlen (by decide)
  rw [insertAsciiWidth1_ofClusters hok hlt]
  refine ⟨_, ?_, ?_, rfl⟩
  · intro d hd
    rcases List.mem_append.mp hd with hd | hd
    · exact hcs d (List.mem_of_mem_take hd)
    · rcases List.mem_cons.mp hd with rfl | hd
      · exact List.cons_ne_nil _ _
      · exact hcs d (List.mem_of_mem_drop hd)
  · rw [text_append, text_cons]
    refine List.not_mem_append (fun hmem => hmark ?_)
      (List.not_mem_append (fun hmem => hne (List.mem_singleton.mp hmem)) fun hmem => hmark ?_)
    · exact mem_text_of_subset (fun d => List.mem_of_mem_take) hmem
    · exact mem_text_of_subset (fun d => List.mem_of_mem_drop) hmem

theorem Plain.insertString {t t' : UnicodeString} (h : t.Plain) {pos : Int} {str : Bytes}
    (hstr : MarkFree str) (hok : t.insertString pos str = .ok t') : t'.Plain := by
  unfold UnicodeString.insertString at hok
  split at hok
  · cases hok
    exact h.insertAsciiWidth1 _
  · split at hok
    · cases hok
    · rename_i parsed hparsed
      obtain ⟨cs, hcs, hmark, rfl⟩ := h
      obtain ⟨us, hdecode, -⟩ := ofString_cases hparsed
      dsimp only at hok
      rw [insertBytePos_plain, bytes_drop, ← Utf8.encode_of_decode hdecode,
        ← Utf8.encode_append] at hok
      split at hok
      · cases hok
      · rename_i suffix hsuffix
        have hrest : byteOrderMark ∉ text (cs.drop (min pos cs.length).toNat) :=
          fun hmem => hmark (mem_text_of_subset (fun d => List.mem_of_mem_drop) hmem)
        obtain ⟨ds, hds, hmark', rfl⟩ :=
          plain_read (List.not_mem_append (hstr us hdecode) hrest) hsuffix
        cases hok
        rw [bytes_take, length_ofClusters]
        refine ⟨cs.take (min pos cs.length).toNat ++ ds, ?_, ?_, ?_⟩
        · intro c hc
          exact (List.mem_append.mp hc).elim (fun hc => hcs c (List.mem_of_mem_take hc)) (hds c)
        · rw [text_append]
          refine List.not_mem_append (fun hmem => hmark ?_) hmark'
          exact mem_text_of_subset (fun d => List.mem_of_mem_take) hmem
        · simp only [ofClusters, UnicodeString.mk.injEq, List.nil_append]
          refine ⟨?_, ?_, ?_⟩
          · rw [text_append, Utf8.encode_append]
          · rw [starts_append, starts_take, Utf8.encode_nil, List.length_nil, starts_add]
          · rw [List.map_append, List.map_take]

/-- What the operations build from texts without a byte-order mark. At a negative position
`insert_string` raises and builds nothing. -/
inductive Built : UnicodeString → Prop where
  | ofString {s t} (hs : MarkFree s) (h : ofString s = .ok t) : Built t
  | insertString {t t'} (ht : Built t) (pos : Int) {str} (hstr : MarkFree str)
      (h : t.insertString pos str = .ok t') : Built t'
  | delete {t} (ht : Built t) (pos : Int) : Built (t.delete pos)
  | deleteRange {t} (ht : Built t) (start len : Int) : Built (t.deleteRange start len)
  | sub {t} (ht : Built t) (start len : Int) : Built (t.sub start len)
  | append {a b} (ha : Built a) (hb : Built b) : Built (a.append b)
  | concat {ts : List UnicodeString} (hts : ∀ t ∈ ts, Built t) : Built (concat ts)
  | before {t} (ht : Built t) (pos : Int) : Built (t.split pos).1
  | after {t} (ht : Built t) (pos : Int) : Built (t.split pos).2

theorem Built.plain {t : UnicodeString} (h : Built t) : t.Plain := by
  induction h with
  | ofString hs h => exact plain_ofString hs h
  | insertString _ pos hstr h ih => exact ih.insertString hstr h
  | delete _ pos ih => exact ih.delete pos
  | deleteRange _ start len ih => exact ih.deleteRange start len
  | sub _ start len ih => exact ih.sub start len
  | append _ _ iha ihb => exact iha.append ihb
  | concat _ ih => exact plain_concat ih
  | before _ pos ih => exact (ih.split pos).1
  | after _ pos ih => exact (ih.split pos).2

/-- Whatever is built is aligned, and the halves of any aligned string make it up again. -/
theorem built_aligned_split :
    (∀ t : UnicodeString, Built t → t.Aligned) ∧
      ∀ t : UnicodeString, t.Aligned → ∀ pos : Int,
        (t.split pos).1.bytes ++ (t.split pos).2.bytes = t.bytes ∧
          (t.split pos).1.length + (t.split pos).2.length = t.length :=
  ⟨fun _ h => h.plain.aligned, fun _ h pos => h.split pos⟩

end

attribute [local instance] asciiUcd in
theorem built_aligned_split_wide :
    ∃ t, ofString (encode ['a', '世', 'b']) = .ok t ∧ (t.delete 0).Aligned ∧
      (t.split 1).1.bytes ++ (t.split 1).2.bytes = t.bytes ∧
        (t.split 1).1.length + (t.split 1).2.length = t.length := by
  have hread : ofString (encode ['a', '世', 'b']) =
      .ok ⟨encode ['a', '世', 'b'], [0, 1, 4], [1, 2, 1]⟩ := by decide +kernel
  have hbuilt := Built.ofString (markFree_encode (by decide)) hread
  exact ⟨_, hread, built_aligned_split.1 _ (hbuilt.delete 0),
    built_aligned_split.2 _ (built_aligned_split.1 _ hbuilt) 1⟩

end UnicodeString
end Raoui
