import Raoui.Editor.FlatEdit
import Raoui.Text.Reparse

/-!
# Raoui.Editor.Pasting

`insert_paste` on the flat text: what a paste leaves before and after the cursor.

* `Reads`: a text that comes back whole from the parser, which drops a text it cannot read, a lone
  byte-order mark, and a text that starts with a combining mark.
* `insertPaste_iff`: when a paste puts the pasted text, cut at the limit, in front of the cursor.
-/

namespace Raoui

open Utf8 (encode)
open UnicodeString (Cluster WellFormed ofClusters text stripMark byteOrderMark isCombiner)

/-! ## Joined lines -/

section Lines

open FlatText (above below)

variable {α : Type} {sep : α}

theorem append_sep_prefixed {k p ks ps : List α} (hk : sep ∉ k) (hp : sep ∉ p)
    (h : k ++ sep :: ks <+: p ++ sep :: ps) : k = p ∧ ks <+: ps := by
  induction k generalizing p with
  | nil =>
    cases p with
    | nil => exact ⟨rfl, (List.cons_prefix_cons.mp h).2⟩
    | cons c p =>
      have heq := (List.cons_prefix_cons.mp h).1
      exact absurd (heq ▸ List.mem_cons_self) hp
  | cons d k ih =>
    cases p with
    | nil =>
      have heq := (List.cons_prefix_cons.mp h).1
      exact absurd (heq ▸ List.mem_cons_self) hk
    | cons c p =>
      obtain ⟨rfl, hrest⟩ := List.cons_prefix_cons.mp h
      obtain ⟨rfl, hks⟩ := ih (fun hm => hk (List.mem_cons_of_mem d hm))
        (fun hm => hp (List.mem_cons_of_mem d hm)) hrest
      exact ⟨rfl, hks⟩

/-- Lines of which some are lost still start the text: none is, up to the last one. -/
theorem above_prefixed {ks ps : List (List α)} {k p : List α}
    (hks : List.Forall₂ (fun k p => k = p ∨ k = []) ks ps) (hps : ∀ l ∈ ps, sep ∉ l)
    (h : above sep ks ++ k <+: above sep ps ++ p) : ks = ps ∧ k <+: p := by
  induction hks with
  | nil => exact ⟨rfl, h⟩
  | @cons l l' ks ps hl _ ih =>
    have happ (l : List α) (ls : List (List α)) (r : List α) :
        above sep (l :: ls) ++ r = l ++ sep :: (above sep ls ++ r) := by
      simp [above]
    have hl' : sep ∉ l' := hps l' List.mem_cons_self
    have hsep : sep ∉ l := by
      obtain rfl | rfl := hl
      · exact hl'
      · exact List.not_mem_nil
    rw [happ, happ] at h
    obtain ⟨rfl, hrest⟩ := append_sep_prefixed hsep hl' h
    obtain ⟨rfl, hk⟩ := ih (fun l hl => hps l (List.mem_cons_of_mem _ hl)) hrest
    exact ⟨rfl, hk⟩

theorem above_splitOnChar (sep : UInt8) (s : Bytes) :
    above sep (splitOnChar sep s).dropLast ++ (splitOnChar sep s).getLastD [] = s := by
  have hconcat := concatWith_splitOnChar sep s
  have hne := splitOnChar_ne_nil sep s
  generalize splitOnChar sep s = ws at hconcat hne
  rw [← hconcat]
  clear hconcat
  induction ws with
  | nil => exact absurd rfl hne
  | cons w ws ih =>
    cases ws with
    | nil => rfl
    | cons v ws =>
      have hstep := ih (List.cons_ne_nil v ws)
      have hcons : concatWith [sep] (w :: v :: ws) = w ++ [sep] ++ concatWith [sep] (v :: ws) := rfl
      rw [hcons, ← hstep, List.dropLast_cons_cons, List.getLastD_cons, List.getLastD_cons]
      simp [above, List.getLast?_cons]

/-- A text in which the next character is the one before, all through. -/
theorem all_eq_of_shift {w z : List α} {u : α} (h : w ++ z = u :: w) : ∀ x ∈ w, x = u := by
  induction w with
  | nil => exact nofun
  | cons x w ih =>
    obtain ⟨rfl, hrest⟩ := List.cons.inj h
    intro y hy
    obtain rfl | hy := List.mem_cons.mp hy
    · rfl
    · exact ih hrest y hy

/-- Lines of which some are lost, and the same length: none is. -/
theorem eq_of_kept {ks ps : List (List α)} (h : List.Forall₂ (fun k p => k = p ∨ k = []) ks ps) :
    (above sep ks).length ≤ (above sep ps).length ∧
      ((above sep ps).length ≤ (above sep ks).length → ks = ps) := by
  induction h with
  | nil => exact ⟨Nat.le_refl _, fun _ => rfl⟩
  | @cons k p ks ps hk _ ih =>
    have happ (l : List α) (ls : List (List α)) :
        (above sep (l :: ls)).length = l.length + 1 + (above sep ls).length := by
      rw [FlatText.above_length, FlatText.above_length, List.map_cons, List.sum_cons]
    rw [happ, happ]
    obtain rfl | rfl := hk
    · refine ⟨by omega, fun hle => ?_⟩
      rw [ih.2 (by omega)]
    · rw [List.length_nil]
      refine ⟨by omega, fun hle => ?_⟩
      have hnil : p = [] := List.length_eq_zero_iff.mp (by omega)
      rw [hnil, ih.2 (by omega)]

end Lines

/-! ## The cursor in bytes -/

/-- The byte the cursor stands before. -/
def cursorByte (t : UnicodeString) (pos : Int) : Nat := if pos ≤ 0 then 0 else t.cut pos

/-- Before the first cluster stand byte-order marks only, those the parser dropped. -/
def Marked (t : UnicodeString) : Prop :=
  ∃ n cs, (∀ c ∈ cs, c.1 ≠ []) ∧ t = ofClusters (List.replicate n byteOrderMark) cs

/-- What `split` leaves out: the marks before the first cluster, when it cuts behind that. -/
theorem Marked.split {t : UnicodeString} (h : Marked t) (pos : Int) : ∃ n,
    t.bytes.take (cursorByte t pos) =
        encode (List.replicate n byteOrderMark) ++ (t.split pos).1.bytes ∧
      t.bytes.drop (cursorByte t pos) = (t.split pos).2.bytes := by
  obtain ⟨n, cs, _, rfl⟩ := h
  unfold cursorByte UnicodeString.cut UnicodeString.split
  by_cases h0 : pos ≤ 0
  · rw [if_pos h0, if_pos h0]
    exact ⟨0, rfl, rfl⟩
  rw [if_neg h0, if_neg h0]
  by_cases hlen : pos ≥ (ofClusters (List.replicate n byteOrderMark) cs).length
  · rw [if_pos hlen, if_pos hlen, List.take_length, List.drop_length]
    exact ⟨0, rfl, rfl⟩
  rw [if_neg hlen, if_neg hlen]
  rw [UnicodeString.length_ofClusters] at hlen ⊢
  have hlt : pos.toNat < cs.length := by omega
  have hpos : (0 : Int) < cs.length := by omega
  have htake : (cs.drop pos.toNat).take ((cs.length : Int) - pos).toNat = cs.drop pos.toNat :=
    List.take_of_length_le (by rw [List.length_drop]; omega)
  rw [UnicodeString.offset_ofClusters hlt, UnicodeString.bytes_take, UnicodeString.bytes_drop,
    UnicodeString.sub_ofClusters (by omega) (by omega) hpos,
    UnicodeString.sub_ofClusters (by omega) (by omega) (by omega), htake]
  refine ⟨n, ?_, rfl⟩
  rw [UnicodeString.bytes_ofClusters, Utf8.encode_append]
  rfl

theorem cursorByte_le {t : UnicodeString} (h : t.WellFormed) (pos : Int) :
    cursorByte t pos ≤ t.bytes.length := by
  unfold cursorByte UnicodeString.cut
  split
  · exact Nat.zero_le _
  split
  · exact Nat.le_refl _
  · have := h.offset_lt_stop (i := pos.toNat) (by omega)
    omega

/-! ## What is kept -/

/-- The bytes `insert_paste` takes of a text. -/
def pasteLimit : Nat := 5 * 1024

/-- The start of a text: not cut in a character, and at most three bytes short of the limit. -/
structure KeptOf (text kept : Bytes) : Prop where
  starts : kept <+: text
  encodes : ∃ cs, kept = encode cs
  long : min text.length (pasteLimit - 3) ≤ kept.length

/-- No mark is made up for by what follows: three bytes short of the limit is no number of marks. -/
theorem KeptOf.no_mark {text kept b : Bytes} {n : Nat} (h : KeptOf text kept)
    (hb : ∃ cs, b = encode cs) (htext : ∃ cs, text.take pasteLimit = encode cs)
    (heq : b ++ text.take pasteLimit = encode (List.replicate n byteOrderMark) ++ (b ++ kept)) :
    n = 0 := by
  obtain ⟨cs, rfl⟩ := hb
  obtain ⟨ts, hts⟩ := htext
  obtain ⟨ks, rfl⟩ := h.encodes
  have hmark : (Utf8.encodeChar byteOrderMark).length = 3 := by decide
  have hmarks (m : Nat) : (encode (List.replicate m byteOrderMark)).length = 3 * m := by
    induction m with
    | zero => rfl
    | succ m ih =>
      rw [List.replicate_succ, Utf8.encode_cons, List.length_append, hmark, ih]
      omega
  have hlen := congrArg List.length heq
  rw [List.length_append, List.length_append, List.length_append, hmarks, List.length_take] at hlen
  have hlong := h.long
  by_contra hn
  have hone : n = 1 := by
    simp only [pasteLimit] at hlen hlong
    omega
  subst hone
  have hkept : (encode ks).length = 5117 := by
    simp only [pasteLimit] at hlen hlong
    omega
  have hstarts : ks <+: ts := by
    refine Utf8.encode_prefixed ?_
    rw [← hts]
    refine List.prefix_of_prefix_length_le h.starts (List.take_prefix pasteLimit text) ?_
    rw [List.length_take, hkept]
    omega
  obtain ⟨zs, rfl⟩ := hstarts
  have hchars : (cs ++ ks) ++ zs = byteOrderMark :: (cs ++ ks) := by
    refine Utf8.encode_injective ?_
    rw [hts] at heq
    rw [Utf8.encode_append] at heq
    simp only [Utf8.encode_append, Utf8.encode_cons, Utf8.encode_nil, List.append_nil,
      List.replicate_one, List.append_assoc] at heq ⊢
    exact heq
  have hall : ks = List.replicate ks.length byteOrderMark :=
    List.eq_replicate_iff.mpr ⟨rfl, fun c hc =>
      all_eq_of_shift hchars c (List.mem_append_right cs hc)⟩
  have hthree := hmarks ks.length
  rw [← hall] at hthree
  omega

/-- What follows a text in a text is one. -/
theorem encodes_right {s t : Bytes} (hs : ∃ cs, s = encode cs) (hst : ∃ cs, s ++ t = encode cs) :
    ∃ cs, t = encode cs := by
  obtain ⟨cs, rfl⟩ := hs
  obtain ⟨ds, hds⟩ := hst
  obtain ⟨es, rfl⟩ := Utf8.encode_prefixed ⟨t, hds⟩
  rw [Utf8.encode_append] at hds
  exact ⟨es, List.append_cancel_left hds⟩

theorem encodes_append {s t : Bytes} (hs : ∃ cs, s = encode cs) (ht : ∃ cs, t = encode cs) :
    ∃ cs, s ++ t = encode cs := by
  obtain ⟨cs, rfl⟩ := hs
  obtain ⟨ds, rfl⟩ := ht
  exact ⟨cs ++ ds, (Utf8.encode_append cs ds).symm⟩

theorem encodes_above {ls : List Bytes} (h : ∀ s ∈ ls, ∃ cs, s = encode cs) :
    ∃ cs, FlatText.above newline ls = encode cs := by
  induction ls with
  | nil => exact ⟨[], rfl⟩
  | cons l ls ih =>
    rw [List.forall_mem_cons] at h
    have hnewline : [newline] = encode ['\n'] := by decide
    exact encodes_append (encodes_append h.1 ⟨['\n'], hnewline⟩) (ih h.2)

/-- Of the lines of a text all are kept, with the possible exception of the last one, where what is
kept of them stands in front of the cursor. -/
theorem KeptOf.lines {text kept b k last : Bytes} {ks ps : List Bytes} {n : Nat}
    (h : KeptOf text kept) (hb : ∃ cs, b = encode cs)
    (hlines : FlatText.above newline ps ++ last = text.take pasteLimit)
    (hnewline : ∀ s ∈ ps, newline ∉ s) (hks : List.Forall₂ (fun k p => k = p ∨ k = []) ks ps)
    (hk : k = last ∨ k = [])
    (heq : b ++ (FlatText.above newline ks ++ k) =
      encode (List.replicate n byteOrderMark) ++ (b ++ kept)) :
    n = 0 ∧ ks = ps ∧ kept = FlatText.above newline ps ++ k := by
  obtain ⟨hle, hall⟩ := @eq_of_kept _ newline _ _ hks
  have hkle : k.length ≤ last.length := by
    obtain rfl | rfl := hk
    · exact Nat.le_refl _
    · exact Nat.zero_le _
  have hlen := congrArg List.length heq
  have htake := congrArg List.length hlines
  simp only [List.length_append] at hlen
  rw [List.length_append, List.length_take] at htake
  have hlong := h.long
  have hn : n = 0 := by
    by_contra hne
    have hmark : 3 ≤ (encode (List.replicate n byteOrderMark)).length := by
      obtain ⟨m, rfl⟩ := Nat.exists_eq_succ_of_ne_zero hne
      have hthree : (Utf8.encodeChar byteOrderMark).length = 3 := by decide
      rw [List.replicate_succ, Utf8.encode_cons, List.length_append, hthree]
      omega
    simp only [pasteLimit] at hlong htake
    -- nothing is lost, so the whole text cut at the limit is kept
    have hlast : k = last := by
      obtain rfl | rfl := hk
      · rfl
      · rw [List.length_nil] at hlen
        exact (List.length_eq_zero_iff.mp (by omega)).symm
    rw [hall (by omega), hlast, hlines] at heq
    refine hne (h.no_mark hb (encodes_right hb ?_) heq)
    obtain ⟨cs, rfl⟩ := hb
    obtain ⟨ds, rfl⟩ := h.encodes
    exact ⟨List.replicate n byteOrderMark ++ (cs ++ ds), by rw [heq]; simp⟩
  subst hn
  have hkept : FlatText.above newline ks ++ k = kept := List.append_cancel_left heq
  have hprefixed : FlatText.above newline ks ++ k <+: FlatText.above newline ps ++ last := by
    rw [hkept, hlines]
    refine List.prefix_of_prefix_length_le h.starts (List.take_prefix pasteLimit text) ?_
    rw [← hkept, ← hlines, List.length_append, List.length_append]
    omega
  obtain ⟨rfl, -⟩ := above_prefixed hks hnewline hprefixed
  exact ⟨rfl, rfl, hkept.symm⟩

/-! ## Texts that can be read -/

section
variable [Ucd]

/-- The text comes back whole from the parser. -/
def Reads (s : Bytes) : Prop := (readable s).bytes = s

instance (s : Bytes) : Decidable (Reads s) := inferInstanceAs (Decidable ((readable s).bytes = s))

theorem reads_nil : Reads [] := rfl

theorem bytes_readable (s : Bytes) : (readable s).bytes = s ∨ readable s = .empty := by
  unfold readable
  split
  · rename_i u hu
    obtain rfl | h := UnicodeString.bytes_of_ofString hu
    · exact .inr rfl
    · exact .inl h
  · exact .inr rfl

theorem readable_of_not_reads {s : Bytes} (h : ¬ Reads s) : readable s = .empty :=
  (bytes_readable s).resolve_left h

theorem Reads.encodes {s : Bytes} (h : Reads s) : ∃ cs, s = encode cs := by
  obtain ⟨cs, hcs⟩ := (wellFormed_readable s).decodes
  exact ⟨cs, h.symm.trans hcs⟩

/-- Behind a byte-order mark or nothing there is a character, and no combining one, unless the text
is empty. -/
theorem reads_encode {cs : List Char} : Reads (encode cs) ↔
    cs = [] ∨ ∃ u rest, (stripMark cs).2 = u :: rest ∧ isCombiner u = false := by
  rw [Reads, readable, UnicodeString.ofString_encode]
  cases hstrip : (stripMark cs).2 with
  | nil =>
    refine ⟨fun h => .inl (UnicodeString.encode_eq_nil.mp h.symm), ?_⟩
    rintro (rfl | ⟨u, rest, h, -⟩)
    · rfl
    · cases h
  | cons u rest =>
    dsimp only
    cases hcomb : isCombiner u with
    | true =>
      refine ⟨fun h => .inl (UnicodeString.encode_eq_nil.mp h.symm), ?_⟩
      rintro (rfl | ⟨v, rest', h, hv⟩)
      · cases hstrip
      · cases h
        rw [hcomb] at hv
        cases hv
    | false =>
      refine ⟨fun _ => .inr ⟨u, rest, rfl, hcomb⟩, fun _ => ?_⟩
      rw [if_neg Bool.false_ne_true]
      dsimp only
      rw [UnicodeString.bytes_ofClusters, UnicodeString.text_clusters, ← hstrip,
        UnicodeString.stripMark_append]

theorem Reads.ofString {s : Bytes} (h : Reads s) (hne : s ≠ []) :
    ∃ t, UnicodeString.ofString s = .ok t := by
  cases hs : UnicodeString.ofString s with
  | ok t => exact ⟨t, rfl⟩
  | error e =>
    rw [Reads, readable, hs] at h
    exact absurd h.symm hne

/-- What can be read can be read with more behind it. -/
theorem Reads.append {s t : Bytes} (h : Reads s) (hne : s ≠ []) (ht : ∃ ds, t = encode ds) :
    Reads (s ++ t) := by
  obtain ⟨cs, rfl⟩ := h.encodes
  obtain ⟨ds, rfl⟩ := ht
  rw [← Utf8.encode_append]
  obtain rfl | ⟨u, rest, hstrip, hcomb⟩ := reads_encode.mp h
  · exact absurd rfl hne
  · exact reads_encode.mpr (.inr ⟨u, rest ++ ds, UnicodeString.stripMark_append_snd hstrip ds, hcomb⟩)

/-- Two texts joined: the parser finds a character behind any mark. -/
theorem ofString_joined {cs ds : List Char} (hcs : cs ≠ []) (hds : ds ≠ []) :
    (Reads (encode (cs ++ ds)) ∧ ∃ t, UnicodeString.ofString (encode (cs ++ ds)) = .ok t ∧
        t.bytes = encode (cs ++ ds)) ∨
      (¬ Reads (encode (cs ++ ds)) ∧
        ∃ e, UnicodeString.ofString (encode (cs ++ ds)) = .error e) := by
  have hof := UnicodeString.ofString_encode (cs ++ ds)
  cases hstrip : (stripMark (cs ++ ds)).2 with
  | nil =>
    have happ := UnicodeString.stripMark_append (cs ++ ds)
    have hlen : (stripMark (cs ++ ds)).1.length ≤ 1 := by
      cases cs ++ ds with
      | nil => exact Nat.zero_le 1
      | cons u rest =>
        rw [stripMark]
        split
        · exact Nat.le_refl 1
        · exact Nat.zero_le 1
    rw [hstrip, List.append_nil] at happ
    rw [happ, List.length_append] at hlen
    have h1 := List.length_pos_of_ne_nil hcs
    have h2 := List.length_pos_of_ne_nil hds
    omega
  | cons u rest =>
    rw [hstrip] at hof
    dsimp only at hof
    cases hcomb : isCombiner u with
    | true =>
      rw [hcomb, if_pos rfl] at hof
      refine .inr ⟨fun hreads => ?_, _, hof⟩
      obtain hnil | ⟨v, rest', hv, hcomb'⟩ := reads_encode.mp hreads
      · exact hcs (List.append_eq_nil_iff.mp hnil).1
      · rw [hstrip] at hv
        cases hv
        rw [hcomb] at hcomb'
        cases hcomb'
    | false =>
      rw [hcomb, if_neg Bool.false_ne_true] at hof
      refine .inl ⟨reads_encode.mpr (.inr ⟨u, rest, hstrip, hcomb⟩), _, hof, ?_⟩
      rw [UnicodeString.bytes_ofClusters, UnicodeString.text_clusters, ← hstrip,
        UnicodeString.stripMark_append]

omit [Ucd] in
theorem isEmpty_iff_bytes (t : UnicodeString) : t.isEmpty = true ↔ t.bytes = [] := by
  rw [UnicodeString.isEmpty, decide_eq_true_eq, List.length_eq_zero_iff]

theorem bytes_append {a b : UnicodeString} (ha : ∃ cs, a.bytes = encode cs)
    (hb : ∃ ds, b.bytes = encode ds) : (a.append b).bytes =
      if a.bytes = [] ∨ b.bytes = [] ∨ Reads (a.bytes ++ b.bytes) then a.bytes ++ b.bytes
      else a.bytes := by
  unfold UnicodeString.append
  by_cases ha0 : a.bytes = []
  · rw [if_pos ((isEmpty_iff_bytes a).mpr ha0), if_pos (.inl ha0), ha0, List.nil_append]
  rw [if_neg fun h => ha0 ((isEmpty_iff_bytes a).mp h)]
  by_cases hb0 : b.bytes = []
  · rw [if_pos ((isEmpty_iff_bytes b).mpr hb0), if_pos (.inr (.inl hb0)), hb0, List.append_nil]
  rw [if_neg fun h => hb0 ((isEmpty_iff_bytes b).mp h)]
  obtain ⟨cs, hcs⟩ := ha
  obtain ⟨ds, hds⟩ := hb
  have hcs0 : cs ≠ [] := fun h => ha0 (by rw [hcs, h]; rfl)
  have hds0 : ds ≠ [] := fun h => hb0 (by rw [hds, h]; rfl)
  rw [hcs, hds, ← Utf8.encode_append]
  obtain ⟨hreads, t, ht, hbytes⟩ | ⟨hnot, e, he⟩ := ofString_joined hcs0 hds0
  · rw [ht, if_pos (.inr (.inr hreads))]
    exact hbytes
  · rw [he, if_neg]
    · exact hcs
    · rintro (h | h | h)
      · exact hcs0 (UnicodeString.encode_eq_nil.mp h)
      · exact hds0 (UnicodeString.encode_eq_nil.mp h)
      · exact hnot h

theorem concat_eq (ts : List UnicodeString) :
    UnicodeString.concat ts = readable (ts.flatMap UnicodeString.toBytes) := rfl

/-! ## The lines a paste makes -/

/-- The cursor in the line `last`, behind `front`: before it stand the text that was before the
cursor and what is kept of the pasted text, and behind it the text that was after the cursor. -/
def Landed (text before after front : Bytes) (last : UnicodeString) (pos : Int) : Prop :=
  ∃ kept, KeptOf text kept ∧ front ++ last.bytes.take (cursorByte last pos) = before ++ kept ∧
    last.bytes.drop (cursorByte last pos) = after

section Landing

variable {before after : UnicodeString} {pos : Int} {text : Bytes} {n : Nat}
  (hbefore : before.WellFormed) (hafter : after.WellFormed)
include hbefore hafter

omit hbefore in
/-- The text after the cursor stays behind what is read of the last line. -/
theorem bytes_last (s : Bytes) :
    ((readable s).append after).bytes = (readable s).bytes ++ after.bytes := by
  rw [bytes_append (wellFormed_readable s).decodes hafter.decodes]
  by_cases hne : (readable s).bytes = []
  · rw [if_pos (.inl hne)]
  · obtain hs | hs := bytes_readable s
    · have hreads : Reads s := hs
      rw [hs] at hne ⊢
      rw [if_pos (.inr (.inr (hreads.append hne hafter.decodes)))]
    · exact absurd (by rw [hs]; rfl) hne

omit hbefore in
/-- A cursor that counts the clusters of the last line alone. -/
theorem cursorByte_last (s : Bytes) :
    cursorByte ((readable s).append after) (readable s).length =
      cursorByte (readable ((readable s).bytes ++ after.bytes)) (readable s).length := by
  by_cases hne : (readable s).bytes = []
  · rw [(wellFormed_readable s).length_of_isEmpty ((isEmpty_iff_bytes _).mpr hne)]
    rfl
  · have hs : (readable s).bytes = s := by
      refine (bytes_readable s).resolve_right fun h => hne ?_
      rw [h]
      rfl
    unfold UnicodeString.append
    rw [if_neg fun h => hne ((isEmpty_iff_bytes _).mp h)]
    by_cases ha : after.bytes = []
    · rw [if_pos ((isEmpty_iff_bytes _).mpr ha), ha, List.append_nil, hs]
    · rw [if_neg fun h => ha ((isEmpty_iff_bytes _).mp h)]
      have hreads : Reads s := hs
      have hjoined : Reads ((readable s).bytes ++ after.bytes) := by
        rw [hs] at hne ⊢
        exact hreads.append hne hafter.decodes
      obtain ⟨t, ht⟩ := hjoined.ofString (fun h => hne (List.append_eq_nil_iff.mp h).1)
      rw [ht, readable.eq_def ((readable s).bytes ++ after.bytes), ht]

omit hafter in
/-- A paste without a newline. -/
theorem landed_single :
    Landed text (encode (List.replicate n byteOrderMark) ++ before.bytes) after.bytes []
        (.concat [before, readable (text.take pasteLimit), after])
        (pos + (readable (text.take pasteLimit)).length) ↔
      n = 0 ∧ Reads (text.take pasteLimit) ∧
      Reads (before.bytes ++ (readable (text.take pasteLimit)).bytes ++ after.bytes) ∧
      cursorByte (readable (before.bytes ++ (readable (text.take pasteLimit)).bytes ++ after.bytes))
          (pos + (readable (text.take pasteLimit)).length) =
        (before.bytes ++ (readable (text.take pasteLimit)).bytes).length := by
  have hconcat : UnicodeString.concat [before, readable (text.take pasteLimit), after] =
      readable (before.bytes ++ (readable (text.take pasteLimit)).bytes ++ after.bytes) := by
    rw [concat_eq]
    simp [UnicodeString.toBytes]
  rw [hconcat]
  unfold Landed
  simp only [List.nil_append]
  generalize hpos : pos + ((readable (text.take pasteLimit)).length : Int) = p
  constructor
  · rintro ⟨kept, hkept, htake, hdrop⟩
    have hnil (h : kept = []) : text = [] := by
      have hlong := hkept.long
      rw [h, pasteLimit, List.length_nil] at hlong
      exact List.length_eq_zero_iff.mp (by omega)
    have hwhole := List.take_append_drop (cursorByte (readable (before.bytes ++
      (readable (text.take pasteLimit)).bytes ++ after.bytes)) p) (readable (before.bytes ++
      (readable (text.take pasteLimit)).bytes ++ after.bytes)).bytes
    rw [htake, hdrop] at hwhole
    by_cases hjoined : Reads (before.bytes ++ (readable (text.take pasteLimit)).bytes ++ after.bytes)
    · have hbytes : (readable (before.bytes ++ (readable (text.take pasteLimit)).bytes ++
        after.bytes)).bytes = before.bytes ++ (readable (text.take pasteLimit)).bytes ++
          after.bytes := hjoined
      rw [hbytes] at hwhole
      have heq := List.append_cancel_right hwhole
      have hreads : Reads (text.take pasteLimit) := by
        by_contra hnot
        have hlen := congrArg List.length heq
        rw [readable_of_not_reads hnot] at hlen
        simp only [UnicodeString.empty, List.length_append, List.length_nil] at hlen
        refine hnot ?_
        rw [hnil (List.length_eq_zero_iff.mp (by omega)), List.take_nil]
        exact reads_nil
      have hkeep : (readable (text.take pasteLimit)).bytes = text.take pasteLimit := hreads
      have hn : n = 0 := by
        rw [hkeep, List.append_assoc] at heq
        exact hkept.no_mark hbefore.decodes hreads.encodes heq.symm
      refine ⟨hn, hreads, hjoined, ?_⟩
      have hlen := congrArg List.length htake
      rw [List.length_take, Nat.min_eq_left (cursorByte_le (wellFormed_readable _) p), heq] at hlen
      exact hlen
    · rw [readable_of_not_reads hjoined] at hwhole
      obtain ⟨hleft, ha⟩ := List.append_eq_nil_iff.mp hwhole
      obtain ⟨hb, hk⟩ := List.append_eq_nil_iff.mp hleft
      refine absurd ?_ hjoined
      rw [(List.append_eq_nil_iff.mp hb).2, ha, hnil hk, List.take_nil]
      exact reads_nil
  · rintro ⟨rfl, hreads, hjoined, hcount⟩
    have hkeep : (readable (text.take pasteLimit)).bytes = text.take pasteLimit := hreads
    have hbytes : (readable (before.bytes ++ (readable (text.take pasteLimit)).bytes ++
        after.bytes)).bytes = before.bytes ++ (readable (text.take pasteLimit)).bytes ++
          after.bytes := hjoined
    refine ⟨text.take pasteLimit, ⟨List.take_prefix _ _, hreads.encodes, ?_⟩, ?_, ?_⟩
    · rw [List.length_take, pasteLimit]
      omega
    · rw [hcount, hbytes, List.take_left, hkeep]
      rfl
    · rw [hcount, hbytes, List.drop_left]

omit hafter in
/-- The line a paste begins in: the text before the cursor and what is kept of the first line. -/
theorem bytes_first (s : Bytes) : ∃ kept,
    (before.append (readable s)).bytes = before.bytes ++ kept ∧ (kept = s ∨ kept = []) ∧
      (kept = s ↔ s = [] ∨ Reads s ∧ Reads (before.bytes ++ s)) := by
  rw [bytes_append hbefore.decodes (wellFormed_readable s).decodes]
  by_cases hjoin : before.bytes = [] ∨ (readable s).bytes = [] ∨
      Reads (before.bytes ++ (readable s).bytes)
  · rw [if_pos hjoin]
    refine ⟨(readable s).bytes, rfl, ?_, fun hs => ?_, fun hs => ?_⟩
    · refine (bytes_readable s).imp_right fun h => ?_
      rw [h]
      rfl
    · obtain hb | hnil | hreads := hjoin
      · refine .inr ⟨hs, ?_⟩
        rw [hb]
        exact hs
      · exact .inl (hs.symm.trans hnil)
      · rw [hs] at hreads
        exact .inr ⟨hs, hreads⟩
    · obtain rfl | hs := hs
      · rfl
      · exact hs.1
  · rw [if_neg hjoin]
    refine ⟨[], (List.append_nil _).symm, .inr rfl, fun hs => .inl hs.symm, fun hs => ?_⟩
    obtain rfl | hs := hs
    · rfl
    · have hkeep : (readable s).bytes = s := hs.1
      rw [hkeep] at hjoin
      exact absurd (.inr (.inr hs.2)) hjoin

/-- A paste of several lines. -/
theorem landed_lines {first last : Bytes} {middle : List Bytes}
    (hlines : FlatText.above newline (first :: middle) ++ last = text.take pasteLimit)
    (hnewline : ∀ s ∈ first :: middle, newline ∉ s) :
    Landed text (encode (List.replicate n byteOrderMark) ++ before.bytes) after.bytes
        (FlatText.above newline
          ((before.append (readable first)).bytes :: middle.map fun s => (readable s).bytes))
        ((readable last).append after) (readable last).length ↔
      n = 0 ∧ (∀ s ∈ first :: middle, Reads s) ∧
      (Reads last ∨ min text.length (pasteLimit - 3) + last.length ≤
        (text.take pasteLimit).length) ∧
      (first = [] ∨ Reads (before.bytes ++ first)) ∧
      cursorByte (readable ((readable last).bytes ++ after.bytes)) (readable last).length =
        (readable last).bytes.length := by
  obtain ⟨kept₁, hfirst, hor, hwhole⟩ := bytes_first hbefore first
  have happ : FlatText.above newline
      ((before.append (readable first)).bytes :: middle.map fun s => (readable s).bytes) =
        before.bytes ++ FlatText.above newline (kept₁ :: middle.map fun s => (readable s).bytes) := by
    rw [hfirst]
    simp [FlatText.above]
  have hbytes := bytes_last hafter last
  rw [happ, Landed, ← cursorByte_last hafter last, hbytes]
  have hkeeps : List.Forall₂ (fun k p => k = p ∨ k = [])
      (kept₁ :: middle.map fun s => (readable s).bytes) (first :: middle) := by
    refine .cons hor (List.forall₂_map_left_iff.mpr (List.forall₂_same.mpr fun s _ => ?_))
    refine (bytes_readable s).imp_right fun h => ?_
    rw [h]
    rfl
  have hlast : (readable last).bytes = last ∨ (readable last).bytes = [] := by
    refine (bytes_readable last).imp_right fun h => ?_
    rw [h]
    rfl
  constructor
  · rintro ⟨kept, hkept, htake, hdrop⟩
    have hk : ((readable last).bytes ++ after.bytes).take
        (cursorByte ((readable last).append after) (readable last).length) =
          (readable last).bytes := by
      have hsplit := List.take_append_drop
        (cursorByte ((readable last).append after) (readable last).length)
        ((readable last).bytes ++ after.bytes)
      rw [hdrop] at hsplit
      exact List.append_cancel_right hsplit
    rw [hk, List.append_assoc, List.append_assoc] at htake
    obtain ⟨hn, hks, hkept'⟩ := hkept.lines hbefore.decodes hlines hnewline hkeeps hlast htake
    rw [List.cons.injEq] at hks
    have hone := hwhole.mp hks.1
    refine ⟨hn, ?_, ?_, ?_, ?_⟩
    · rintro s (_ | ⟨_, hs⟩)
      · obtain rfl | h := hone
        · exact reads_nil
        · exact h.1
      · exact (List.map_inj_left.mp (hks.2.trans (List.map_id middle).symm)) s hs
    · by_cases hreads : Reads last
      · exact .inl hreads
      · refine .inr ?_
        have hlong := hkept.long
        have hlen := congrArg List.length hlines
        rw [readable_of_not_reads hreads] at hkept'
        rw [hkept'] at hlong
        simp only [UnicodeString.empty, List.append_nil] at hlong
        rw [List.length_append] at hlen
        omega
    · exact hone.imp_right And.right
    · have hlen := congrArg List.length hk
      have hle := cursorByte_le ((wellFormed_readable last).append hafter)
        ((readable last).length : Int)
      rw [hbytes] at hle
      rwa [List.length_take, Nat.min_eq_left hle] at hlen
  · rintro ⟨rfl, hreads, hend, hjoin, hcount⟩
    have hfirst' : kept₁ = first := hwhole.mpr
      (hjoin.imp_right fun h => ⟨hreads first List.mem_cons_self, h⟩)
    have hmiddle : (middle.map fun s => (readable s).bytes) = middle :=
      (List.map_congr_left fun s hs => hreads s (List.mem_cons_of_mem first hs)).trans
        (List.map_id middle)
    rw [hfirst', hmiddle, hcount, List.take_left, List.drop_left]
    have hlen := congrArg List.length hlines
    rw [List.length_append] at hlen
    refine ⟨FlatText.above newline (first :: middle) ++ (readable last).bytes, ⟨?_, ?_, ?_⟩, ?_, rfl⟩
    · have hstarts := List.take_prefix pasteLimit text
      rw [← hlines] at hstarts
      obtain hlast | hlast := hlast
      · rw [hlast]
        exact hstarts
      · rw [hlast, List.append_nil]
        exact (List.prefix_append _ last).trans hstarts
    · exact encodes_append (encodes_above fun s hs => (hreads s hs).encodes)
        (wellFormed_readable last).decodes
    · rw [List.length_append]
      obtain hreads' | hend := hend
      · have hkeep : (readable last).bytes = last := hreads'
        rw [hkeep, hlen, List.length_take]
        omega
      · omega
    · rw [List.append_assoc]
      rfl

end Landing

/-! ## The paste -/

namespace Model

/-- The flat text before the cursor. -/
def textBefore (m : Model) : Bytes :=
  FlatText.above newline ((m.input.lines.take m.input.cursorLine.toNat).map UnicodeString.toBytes) ++
    m.line.bytes.take (cursorByte m.line m.input.cursorPos)

def textAfter (m : Model) : Bytes :=
  m.line.bytes.drop (cursorByte m.line m.input.cursorPos) ++
    FlatText.below newline
      ((m.input.lines.drop (m.input.cursorLine.toNat + 1)).map UnicodeString.toBytes)

/-- What is kept of the text stands in front of the cursor, and nothing else differs. -/
def Pasted (text : Bytes) (m m' : Model) : Prop :=
  ∃ kept, KeptOf text kept ∧ m'.textBefore = m.textBefore ++ kept ∧ m'.textAfter = m.textAfter

def pasteLines (text : Bytes) : List Bytes := splitOnChar newline (text.take pasteLimit)

/-- The text in the line of the new cursor before what is pasted there, and its clusters. -/
def pasteLead (m : Model) (text : Bytes) : Bytes × Int :=
  if (pasteLines text).length = 1 then
    ((m.line.split m.input.cursorPos).1.bytes, m.input.cursorPos)
  else ([], 0)

/-- When a paste keeps everything up to the limit and the cursor lands behind it. -/
structure PastesWhole (m : Model) (text : Bytes) : Prop where
  /-- The cursor does not stand behind a mark that the parser dropped from its line. -/
  mark : (m.line.split m.input.cursorPos).1.bytes ++ (m.line.split m.input.cursorPos).2.bytes =
    m.line.bytes
  /-- Every pasted line but the last one can be read. -/
  lines : ∀ s ∈ (pasteLines text).dropLast, Reads s
  /-- So can the last one, which is where the limit cuts a character, or it is too short to matter. -/
  last : Reads ((pasteLines text).getLastD []) ∨
    min text.length (pasteLimit - 3) + ((pasteLines text).getLastD []).length ≤
      (text.take pasteLimit).length
  /-- The line the paste begins in can be read with what is pasted into it. -/
  joined : match pasteLines text with
    | [] => True
    | [single] => Reads ((m.line.split m.input.cursorPos).1.bytes ++ (readable single).bytes ++
        (m.line.split m.input.cursorPos).2.bytes)
    | first :: _ :: _ => first = [] ∨ Reads ((m.line.split m.input.cursorPos).1.bytes ++ first)
  /-- No cluster is made of pasted text and text that was there. -/
  counted :
    let kept := readable ((pasteLines text).getLastD [])
    cursorByte (readable ((m.pasteLead text).1 ++ kept.bytes ++
        (m.line.split m.input.cursorPos).2.bytes)) ((m.pasteLead text).2 + kept.length) =
      ((m.pasteLead text).1 ++ kept.bytes).length

variable {m : Model}

omit [Ucd] in
theorem getElem_line (hline : 0 ≤ m.input.cursorLine ∧ m.input.cursorLine < m.input.lines.length) :
    m.input.lines[m.input.cursorLine.toNat]? = some m.line := by
  rw [line, List.getD_eq_getElem?_getD, List.getElem?_eq_getElem (by omega)]
  rfl

omit [Ucd] in
theorem pasted_iff_landed {m' : Model} {text : Bytes} {front : List UnicodeString}
    {last : UnicodeString} {pos : Int}
    (hline : 0 ≤ m.input.cursorLine ∧ m.input.cursorLine < m.input.lines.length)
    (hlines : m'.input.lines = m.input.lines.take m.input.cursorLine.toNat ++ (front ++ [last]) ++
      m.input.lines.drop (m.input.cursorLine.toNat + 1))
    (hcursor : m'.input.cursorLine = m.input.cursorLine + front.length)
    (hpos : m'.input.cursorPos = pos) :
    Pasted text m m' ↔ Landed text (m.line.bytes.take (cursorByte m.line m.input.cursorPos))
      (m.line.bytes.drop (cursorByte m.line m.input.cursorPos))
      (FlatText.above newline (front.map UnicodeString.toBytes)) last pos := by
  have hidx : m'.input.cursorLine.toNat = m.input.cursorLine.toNat + front.length := by
    rw [hcursor]
    omega
  have hlen : (m.input.lines.take m.input.cursorLine.toNat).length = m.input.cursorLine.toNat := by
    rw [List.length_take]
    omega
  have hsplit : m'.input.lines = (m.input.lines.take m.input.cursorLine.toNat ++ front) ++
      last :: m.input.lines.drop (m.input.cursorLine.toNat + 1) := by
    rw [hlines]
    simp only [List.append_assoc, List.singleton_append]
  have hfront : (m.input.lines.take m.input.cursorLine.toNat ++ front).length =
      m'.input.cursorLine.toNat := by
    rw [List.length_append, hlen, hidx]
  have hlast : m'.line = last := by
    rw [line, hsplit, ← hfront, List.getD_eq_getElem?_getD, List.getElem?_append_right (Nat.le_refl _),
      Nat.sub_self]
    rfl
  have hbefore : m'.textBefore =
      FlatText.above newline
          ((m.input.lines.take m.input.cursorLine.toNat).map UnicodeString.toBytes) ++
        (FlatText.above newline (front.map UnicodeString.toBytes) ++
          last.bytes.take (cursorByte last pos)) := by
    rw [textBefore, hlast, hpos, hsplit, ← hfront, List.take_left, List.map_append]
    simp only [FlatText.above, List.map_append, List.flatten_append, List.append_assoc]
  have hafter : m'.textAfter = last.bytes.drop (cursorByte last pos) ++
      FlatText.below newline
        ((m.input.lines.drop (m.input.cursorLine.toNat + 1)).map UnicodeString.toBytes) := by
    rw [textAfter, hlast, hpos, hsplit, ← hfront, List.drop_length_add_append]
    rfl
  rw [Pasted, Landed, hbefore, hafter, textBefore, textAfter]
  refine exists_congr fun kept => and_congr_right fun _ => ?_
  rw [List.append_assoc, List.append_cancel_left_eq, List.append_cancel_right_eq]

end Model

end

section

attribute [local instance] asciiUcd

open Update (initialModel)

/-- One byte less than the limit, and a character of two bytes. -/
def cutText : Bytes := List.replicate 5119 120 ++ [0xC3, 0xA9]

theorem readable_cut : readable (List.replicate 5119 120 ++ [0xC3]) = .empty := by
  refine readable_of_not_reads fun h => ?_
  have hleft : ∃ cs, (List.replicate 5119 120 : Bytes) = encode cs :=
    ⟨List.replicate 5119 'x', (Utf8.encode_replicate (by decide) 5119).symm⟩
  obtain ⟨ds, hds⟩ := encodes_right hleft h.encodes
  have hdecode := Utf8.decode_encode ds
  rw [← hds] at hdecode
  have hnone : Utf8.decode [0xC3] = none := by decide
  rw [hnone] at hdecode
  cases hdecode

end

end Raoui
