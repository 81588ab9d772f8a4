import Raoui.Lib.Uax29
import Raoui.Text.Clusters

/-!
# Raoui.Text.Reparse

The edits of a Unicode string against parsing the edited bytes again.

* `Segments`: the segmenter follows the grapheme cluster rules.
* `clusters_append`, `apart_of_clusters`: a text may be cut at its boundaries, and only there.
* `edits_reparse_iff`: when an edit leaves what parsing its bytes gives.
-/

namespace Raoui
namespace UnicodeString

open Utf8 (encode)

/-- The characters of a text. -/
def chars (s : Bytes) : List Char := (Utf8.decode s).getD []

theorem chars_encode (cs : List Char) : chars (encode cs) = cs := by
  rw [chars, Utf8.decode_encode, Option.getD_some]

section
variable [Ucd]

/-- The segmenter follows the grapheme cluster rules over the classes of the characters; the
byte-order mark is a control character, and the printable ASCII characters have width one and are
no marks. -/
structure Segments (kind : Char → Uax29.Kind) : Prop where
  boundary : ∀ before next, before ≠ [] →
    Ucd.boundary before next = Uax29.boundary (before.map kind) (kind next)
  byteOrderMark : kind byteOrderMark = .control
  ascii_width : ∀ c : UInt8, 32 ≤ c → c < 127 → Ucd.ttyWidthHint (Char.ofUInt8 c) = 1
  ascii_mark : ∀ c : UInt8, 32 ≤ c → c < 127 → Ucd.isMark (Char.ofUInt8 c) = false

/-- The first character behind a text starts a cluster. -/
def Apart (before after : List Char) : Prop :=
  before = [] ∨ ∀ c ∈ after.head?, Ucd.boundary before c = true

def clusters : List Char → List Cluster
  | [] => []
  | u :: rest => clustersFrom [u] [u] (ucharWidth u) rest

theorem text_clusters (cs : List Char) : text (clusters cs) = cs := by
  cases cs with
  | nil => rfl
  | cons u rest => rw [clusters, text_clustersFrom]; rfl

theorem eq_text_append {all : List Char} {cs ds : List Cluster} (h : clusters all = cs ++ ds) :
    all = text cs ++ text ds := by
  rw [← text_clusters all, h, text_append]

theorem text_starts {all : List Char} {cs ds : List Cluster} (h : clusters all = cs ++ ds) :
    text cs <+: all := ⟨text ds, (eq_text_append h).symm⟩

theorem clusters_ne_nil (cs : List Char) : ∀ c ∈ clusters cs, c.1 ≠ [] := by
  cases cs with
  | nil => exact fun c hc => nomatch hc
  | cons u rest => exact clustersFrom_ne_nil (List.cons_ne_nil _ _)

omit [Ucd] in
/-- Clusters that start a list are determined by their text. -/
theorem eq_of_text_eq {cs cs' ds ds' : List Cluster} (hcs : ∀ c ∈ cs, c.1 ≠ [])
    (hcs' : ∀ c ∈ cs', c.1 ≠ []) (h : cs ++ ds = cs' ++ ds') (htext : text cs = text cs') :
    cs = cs' := by
  induction cs generalizing cs' with
  | nil =>
    cases cs' with
    | nil => rfl
    | cons c' cs' =>
      exact absurd (List.append_eq_nil_iff.mp htext.symm).1 (hcs' c' List.mem_cons_self)
  | cons c cs ih =>
    cases cs' with
    | nil => exact absurd (List.append_eq_nil_iff.mp htext).1 (hcs c List.mem_cons_self)
    | cons c' cs' =>
      obtain ⟨rfl, hrest⟩ := List.cons.inj h
      rw [ih (fun d hd => hcs d (List.mem_cons_of_mem _ hd))
        (fun d hd => hcs' d (List.mem_cons_of_mem _ hd)) hrest (List.append_cancel_left htext)]

/-! ## Cutting at boundaries -/

theorem clustersFrom_append {before cur rest more : List Char} {width : Nat} {q : Char}
    (h : Ucd.boundary (before ++ rest) q = true) :
    clustersFrom before cur width (rest ++ q :: more) =
      clustersFrom before cur width rest ++
        clustersFrom (before ++ rest ++ [q]) [q] (ucharWidth q) more := by
  induction rest generalizing before cur width with
  | nil =>
    rw [List.append_nil] at h ⊢
    rw [List.nil_append, clustersFrom.eq_def before cur width (q :: more)]
    dsimp only
    rw [if_pos h]
    rfl
  | cons u rest ih =>
    have hrest : Ucd.boundary (before ++ [u] ++ rest) q = true := by
      rwa [List.append_assoc, List.singleton_append]
    have hassoc : before ++ [u] ++ rest = before ++ u :: rest := by
      rw [List.append_assoc, List.singleton_append]
    rw [List.cons_append, clustersFrom, clustersFrom, ih hrest, ih hrest, hassoc]
    split <;> rfl

/-- The first cluster holds at least what was read of it. -/
theorem clustersFrom_head {before cur rest : List Char} {width : Nat} {c : Cluster}
    {cs : List Cluster} (h : clustersFrom before cur width rest = c :: cs) : cur <+: c.1 := by
  induction rest generalizing before cur width with
  | nil =>
    cases h
    exact List.prefix_refl _
  | cons u rest ih =>
    rw [clustersFrom] at h
    split at h
    · cases h
      exact List.prefix_refl _
    · exact (List.prefix_append cur [u]).trans (ih h)

theorem boundary_of_clustersFrom {before cur rest more : List Char} {width : Nat} {q : Char}
    {cs ds : List Cluster} (hcur : cur ≠ []) (htext : text cs = cur ++ rest)
    (h : clustersFrom before cur width (rest ++ q :: more) = cs ++ ds) :
    Ucd.boundary (before ++ rest) q = true := by
  cases cs with
  | nil => exact absurd (List.append_eq_nil_iff.mp htext.symm).1 hcur
  | cons c cs =>
    induction rest generalizing before cur width c cs with
    | nil =>
      rw [List.append_nil]
      by_contra hnot
      rw [List.nil_append, clustersFrom, if_neg hnot] at h
      have hpre := (clustersFrom_head h).length_le
      have hlen := congrArg List.length htext
      rw [text_cons, List.append_nil, List.length_append] at hlen
      rw [List.length_append, List.length_singleton] at hpre
      omega
    | cons u rest ih =>
      have hassoc : before ++ [u] ++ rest = before ++ u :: rest := by
        rw [List.append_assoc, List.singleton_append]
      rw [List.cons_append, clustersFrom] at h
      rw [← hassoc]
      split at h
      · obtain ⟨rfl, hcs⟩ := List.cons.inj h
        rw [text_cons] at htext
        have hrest : text cs = [u] ++ rest := List.append_cancel_left htext
        cases cs with
        | nil => cases hrest
        | cons c cs => exact ih (List.cons_ne_nil _ _) _ _ hrest hcs
      · refine ih (by simp) c cs ?_ h
        rw [htext, List.append_assoc, List.singleton_append]

/-- Where a text falls into clusters there is a boundary. -/
theorem apart_of_clusters {all : List Char} {cs ds : List Cluster}
    (h : clusters all = cs ++ ds) : Apart (text cs) (text ds) := by
  have hall := eq_text_append h
  cases hcs : text cs with
  | nil => exact .inl rfl
  | cons u rest =>
    refine .inr fun q hq => ?_
    obtain ⟨more, hmore⟩ := List.head?_eq_some_iff.mp hq
    rw [hcs, hmore] at hall
    rw [hall, List.cons_append, clusters] at h
    exact boundary_of_clustersFrom (List.cons_ne_nil u []) hcs h

section
variable {kind : Char → Uax29.Kind} (hkind : Segments kind)
include hkind

/-- Behind a boundary segmentation starts afresh. -/
theorem Segments.boundary_append {before after : List Char} {next : Char} (hne : after ≠ [])
    (h : Apart before after) : Ucd.boundary (before ++ after) next = Ucd.boundary after next := by
  obtain ⟨first, rest, rfl⟩ := List.exists_cons_of_ne_nil hne
  by_cases hbefore : before = []
  · rw [hbefore, List.nil_append]
  · have hfirst := (h.resolve_left hbefore) first rfl
    rw [hkind.boundary _ _ hbefore] at hfirst
    rw [hkind.boundary _ _ (by simp), hkind.boundary _ _ hne, List.map_append]
    exact Uax29.boundary_append rfl hfirst

theorem clustersFrom_restart {before after cur rest : List Char} {width : Nat} (hne : after ≠ [])
    (h : Apart before after) :
    clustersFrom (before ++ after) cur width rest = clustersFrom after cur width rest := by
  induction rest generalizing after cur width with
  | nil => rfl
  | cons u rest ih =>
    have hnext : Apart before (after ++ [u]) := by
      obtain hnil | hfirst := h
      · exact .inl hnil
      · exact .inr (by rwa [List.head?_append_of_ne_nil _ hne])
    rw [clustersFrom, clustersFrom, hkind.boundary_append hne h, List.append_assoc,
      ih (by simp) hnext, ih (by simp) hnext]

theorem clusters_append {before after : List Char} (h : Apart before after) :
    clusters (before ++ after) = clusters before ++ clusters after := by
  cases before with
  | nil => rfl
  | cons u rest =>
    cases after with
    | nil => rw [List.append_nil, clusters, clusters, List.append_nil]
    | cons q more =>
      have hq := (h.resolve_left (List.cons_ne_nil _ _)) q rfl
      have hcut : clustersFrom [u] [u] (ucharWidth u) (rest ++ q :: more) =
          clustersFrom [u] [u] (ucharWidth u) rest ++
            clustersFrom ((u :: rest) ++ [q]) [q] (ucharWidth q) more := clustersFrom_append hq
      have hfresh : Apart (u :: rest) [q] := .inr fun c hc => by cases hc; exact hq
      rw [List.cons_append, clusters, clusters, clusters, hcut,
        clustersFrom_restart hkind (List.cons_ne_nil _ _) hfresh]

/-- Clusters of a text are those of their own texts. -/
theorem clusters_split {all : List Char} {cs ds : List Cluster} (h : clusters all = cs ++ ds) :
    clusters (text cs) = cs ∧ clusters (text ds) = ds := by
  have hall := eq_text_append h
  have hne : ∀ c ∈ cs ++ ds, c.1 ≠ [] := h ▸ clusters_ne_nil all
  rw [hall, clusters_append hkind (apart_of_clusters h)] at h
  have hcs : clusters (text cs) = cs :=
    eq_of_text_eq (clusters_ne_nil _) (fun c hc => hne c (List.mem_append_left _ hc)) h
      (text_clusters _)
  rw [hcs] at h
  exact ⟨hcs, List.append_cancel_left h⟩

end

/-! ## Parsing -/

omit [Ucd] in
theorem starts_inj {pos : Nat} {cs ds : List Cluster} (hstarts : starts pos cs = starts pos ds)
    (hwidths : cs.map Prod.snd = ds.map Prod.snd) (htext : text cs = text ds) : cs = ds := by
  induction cs generalizing pos ds with
  | nil =>
    cases ds with
    | nil => rfl
    | cons d ds => cases hwidths
  | cons c cs ih =>
    cases ds with
    | nil => cases hwidths
    | cons d ds =>
      obtain ⟨-, hnext⟩ := List.cons.inj hstarts
      obtain ⟨hwidth, hrest⟩ := List.cons.inj hwidths
      have hfirst : c.1 = d.1 ∧ text cs = text ds := by
        cases cs with
        | nil =>
          cases ds with
          | nil => exact ⟨by simpa using htext, rfl⟩
          | cons d' ds => cases hrest
        | cons c' cs =>
          cases ds with
          | nil => cases hrest
          | cons d' ds =>
            have hlen : (encode c.1).length = (encode d.1).length :=
              Nat.add_left_cancel (List.cons.inj hnext).1
            have hencode : encode c.1 ++ encode (text (c' :: cs)) =
                encode d.1 ++ encode (text (d' :: ds)) := by
              rw [← Utf8.encode_append, ← Utf8.encode_append]
              exact congrArg encode htext
            obtain ⟨hc, hcs⟩ := List.append_inj hencode hlen
            exact ⟨Utf8.encode_injective hc, Utf8.encode_injective hcs⟩
      rw [hfirst.1] at hnext
      rw [ih hnext hrest hfirst.2, Prod.ext hfirst.1 hwidth]

omit [Ucd] in
theorem ofClusters_inj {lead : List Char} {cs ds : List Cluster}
    (h : ofClusters lead cs = ofClusters lead ds) : cs = ds := by
  rw [ofClusters, ofClusters, UnicodeString.mk.injEq] at h
  obtain ⟨hbytes, hstarts, hwidths⟩ := h
  exact starts_inj hstarts hwidths (List.append_cancel_left (Utf8.encode_injective hbytes))

/-- What parsing a text gives, from its characters. -/
theorem ofString_encode (cs : List Char) : ofString (encode cs) =
    match (stripMark cs).2 with
    | [] => .ok empty
    | u :: rest =>
      if isCombiner u then .error .leadingCombiner
      else .ok (ofClusters (stripMark cs).1 (clusters (u :: rest))) := by
  cases hstrip : (stripMark cs).2 with
  | nil =>
    unfold ofString
    split
    · rfl
    · rw [Utf8.decode_encode]
      dsimp only
      rw [codepoints_eq, hstrip]
      rfl
  | cons u rest =>
    have hne : (encode cs).length ≠ 0 := by
      intro h0
      have hnil : encode cs = encode [] := List.length_eq_zero_iff.mp h0
      rw [Utf8.encode_injective hnil] at hstrip
      cases hstrip
    have hseg := segment_eq [u] [u] (encode (stripMark cs).1).length (ucharWidth u) rest
    simp only [Utf8.encode_cons, Utf8.encode_nil, List.append_nil] at hseg
    have happ := stripMark_append cs
    rw [hstrip] at happ
    unfold ofString
    rw [if_neg hne, Utf8.decode_encode]
    simp only [codepoints_eq, hstrip, withPositions]
    rw [hseg.1, hseg.2, ofClusters, clusters, text_clustersFrom, List.singleton_append, happ]

/-- A string that comes from parsing: its clusters, behind a dropped mark or nothing. -/
structure Parsed (t : UnicodeString) (lead all : List Char) : Prop where
  eq : t = ofClusters lead (clusters all)
  strip : stripMark (lead ++ all) = (lead, all)
  nonempty : lead ≠ [] → all ≠ []
  first : ∀ u ∈ all.head?, isCombiner u = false

theorem Parsed.first_of_starts {t : UnicodeString} {lead all rest : List Char} {u : Char}
    (h : Parsed t lead all) (hstarts : u :: rest <+: all) : isCombiner u = false := by
  obtain ⟨more, rfl⟩ := hstarts
  exact h.first u rfl

theorem parsed_of_ofString {s : Bytes} {t : UnicodeString} (h : ofString s = .ok t) :
    ∃ lead all, Parsed t lead all := by
  obtain ⟨cs, hdecode, -⟩ := ofString_cases h
  rw [← Utf8.encode_of_decode hdecode, ofString_encode] at h
  cases hstrip : (stripMark cs).2 with
  | nil =>
    rw [hstrip] at h
    cases h
    exact ⟨[], [], rfl, rfl, fun hne => absurd rfl hne, fun u hu => nomatch hu⟩
  | cons u rest =>
    rw [hstrip] at h
    dsimp only at h
    split at h
    · cases h
    · rename_i hcomb
      cases h
      refine ⟨(stripMark cs).1, u :: rest, rfl, ?_, fun _ => List.cons_ne_nil u rest, ?_⟩
      · rw [← hstrip, stripMark_append]
      · intro v hv
        cases hv
        simpa using hcomb

theorem Parsed.ofString {t : UnicodeString} {lead all : List Char} (h : Parsed t lead all) :
    UnicodeString.ofString (encode (lead ++ all)) = .ok t := by
  obtain ⟨rfl, hstrip, hnonempty, hfirst⟩ := h
  rw [ofString_encode, hstrip]
  cases all with
  | nil =>
    have hlead : lead = [] := by
      by_contra hne
      exact hnonempty hne rfl
    rw [hlead]
    rfl
  | cons u rest =>
    dsimp only
    rw [hfirst u rfl, if_neg Bool.false_ne_true]

/-- A layout of a text is what parsing gives when its clusters are those of the text. -/
theorem ofString_eq_iff {lead all : List Char} {cs : List Cluster}
    (hstrip : stripMark (lead ++ all) = (lead, all)) (hnonempty : lead ≠ [] → all ≠ [])
    (hfirst : ∀ u ∈ all.head?, isCombiner u = false) :
    UnicodeString.ofString (encode (lead ++ all)) = .ok (ofClusters lead cs) ↔
      clusters all = cs := by
  rw [Parsed.ofString ⟨rfl, hstrip, hnonempty, hfirst⟩, Except.ok.injEq]
  exact ⟨ofClusters_inj, fun h => h ▸ rfl⟩

omit [Ucd] in
/-- A dropped mark is dropped whatever follows, and no text becomes one by what follows. -/
theorem stripMark_prefixed {lead all before more : List Char}
    (hstrip : stripMark (lead ++ all) = (lead, all)) (hbefore : before <+: all)
    (hne : lead ++ before ≠ []) : stripMark (lead ++ (before ++ more)) = (lead, before ++ more) := by
  cases lead with
  | nil =>
    cases before with
    | nil => exact absurd rfl hne
    | cons u before =>
      obtain ⟨rest, rfl⟩ := hbefore
      by_cases hu : u = byteOrderMark
      · simp [stripMark, hu] at hstrip
      · simp [stripMark, hu]
  | cons u lead =>
    by_cases hu : u = byteOrderMark
    · simp only [List.cons_append, stripMark, hu, if_true, Prod.mk.injEq, List.cons.injEq, true_and]
        at hstrip ⊢
      obtain ⟨rfl, -⟩ := hstrip
      exact ⟨rfl, rfl⟩
    · simp [stripMark, hu] at hstrip

omit [Ucd] in
theorem stripMark_of_head {all : List Char} (h : all.head? ≠ some byteOrderMark) :
    stripMark all = ([], all) := by
  cases all with
  | nil => rfl
  | cons u rest =>
    rw [stripMark, if_neg]
    rintro rfl
    exact h rfl

theorem eq_of_ofString {lead all : List Char} {t : UnicodeString}
    (hstrip : stripMark (lead ++ all) = (lead, all)) (hne : all ≠ [])
    (h : UnicodeString.ofString (encode (lead ++ all)) = .ok t) :
    t = ofClusters lead (clusters all) := by
  rw [ofString_encode, hstrip] at h
  obtain ⟨u, rest, rfl⟩ := List.exists_cons_of_ne_nil hne
  dsimp only at h
  split at h
  · cases h
  · exact (Except.ok.inj h).symm

theorem length_of_mark {rest : List Char} {t : UnicodeString}
    (h : UnicodeString.ofString (encode (byteOrderMark :: rest)) = .ok t) :
    t.length = (clusters rest).length := by
  have hstrip : stripMark (byteOrderMark :: rest) = ([byteOrderMark], rest) := by
    rw [stripMark, if_pos rfl]
  rw [ofString_encode, hstrip] at h
  cases rest with
  | nil =>
    cases h
    rfl
  | cons u rest =>
    dsimp only at h
    split at h
    · cases h
    · cases h
      exact length_ofClusters

theorem eq_of_ofString_head {all : List Char} {t : UnicodeString}
    (hhead : all.head? ≠ some byteOrderMark) (h : UnicodeString.ofString (encode all) = .ok t) :
    t = ofClusters [] (clusters all) := by
  by_cases hne : all = []
  · subst hne
    cases h
    rfl
  · exact eq_of_ofString (stripMark_of_head hhead) hne h

/-! ## Conditions -/

/-- The byte offset of a position. -/
def cut (t : UnicodeString) (pos : Int) : Nat :=
  if pos ≥ t.length then t.bytes.length else t.offset pos.toNat

/-- The characters of a text the segmenter gets. -/
def segmented (s : Bytes) : List Char := (stripMark (chars s)).2

/-- What is inserted does not join what precedes or follows it, and is not dropped as a mark. -/
def InsertsApart (t : UnicodeString) (pos : Int) (str : Bytes) : Prop :=
  let before := t.bytes.take (t.cut pos)
  let after := chars (t.bytes.drop (t.cut pos))
  if isSingleAsciiWidth1 str then
    Apart (segmented before) (chars str) ∧ Apart (segmented before ++ chars str) after
  else
    before = [] ∨
      (chars str ++ after).head? ≠ some byteOrderMark ∧ Apart (segmented before) (chars str ++ after)

/-- Without a cluster that is cut out unparsed, its neighbours do not join, no mark comes to the
start of the text and none is left alone there. -/
def DeletesApart (t : UnicodeString) (pos : Int) : Prop :=
  let before := t.bytes.take (t.offset pos.toNat)
  let after := chars (t.bytes.drop (t.stop pos.toNat))
  t.isAsciiAt pos.toNat = true →
    (before = [] → after.head? ≠ some byteOrderMark) ∧
    (segmented before = [] → after = [] → before = []) ∧ Apart (segmented before) after

omit [Ucd] in
theorem encode_eq_nil {cs : List Char} : encode cs = [] ↔ cs = [] :=
  ⟨fun h => Utf8.encode_injective (h : encode cs = encode []), fun h => h ▸ rfl⟩

omit [Ucd] in
theorem cs_nil_of_text {cs : List Cluster} (hcs : ∀ c ∈ cs, c.1 ≠ []) (h : text cs = []) :
    cs = [] := by
  cases cs with
  | nil => rfl
  | cons c cs => exact absurd (List.append_eq_nil_iff.mp h).1 (hcs c List.mem_cons_self)

omit [Ucd] in
theorem segmented_prefixed {lead all before : List Char}
    (hstrip : stripMark (lead ++ all) = (lead, all)) (hbefore : before <+: all) :
    segmented (encode (lead ++ before)) = before := by
  rw [segmented, chars_encode]
  by_cases hne : lead ++ before = []
  · rw [hne]
    exact (List.append_eq_nil_iff.mp hne).2.symm
  · have h := @stripMark_prefixed lead all before [] hstrip hbefore hne
    rw [List.append_nil] at h
    rw [h]

theorem apart_head {before after after' : List Char} (h : after.head? = after'.head?) :
    Apart before after ↔ Apart before after' := by
  rw [Apart, Apart, h]

section
variable {kind : Char → Uax29.Kind} (hkind : Segments kind)
include hkind

theorem clusters_append_iff {before after : List Char} :
    clusters (before ++ after) = clusters before ++ clusters after ↔ Apart before after := by
  refine ⟨fun h => ?_, clusters_append hkind⟩
  have hapart := apart_of_clusters h
  rwa [text_clusters, text_clusters] at hapart

theorem clusters_ascii {c : UInt8} (hlo : 32 ≤ c) (hhi : c < 127) :
    clusters [Char.ofUInt8 c] = [([Char.ofUInt8 c], 1)] := by
  rw [clusters, clustersFrom, ucharWidth, hkind.ascii_width c hlo hhi]
  rfl

/-- A printable ASCII character between clusters stays one of its own, and they stay as they are. -/
theorem clusters_insert_iff {cs ds : List Cluster} {c : UInt8} (hlo : 32 ≤ c) (hhi : c < 127)
    (hcs : clusters (text cs) = cs) (hds : clusters (text ds) = ds) :
    clusters (text cs ++ ([Char.ofUInt8 c] ++ text ds)) = cs ++ ([Char.ofUInt8 c], 1) :: ds ↔
      Apart (text cs) [Char.ofUInt8 c] ∧ Apart (text cs ++ [Char.ofUInt8 c]) (text ds) := by
  have hone := clusters_ascii hkind hlo hhi
  constructor
  · intro h
    refine ⟨(apart_head rfl).mpr (apart_of_clusters h), ?_⟩
    rw [List.append_cons] at h
    have hapart := apart_of_clusters h
    rwa [text_append, text_cons, text_nil, List.append_nil] at hapart
  · rintro ⟨hleft, hright⟩
    rw [← List.append_assoc, clusters_append hkind hright, clusters_append hkind hleft, hcs, hds,
      hone, List.append_assoc, List.singleton_append]

theorem clusters_mark (before rest : List Char) :
    (clusters (before ++ byteOrderMark :: rest)).length =
      (clusters before).length + (1 + (clusters rest).length) := by
  have hright : Apart before (byteOrderMark :: rest) := by
    by_cases hbefore : before = []
    · exact .inl hbefore
    · refine .inr fun c hc => ?_
      cases hc
      rw [hkind.boundary _ _ hbefore, hkind.byteOrderMark]
      exact Uax29.boundary_control_right rfl (by decide)
  have hleft : Apart [byteOrderMark] rest := by
    refine .inr fun c _ => ?_
    rw [hkind.boundary _ _ (List.cons_ne_nil _ _), List.map_singleton, hkind.byteOrderMark]
    exact @Uax29.boundary_control_left [] .control (kind c) rfl (by decide)
  have hcons : byteOrderMark :: rest = [byteOrderMark] ++ rest := rfl
  rw [clusters_append hkind hright, hcons, clusters_append hkind hleft, List.length_append,
    List.length_append]
  rfl

end

/-! ## Insertion -/

/-- The clusters left and right of a position. -/
theorem Parsed.at_position {t : UnicodeString} {lead all : List Char} (h : Parsed t lead all)
    {pos : Int} (hpos : 0 ≤ pos) :
    ∃ cs ds, clusters all = cs ++ ds ∧ (min pos (clusters all).length).toNat = cs.length ∧
      t.cut pos = (encode (lead ++ text cs)).length ∧
      t.bytes.take (t.cut pos) = encode (lead ++ text cs) ∧
      t.bytes.drop (t.cut pos) = encode (text ds) := by
  obtain ⟨rfl, -, -, -⟩ := h
  have hcut := @insertBytePos lead (clusters all) pos hpos
  refine ⟨_, _, (List.take_append_drop (min pos (clusters all).length).toNat _).symm, ?_, hcut, ?_, ?_⟩
  · rw [List.length_take]
    omega
  · rw [cut, hcut]
    exact bytes_take _
  · rw [cut, hcut]
    exact bytes_drop _

omit [Ucd] in
/-- The clusters of a suffix behind those of a prefix. -/
theorem ofClusters_append (lead : List Char) (cs ds : List Cluster) :
    (⟨encode (lead ++ text cs) ++ (ofClusters [] ds).bytes,
      (ofClusters lead cs).offsets ++ (ofClusters [] ds).offsets.map
        (· + (encode (lead ++ text cs)).length),
      (ofClusters lead cs).widths ++ (ofClusters [] ds).widths⟩ : UnicodeString) =
        ofClusters lead (cs ++ ds) := by
  simp only [ofClusters, UnicodeString.mk.injEq]
  refine ⟨?_, ?_, ?_⟩
  · rw [List.nil_append, ← Utf8.encode_append, text_append, List.append_assoc]
  · rw [starts_append, ← starts_add, Utf8.encode_nil, List.length_nil, Nat.zero_add,
      Utf8.encode_append, List.length_append]
  · rw [List.map_append]

omit [Ucd] in
theorem ofUInt8_ne_mark {c : UInt8} : Char.ofUInt8 c ≠ byteOrderMark := by
  intro h
  have hval : c.toNat = 0xFEFF :=
    (UInt8.toNat_toUInt32 c).symm.trans (congrArg (fun u : Char => u.val.toNat) h)
  have hlt := c.toNat_lt
  omega

section
variable {kind : Char → Uax29.Kind} (hkind : Segments kind)
include hkind

theorem insertAscii_iff {t : UnicodeString} {lead all : List Char} (hp : Parsed t lead all)
    {pos : Int} {c : UInt8} (hok : 0 ≤ pos ∧ isSingleAsciiWidth1 [c] = true) :
    UnicodeString.ofString (t.bytes.take (t.cut pos) ++ [c] ++ t.bytes.drop (t.cut pos)) =
        .ok (t.insertAsciiWidth1 pos [c] hok) ↔
      t.InsertsApart pos [c] := by
  obtain ⟨c', hc', hlo, hhi⟩ := isSingleAsciiWidth1_iff.mp hok.2
  obtain rfl : c = c' := List.singleton_inj.mp hc'
  have hlt : c < 128 := Nat.lt_trans (UInt8.lt_iff_toNat_lt.mp hhi) (by decide)
  have hencode : [c] = encode [Char.ofUInt8 c] := (encode_ascii hlt).symm
  obtain ⟨cs, ds, hall, hlen, -, htake, hdrop⟩ := hp.at_position hok.1
  obtain ⟨hcs, hds⟩ := clusters_split hkind hall
  have hpre := text_starts hall
  have hinsert : t.insertAsciiWidth1 pos [c] hok =
      ofClusters lead (cs ++ ([Char.ofUInt8 c], 1) :: ds) := by
    have h := @insertAsciiWidth1_ofClusters lead (clusters all) pos c hok hlt
    rw [hlen, hall, List.take_left, List.drop_left] at h
    obtain rfl := hp.eq
    rw [← h, hall]
  have hchars : chars [c] = [Char.ofUInt8 c] := by rw [hencode, chars_encode]
  rw [hinsert, InsertsApart, htake, hdrop, if_pos hok.2, segmented_prefixed hp.strip hpre, hchars,
    chars_encode, ← clusters_insert_iff hkind hlo hhi hcs hds, hencode, ← Utf8.encode_append,
    ← Utf8.encode_append, List.append_assoc, List.append_assoc]
  refine ofString_eq_iff ?_ (fun _ => by simp) fun u hu => ?_
  · by_cases hne : lead ++ text cs = []
    · obtain ⟨rfl, hnil⟩ := List.append_eq_nil_iff.mp hne
      rw [hnil]
      exact stripMark_of_head fun h => ofUInt8_ne_mark (Option.some.inj h)
    · exact stripMark_prefixed hp.strip hpre hne
  · cases htext : text cs with
    | nil =>
      rw [htext] at hu
      cases hu
      exact hkind.ascii_mark c hlo hhi
    | cons v rest =>
      rw [htext] at hu hpre
      cases hu
      exact hp.first_of_starts hpre

omit hkind in
theorem insertString_slow {t t' : UnicodeString} {pos : Int} {str : Bytes}
    (hslow : isSingleAsciiWidth1 str = false) (h : t.insertString pos str = .ok t') :
    ∃ ins suffix, str = encode ins ∧
      UnicodeString.ofString (str ++ t.bytes.drop (t.cut pos)) = .ok suffix ∧
      t' = ⟨t.bytes.take (t.cut pos) ++ suffix.bytes,
        t.offsets.take (min pos t.length).toNat ++ suffix.offsets.map (· + t.cut pos),
        t.widths.take (min pos t.length).toNat ++ suffix.widths⟩ := by
  rw [insertString, dif_neg (by rw [hslow]; exact fun h => Bool.false_ne_true h.2)] at h
  cases hstr : UnicodeString.ofString str with
  | error e =>
    rw [hstr] at h
    cases h
  | ok parsed =>
    rw [hstr] at h
    obtain ⟨ins, hdecode, -⟩ := ofString_cases hstr
    cases hsuffix : UnicodeString.ofString (str ++ t.bytes.drop (t.cut pos)) with
    | error e =>
      rw [cut] at hsuffix
      simp only [hsuffix] at h
      cases h
    | ok suffix =>
      refine ⟨ins, suffix, (Utf8.encode_of_decode hdecode).symm, rfl, ?_⟩
      rw [cut] at hsuffix
      simp only [hsuffix] at h
      exact (Except.ok.inj h).symm

/-- The slow insertion, around a position where something precedes. -/
theorem insertParsed_iff {t t' suffix : UnicodeString} {lead all ins : List Char}
    {cs ds : List Cluster} (hp : Parsed t lead all) (hall : clusters all = cs ++ ds)
    (hne : lead ++ text cs ≠ [])
    (hsuffix : UnicodeString.ofString (encode (ins ++ text ds)) = .ok suffix)
    (ht' : t' = ⟨encode (lead ++ text cs) ++ suffix.bytes,
      (ofClusters lead cs).offsets ++ suffix.offsets.map (· + (encode (lead ++ text cs)).length),
      (ofClusters lead cs).widths ++ suffix.widths⟩) :
    UnicodeString.ofString (encode (lead ++ (text cs ++ (ins ++ text ds)))) = .ok t' ↔
      (ins ++ text ds).head? ≠ some byteOrderMark ∧ Apart (text cs) (ins ++ text ds) := by
  have hpre := text_starts hall
  have hstrip := @stripMark_prefixed lead all (text cs) (ins ++ text ds) hp.strip hpre hne
  have hcs := (clusters_split hkind hall).1
  by_cases hmark : (ins ++ text ds).head? = some byteOrderMark
  · -- the suffix loses a mark that is a cluster of its own inside the text
    refine iff_of_false (fun h => ?_) fun h => h.1 hmark
    obtain ⟨rest, hrest⟩ := List.head?_eq_some_iff.mp hmark
    rw [hrest] at hstrip h hsuffix
    have hcount := length_of_mark hsuffix
    have hwhole := congrArg length (eq_of_ofString hstrip (by simp) h)
    rw [length_ofClusters, clusters_mark hkind, hcs, ht', length] at hwhole
    simp only [List.length_append, List.length_map, ofClusters, starts_length] at hwhole
    rw [length] at hcount
    omega
  · have hlayout := eq_of_ofString_head hmark hsuffix
    have hiff := @clusters_append_iff _ kind hkind (text cs) (ins ++ text ds)
    rw [hcs] at hiff
    rw [ht', hlayout, ofClusters_append, and_iff_right hmark, ← hiff]
    refine ofString_eq_iff hstrip (fun hlead hnil => ?_) fun u hu => ?_
    · obtain ⟨hcsnil, hrest⟩ := List.append_eq_nil_iff.mp hnil
      have hdsnil := (List.append_eq_nil_iff.mp hrest).2
      refine hp.nonempty hlead ?_
      rw [eq_text_append hall, hcsnil, hdsnil]
      rfl
    · cases htext : text cs with
      | nil =>
        rw [htext, List.nil_append] at hu
        obtain ⟨rest, hrest⟩ := List.head?_eq_some_iff.mp hu
        rw [hrest] at hmark
        rw [hrest, ofString_encode, stripMark_of_head hmark] at hsuffix
        dsimp only at hsuffix
        split at hsuffix
        · cases hsuffix
        · rename_i hcomb
          simpa using hcomb
      | cons v rest =>
        rw [htext] at hu hpre
        cases hu
        exact hp.first_of_starts hpre

theorem insertString_iff {t t' : UnicodeString} {lead all : List Char} (hp : Parsed t lead all)
    {pos : Int} {str : Bytes} (hpos : 0 ≤ pos) (h : t.insertString pos str = .ok t') :
    UnicodeString.ofString (t.bytes.take (t.cut pos) ++ str ++ t.bytes.drop (t.cut pos)) = .ok t' ↔
      t.InsertsApart pos str := by
  cases hsingle : isSingleAsciiWidth1 str with
  | true =>
    obtain ⟨c, rfl, -, -⟩ := isSingleAsciiWidth1_iff.mp hsingle
    rw [insertString, dif_pos ⟨hpos, hsingle⟩] at h
    rw [← Except.ok.inj h]
    exact insertAscii_iff hkind hp ⟨hpos, hsingle⟩
  | false =>
    obtain ⟨ins, suffix, rfl, hsuffix, ht'⟩ := insertString_slow hsingle h
    obtain ⟨cs, ds, hall, hlen, hcut, htake, hdrop⟩ := hp.at_position hpos
    have hpre := text_starts hall
    have hkept : t.offsets.take (min pos t.length).toNat = (ofClusters lead cs).offsets ∧
        t.widths.take (min pos t.length).toNat = (ofClusters lead cs).widths := by
      obtain rfl := hp.eq
      rw [length_ofClusters, hlen]
      refine ⟨?_, ?_⟩
      · show (starts _ (clusters all)).take cs.length = starts _ cs
        rw [starts_take, hall, List.take_left]
      · show ((clusters all).map Prod.snd).take cs.length = cs.map Prod.snd
        rw [← List.map_take, hall, List.take_left]
    rw [hdrop, ← Utf8.encode_append] at hsuffix
    rw [htake, hkept.1, hkept.2, hcut] at ht'
    rw [InsertsApart, htake, hdrop, hsingle, if_neg Bool.false_ne_true,
      segmented_prefixed hp.strip hpre, chars_encode, chars_encode, encode_eq_nil,
      ← Utf8.encode_append, ← Utf8.encode_append, List.append_assoc, List.append_assoc]
    by_cases hne : lead ++ text cs = []
    · obtain ⟨rfl, hnil⟩ := List.append_eq_nil_iff.mp hne
      have hcs : cs = [] := cs_nil_of_text
        (fun c hc => clusters_ne_nil all c (hall ▸ List.mem_append_left ds hc)) hnil
      subst hcs
      refine iff_of_true ?_ (.inl hne)
      rw [ht', text_nil, List.nil_append, List.nil_append, hsuffix]
      simp [ofClusters, starts]
    · rw [insertParsed_iff hkind hp hall hne hsuffix ht', or_iff_right hne]

/-! ## Deletion -/

/-- The fast deletion, where something precedes the cluster. -/
theorem delete_behind_iff {t' : UnicodeString} {lead : List Char} {cs es : List Cluster}
    (hstrip : stripMark (lead ++ (text cs ++ text es)) = (lead, text cs ++ text es))
    (hne : lead ++ text cs ≠ []) (hcs : clusters (text cs) = cs) (hes : clusters (text es) = es)
    (h : UnicodeString.ofString (encode (lead ++ (text cs ++ text es))) = .ok t') :
    ofClusters lead (cs ++ es) = t' ↔
      (text cs = [] → text es ≠ []) ∧ Apart (text cs) (text es) := by
  by_cases hnil : text cs ++ text es = []
  · obtain ⟨hcsnil, hesnil⟩ := List.append_eq_nil_iff.mp hnil
    refine iff_of_false (fun heq => ?_) fun hcond => hcond.1 hcsnil hesnil
    rw [ofString_encode, hstrip, hnil] at h
    have hbytes := congrArg UnicodeString.bytes (heq.trans (Except.ok.inj h).symm)
    refine hne (encode_eq_nil.mp ?_)
    rw [hcsnil, ← hnil, ← text_append]
    exact hbytes
  · have hiff := @clusters_append_iff _ kind hkind (text cs) (text es)
    rw [hcs, hes] at hiff
    rw [eq_of_ofString hstrip hnil h, ← hiff, and_iff_right fun hcsnil hesnil => hnil (by
      rw [hcsnil, hesnil, List.append_nil])]
    exact ⟨fun heq => (ofClusters_inj heq).symm, fun heq => heq ▸ rfl⟩

/-- The fast deletion of the first cluster of a text without a mark. -/
theorem delete_first_iff {t' : UnicodeString} {es : List Cluster} (hes : clusters (text es) = es)
    (h : UnicodeString.ofString (encode (text es)) = .ok t') :
    ofClusters [] es = t' ↔ (text es).head? ≠ some byteOrderMark := by
  by_cases hmark : (text es).head? = some byteOrderMark
  · refine iff_of_false (fun heq => ?_) fun hnot => hnot hmark
    obtain ⟨rest, hrest⟩ := List.head?_eq_some_iff.mp hmark
    have hcount := clusters_mark hkind [] rest
    rw [List.nil_append, ← hrest, hes] at hcount
    rw [hrest] at h
    have hlen := length_of_mark h
    rw [← heq, length_ofClusters, hcount] at hlen
    have hzero : (clusters ([] : List Char)).length = 0 := rfl
    omega
  · rw [eq_of_ofString_head hmark h, hes]
    exact iff_of_true rfl hmark

theorem delete_iff {t t' : UnicodeString} {lead all : List Char} (hp : Parsed t lead all)
    {pos : Int} (hpos : 0 ≤ pos) (hlt : pos < t.length)
    (h : UnicodeString.ofString
      (t.bytes.take (t.offset pos.toNat) ++ t.bytes.drop (t.stop pos.toNat)) = .ok t') :
    t.delete pos = t' ↔ t.DeletesApart pos := by
  by_cases hascii : t.isAsciiAt pos.toNat = true
  · obtain rfl := hp.eq
    rw [length_ofClusters] at hlt
    have hi : pos.toNat < (clusters all).length := by omega
    have hcs := (clusters_split hkind (List.take_append_drop pos.toNat (clusters all)).symm).1
    have hes := (clusters_split hkind (List.take_append_drop (pos.toNat + 1) (clusters all)).symm).2
    have hpre := text_starts (List.take_append_drop pos.toNat (clusters all)).symm
    rw [delete_ofClusters hpos hlt hascii, DeletesApart]
    simp only [hascii, true_implies]
    rw [offset_ofClusters hi, stop_ofClusters, bytes_take, bytes_drop] at h ⊢
    rw [segmented_prefixed hp.strip hpre, chars_encode, encode_eq_nil]
    rw [← Utf8.encode_append, List.append_assoc] at h
    by_cases hne : lead ++ text ((clusters all).take pos.toNat) = []
    · obtain ⟨rfl, hnil⟩ := List.append_eq_nil_iff.mp hne
      have hcsnil := cs_nil_of_text
        (fun c hc => clusters_ne_nil all c (List.mem_of_mem_take hc)) hnil
      rw [hcsnil, text_nil, List.nil_append, List.nil_append] at h
      rw [hcsnil, List.nil_append, delete_first_iff hkind hes h]
      simp [Apart]
    · rw [delete_behind_iff hkind (stripMark_prefixed hp.strip hpre hne) hne hcs hes h]
      simp only [hne, false_implies, true_and, imp_false]
  · refine iff_of_true ?_ fun hyes => absurd hyes hascii
    rw [delete, if_neg (by omega)]
    dsimp only
    rw [if_neg hascii, reparseWithout, h]

/-- An edit leaves what parsing the edited bytes gives when it keeps its neighbours apart. -/
theorem edits_reparse_iff {s : Bytes} {t : UnicodeString} (ht : UnicodeString.ofString s = .ok t) :
    (∀ (pos : Int) str t', 0 ≤ pos → t.insertString pos str = .ok t' →
      (UnicodeString.ofString (t.bytes.take (t.cut pos) ++ str ++ t.bytes.drop (t.cut pos)) = .ok t' ↔
        t.InsertsApart pos str)) ∧
    ∀ (pos : Int) t', 0 ≤ pos → pos < t.length →
      UnicodeString.ofString
        (t.bytes.take (t.offset pos.toNat) ++ t.bytes.drop (t.stop pos.toNat)) = .ok t' →
      (t.delete pos = t' ↔ t.DeletesApart pos) := by
  obtain ⟨lead, all, hp⟩ := parsed_of_ofString ht
  exact ⟨fun pos str t' hpos h => insertString_iff hkind hp hpos h,
    fun pos t' hpos hlt h => delete_iff hkind hp hpos hlt h⟩

end

end

/-- Classes of the characters the runs below use. -/
def sampleKind (c : Char) : Uax29.Kind :=
  if c = '\r' then .cr
  else if c = '\n' then .lf
  else if c.toNat < 32 ∨ c = byteOrderMark then .control
  else if 0x300 ≤ c.toNat ∧ c.toNat ≤ 0x36F then .extend .extend
  else if c.toNat = 0x200D then .zwj
  else if 0x1F1E6 ≤ c.toNat ∧ c.toNat ≤ 0x1F1FF then .regionalIndicator
  else .other

@[reducible] def sampleUcd : Ucd where
  isMark c := 0x300 ≤ c.toNat && c.toNat ≤ 0x36F
  ttyWidthHint c :=
    if c.toNat < 32 then -1 else if c.toNat < 127 then 1 else if c.toNat < 0x370 then 0 else 2
  isIdStart c := c.isAlpha
  isIdContinue c := c.isAlphanum
  boundary before next := Uax29.boundary (before.map sampleKind) (sampleKind next)

theorem ofUInt8_toNat (c : UInt8) : (Char.ofUInt8 c).toNat = c.toNat := UInt8.toNat_toUInt32 c

section
attribute [local instance] sampleUcd

theorem sample_segments : Segments sampleKind where
  boundary _ _ _ := rfl
  byteOrderMark := by decide
  ascii_width c hlo hhi := by
    have hlo' : 32 ≤ c.toNat := UInt8.le_iff_toNat_le.mp hlo
    have hhi' : c.toNat < 127 := UInt8.lt_iff_toNat_lt.mp hhi
    show (if (Char.ofUInt8 c).toNat < 32 then (-1 : Int) else _) = 1
    rw [ofUInt8_toNat, if_neg (Nat.not_lt.mpr hlo'), if_pos hhi']
  ascii_mark c hlo hhi := by
    have hhi' : c.toNat < 127 := UInt8.lt_iff_toNat_lt.mp hhi
    have hnot : ¬ 0x300 ≤ c.toNat := by omega
    show (decide (0x300 ≤ (Char.ofUInt8 c).toNat) && _) = false
    rw [ofUInt8_toNat, decide_eq_false hnot, Bool.false_and]

/-- The edits of `ab` at its second character. -/
theorem edits_reparse_iff_typed :
    ∃ t t', ofString (encode ['a', 'b']) = .ok t ∧ t.insertString 1 (encode ['c']) = .ok t' ∧
      (ofString (t.bytes.take (t.cut 1) ++ encode ['c'] ++ t.bytes.drop (t.cut 1)) = .ok t' ↔
        t.InsertsApart 1 (encode ['c'])) ∧
      ∃ t'', ofString (t.bytes.take (t.offset 1) ++ t.bytes.drop (t.stop 1)) = .ok t'' ∧
        (t.delete 1 = t'' ↔ t.DeletesApart 1) := by
  have ht : ofString (encode ['a', 'b']) = .ok ⟨encode ['a', 'b'], [0, 1], [1, 1]⟩ := rfl
  obtain ⟨hinsert, hdelete⟩ := edits_reparse_iff sample_segments ht
  exact ⟨_, ⟨encode ['a', 'c', 'b'], [0, 1, 2], [1, 1, 1]⟩, ht, rfl,
    hinsert 1 _ _ (by decide) rfl, ⟨encode ['a'], [0], [1]⟩, rfl,
    hdelete 1 _ (by decide) (by decide) rfl⟩

/-- The second half of a flag typed behind the first: two clusters, where the text is one. -/
theorem inserted_flag_split :
    Segments sampleKind ∧ ∃ t t', ofString (encode ['🇦']) = .ok t ∧
      t.insertString 1 (encode ['🇧']) = .ok t' ∧
      ofString (t.bytes.take (t.cut 1) ++ encode ['🇧'] ++ t.bytes.drop (t.cut 1)) ≠ .ok t' := by
  refine ⟨sample_segments, ⟨encode ['🇦'], [0], [2]⟩, ⟨encode ['🇦', '🇧'], [0, 4], [2, 2]⟩, rfl, rfl, ?_⟩
  have hwhole : ofString (encode ['🇦', '🇧']) = .ok ⟨encode ['🇦', '🇧'], [0], [2]⟩ := rfl
  intro h
  have heq := Except.ok.inj (hwhole.symm.trans h)
  cases heq

end

end UnicodeString
end Raoui
