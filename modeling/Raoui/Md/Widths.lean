import Raoui.Md.Outline

/-!
# Raoui.Md.Widths

How wide the layout of a document gets.

* `Narrow`: a line within the width, or one that holds a single word behind its margin and markers.
* `render_narrow`: outside tables every line is narrow.
-/

namespace Raoui
namespace MdLayout

open WordWrap (words)

/-- Blanks, bars and markers. -/
def Furniture (spans : List Span) : Prop :=
  ∀ s ∈ spans, s.1.role = .marker ∨ ∀ c ∈ s.2, c = space

/-- No blank in it, so it cannot be broken. -/
def OneWord (spans : List Span) : Prop := ∀ s ∈ spans, space ∉ s.2

theorem Furniture.append {u v : List Span} (hu : Furniture u) (hv : Furniture v) :
    Furniture (u ++ v) := List.forall_mem_append.mpr ⟨hu, hv⟩

theorem furniture_bar : Furniture [bar] := List.forall_mem_singleton.mpr (.inl rfl)

theorem furniture_marker (marker : Bytes) : Furniture [markerSpan marker] :=
  List.forall_mem_singleton.mpr (.inl rfl)

theorem furniture_spaces (n : Int) : Furniture [spaces n] :=
  List.forall_mem_singleton.mpr (.inr fun _ hc => List.eq_of_mem_replicate hc)

/-- A word that `words_of_runs` has cut out. -/
theorem oneWord_of_mem_wordsOfRuns {measure : Bytes → Int} {runs : List Span} {w : Word}
    (hw : w ∈ wordsOfRuns measure runs) : OneWord w.pieces := by
  intro s hs hc
  have hmem : w.text ∈ words isSpace (plainText runs) := by
    rw [← wordsOfRuns_text measure]
    exact List.mem_map_of_mem hw
  have hno := (WordWrap.mem_words hmem).2 space (List.mem_flatMap.mpr ⟨s, hs, hc⟩)
  cases hno

section
variable (measure : Bytes → Int) (width : Int)

/-- Behind its margin the line has only blanks and markers before its text; and if it is wider than
the width, its text is a single word. -/
def Narrow (margin : List Span) (line : Line) : Prop :=
  ∃ pre body, line = margin ++ (pre ++ body) ∧ Furniture pre ∧
    (widthOfSpans measure line ≤ width ∨ OneWord body)

def NarrowBlock (margin : List Span) : Block → Prop
  | .lines ls => ls ≠ [] ∧ ∀ line ∈ ls, Narrow measure width margin line
  | .code _ => True

end

variable {measure : Bytes → Int} {width : Int}

theorem Narrow.outer {margin inner : List Span} {line : Line} (hinner : Furniture inner)
    (h : Narrow measure width (margin ++ inner) line) : Narrow measure width margin line := by
  obtain ⟨pre, body, rfl, hpre, hwide⟩ := h
  exact ⟨inner ++ pre, body, by simp only [List.append_assoc], hinner.append hpre, hwide⟩

theorem NarrowBlock.outer {margin inner : List Span} {b : Block} (hinner : Furniture inner)
    (h : NarrowBlock measure width (margin ++ inner) b) : NarrowBlock measure width margin b := by
  cases b with
  | code c => trivial
  | lines ls => exact ⟨h.1, fun line hline => (h.2 line hline).outer hinner⟩

/-- The marker is as wide as the blanks it goes over. -/
theorem Narrow.overlay (hm : DisplayWidth measure) {margin rest : List Span} {marker : Bytes}
    (h : Narrow measure width (itemMargin measure margin marker)
      (margin ++ spaces (measure marker) :: rest)) :
    Narrow measure width margin (margin ++ markerSpan marker :: rest) := by
  obtain ⟨pre, body, hline, hpre, hwide⟩ := h
  have hrest : rest = pre ++ body := by
    rw [itemMargin, List.append_assoc] at hline
    exact (List.cons.inj (List.append_cancel_left hline)).2
  refine ⟨markerSpan marker :: pre, body, by rw [hrest]; rfl,
    (furniture_marker marker).append hpre, hwide.imp (fun hle => ?_) id⟩
  have hsame : widthOfSpans measure [markerSpan marker] =
      widthOfSpans measure [spaces (measure marker)] := by
    rw [widthOfSpans_cons, widthOfSpans_cons, hm.width_spaces (hm.nonneg marker)]
    rfl
  rw [← List.singleton_append, widthOfSpans_append, widthOfSpans_append] at hle ⊢
  rwa [hsame]

theorem overlayMarker_narrow (hm : DisplayWidth measure) {margin : List Span} {marker : Bytes}
    {blocks : List Block}
    (h : ∀ b ∈ blocks, NarrowBlock measure width (itemMargin measure margin marker) b) :
    ∀ b ∈ overlayMarker margin.length (markerSpan marker) blocks,
      NarrowBlock measure width margin b := by
  have houter : ∀ {b}, NarrowBlock measure width (itemMargin measure margin marker) b →
      NarrowBlock measure width margin b := fun hb => hb.outer (furniture_spaces _)
  induction blocks with
  | nil => exact List.forall_mem_nil _
  | cons b blocks ih =>
    obtain ⟨hb, hrest⟩ := List.forall_mem_cons.mp h
    cases b with
    | code c => exact List.forall_mem_cons.mpr ⟨trivial, ih hrest⟩
    | lines ls =>
      obtain ⟨hne, hlines⟩ := hb
      obtain ⟨first, more, rfl⟩ := List.exists_cons_of_ne_nil hne
      obtain ⟨hfirst, hmore⟩ := List.forall_mem_cons.mp hlines
      obtain ⟨rest, rfl⟩ : ∃ rest, first = margin ++ spaces (measure marker) :: rest := by
        obtain ⟨pre, body, rfl, _, _⟩ := hfirst
        exact ⟨pre ++ body, by simp [itemMargin]⟩
      rw [overlayMarker, mapIdx_overlay]
      refine List.forall_mem_cons.mpr ⟨⟨List.cons_ne_nil _ _, ?_⟩, fun b hb => houter (hrest b hb)⟩
      exact List.forall_mem_cons.mpr ⟨hfirst.overlay hm, fun line hline =>
        (hmore line hline).outer (furniture_spaces _)⟩

theorem mergeLines_narrow {margin : List Span} {blocks : List Block}
    (h : ∀ b ∈ blocks, NarrowBlock measure width margin b) :
    ∀ b ∈ mergeLines blocks, NarrowBlock measure width margin b := by
  induction blocks with
  | nil => exact List.forall_mem_nil _
  | cons b blocks ih =>
    obtain ⟨hb, hrest⟩ := List.forall_mem_cons.mp h
    have hmerged := ih hrest
    show ∀ b' ∈ mergeBlock b (mergeLines blocks), _
    generalize mergeLines blocks = merged at hmerged
    cases b with
    | code c => exact List.forall_mem_cons.mpr ⟨hb, hmerged⟩
    | lines ls =>
      cases merged with
      | nil => exact List.forall_mem_cons.mpr ⟨hb, hmerged⟩
      | cons b' merged =>
        cases b' with
        | code c => exact List.forall_mem_cons.mpr ⟨hb, hmerged⟩
        | lines ls' =>
          obtain ⟨hb', hmerged⟩ := List.forall_mem_cons.mp hmerged
          exact List.forall_mem_cons.mpr ⟨⟨List.append_ne_nil_of_left_ne_nil hb.1 _,
            List.forall_mem_append.mpr ⟨hb.2, hb'.2⟩⟩, hmerged⟩

theorem wrapRuns_narrow (hm : DisplayWidth measure) (margin runs : List Span) :
    ∀ b ∈ wrapRuns measure width margin runs, NarrowBlock measure width margin b := by
  refine List.forall_mem_singleton.mpr ?_
  obtain ⟨lines, hwrap, hout⟩ := wrapWords_laid hm.space width margin runs
  show _ ≠ [] ∧ _
  rw [hout]
  split
  · refine ⟨List.cons_ne_nil _ _, List.forall_mem_singleton.mpr ?_⟩
    exact ⟨[], [], rfl, List.forall_mem_nil _, .inr (List.forall_mem_nil _)⟩
  · rename_i hne
    refine ⟨by simpa using hne, fun line hline => ?_⟩
    rw [List.map_map] at hline
    obtain ⟨ws, hws, rfl⟩ := List.mem_map.mp hline
    refine ⟨[], laid ws, rfl, List.forall_mem_nil _, ?_⟩
    obtain ⟨i, hi, hget⟩ := List.mem_iff_getElem.mp hws
    have hmem : ∀ w ∈ ws, w ∈ wordsOfRuns measure runs := fun w hw =>
      hwrap.flatten ▸ List.mem_flatten_of_mem hws hw
    cases ws with
    | nil => exact absurd rfl (hwrap.line_ne _ hws)
    | cons w ws =>
      cases ws with
      | nil => exact .inr (oneWord_of_mem_wordsOfRuns (hmem w List.mem_cons_self))
      | cons v ws =>
        -- two words stand on one line only if they fit
        refine .inl ?_
        have hfits := hwrap.within i (w :: v :: ws) (by rw [List.getElem?_eq_getElem hi, hget])
          (w :: v :: ws) (List.prefix_refl _) (by simp)
        have havail : avail measure width margin margin (0 + i) =
            width - widthOfSpans measure margin := ite_self _
        rw [Fits, havail] at hfits
        show widthOfSpans measure (margin ++ laid (w :: v :: ws)) ≤ width
        rw [widthOfSpans_append]
        omega

theorem breakLine_narrow (margin : List Span) :
    NarrowBlock measure width margin (.lines [breakLine measure width margin]) := by
  refine ⟨List.cons_ne_nil _ _, List.forall_mem_singleton.mpr ?_⟩
  refine ⟨[markerSpan _], [], rfl, furniture_marker _, .inr (List.forall_mem_nil _)⟩

mutual
def Doc.TableFree : Doc → Prop
  | .blocks all => Doc.AllTableFree all
  | .blockQuote block => block.TableFree
  | .list _ items => Doc.AllTableFree items
  | .extTable _ => False
  | .paragraph _ | .heading _ _ | .codeBlock _ _ | .thematicBreak | .other => True

def Doc.AllTableFree : List Doc → Prop
  | [] => True
  | doc :: docs => doc.TableFree ∧ Doc.AllTableFree docs
end

mutual
theorem renderBlock_narrow (hm : DisplayWidth measure) (margin : List Span) :
    (doc : Doc) → doc.TableFree →
      ∀ b ∈ renderBlock measure width margin doc, NarrowBlock measure width margin b
  | .blocks all, h => by
    rw [renderBlock]
    exact renderBlocks_narrow hm margin all h
  | .paragraph inline, _ => by
    rw [renderBlock]
    exact wrapRuns_narrow hm margin _
  | .heading level inline, _ => by
    rw [renderBlock]
    exact wrapRuns_narrow hm margin _
  | .blockQuote block, h => by
    rw [renderBlock]
    exact fun b hb => (renderBlock_narrow hm (margin ++ [bar]) block h b hb).outer furniture_bar
  | .codeBlock info code, _ => by
    rw [renderBlock]
    exact List.forall_mem_singleton.mpr trivial
  | .list start items, h => by
    rw [renderBlock]
    exact mergeLines_narrow (renderItems_narrow hm margin start 0 items h)
  | .extTable tbl, h => h.elim
  | .thematicBreak, _ => by
    rw [renderBlock]
    exact List.forall_mem_singleton.mpr (breakLine_narrow margin)
  | .other, _ => by
    rw [renderBlock]
    exact List.forall_mem_nil _

theorem renderBlocks_narrow (hm : DisplayWidth measure) (margin : List Span) :
    (all : List Doc) → Doc.AllTableFree all →
      ∀ b ∈ renderBlocks measure width margin all, NarrowBlock measure width margin b
  | [], _ => by
    rw [renderBlocks]
    exact List.forall_mem_nil _
  | block :: all, h => by
    rw [renderBlocks]
    exact List.forall_mem_append.mpr
      ⟨renderBlock_narrow hm margin block h.1, renderBlocks_narrow hm margin all h.2⟩

theorem renderItems_narrow (hm : DisplayWidth measure) (margin : List Span) (start : Option Int)
    (i : Nat) : (items : List Doc) → Doc.AllTableFree items →
      ∀ b ∈ renderItems measure width margin start i items, NarrowBlock measure width margin b
  | [], _ => by
    rw [renderItems]
    exact List.forall_mem_nil _
  | item :: items, h => by
    rw [renderItems]
    exact List.forall_mem_append.mpr
      ⟨overlayMarker_narrow hm (renderBlock_narrow hm _ item h.1),
        renderItems_narrow hm margin start (i + 1) items h.2⟩
end

/-- However deep lists and quotes are nested, a line of text is wider than the screen only if its
text is a single word: markers take the room of the blanks they replace. -/
theorem render_narrow (hm : DisplayWidth measure) {doc : Doc} (h : doc.TableFree) {ls : List Line}
    (hls : .lines ls ∈ render measure width doc) :
    ls ≠ [] ∧ ∀ line ∈ ls, ∃ pre body, line = pre ++ body ∧ Furniture pre ∧
      (widthOfSpans measure line ≤ width ∨ OneWord body) :=
  renderBlock_narrow hm [] doc h _ hls

/-- A list item in a quote, too narrow for its second word. -/
def quotedItem : Doc :=
  .blockQuote (.list none [.paragraph (.text (bytes "an exceptionally"))])

theorem render_narrow_quotedItem :
    ∃ ls, .lines ls ∈ render byteWidth 12 quotedItem ∧ ls ≠ [] ∧
      ∀ line ∈ ls, ∃ pre body, line = pre ++ body ∧ Furniture pre ∧
        (widthOfSpans byteWidth line ≤ 12 ∨ OneWord body) :=
  have htable : quotedItem.TableFree := ⟨trivial, trivial⟩
  ⟨_, List.mem_cons_self, render_narrow displayWidth_byteWidth htable List.mem_cons_self⟩

end MdLayout
end Raoui
