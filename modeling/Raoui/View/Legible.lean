import Raoui.Text.Clusters
import Raoui.Tty.CursorQuery
import Raoui.View.Highlights
import Raoui.View.View

/-!
# Raoui.View.Legible

What a view prints. Its texts are cut out of those of the model, and its styles are named ones, so
that a model whose texts have no Escape and no line feed prints none.

* `rangesForEntry_named`, `wrapStyledLine_named`: the styles of a row.
* `viewOps_legible`: everything a view prints.
-/

namespace Raoui

open Outcome (bind_eq_ok)
open TerminalOps (Style Span Op)

/-- A style of the theme, not one made up for a text. -/
def TerminalOps.Style.Named (style : Style) : Prop := ∀ f, style ≠ .face f

/-! ## Styles -/

namespace RHighlight

open RLexer (Token)

def StyledRange.Named (r : StyledRange) : Prop := r.style.Named

variable {ranges : List StyledRange}

theorem styleOfToken_named (t : Token) : (styleOfToken t).Named := by
  intro f
  cases t <;> exact Style.noConfusion

theorem tokenStyle_named (t : Token) (rest : List Token) : (tokenStyle t rest).Named := by
  unfold tokenStyle
  split
  · intro f
    exact Style.noConfusion
  · exact styleOfToken_named t

theorem named_string : (Style.string).Named := fun _ => Style.noConfusion

theorem named_bracket : (Style.bracket).Named := fun _ => Style.noConfusion

theorem named_plain : (Style.plain).Named := fun _ => Style.noConfusion

theorem named_accent : (Style.accent).Named := fun _ => Style.noConfusion

theorem mergeRanges_named (h : ∀ r ∈ ranges, r.Named) : ∀ r ∈ mergeRanges ranges, r.Named :=
  mergeLoop_forall (fun _ _ hprev _ _ => hprev) [] ranges (List.forall_mem_nil _) h

theorem normalizeLoop_named {n pos : Nat} {acc : List StyledRange} (hacc : ∀ r ∈ acc, r.Named)
    (h : ∀ r ∈ ranges, r.Named) : ∀ r ∈ normalizeLoop n pos acc ranges, r.Named := by
  induction ranges generalizing pos acc with
  | nil =>
    refine mergeRanges_named fun r hr => ?_
    exact forall_fillGap hacc (fun _ => named_plain) r (List.mem_reverse.mp hr)
  | cons range rest ih =>
    obtain ⟨hrange, hrest⟩ := List.forall_mem_cons.mp h
    have hgap : ∀ r ∈ fillGap pos (max pos range.startByte) acc, r.Named :=
      forall_fillGap hacc fun _ => named_plain
    unfold normalizeLoop
    dsimp only
    split
    · exact ih hgap hrest
    · exact ih (List.forall_mem_cons.mpr ⟨hrange, hgap⟩) hrest

theorem normalizeRanges_named (n : Nat) (h : ∀ r ∈ ranges, r.Named) :
    ∀ r ∈ normalizeRanges n ranges, r.Named :=
  normalizeLoop_named (List.forall_mem_nil _) fun r hr => h r ((List.mem_insertionSort _).mp hr)

section
variable {e : Bytes → Res (List StyledRange)} (he : ∀ expr rs, e expr = .ok rs → ∀ r ∈ rs, r.Named)
include he

theorem parseGlue_named {startByte : Nat} {s : Bytes} {inner fuel : Nat} {acc l : List StyledRange}
    {pos : Nat} (hacc : ∀ r ∈ acc, r.Named)
    (h : parseGlue e startByte s inner fuel acc pos = .ok l) : ∀ r ∈ l, r.Named := by
  induction fuel generalizing acc pos with
  | zero =>
    cases h
    exact hacc
  | succ fuel ih =>
    have hnext {a b pos' : Nat} : parseGlue e startByte s inner fuel (⟨a, b, .string⟩ :: acc) pos' =
        .ok l → ∀ r ∈ l, r.Named := ih (List.forall_mem_cons.mpr ⟨named_string, hacc⟩)
    unfold parseGlue at h
    split at h
    · cases h
      exact hacc
    · rename_i c rest _
      dsimp only at h
      split at h
      · split at h
        · exact hnext h
        · split at h
          · cases h
            exact List.forall_mem_cons.mpr ⟨named_string, hacc⟩
          · obtain ⟨inside, hinside, h⟩ := bind_eq_ok.mp h
            refine ih (List.forall_mem_append.mpr ⟨fun r hr => ?_, hacc⟩) h
            rw [List.mem_reverse, List.mem_append, List.mem_append, List.mem_singleton,
              List.mem_singleton] at hr
            obtain (rfl | hr) | rfl := hr
            · exact named_bracket
            · obtain ⟨q, hq, rfl⟩ := List.mem_map.mp hr
              exact he _ _ hinside q hq
            · exact named_bracket
      · split at h
        · split at h
          · exact hnext h
          · exact hnext h
        · exact hnext h

theorem glueStringRanges_named {startByte : Nat} {s : Bytes} {l : List StyledRange}
    (h : glueStringRanges e startByte s = .ok l) : ∀ r ∈ l, r.Named := by
  unfold glueStringRanges at h
  split at h
  · cases h
    exact List.forall_mem_singleton.mpr named_string
  · obtain ⟨acc, hacc, h⟩ := bind_eq_ok.mp h
    have hfirst : ∀ r ∈ [(⟨startByte, startByte + 1, .string⟩ : StyledRange)], r.Named :=
      List.forall_mem_singleton.mpr named_string
    have hnamed := parseGlue_named he hfirst hacc
    cases h
    refine mergeRanges_named ?_
    split
    · exact List.forall_mem_cons.mpr ⟨named_string, hnamed⟩
    · exact fun r hr => hnamed r (List.mem_reverse.mp hr)

end

theorem rangesLoop_named {glueRanges : Nat → Bytes → Res (List StyledRange)}
    (hglue : ∀ startByte s l, glueRanges startByte s = .ok l → ∀ r ∈ l, r.Named)
    (ts : List Token) : ∀ (pos : Nat) (l : List StyledRange),
      rangesLoop glueRanges (positions pos ts) = .ok l → ∀ r ∈ l, r.Named := by
  induction ts using glueInduction with
  | nil =>
    intro pos l hl
    cases hl
    exact List.forall_mem_nil _
  | glue f s ts hf ih =>
    intro pos l hl
    rw [rangesLoop_glue _ _ hf] at hl
    obtain ⟨argument, hargument, hl⟩ := bind_eq_ok.mp hl
    obtain ⟨tail, htail, hl⟩ := bind_eq_ok.mp hl
    cases hl
    refine List.forall_mem_append.mpr ⟨List.forall_mem_append.mpr ⟨?_, hglue _ s _ hargument⟩,
      ih _ tail htail⟩
    exact List.forall_mem_cons.mpr ⟨fun _ => Style.noConfusion,
      List.forall_mem_singleton.mpr named_bracket⟩
  | token t ts hg ih =>
    intro pos l hl
    rw [rangesLoop_token _ _ hg] at hl
    obtain ⟨tail, htail, hl⟩ := bind_eq_ok.mp hl
    cases hl
    exact List.forall_mem_cons.mpr ⟨tokenStyle_named t ts, ih _ tail htail⟩

section
variable [Ucd]

theorem rangesAt_named {depth : Nat} {ts : List Token} {l : List StyledRange}
    (h : rangesAt depth ts = .ok l) : ∀ r ∈ l, r.Named := by
  induction depth generalizing ts l with
  | zero =>
    cases h
    exact List.forall_mem_nil _
  | succ depth ih =>
    refine rangesLoop_named (fun startByte s l hl => glueStringRanges_named ?_ hl) ts 0 l h
    intro expr rs hrs
    obtain ⟨⟨exprTokens, mode⟩, -, hrs⟩ := bind_eq_ok.mp hrs
    obtain ⟨inside, hinside, hrs⟩ := bind_eq_ok.mp hrs
    cases hrs
    exact normalizeRanges_named _ (ih hinside)

theorem rangesForEntry_named {entry : LexerCache.Entry Token RLexer.Mode}
    (h : rangesForEntry entry = .ok ranges) : ∀ r ∈ ranges, r.Named := by
  obtain ⟨l, hl, h⟩ := bind_eq_ok.mp h
  cases h
  exact normalizeRanges_named _ (rangesAt_named hl)

end

end RHighlight

namespace View

open RHighlight (StyledRange)

/-- A text that a terminal shows on one line, with no sequence in it. -/
def LegibleText (s : Bytes) : Prop := ∀ c ∈ s, c ≠ 27 ∧ c ≠ 10

instance (s : Bytes) : Decidable (LegibleText s) :=
  inferInstanceAs (Decidable (∀ c ∈ s, c ≠ 27 ∧ c ≠ 10))

def LegibleSpan (span : Span) : Prop := span.1.Named ∧ LegibleText span.2

theorem LegibleText.append {s s' : Bytes} (h : LegibleText s) (h' : LegibleText s') :
    LegibleText (s ++ s') := List.forall_mem_append.mpr ⟨h, h'⟩

theorem LegibleText.subset {s s' : Bytes} (h : LegibleText s') (hsub : s ⊆ s') : LegibleText s :=
  fun c hc => h c (hsub hc)

theorem legible_blanks (n : Int) : LegibleText (blanks n) := by
  intro c hc
  rw [List.eq_of_mem_replicate hc]
  decide

/-! ## Rows of the prompt -/

theorem styleAt_named {ranges : List StyledRange} (h : ∀ r ∈ ranges, r.Named) (byte : Nat) :
    (styleAt byte ranges).Named := by
  cases ranges with
  | nil => exact RHighlight.named_plain
  | cons range rest =>
    rw [styleAt]
    split
    · exact (List.forall_mem_cons.mp h).1
    · exact RHighlight.named_plain

theorem advanceRanges_subset (byte : Nat) (ranges : List StyledRange) :
    advanceRanges byte ranges ⊆ ranges := by
  induction ranges with
  | nil => exact List.Subset.refl _
  | cons range rest ih =>
    unfold advanceRanges
    split
    · exact fun r hr => List.mem_cons_of_mem _ (ih hr)
    · exact List.Subset.refl _

def StyledSegment.Named (segment : StyledSegment) : Prop := segment.style.Named

theorem addSegment_named {row : List StyledSegment} (hrow : ∀ s ∈ row, s.Named) {style : Style}
    (hstyle : style.Named) (a b : Nat) : ∀ s ∈ addSegment row style a b, s.Named := by
  unfold addSegment
  split
  · exact hrow
  · split
    · exact List.forall_mem_singleton.mpr hstyle
    · obtain ⟨hprev, hrest⟩ := List.forall_mem_cons.mp hrow
      split
      · exact List.forall_mem_cons.mpr ⟨hprev, hrest⟩
      · exact List.forall_mem_cons.mpr ⟨hstyle, hrow⟩

/-- The styles in the variables of the loop are named. -/
structure Wrapping.Named (w : Wrapping) : Prop where
  rows : ∀ row ∈ w.rowsRev, ∀ s ∈ row, s.Named
  row : ∀ s ∈ w.rowRev, s.Named
  ranges : ∀ r ∈ w.activeRanges, r.Named

theorem Wrapping.Named.flushRow {w : Wrapping} (hw : w.Named) : w.flushRow.Named where
  rows := List.forall_mem_cons.mpr ⟨fun s hs => hw.row s (List.mem_reverse.mp hs), hw.rows⟩
  row := List.forall_mem_nil _
  ranges := hw.ranges

theorem Wrapping.Named.flushIf {w : Wrapping} (hw : w.Named) (p : Prop) [Decidable p] :
    (if p then w.flushRow else w).Named := by
  split
  · exact hw.flushRow
  · exact hw

theorem wrapFrom_named {width : Int} {line : UnicodeString} {n i : Nat} {w w' : Wrapping}
    (hw : w.Named) (h : wrapFrom width line n i w = .ok w') : w'.Named := by
  induction n generalizing i w with
  | zero =>
    cases h
    exact hw
  | succ n ih =>
    obtain ⟨clusterWidth, -, h⟩ := bind_eq_ok.mp h
    obtain ⟨⟨a, b⟩, -, h⟩ := bind_eq_ok.mp h
    refine ih (Wrapping.Named.flushIf ⟨?_, ?_, ?_⟩ _) h
    · exact ((hw.flushIf _).flushIf _).rows
    · refine addSegment_named ((hw.flushIf _).flushIf _).row (styleAt_named ?_ a) a b
      exact fun r hr => ((hw.flushIf _).flushIf _).ranges r (advanceRanges_subset a _ hr)
    · exact fun r hr => ((hw.flushIf _).flushIf _).ranges r (advanceRanges_subset a _ hr)

theorem wrapStyledLine_named {width : Int} {line : UnicodeString} {ranges : List StyledRange}
    (hranges : ∀ r ∈ ranges, r.Named) {rows : List (List StyledSegment)}
    (h : wrapStyledLine width line ranges = .ok rows) : ∀ row ∈ rows, ∀ s ∈ row, s.Named := by
  unfold wrapStyledLine at h
  split at h
  · cases h
    refine List.forall_mem_singleton.mpr fun s hs => ?_
    obtain ⟨r, hr, rfl⟩ := List.mem_map.mp hs
    exact hranges r hr
  · split at h
    · cases h
      exact List.forall_mem_singleton.mpr (List.forall_mem_nil _)
    · obtain ⟨w, hw, h⟩ := bind_eq_ok.mp h
      cases h
      have hnamed := (wrapFrom_named ⟨List.forall_mem_nil _, List.forall_mem_nil _, hranges⟩
        hw).flushIf (w.rowRev ≠ [])
      have hrows := fun row hr => hnamed.rows row (List.mem_reverse.mp hr)
      split
      · exact List.forall_mem_append.mpr
          ⟨hrows, List.forall_mem_singleton.mpr (List.forall_mem_nil _)⟩
      · exact hrows

theorem slice_subset (s : Bytes) (a b : Nat) : UnicodeString.slice s a b ⊆ s := fun _ hc =>
  List.mem_of_mem_drop (List.mem_of_mem_take hc)

/-- The spans of a row are cut out of their line. -/
theorem spansOfSegments_legible {line : UnicodeString} {segments : List StyledSegment}
    {spans : List Span} (hline : LegibleText line.toBytes) (hnamed : ∀ s ∈ segments, s.Named)
    (h : spansOfSegments line segments = .ok spans) : ∀ span ∈ spans, LegibleSpan span := by
  unfold spansOfSegments at h
  induction segments generalizing spans with
  | nil =>
    cases h
    exact List.forall_mem_nil _
  | cons segment segments ih =>
    obtain ⟨hsegment, hsegments⟩ := List.forall_mem_cons.mp hnamed
    rw [List.mapM_cons] at h
    obtain ⟨span, hspan, h⟩ := bind_eq_ok.mp h
    obtain ⟨rest, hrest, h⟩ := bind_eq_ok.mp h
    obtain ⟨text, htext, hspan⟩ := bind_eq_ok.mp hspan
    cases h
    cases hspan
    refine List.forall_mem_cons.mpr ⟨⟨hsegment, ?_⟩, ih hsegments hrest⟩
    unfold UnicodeString.sliceBytes at htext
    split at htext
    · cases htext
      exact hline.subset (slice_subset _ _ _)
    · cases htext

def LegibleSpans (spans : List Span) : Prop := ∀ span ∈ spans, LegibleSpan span

/-- The texts that the model has to show have no Escape and no line feed; those of the history may
have lines. -/
structure LegibleModel (m : Model) : Prop where
  lines : ∀ line ∈ m.input.lines, LegibleText line.toBytes
  labels : ∀ cs, m.input.completion = some cs → ∀ item ∈ cs.filtered, LegibleText item.label
  readline : ∀ p, m.input.mode = .readline p → LegibleText p
  search : ∀ s, m.input.mode = .historySearch s → LegibleText s.search.toBytes
  found : ∀ s, m.input.mode = .historySearch s → ∀ entry ∈ s.found, (27 : UInt8) ∉ entry.2

theorem rows_legible {line : UnicodeString} {rows : List (List StyledSegment)}
    {spans : List (List Span)} (hline : LegibleText line.toBytes)
    (hnamed : ∀ row ∈ rows, ∀ s ∈ row, s.Named)
    (h : rows.mapM (spansOfSegments line) = .ok spans) : ∀ row ∈ spans, LegibleSpans row := by
  induction rows generalizing spans with
  | nil =>
    cases h
    exact List.forall_mem_nil _
  | cons row rows ih =>
    obtain ⟨hrow, hrows⟩ := List.forall_mem_cons.mp hnamed
    rw [List.mapM_cons] at h
    obtain ⟨first, hfirst, h⟩ := bind_eq_ok.mp h
    obtain ⟨rest, hrest, h⟩ := bind_eq_ok.mp h
    cases h
    exact List.forall_mem_cons.mpr ⟨spansOfSegments_legible hline hrow hfirst, ih hrows hrest⟩

theorem map2_forall {α β γ : Type} {f : α → β → Res γ} {P : α → Prop} {Q : β → Prop} {R : γ → Prop}
    (hf : ∀ a b c, P a → Q b → f a b = .ok c → R c) {l : List α} {l' : List β} {r : List γ}
    (hl : ∀ a ∈ l, P a) (hl' : ∀ b ∈ l', Q b) (h : map2 f l l' = .ok r) : ∀ c ∈ r, R c := by
  induction l generalizing l' r with
  | nil =>
    cases l' with
    | nil =>
      cases h
      exact List.forall_mem_nil _
    | cons b l' => cases h
  | cons a l ih =>
    cases l' with
    | nil => cases h
    | cons b l' =>
      obtain ⟨c, hc, h⟩ := bind_eq_ok.mp h
      obtain ⟨rest, hrest, h⟩ := bind_eq_ok.mp h
      cases h
      obtain ⟨ha, hl⟩ := List.forall_mem_cons.mp hl
      obtain ⟨hb, hl'⟩ := List.forall_mem_cons.mp hl'
      exact List.forall_mem_cons.mpr ⟨hf a b c ha hb hc, ih hl hl' hrest⟩

section
variable [Ucd]

theorem rangesForEntries_named {cache : RLexCache.Cache} {ranges : List (List StyledRange)}
    (h : cache.mapM RHighlight.rangesForEntry = .ok ranges) : ∀ rs ∈ ranges, ∀ r ∈ rs, r.Named := by
  induction cache generalizing ranges with
  | nil =>
    cases h
    exact List.forall_mem_nil _
  | cons entry cache ih =>
    rw [List.mapM_cons] at h
    obtain ⟨first, hfirst, h⟩ := bind_eq_ok.mp h
    obtain ⟨rest, hrest, h⟩ := bind_eq_ok.mp h
    cases h
    exact List.forall_mem_cons.mpr ⟨RHighlight.rangesForEntry_named hfirst, ih hrest⟩

theorem wrappedRows_legible {m : Model} (hm : LegibleModel m) {rows : List (List Span)}
    (h : wrappedRows m = .ok rows) : ∀ row ∈ rows, LegibleSpans row := by
  obtain ⟨ranges, hranges, h⟩ := bind_eq_ok.mp h
  obtain ⟨blocks, hblocks, h⟩ := bind_eq_ok.mp h
  cases h
  intro row hrow
  obtain ⟨block, hblock, hrow⟩ := List.mem_flatten.mp hrow
  refine map2_forall (R := fun block => ∀ row ∈ block, LegibleSpans row) ?_ hm.lines
    (rangesForEntries_named hranges) hblocks block hblock row hrow
  intro line rs block hline hrs hblock
  obtain ⟨segments, hsegments, hblock⟩ := bind_eq_ok.mp hblock
  exact rows_legible hline (wrapStyledLine_named hrs hsegments) hblock

end

/-! ## Operations -/

def LegibleOp (op : Op) : Prop := ∀ spans, op = .print spans → LegibleSpans spans

def LegibleOps (ops : List Op) : Prop := ∀ op ∈ ops, LegibleOp op

theorem legible_print {spans : List Span} (h : LegibleSpans spans) : LegibleOp (.print spans) := by
  intro spans' heq
  cases heq
  exact h

theorem legible_cursorTo (row col : Int) : LegibleOp (.cursorTo row col) := fun _ => Op.noConfusion

theorem legible_clearToEol : LegibleOp .clearToEol := fun _ => Op.noConfusion

theorem legible_newline : LegibleOp .newline := fun _ => Op.noConfusion

/-- A text put at its place. -/
theorem legible_patch {row col : Int} {spans : List Span} (h : LegibleSpans spans) :
    LegibleOps [.cursorTo row col, .print spans] :=
  List.forall_mem_cons.mpr ⟨legible_cursorTo row col,
    List.forall_mem_singleton.mpr (legible_print h)⟩

theorem LegibleOps.append {ops ops' : List Op} (h : LegibleOps ops) (h' : LegibleOps ops') :
    LegibleOps (ops ++ ops') := List.forall_mem_append.mpr ⟨h, h'⟩

theorem iteri_legible {α : Type} {f : Nat → α → Res (List Op)} {P : α → Prop}
    (hf : ∀ i a ops, P a → f i a = .ok ops → LegibleOps ops) {i : Nat} {l : List α} {ops : List Op}
    (hl : ∀ a ∈ l, P a) (h : iteri f i l = .ok ops) : LegibleOps ops := by
  induction l generalizing i ops with
  | nil =>
    cases h
    exact List.forall_mem_nil _
  | cons a l ih =>
    obtain ⟨ha, hl⟩ := List.forall_mem_cons.mp hl
    obtain ⟨first, hfirst, h⟩ := bind_eq_ok.mp h
    obtain ⟨rest, hrest, h⟩ := bind_eq_ok.mp h
    cases h
    exact (hf i a first ha hfirst).append (ih hl hrest)

theorem rowPrompt_legible {m : Model} (hm : LegibleModel m) {i : Nat} {awaiting : Bool} {p : Bytes}
    (h : rowPrompt m.input.mode i awaiting = .ok p) : LegibleText p := by
  cases hmode : m.input.mode with
  | readline q =>
    rw [hmode] at h
    cases i with
    | zero =>
      cases h
      unfold renderedReadlinePrompt
      split
      · decide +kernel
      · split
        · exact hm.readline q hmode
        · decide +kernel
    | succ i => cases h
  | shell =>
    rw [hmode] at h
    cases i with
    | zero =>
      cases h
      decide +kernel
    | succ i => cases h
  | ai =>
    rw [hmode] at h
    cases i with
    | zero =>
      cases h
      decide +kernel
    | succ i => cases h
  | historySearch s =>
    rw [hmode] at h
    cases i with
    | zero =>
      cases h
      exact LegibleText.append (by decide +kernel) (hm.search s hmode)
    | succ i =>
      cases h
      exact legible_blanks _
  | normal =>
    rw [hmode] at h
    cases i with
    | zero =>
      cases awaiting with
      | false =>
        cases h
        decide +kernel
      | true =>
        cases h
        decide +kernel
    | succ i =>
      cases h
      decide +kernel

theorem promptStyle_named (mode : Mode) : (promptStyle mode).Named := by
  intro f
  cases mode <;> exact Style.noConfusion

theorem viewRow_legible {m : Model} (hm : LegibleModel m) {total i : Nat} {content : List Span}
    (hcontent : LegibleSpans content) {ops : List Op} (h : viewRow m total i content = .ok ops) :
    LegibleOps ops := by
  unfold viewRow at h
  split at h
  · obtain ⟨p, hp, h⟩ := bind_eq_ok.mp h
    cases h
    refine LegibleOps.append ?_ ?_
    · refine List.forall_mem_cons.mpr ⟨legible_clearToEol, List.forall_mem_singleton.mpr
        (legible_print ?_)⟩
      exact List.forall_mem_cons.mpr ⟨⟨promptStyle_named _, rowPrompt_legible hm hp⟩, hcontent⟩
    · split
      · exact List.forall_mem_singleton.mpr legible_newline
      · exact List.forall_mem_nil _
  · cases h
    exact List.forall_mem_nil _

/-- Nothing is printed but the texts put at their places. -/
theorem completionRows_legible {termHeight colOffset maxWidth row idx : Int} {selected : Option Int}
    {items : List Completion.Item} (h : ∀ item ∈ items, LegibleText item.label) :
    LegibleOps (completionRows termHeight colOffset maxWidth selected row idx items) := by
  induction items generalizing row idx with
  | nil => exact List.forall_mem_nil _
  | cons item items ih =>
    obtain ⟨hitem, hitems⟩ := List.forall_mem_cons.mp h
    rw [completionRows]
    split
    · exact List.forall_mem_nil _
    · refine LegibleOps.append (legible_patch (List.forall_mem_singleton.mpr ⟨?_, ?_⟩)) (ih hitems)
      · dsimp only
        split
        · exact fun _ => Style.noConfusion
        · exact fun _ => Style.noConfusion
      · refine LegibleText.append ?_ (legible_blanks _)
        split
        · exact List.forall_mem_nil _
        · exact hitem.subset (List.take_subset _ _)

theorem viewCompletions_legible {m : Model} (hm : LegibleModel m) (row col : Int) :
    LegibleOps (viewCompletions m row col) := by
  unfold viewCompletions
  split
  · exact List.forall_mem_nil _
  · split
    · exact List.forall_mem_nil _
    · rename_i cs hcs
      refine completionRows_legible fun item hitem => hm.labels cs hcs item ?_
      exact List.mem_of_mem_drop (List.mem_of_mem_take hitem)

/-! ## The search pager -/

theorem subset_of_mem_splitOnChar {sep : UInt8} {s w : Bytes} (h : w ∈ splitOnChar sep s) :
    w ⊆ s := by
  induction s generalizing w with
  | nil =>
    rw [List.mem_singleton.mp h]
    exact List.Subset.refl _
  | cons c s ih =>
    rw [splitOnChar] at h
    cases hs : splitOnChar sep s with
    | nil => exact absurd hs (splitOnChar_ne_nil sep s)
    | cons v ws =>
      rw [hs] at h ih
      dsimp only at h
      split at h
      · obtain rfl | h := List.mem_cons.mp h
        · exact List.nil_subset _
        · exact fun x hx => List.mem_cons_of_mem c (ih h hx)
      · obtain rfl | h := List.mem_cons.mp h
        · exact List.cons_subset_cons c (ih List.mem_cons_self)
        · exact fun x hx => List.mem_cons_of_mem c (ih (List.mem_cons_of_mem v h) hx)

/-- The lines of an entry without Escape. -/
theorem linesOf_legible {entry : Bytes × Bytes} (h : (27 : UInt8) ∉ entry.2) :
    ∀ line ∈ SearchPager.linesOf entry, LegibleText line := by
  intro line hline c hc
  refine ⟨?_, ?_⟩
  · rintro rfl
    exact h (subset_of_mem_splitOnChar hline hc)
  · rintro rfl
    exact notMem_of_mem_splitOnChar hline hc

theorem entryRows_legible {i : Nat} {height : Int} {lines : List Bytes}
    (h : ∀ line ∈ lines, LegibleText line) :
    ∀ row ∈ SearchPager.entryRows i height lines, LegibleText row.line := by
  intro row hrow
  obtain ⟨j, hj, rfl⟩ := List.mem_mapIdx.mp hrow
  exact h _ (List.mem_of_mem_take (List.getElem_mem hj))

theorem packFrom_legible {selected height : Int} {i : Nat} {budget : Int}
    {found : List (Bytes × Bytes)} (h : ∀ entry ∈ found, (27 : UInt8) ∉ entry.2) :
    ∀ row ∈ SearchPager.packFrom selected height i budget found, LegibleText row.line := by
  induction found generalizing i budget with
  | nil => exact List.forall_mem_nil _
  | cons entry found ih =>
    obtain ⟨hentry, hfound⟩ := List.forall_mem_cons.mp h
    rw [SearchPager.packFrom]
    split
    · exact List.forall_mem_append.mpr ⟨entryRows_legible (linesOf_legible hentry), ih hfound⟩
    · exact List.forall_mem_nil _

theorem viewRows_legible {maxRows selected : Int} {found : List (Bytes × Bytes)}
    {rows : List SearchPager.Row} (h : ∀ entry ∈ found, (27 : UInt8) ∉ entry.2)
    (hrows : SearchPager.viewRows maxRows selected found = .ok rows) :
    ∀ row ∈ rows, LegibleText row.line := by
  unfold SearchPager.viewRows at hrows
  dsimp only at hrows
  split at hrows
  · cases hrows
    exact List.forall_mem_nil _
  · split at hrows
    · cases hrows
    · obtain ⟨entry, -, hrows⟩ := bind_eq_ok.mp hrows
      cases hrows
      exact packFrom_legible fun entry hentry => h entry (List.mem_of_mem_drop hentry)

theorem bytes_sub_subset (t : UnicodeString) (start len : Int) : (t.sub start len).bytes ⊆ t.bytes := by
  unfold UnicodeString.sub
  split
  · exact List.nil_subset _
  · exact slice_subset _ _ _

theorem bytes_wrapRows_subset (t : UnicodeString) (width : Int) (fuel start : Nat) :
    ∀ row ∈ t.wrapRows width fuel start, row.bytes ⊆ t.bytes := by
  induction fuel generalizing start with
  | zero => exact List.forall_mem_nil _
  | succ fuel ih =>
    rw [UnicodeString.wrapRows]
    split
    · exact List.forall_mem_nil _
    · dsimp only
      split
      · exact List.forall_mem_cons.mpr ⟨bytes_sub_subset t _ _, ih _⟩
      · exact List.forall_mem_cons.mpr ⟨bytes_sub_subset t _ _, ih _⟩

theorem bytes_truncated_subset (width : Int) (line : UnicodeString) :
    (truncated width line).toBytes ⊆ line.toBytes := by
  have hrows : ∀ row ∈ line.wrap width, row.bytes ⊆ line.bytes := by
    unfold UnicodeString.wrap
    split
    · exact List.forall_mem_singleton.mpr (List.Subset.refl _)
    · split
      · exact List.forall_mem_singleton.mpr (List.nil_subset _)
      · dsimp only
        split
        · exact List.forall_mem_append.mpr ⟨bytes_wrapRows_subset line width _ _,
            List.forall_mem_singleton.mpr (List.nil_subset _)⟩
        · exact bytes_wrapRows_subset line width _ _
  unfold truncated wrapLine
  cases hwrap : line.wrap width with
  | nil => exact List.nil_subset _
  | cons row rest => exact hrows row (hwrap ▸ List.mem_cons_self)

theorem rowBadge_legible (mode : Bytes) (row : SearchPager.Row) :
    LegibleSpan ((rowBadge mode row).2, (rowBadge mode row).1) := by
  unfold rowBadge
  split
  · exact ⟨RHighlight.named_accent, by decide +kernel⟩
  · split
    · exact ⟨fun _ => Style.noConfusion, by decide +kernel⟩
    · split
      · exact ⟨fun _ => Style.noConfusion, by decide +kernel⟩
      · exact ⟨RHighlight.named_accent, by decide +kernel⟩

theorem rowMarker_legible (row : SearchPager.Row) : LegibleText (rowMarker row) := by
  unfold rowMarker
  split
  · refine LegibleText.append (by decide +kernel) fun c hc => ?_
    have hdigit := (Tty.isDecimal_decimal _ c hc).1
    refine ⟨?_, ?_⟩
    · rintro rfl
      exact absurd hdigit (by decide)
    · rintro rfl
      exact absurd hdigit (by decide)
  · exact List.forall_mem_nil _

/-- The row of an entry that is not selected. -/
theorem entryRow_legible (mode : Bytes) (row : SearchPager.Row) (absRow : Int) {content : List Span}
    (hcontent : LegibleSpans content) :
    LegibleOps [.cursorTo absRow 1, .print (((rowBadge mode row).2, (rowBadge mode row).1) ::
      content ++ if rowMarker row = [] then [] else [(.comment, rowMarker row)])] := by
  refine legible_patch (List.forall_mem_cons.mpr ⟨rowBadge_legible mode row,
    List.forall_mem_append.mpr ⟨hcontent, ?_⟩⟩)
  split
  · exact List.forall_mem_nil _
  · exact List.forall_mem_singleton.mpr ⟨fun _ => Style.noConfusion, rowMarker_legible row⟩

section
variable [Ucd]

theorem rLineSpans_legible {line : UnicodeString} {width : Int} {spans : List Span}
    (hline : LegibleText line.toBytes) (h : rLineSpans line width = .ok spans) :
    LegibleSpans spans := by
  obtain ⟨cache, -, h⟩ := bind_eq_ok.mp h
  have hplain : LegibleSpans [(.plain, line.toBytes)] :=
    List.forall_mem_singleton.mpr ⟨RHighlight.named_plain, hline⟩
  split at h
  · obtain ⟨ranges, hranges, h⟩ := bind_eq_ok.mp h
    obtain ⟨rows, hrows, h⟩ := bind_eq_ok.mp h
    have hnamed := wrapStyledLine_named (RHighlight.rangesForEntry_named hranges) hrows
    split at h
    · exact spansOfSegments_legible hline (hnamed _ List.mem_cons_self) h
    · cases h
      exact List.forall_mem_nil _
  · cases h
    exact hplain
  · cases h
    exact hplain

theorem pagerRow_legible {layout : Layout} {s : SearchState} {i : Nat} {row : SearchPager.Row}
    (hrow : LegibleText row.line) {ops : List Op} (h : pagerRow layout s i row = .ok ops) :
    LegibleOps ops := by
  unfold pagerRow at h
  dsimp only at h
  split at h
  · obtain ⟨⟨mode, entry⟩, -, h⟩ := bind_eq_ok.mp h
    dsimp only at h
    split at h
    · rename_i line hline
      obtain ⟨line', hline', h⟩ := bind_eq_ok.mp h
      cases hline'
      have hbytes : LegibleText line.toBytes := by
        obtain rfl | heq := UnicodeString.bytes_of_ofString hline
        · exact List.forall_mem_nil _
        · exact (congrArg LegibleText heq).mpr hrow
      have htext := hbytes.subset (bytes_truncated_subset (contentWidth layout.termWidth mode row) line)
      split at h
      · cases h
        refine legible_patch (List.forall_mem_singleton.mpr ⟨fun _ => Style.noConfusion, ?_⟩)
        exact (((rowBadge_legible mode row).2.append htext).append (rowMarker_legible row)).append
          (legible_blanks _)
      · split at h
        · cases h
          exact entryRow_legible mode row _
            (List.forall_mem_singleton.mpr ⟨RHighlight.named_plain, htext⟩)
        · obtain ⟨content, hcontent, h⟩ := bind_eq_ok.mp h
          cases h
          exact entryRow_legible mode row _ (rLineSpans_legible htext hcontent)
    · obtain ⟨line', hline', h⟩ := bind_eq_ok.mp h
      cases hline'
  · cases h
    exact List.forall_mem_nil _

theorem viewSearchPager_legible {m : Model} (hm : LegibleModel m) {ops : List Op}
    (h : viewSearchPager m = .ok ops) : LegibleOps ops := by
  unfold viewSearchPager at h
  split at h
  · cases h
    exact List.forall_mem_nil _
  · cases h
    exact List.forall_mem_nil _
  · cases h
    exact List.forall_mem_nil _
  · cases h
    exact List.forall_mem_nil _
  · rename_i s hmode
    obtain ⟨rows, hrows, h⟩ := bind_eq_ok.mp h
    exact iteri_legible (fun i row ops hrow h => pagerRow_legible hrow h)
      (viewRows_legible (hm.found s hmode) hrows) h

end

/-! ## The whole view -/

theorem scrollOps_legible (layout : Layout) : LegibleOps (scrollOps layout) := by
  unfold scrollOps
  split
  · refine List.forall_mem_cons.mpr ⟨legible_cursorTo _ _, fun op hop => ?_⟩
    rw [List.eq_of_mem_replicate hop]
    exact legible_newline
  · exact List.forall_mem_nil _

theorem legible_clear (row : Int) : LegibleOps [.cursorTo row 1, .clearToEol] :=
  List.forall_mem_cons.mpr ⟨legible_cursorTo row 1, List.forall_mem_singleton.mpr legible_clearToEol⟩

theorem clearRowsFrom_legible (first termHeight : Int) : LegibleOps (clearRowsFrom first termHeight) := by
  intro op hop
  obtain ⟨k, -, hop⟩ := List.mem_flatMap.mp hop
  exact legible_clear _ op hop

theorem clearOutputRow_legible (m : Model) : LegibleOps (clearOutputRow m) := by
  unfold clearOutputRow
  dsimp only
  split
  · exact legible_clear _
  · exact List.forall_mem_nil _

section
variable [Ucd]

theorem viewOps_legible {m : Model} (hm : LegibleModel m) {ops : List Op} (h : viewOps m = .ok ops) :
    LegibleOps ops := by
  obtain ⟨⟨row, col⟩, -, h⟩ := bind_eq_ok.mp h
  obtain ⟨rows, hrows, h⟩ := bind_eq_ok.mp h
  obtain ⟨prompts, hprompts, h⟩ := bind_eq_ok.mp h
  obtain ⟨pager, hpager, h⟩ := bind_eq_ok.mp h
  cases h
  have hprompt : LegibleOps prompts := iteri_legible
    (fun i content ops hcontent h => viewRow_legible hm hcontent h) (wrappedRows_legible hm hrows)
    hprompts
  have hcursor : LegibleOp (if showCursor m then .showCursor else .hideCursor) := by
    split
    · exact fun _ => Op.noConfusion
    · exact fun _ => Op.noConfusion
  have hplace : LegibleOp (placeCursor m col (absoluteCursorPos m row col)) := by
    unfold placeCursor
    split <;> exact legible_cursorTo _ _
  exact (((((((LegibleOps.append (List.forall_mem_singleton.mpr hcursor)
    (scrollOps_legible m.layout)).append (List.forall_mem_singleton.mpr (legible_cursorTo _ _))).append
    hprompt).append (clearRowsFrom_legible _ _)).append (clearOutputRow_legible m)).append
    (viewCompletions_legible hm _ _)).append (viewSearchPager_legible hm hpager)).append
    (List.forall_mem_singleton.mpr hplace)

end

end View
end Raoui
