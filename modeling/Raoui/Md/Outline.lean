import Raoui.Md.Blocks

/-!
# Raoui.Md.Outline

What the layout of a document shows, apart from blanks, line breaks and the bars of quotes: its
outline, which no line is needed to say.

* `outline`: the text of a document in order, with its markers, rules and code blocks.
* `Anchored`: the first line of every block of text still has its margin.
* `render_outline`: the layout shows the outline.
-/

namespace Raoui
namespace MdLayout

open WordWrap (words)

/-! ## What is shown -/

/-- The glyphs of a line that can be seen, without the bars of quotes. -/
def shown (line : List Span) : List Glyph :=
  (glyphs (line.filter fun s => s ≠ bar)).filter fun g => !g.isSpace

inductive Part where
  | text (glyphs : List Glyph)
  | code (block : CodeBlock)
  deriving DecidableEq, Repr

def Block.part : Block → Part
  | .lines ls => .text (ls.flatMap shown)
  | .code block => .code block

def mergePart : Part → List Part → List Part
  | .text a, .text b :: rest => .text (a ++ b) :: rest
  | part, acc => part :: acc

/-- Neighbouring text becomes one part. -/
def mergeTexts (parts : List Part) : List Part := parts.foldr mergePart []

/-- The marker of an item stands before its first text, behind any code that comes first. -/
def markFirst (marker : List Glyph) : List Part → List Part
  | [] => []
  | .code c :: parts => .code c :: markFirst marker parts
  | .text gs :: parts => .text (marker ++ gs) :: parts

section
variable (measure : Bytes → Int) (width : Int)

mutual
/-- The margin tells how long a rule is, how code is indented and how wide a table may be. -/
def outline (margin : List Span) : Doc → List Part
  | .blocks all => outlines margin all
  | .paragraph inline => [.text (shown (inlineRuns .body noEmphasis inline))]
  | .heading level inline => [.text (shown (inlineRuns (.heading level) noEmphasis inline))]
  | .blockQuote block => outline (margin ++ [bar]) block
  | .codeBlock info code => [.code (codeBlock measure margin info code)]
  | .list start items => mergeTexts (itemOutlines margin start 0 items)
  | .extTable tbl => (renderTable measure width margin tbl).map Block.part
  | .thematicBreak => [.text (shown (breakLine measure width margin))]
  | .other => []

def outlines (margin : List Span) : List Doc → List Part
  | [] => []
  | block :: all => outline margin block ++ outlines margin all

def itemOutlines (margin : List Span) (start : Option Int) (i : Nat) : List Doc → List Part
  | [] => []
  | item :: items =>
    markFirst (shown [markerSpan (itemMarker start i)])
      (outline (itemMargin measure margin (itemMarker start i)) item) ++
      itemOutlines margin start (i + 1) items
end

end

@[simp] theorem shown_nil : shown [] = [] := rfl

@[simp] theorem shown_append (u v : List Span) : shown (u ++ v) = shown u ++ shown v := by
  simp only [shown, List.filter_append, glyphs_append]

theorem shown_cons (s : Span) (line : List Span) : shown (s :: line) = shown [s] ++ shown line := by
  rw [← List.singleton_append, shown_append]

theorem shown_plain (n : Nat) : shown [plain (List.replicate n space)] = [] := by
  have hbar : plain (List.replicate n space) ≠ bar := by
    intro h
    have := congrArg (fun s : Span => s.1.role) h
    cases this
  rw [shown, List.filter_cons_of_pos (by simpa using hbar), List.filter_nil, glyphs_cons, glyphs_nil,
    List.append_nil]
  simp [plain, Glyph.isSpace]

theorem shown_spaces (n : Int) : shown [spaces n] = [] := shown_plain _

@[simp] theorem shown_bar : shown [bar] = [] := rfl

/-- A margin shows nothing. -/
def Silent (margin : List Span) : Prop := shown margin = []

theorem Silent.quote {margin : List Span} (h : Silent margin) : Silent (margin ++ [bar]) := by
  rw [Silent, shown_append, h, shown_bar]
  rfl

theorem Silent.item {margin : List Span} (h : Silent margin) (measure : Bytes → Int)
    (marker : Bytes) : Silent (itemMargin measure margin marker) := by
  rw [Silent, itemMargin, shown_append, h, shown_spaces]
  rfl

/-! ## Text runs -/

/-- Text of the document; markers, rules and bars have a role of their own. -/
def IsText (spans : List Span) : Prop := ∀ s ∈ spans, s.1.role ≠ .marker

theorem IsText.shown {spans : List Span} (h : IsText spans) :
    shown spans = (glyphs spans).filter fun g => !g.isSpace := by
  have hall : spans.filter (fun s => s ≠ bar) = spans := by
    refine List.filter_eq_self.mpr fun s hs => ?_
    have hne : s ≠ bar := by
      rintro rfl
      exact h bar hs rfl
    simpa using hne
  rw [MdLayout.shown, hall]

mutual
theorem inlineRuns_isText {base : Role} (hbase : base ≠ .marker) (emph : Emphasis) :
    (inline : Inline) → IsText (inlineRuns base emph inline)
  | .text s => by simpa [IsText, inlineRuns] using hbase
  | .emphasis e => inlineRuns_isText hbase _ e
  | .strongEmphasis e => inlineRuns_isText hbase _ e
  | .codeSpan code => by simp [IsText, inlineRuns]
  | .link dest text => inlineRuns_isText Role.noConfusion _ text
  | .image dest text => inlineRuns_isText Role.noConfusion _ text
  | .autolink dest => by simp [IsText, inlineRuns]
  | .lineBreak => by simpa [IsText, inlineRuns] using hbase
  | .inlines all => inlinesRuns_isText hbase emph all
  | .extStrikethrough e => inlineRuns_isText hbase _ e
  | .other => List.forall_mem_nil _

theorem inlinesRuns_isText {base : Role} (hbase : base ≠ .marker) (emph : Emphasis) :
    (all : List Inline) → IsText (inlinesRuns base emph all)
  | [] => List.forall_mem_nil _
  | inline :: rest => List.forall_mem_append.mpr
      ⟨inlineRuns_isText hbase emph inline, inlinesRuns_isText hbase emph rest⟩
end

/-- What holds of every piece so far. -/
def Collected.All (P : Span → Prop) (c : Collected) : Prop :=
  (∀ w ∈ c.words, ∀ p ∈ w.pieces, P p) ∧ ∀ p ∈ c.cur, P p

theorem Collected.All.flush {P : Span → Prop} {c : Collected} (h : c.All P) : c.flush.All P := by
  refine ⟨fun w hw p hp => ?_, List.forall_mem_nil _⟩
  unfold Collected.flush at hw
  dsimp only at hw
  split at hw
  · exact h.1 w hw p hp
  · obtain rfl | hw := List.mem_cons.mp hw
    · exact h.2 p (List.mem_reverse.mp hp)
    · exact h.1 w hw p hp

theorem Collected.All.part {P : Span → Prop} {measure : Bytes → Int} {style : Style}
    (hP : ∀ t, P (style, t)) {c : Collected} (h : c.All P) (i : Nat) (part : Bytes) :
    (c.part measure style i part).All P := by
  have hflush : (if i > 0 then c.flush else c).All P := by
    split
    · exact h.flush
    · exact h
  unfold Collected.part
  dsimp only
  split
  · exact hflush
  · exact ⟨hflush.1, List.forall_mem_cons.mpr ⟨hP part, hflush.2⟩⟩

theorem Collected.All.run {P : Span → Prop} {measure : Bytes → Int} {run : Span}
    (hP : ∀ t, P (run.1, t)) {c : Collected} (h : c.All P) : (c.run measure run).All P := by
  unfold Collected.run
  generalize (splitOnChar space run.2).zipIdx = parts
  induction parts generalizing c with
  | nil => exact h
  | cons part parts ih => exact ih (h.part hP part.2 part.1)

/-- The pieces of the words are in the styles of the runs. -/
theorem wordsOfRuns_styles {P : Span → Prop} (measure : Bytes → Int) {runs : List Span}
    (hP : ∀ run ∈ runs, ∀ t, P (run.1, t)) : ∀ w ∈ wordsOfRuns measure runs, ∀ p ∈ w.pieces, P p := by
  have hall : (runs.foldl (Collected.run measure) ⟨[], [], 0⟩).All P := by
    have : (⟨[], [], 0⟩ : Collected).All P := ⟨List.forall_mem_nil _, List.forall_mem_nil _⟩
    generalize (⟨[], [], 0⟩ : Collected) = c at this
    induction runs generalizing c with
    | nil => exact this
    | cons run runs ih =>
      exact ih (fun r hr => hP r (List.mem_cons_of_mem _ hr)) _
        (this.run (hP run List.mem_cons_self))
  intro w hw
  exact hall.flush.1 w (List.mem_reverse.mp hw)

/-! ## Wrapped text -/

section
variable {measure : Bytes → Int} {width : Int}

/-- The lines of wrapped text behind one margin. -/
theorem wrapWords_laid (hspace : measure [space] = 1) (width : Int) (margin runs : List Span) :
    ∃ lines : List (List Word),
      WordWrap.IsWrap (Fits measure width margin margin) 0 (wordsOfRuns measure runs) lines ∧
      wrapWords measure width margin margin (wordsOfRuns measure runs) =
        (if lines = [] then [[]] else lines.map laid).map (margin ++ ·) := by
  refine ⟨WordWrap.wrap (Fits measure width margin margin) 0 (wordsOfRuns measure runs),
    WordWrap.wrap_isWrap 0 _, ?_⟩
  rw [wrapWords_eq hspace (wordsOfRuns_measured runs)]
  have hwrap : WordWrap.IsWrap (Fits measure width margin margin) 0 (wordsOfRuns measure runs)
      (WordWrap.wrap (Fits measure width margin margin) 0 (wordsOfRuns measure runs)) :=
    WordWrap.wrap_isWrap 0 _
  generalize wordsOfRuns measure runs = ws at hwrap ⊢
  generalize WordWrap.wrap (Fits measure width margin margin) 0 ws = lines at hwrap ⊢
  by_cases hnil : lines = []
  · have hws : ws = [] := by rw [← hwrap.flatten, hnil]; rfl
    rw [if_pos hws, if_pos hnil]
    simp
  · have hws : ws ≠ [] := by
      intro hws
      obtain ⟨line, lines', rfl⟩ := List.exists_cons_of_ne_nil hnil
      have hflat := List.flatten_eq_nil_iff.mp (hwrap.flatten.trans hws) line List.mem_cons_self
      exact hwrap.line_ne line List.mem_cons_self hflat
    rw [if_neg hws, if_neg hnil, List.map_map]
    refine List.ext_getElem? fun i => ?_
    rw [List.getElem?_mapIdx, List.getElem?_map]
    refine congrArg (Option.map · lines[i]?) (funext fun line => ?_)
    show prefixOf margin margin i ++ laid line = margin ++ laid line
    rw [prefixOf, ite_self]

theorem shown_laid {line : List Word} (h : ∀ w ∈ line, IsText w.pieces) :
    shown (laid line) = (line.flatMap fun w => glyphs w.pieces).filter fun g => !g.isSpace := by
  rw [← filter_glyphs_laid]
  refine IsText.shown ?_
  induction line with
  | nil => exact List.forall_mem_nil _
  | cons w line ih =>
    have hw := h w List.mem_cons_self
    cases line with
    | nil => exact hw
    | cons v line =>
      refine List.forall_mem_append.mpr ⟨hw, List.forall_mem_cons.mpr ⟨Role.noConfusion, ?_⟩⟩
      exact ih fun u hu => h u (List.mem_cons_of_mem w hu)

/-- Wrapping shows all of the text and nothing else. -/
theorem wrapWords_shown (hspace : measure [space] = 1) {margin runs : List Span}
    (hmargin : Silent margin) (htext : IsText runs) :
    (wrapWords measure width margin margin (wordsOfRuns measure runs)).flatMap shown =
      shown runs := by
  obtain ⟨lines, hwrap, hout⟩ := wrapWords_laid hspace width margin runs
  have hpieces : ∀ w ∈ wordsOfRuns measure runs, IsText w.pieces :=
    wordsOfRuns_styles measure fun run hrun _ => htext run hrun
  have hglyphs := wordsOfRuns_glyphs measure runs
  generalize wordsOfRuns measure runs = ws at hwrap hout hpieces hglyphs
  have hlines : ∀ line ∈ lines, shown (laid line) =
      (line.flatMap fun w => glyphs w.pieces).filter fun g => !g.isSpace := fun line hline =>
    shown_laid fun w hw => hpieces w (hwrap.flatten ▸ List.mem_flatten_of_mem hline hw)
  have hall : (if lines = [] then [[]] else lines.map laid).flatMap shown =
      (lines.flatten.flatMap fun w => glyphs w.pieces).filter fun g => !g.isSpace := by
    split
    · rename_i hnil
      rw [hnil]
      rfl
    · clear hwrap hout
      induction lines with
      | nil => rfl
      | cons line lines ih =>
        obtain ⟨hline, hrest⟩ := List.forall_mem_cons.mp hlines
        rw [List.map_cons, List.flatMap_cons, hline, List.flatten_cons, List.flatMap_append,
          List.filter_append]
        by_cases hnil : lines = []
        · rw [hnil]
          rfl
        · rw [ih hrest hnil]
  rw [hout, List.flatMap_map, htext.shown, ← WordWrap.flatten_words (p := Glyph.isSpace), ← hglyphs]
  have hsilent : (fun line => shown (margin ++ line)) = shown := funext fun line => by
    rw [shown_append, hmargin]
    rfl
  rw [hsilent, hall, hwrap.flatten, List.flatMap_def, hglyphs, WordWrap.flatten_words,
    List.filter_filter]
  simp only [Bool.and_self]

end

/-! ## Markers -/

/-- The first line of a block of text has its margin. -/
def Anchored (margin : List Span) : Block → Prop
  | .lines ls => ∃ rest more, ls = (margin ++ rest) :: more
  | .code _ => True

theorem Anchored.outer {margin inner : List Span} {b : Block} (h : Anchored (margin ++ inner) b) :
    Anchored margin b := by
  cases b with
  | code c => exact trivial
  | lines ls =>
    obtain ⟨rest, more, rfl⟩ := h
    exact ⟨inner ++ rest, more, by rw [List.append_assoc]⟩

theorem mapIdx_overlay (margin rest : List Span) (old new : Span) :
    (margin ++ old :: rest).mapIdx (fun i sp => if i = margin.length then new else sp) =
      margin ++ new :: rest := by
  refine List.ext_getElem? fun i => ?_
  rw [List.getElem?_mapIdx]
  obtain hi | rfl | hi := Nat.lt_trichotomy i margin.length
  · rw [List.getElem?_append_left hi, List.getElem?_append_left hi]
    simp only [if_neg (Nat.ne_of_lt hi), Option.map_id']
  · simp
  · obtain ⟨k, rfl⟩ := Nat.exists_eq_add_of_lt hi
    rw [List.getElem?_append_right (by omega), List.getElem?_append_right (by omega)]
    have hk : margin.length + k + 1 - margin.length = k + 1 := by omega
    rw [hk, List.getElem?_cons_succ, List.getElem?_cons_succ]
    simp only [if_neg (Nat.ne_of_gt hi), Option.map_id']

/-- Over the blanks of an item goes its marker, and nothing else changes. -/
theorem overlayMarker_parts (marker : Span) {margin : List Span} {blanks : Span}
    (hmargin : Silent margin) (hblanks : shown [blanks] = []) {blocks : List Block}
    (h : ∀ b ∈ blocks, Anchored (margin ++ [blanks]) b) :
    (overlayMarker margin.length marker blocks).map Block.part =
        markFirst (shown [marker]) (blocks.map Block.part) ∧
      ∀ b ∈ overlayMarker margin.length marker blocks, Anchored margin b := by
  induction blocks with
  | nil => exact ⟨rfl, List.forall_mem_nil _⟩
  | cons b blocks ih =>
    obtain ⟨hb, hrest⟩ := List.forall_mem_cons.mp h
    obtain ⟨hparts, hanchored⟩ := ih hrest
    cases b with
    | code c =>
      exact ⟨by rw [overlayMarker, List.map_cons, hparts]; rfl,
        List.forall_mem_cons.mpr ⟨trivial, hanchored⟩⟩
    | lines ls =>
      obtain ⟨rest, more, rfl⟩ := hb
      have hover : overlayMarker margin.length marker
          (.lines ((margin ++ [blanks] ++ rest) :: more) :: blocks) =
            .lines ((margin ++ marker :: rest) :: more) :: blocks := by
        rw [overlayMarker, List.append_assoc, List.singleton_append, mapIdx_overlay]
      rw [hover]
      refine ⟨?_, List.forall_mem_cons.mpr ⟨⟨_, _, rfl⟩, fun b hb => (hrest b hb).outer⟩⟩
      have hold : shown (margin ++ [blanks] ++ rest) = shown rest := by
        rw [shown_append, shown_append, hmargin, hblanks]
        rfl
      have hnew : shown (margin ++ marker :: rest) = shown [marker] ++ shown rest := by
        rw [shown_append, hmargin, shown_cons]
        rfl
      rw [List.map_cons, List.map_cons, Block.part, Block.part, List.flatMap_cons, List.flatMap_cons,
        hold, hnew, List.append_assoc]
      rfl

theorem mergeBlock_part (b : Block) (blocks : List Block) :
    (mergeBlock b blocks).map Block.part = mergePart b.part (blocks.map Block.part) := by
  cases b with
  | code c => rfl
  | lines ls =>
    cases blocks with
    | nil => rfl
    | cons b' blocks =>
      cases b' with
      | code c => rfl
      | lines ls' =>
        show Part.text ((ls ++ ls').flatMap shown) :: _ = Part.text (_ ++ _) :: _
        rw [List.flatMap_append]

theorem mergeLines_parts (blocks : List Block) :
    (mergeLines blocks).map Block.part = mergeTexts (blocks.map Block.part) := by
  induction blocks with
  | nil => rfl
  | cons b blocks ih =>
    show (mergeBlock b (mergeLines blocks)).map Block.part = mergePart b.part (mergeTexts _)
    rw [mergeBlock_part, ih]

theorem mergeBlock_anchored {margin : List Span} {b : Block} {blocks : List Block}
    (hb : Anchored margin b) (h : ∀ b ∈ blocks, Anchored margin b) :
    ∀ b' ∈ mergeBlock b blocks, Anchored margin b' := by
  cases b with
  | code c => exact List.forall_mem_cons.mpr ⟨trivial, h⟩
  | lines ls =>
    cases blocks with
    | nil => exact List.forall_mem_cons.mpr ⟨hb, h⟩
    | cons b' blocks =>
      cases b' with
      | code c => exact List.forall_mem_cons.mpr ⟨hb, h⟩
      | lines ls' =>
        obtain ⟨rest, more, rfl⟩ := hb
        exact List.forall_mem_cons.mpr ⟨⟨rest, more ++ ls', rfl⟩, (List.forall_mem_cons.mp h).2⟩

theorem mergeLines_anchored {margin : List Span} {blocks : List Block}
    (h : ∀ b ∈ blocks, Anchored margin b) : ∀ b ∈ mergeLines blocks, Anchored margin b := by
  induction blocks with
  | nil => exact List.forall_mem_nil _
  | cons b blocks ih =>
    obtain ⟨hb, hrest⟩ := List.forall_mem_cons.mp h
    exact mergeBlock_anchored hb (ih hrest)

/-! ## Tables -/

/-- The runs begin with a word that `String.trim` leaves something of. -/
def Leads (runs : List Span) : Prop :=
  ∃ w ∈ (words isSpace (plainText runs)).head?, ∃ c ∈ w, isTrimmed c = false

/-- The first line of the header is not blank. -/
def Table.Headed (tbl : Table) : Prop :=
  ∀ row ∈ (tbl.runRows.filter fun row => row.1 = true).head?, ∃ runs ∈ row.2, Leads runs

theorem isBlank_of_mem {s : Span} {c : UInt8} (hc : c ∈ s.2) (h : isTrimmed c = false) :
    isBlank s = false := by
  have hne : trim s.2 ≠ [] := by
    intro hnil
    rw [forall_isTrimmed_of_trim hnil c hc] at h
    cases h
  simpa [isBlank] using hne

/-- Stripping blanks at the end does not reach the margin. -/
theorem rstripLine_append (margin : List Span) {rest : List Span}
    (h : ∃ s ∈ rest, isBlank s = false) :
    ∃ rest', rstripLine (margin ++ rest) = margin ++ rest' := by
  obtain ⟨s, hs, hblank⟩ := h
  have hne : rest.reverse.dropWhile isBlank ≠ [] := by
    intro hnil
    rw [List.dropWhile_eq_nil_iff.mp hnil s (List.mem_reverse.mpr hs)] at hblank
    cases hblank
  obtain ⟨last, more, hdrop⟩ := List.exists_cons_of_ne_nil hne
  have hline : (margin ++ rest).reverse.dropWhile isBlank = last :: (more ++ margin.reverse) := by
    rw [List.reverse_append, List.dropWhile_append, hdrop]
    rfl
  refine ⟨more.reverse ++ [(last.1, dropSpaces last.2)], ?_⟩
  unfold rstripLine
  rw [hline]
  simp

theorem mem_alignCell {measure : Bytes → Int} (w : Int) (align : Align) {line : List Span} {s : Span}
    (h : s ∈ line) : s ∈ alignCell measure w align line := by
  unfold alignCell
  dsimp only
  split
  · exact h
  · cases align <;> simp [h]

theorem mem_joinCols {cols : List Line} {col : Line} {s : Span} (hcol : col ∈ cols) (hs : s ∈ col) :
    s ∈ joinCols cols := by
  induction cols with
  | nil => cases hcol
  | cons c cols ih =>
    cases cols with
    | nil =>
      cases List.mem_singleton.mp hcol
      exact hs
    | cons c' cols =>
      rw [joinCols]
      · obtain rfl | hcol := List.mem_cons.mp hcol
        · simp [hs]
        · simp [ih hcol]
      · simp

section
variable {measure : Bytes → Int}

/-- What the runs begin with is on their first line. -/
theorem first_line_of_leads (hspace : measure [space] = 1) {w : Int} {runs : List Span}
    (h : Leads runs) :
    ∃ line more, wrapWords measure w [] [] (wordsOfRuns measure runs) = line :: more ∧
      ∃ s ∈ line, isBlank s = false := by
  obtain ⟨t, ht, c, hc, htrim⟩ := h
  obtain ⟨lines, hwrap, hout⟩ := wrapWords_laid hspace w [] runs
  rw [← wordsOfRuns_text measure, List.head?_map] at ht
  obtain ⟨v, hv, rfl⟩ := Option.map_eq_some_iff.mp ht
  obtain ⟨vs, hvs⟩ := List.head?_eq_some_iff.mp hv
  have hflat := hwrap.flatten
  rw [hvs] at hflat
  cases lines with
  | nil => cases hflat
  | cons line lines =>
    obtain ⟨u, us, rfl⟩ := List.exists_cons_of_ne_nil (hwrap.line_ne line List.mem_cons_self)
    obtain ⟨rfl, _⟩ := List.cons.inj hflat
    refine ⟨laid (u :: us), lines.map laid, ?_, ?_⟩
    · rw [hout, if_neg (List.cons_ne_nil _ _), List.map_map]
      rfl
    obtain ⟨p, hp, hcp⟩ := List.mem_flatMap.mp hc
    refine ⟨p, ?_, isBlank_of_mem hcp htrim⟩
    cases us with
    | nil => exact hp
    | cons u' us => exact List.mem_append_left _ hp

/-- A row with such a cell begins with the margin. -/
theorem assemble_anchored (hspace : measure [space] = 1) (margin : List Span) {w : List Int}
    {aligns : List Align} {row : List (List Span)} (haligns : aligns.length = w.length)
    (hrow : row.length = w.length) (h : ∃ runs ∈ row, Leads runs) :
    ∃ rest more, assemble measure margin w aligns row = (margin ++ rest) :: more := by
  obtain ⟨runs, hruns, hleads⟩ := h
  obtain ⟨j, hj, rfl⟩ := List.mem_iff_getElem.mp hruns
  have hjw : j < w.length := hrow ▸ hj
  obtain ⟨line, more, hlines, s, hs, hblank⟩ := first_line_of_leads (w := w[j]) hspace hleads
  have hcell : (cellLines measure w row)[j]? = some (line :: more) := by
    rw [cellLines, List.getElem?_zipWith, List.getElem?_eq_getElem hjw, List.getElem?_eq_getElem hj]
    exact congrArg some hlines
  have hfield : alignCell measure w[j] aligns[j] line ∈
      fields measure w aligns (cellLines measure w row) 0 := by
    refine List.mem_of_getElem? (i := j) ?_
    have hzip : (w.zip aligns)[j]? = some (w[j], aligns[j]) := by
      rw [List.getElem?_zip_eq_some]
      exact ⟨List.getElem?_eq_getElem hjw, List.getElem?_eq_getElem (haligns ▸ hjw)⟩
    rw [fields, List.getElem?_zipWith, hzip, hcell]
    rfl
  obtain ⟨rest, hrest⟩ := rstripLine_append margin
    ⟨s, mem_joinCols hfield (mem_alignCell w[j] aligns[j] hs), hblank⟩
  -- every row has a first line
  have hheight : ∃ n, rowHeight (cellLines measure w row) = n + 1 := by
    have hle := le_rowHeight (List.mem_of_getElem? hcell)
    rw [List.length_cons] at hle
    exact ⟨_, (Nat.sub_add_cancel (Nat.le_trans (Nat.le_add_left 1 _) hle)).symm⟩
  obtain ⟨n, hn⟩ := hheight
  rw [assemble, hn, List.range_succ_eq_map, List.map_cons, hrest]
  exact ⟨rest, _, rfl⟩

theorem renderTable_anchored (hspace : measure [space] = 1) (width : Int) (margin : List Span)
    {tbl : Table} (h : tbl.Headed) : ∀ b ∈ renderTable measure width margin tbl, Anchored margin b := by
  unfold renderTable
  split
  · exact List.forall_mem_nil _
  · refine List.forall_mem_singleton.mpr ?_
    dsimp only
    cases hrows : tbl.runRows.filter fun row => row.1 = true with
    | nil => exact ⟨_, _, rfl⟩
    | cons row rows =>
      have hmem : row ∈ tbl.runRows :=
        List.mem_of_mem_filter (p := fun row => row.1 = true) (hrows ▸ List.mem_cons_self)
      have hcols := tbl.columnWidths_length measure width margin
      obtain ⟨rest, more, hfirst⟩ := assemble_anchored hspace margin
        (tbl.aligns_length.trans hcols.symm) ((tbl.runRows_length row hmem).trans hcols.symm)
        (h row (by rw [hrows]; rfl))
      rw [List.flatMap_cons, hfirst]
      exact ⟨rest, _, rfl⟩

end

/-! ## The layout shows the outline -/

mutual
/-- No table of the document has a blank header. -/
def Doc.Headed : Doc → Prop
  | .blocks all => Doc.AllHeaded all
  | .blockQuote block => block.Headed
  | .list _ items => Doc.AllHeaded items
  | .extTable tbl => tbl.Headed
  | .paragraph _ | .heading _ _ | .codeBlock _ _ | .thematicBreak | .other => True

def Doc.AllHeaded : List Doc → Prop
  | [] => True
  | doc :: docs => doc.Headed ∧ Doc.AllHeaded docs
end

section
variable {measure : Bytes → Int} {width : Int}

/-- The blocks show these parts, and their first lines have the margin. -/
def Shows (margin : List Span) (blocks : List Block) (parts : List Part) : Prop :=
  blocks.map Block.part = parts ∧ ∀ b ∈ blocks, Anchored margin b

theorem shows_nil (margin : List Span) : Shows margin [] [] := ⟨rfl, List.forall_mem_nil _⟩

theorem Shows.append {margin : List Span} {bs bs' : List Block} {ps ps' : List Part}
    (h : Shows margin bs ps) (h' : Shows margin bs' ps') : Shows margin (bs ++ bs') (ps ++ ps') :=
  ⟨by rw [List.map_append, h.1, h'.1], List.forall_mem_append.mpr ⟨h.2, h'.2⟩⟩

theorem Shows.merge {margin : List Span} {bs : List Block} {ps : List Part}
    (h : Shows margin bs ps) : Shows margin (mergeLines bs) (mergeTexts ps) :=
  ⟨by rw [mergeLines_parts, h.1], mergeLines_anchored h.2⟩

theorem Shows.outer {margin inner : List Span} {bs : List Block} {ps : List Part}
    (h : Shows (margin ++ inner) bs ps) : Shows margin bs ps :=
  ⟨h.1, fun b hb => (h.2 b hb).outer⟩

theorem Shows.item {margin : List Span} (hmargin : Silent margin) {marker : Bytes}
    {bs : List Block} {ps : List Part} (h : Shows (itemMargin measure margin marker) bs ps) :
    Shows margin (overlayMarker margin.length (markerSpan marker) bs)
      (markFirst (shown [markerSpan marker]) ps) := by
  obtain ⟨hparts, hanchored⟩ := overlayMarker_parts (markerSpan marker) hmargin
    (shown_spaces (measure marker)) h.2
  exact ⟨by rw [hparts, h.1], hanchored⟩

theorem wrapRuns_shows (hspace : measure [space] = 1) {margin runs : List Span}
    (hmargin : Silent margin) (htext : IsText runs) :
    Shows margin (wrapRuns measure width margin runs) [.text (shown runs)] := by
  refine ⟨?_, List.forall_mem_singleton.mpr ?_⟩
  · exact congrArg (fun gs => [Part.text gs]) (wrapWords_shown hspace hmargin htext)
  · obtain ⟨lines, _, hout⟩ := wrapWords_laid hspace width margin runs
    rw [Anchored, hout]
    split
    · exact ⟨[], [], rfl⟩
    · rename_i hne
      obtain ⟨line, more, rfl⟩ := List.exists_cons_of_ne_nil hne
      exact ⟨laid line, _, rfl⟩

theorem breakLine_shows (margin : List Span) :
    Shows margin [.lines [breakLine measure width margin]]
      [.text (shown (breakLine measure width margin))] := by
  refine ⟨?_, List.forall_mem_singleton.mpr ⟨_, [], rfl⟩⟩
  show [Part.text ([_].flatMap shown)] = _
  rw [List.flatMap_singleton]

mutual
theorem renderBlock_shows (hspace : measure [space] = 1) {margin : List Span}
    (hmargin : Silent margin) : (doc : Doc) → doc.Headed →
      Shows margin (renderBlock measure width margin doc) (outline measure width margin doc)
  | .blocks all, h => by
    rw [renderBlock, outline]
    exact renderBlocks_shows hspace hmargin all h
  | .paragraph inline, _ => by
    rw [renderBlock, outline]
    exact wrapRuns_shows hspace hmargin (inlineRuns_isText Role.noConfusion _ inline)
  | .heading level inline, _ => by
    rw [renderBlock, outline]
    exact wrapRuns_shows hspace hmargin (inlineRuns_isText Role.noConfusion _ inline)
  | .blockQuote block, h => by
    rw [renderBlock, outline]
    exact (renderBlock_shows hspace hmargin.quote block h).outer
  | .codeBlock info code, _ => by
    rw [renderBlock, outline]
    exact ⟨rfl, List.forall_mem_singleton.mpr trivial⟩
  | .list start items, h => by
    rw [renderBlock, outline]
    exact (renderItems_shows hspace hmargin start 0 items h).merge
  | .extTable tbl, h => by
    rw [renderBlock, outline]
    exact ⟨rfl, renderTable_anchored hspace width margin h⟩
  | .thematicBreak, _ => by
    rw [renderBlock, outline]
    exact breakLine_shows margin
  | .other, _ => by
    rw [renderBlock, outline]
    exact shows_nil margin

theorem renderBlocks_shows (hspace : measure [space] = 1) {margin : List Span}
    (hmargin : Silent margin) : (all : List Doc) → Doc.AllHeaded all →
      Shows margin (renderBlocks measure width margin all) (outlines measure width margin all)
  | [], _ => by
    rw [renderBlocks, outlines]
    exact shows_nil margin
  | block :: all, h => by
    rw [renderBlocks, outlines]
    exact (renderBlock_shows hspace hmargin block h.1).append
      (renderBlocks_shows hspace hmargin all h.2)

theorem renderItems_shows (hspace : measure [space] = 1) {margin : List Span}
    (hmargin : Silent margin) (start : Option Int) (i : Nat) : (items : List Doc) →
      Doc.AllHeaded items →
      Shows margin (renderItems measure width margin start i items)
        (itemOutlines measure width margin start i items)
  | [], _ => by
    rw [renderItems, itemOutlines]
    exact shows_nil margin
  | item :: items, h => by
    rw [renderItems, itemOutlines]
    exact ((renderBlock_shows hspace (hmargin.item measure _) item h.1).item hmargin).append
      (renderItems_shows hspace hmargin start (i + 1) items h.2)
end

end

/-- A numbered list with code and a list in it, a quote and a table. -/
def notes : Doc :=
  .blocks [.heading 1 (.text (bytes "Plan")),
    .list (some 3) [
      .blocks [.paragraph (.text (bytes "read it")), .codeBlock none [bytes "x <- 1"]],
      .list none [.paragraph (.text (bytes "twice")), .thematicBreak]],
    .blockQuote (.paragraph (.text (bytes "done"))),
    .extTable (settings "width" "10")]

theorem notes_headed : notes.Headed := by
  refine ⟨trivial, ⟨⟨trivial, trivial, trivial⟩, ⟨trivial, trivial, trivial⟩, trivial⟩, trivial,
    fun row hrow => ?_, trivial⟩
  cases hrow
  exact ⟨_, List.mem_cons_self, _, rfl, 107, by decide, rfl⟩

end MdLayout
end Raoui
