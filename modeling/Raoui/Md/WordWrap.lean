import Raoui.Lib.WordWrap
import Raoui.Md.Layout

/-!
# Raoui.Md.WordWrap

Wrapped runs are the wrapped text, whatever way the text is cut into runs.

* `wordsOfRuns_glyphs`: the words of the runs are the words of the text, in the styles of the runs.
* `wrapWords_eq`: the lines are those of the greedy layout.
* `wrapWords_text`: both together.
-/

namespace Raoui
namespace MdLayout

open WordWrap (IsWrap words wrap fill)

/-- The measure of a text is that of its parts together, and a space takes a column. -/
structure Additive (measure : Bytes → Int) : Prop where
  append : ∀ s t, measure (s ++ t) = measure s + measure t
  space : measure [space] = 1

/-! ## The text of spans -/

def plainText (spans : List Span) : Bytes := spans.flatMap fun s => s.2

/-- A byte in a style. -/
abbrev Glyph := Style × UInt8

def glyphs (spans : List Span) : List Glyph := spans.flatMap fun s => s.2.map fun c => (s.1, c)

def Glyph.isSpace (g : Glyph) : Bool := g.2 = MdLayout.space

def isSpace (c : UInt8) : Bool := c = space

@[simp] theorem glyphs_nil : glyphs [] = [] := rfl

@[simp] theorem glyphs_cons (s : Span) (spans : List Span) :
    glyphs (s :: spans) = (s.2.map fun c => (s.1, c)) ++ glyphs spans := rfl

@[simp] theorem glyphs_append (s t : List Span) : glyphs (s ++ t) = glyphs s ++ glyphs t :=
  List.flatMap_append

@[simp] theorem plainText_append (s t : List Span) : plainText (s ++ t) = plainText s ++ plainText t :=
  List.flatMap_append

@[simp] theorem plainText_cons (s : Span) (spans : List Span) :
    plainText (s :: spans) = s.2 ++ plainText spans := rfl

theorem glyphs_map_snd (spans : List Span) : (glyphs spans).map Prod.snd = plainText spans := by
  induction spans with
  | nil => rfl
  | cons s spans ih =>
    rw [glyphs_cons, List.map_append, ih, List.map_map, plainText_cons]
    congr 1
    exact List.map_id _

variable {measure : Bytes → Int}

theorem Additive.nil (h : Additive measure) : measure [] = 0 := by
  have := h.append [] []
  rw [List.append_nil] at this
  omega

theorem widthOfSpans_cons (s : Span) (spans : List Span) :
    widthOfSpans measure (s :: spans) = measure s.2 + widthOfSpans measure spans := by
  have hfold (acc : Int) : spans.foldl (fun acc s => acc + measure s.2) acc =
      acc + widthOfSpans measure spans := by
    unfold widthOfSpans
    induction spans generalizing acc with
    | nil => exact (Int.add_zero acc).symm
    | cons s spans ih =>
      rw [List.foldl_cons, List.foldl_cons, ih, ih (0 + measure s.2)]
      omega
  rw [widthOfSpans, List.foldl_cons, hfold, Int.zero_add]

@[simp] theorem widthOfSpans_nil : widthOfSpans measure [] = 0 := rfl

theorem widthOfSpans_append (s t : List Span) :
    widthOfSpans measure (s ++ t) = widthOfSpans measure s + widthOfSpans measure t := by
  induction s with
  | nil => rw [List.nil_append, widthOfSpans_nil, Int.zero_add]
  | cons a s ih =>
    rw [List.cons_append, widthOfSpans_cons, widthOfSpans_cons, ih]
    omega

theorem Additive.widthOfSpans_eq (h : Additive measure) (spans : List Span) :
    widthOfSpans measure spans = measure (plainText spans) := by
  induction spans with
  | nil => exact h.nil.symm
  | cons s spans ih => rw [widthOfSpans_cons, ih, plainText_cons, h.append]

/-! ## Words -/

/-- The parts of a text with the separators between them. -/
theorem splitOnChar_eq_cons (sep : UInt8) (s : Bytes) : ∃ part rest,
    splitOnChar sep s = part :: rest ∧ s = part ++ rest.flatMap fun t => sep :: t := by
  obtain ⟨part, rest, h⟩ := List.exists_cons_of_ne_nil (splitOnChar_ne_nil sep s)
  refine ⟨part, rest, h, ?_⟩
  have hconcat (part : Bytes) (rest : List Bytes) :
      concatWith [sep] (part :: rest) = part ++ rest.flatMap fun t => sep :: t := by
    induction rest generalizing part with
    | nil => rw [List.flatMap_nil, List.append_nil, concatWith]
    | cons t rest ih =>
      rw [concatWith, ih, List.flatMap_cons, List.append_assoc, List.singleton_append,
        List.cons_append]
      exact List.cons_ne_nil _ _
  rw [← hconcat, ← h, concatWith_splitOnChar]

/-- The glyphs `x` are collected: the words closed so far, and the one begun. -/
structure Collects (measure : Bytes → Int) (x : List Glyph) (c : Collected) : Prop where
  closed : ∀ y, words Glyph.isSpace (x ++ y) = c.words.reverse.map (fun w => glyphs w.pieces) ++
    words Glyph.isSpace (glyphs c.cur.reverse ++ y)
  begun : ∀ g ∈ glyphs c.cur.reverse, g.isSpace = false
  begun_ne : c.cur ≠ [] → glyphs c.cur.reverse ≠ []
  widths : ∀ w ∈ c.words, w.width = widthOfSpans measure w.pieces
  width : c.curW = widthOfSpans measure c.cur.reverse

theorem collects_nil : Collects measure [] ⟨[], [], 0⟩ :=
  ⟨fun _ => rfl, List.forall_mem_nil _, fun h => absurd rfl h, List.forall_mem_nil _, rfl⟩

/-- The words collected when the one begun is closed. -/
theorem Collects.flush_words {x : List Glyph} {c : Collected} (h : Collects measure x c) :
    c.flush.words.reverse.map (fun w => glyphs w.pieces) = words Glyph.isSpace x := by
  have hx := h.closed []
  rw [List.append_nil, List.append_nil, WordWrap.words_of_forall h.begun] at hx
  rw [hx, Collected.flush]
  dsimp only
  split
  · rename_i hcur
    rw [hcur, List.reverse_nil, glyphs_nil, if_pos rfl, List.append_nil]
  · rename_i hcur
    rw [if_neg (h.begun_ne hcur), List.reverse_cons, List.map_append]
    rfl

theorem Collects.flush_widths {x : List Glyph} {c : Collected} (h : Collects measure x c) :
    ∀ w ∈ c.flush.words, w.width = widthOfSpans measure w.pieces := by
  unfold Collected.flush
  dsimp only
  split
  · exact h.widths
  · exact List.forall_mem_cons.mpr ⟨h.width, h.widths⟩

theorem Collects.flush {x : List Glyph} {c : Collected} (h : Collects measure x c) {g : Glyph}
    (hg : g.isSpace = true) : Collects measure (x ++ [g]) c.flush := by
  refine ⟨fun y => ?_, List.forall_mem_nil _, fun h => absurd rfl h, h.flush_widths, rfl⟩
  rw [h.flush_words, List.append_assoc, List.singleton_append, WordWrap.words_append_cons _ _ hg]
  rfl

theorem Collects.part {x : List Glyph} {c : Collected} (h : Collects measure x c) (style : Style)
    {part : Bytes} (hpart : space ∉ part) :
    Collects measure (x ++ part.map fun b => (style, b)) (c.part measure style 0 part) := by
  unfold Collected.part
  rw [if_neg (Nat.lt_irrefl 0)]
  dsimp only
  split
  · rename_i hnil
    rw [hnil, List.map_nil, List.append_nil]
    exact h
  · rename_i hne
    have hcur : glyphs ((style, part) :: c.cur).reverse =
        glyphs c.cur.reverse ++ part.map fun b => (style, b) := by
      rw [List.reverse_cons, glyphs_append, glyphs_cons, glyphs_nil, List.append_nil]
    refine ⟨fun y => ?_, ?_, fun _ => ?_, h.widths, ?_⟩
    · rw [hcur, List.append_assoc, h.closed, List.append_assoc]
    · rw [hcur]
      refine List.forall_mem_append.mpr ⟨h.begun, List.forall_mem_map.mpr fun b hb => ?_⟩
      exact decide_eq_false fun heq => hpart (heq ▸ hb)
    · rw [hcur]
      exact List.append_ne_nil_of_right_ne_nil _ (mt List.map_eq_nil_iff.mp hne)
    · show c.curW + measure part = _
      rw [List.reverse_cons, widthOfSpans_append, widthOfSpans_cons, widthOfSpans_nil, Int.add_zero,
        h.width]

theorem Collects.run {x : List Glyph} {c : Collected} (h : Collects measure x c) (run : Span) :
    Collects measure (x ++ glyphs [run]) (c.run measure run) := by
  obtain ⟨part, rest, hsplit, htext⟩ := splitOnChar_eq_cons space run.2
  have hparts : ∀ t ∈ part :: rest, space ∉ t := by
    rw [← hsplit]
    exact fun t ht => notMem_of_mem_splitOnChar ht
  have hrest (rest : List Bytes) : ∀ (i : Nat) (x : List Glyph) (c : Collected), 0 < i →
      Collects measure x c → (∀ part ∈ rest, space ∉ part) →
      Collects measure (x ++ (rest.flatMap fun t => space :: t).map fun b => (run.1, b))
        ((rest.zipIdx i).foldl (fun c part => c.part measure run.1 part.2 part.1) c) := by
    induction rest with
    | nil =>
      intro i x c hi hc hp
      rw [List.flatMap_nil, List.map_nil, List.append_nil]
      exact hc
    | cons t rest ih =>
      intro i x c hi hc hp
      have hflush : c.part measure run.1 i t = c.flush.part measure run.1 0 t := by
        unfold Collected.part
        rw [if_pos hi, if_neg (Nat.lt_irrefl 0)]
      have hspace : Glyph.isSpace (run.1, space) = true := decide_eq_true rfl
      have hpart := (hc.flush hspace).part run.1 (hp t List.mem_cons_self)
      have := ih (i + 1) _ _ (Nat.succ_pos i) hpart fun u hu => hp u (List.mem_cons_of_mem _ hu)
      rw [List.zipIdx_cons, List.foldl_cons, hflush]
      convert this using 1
      simp
  have hfirst := h.part run.1 (hparts part List.mem_cons_self)
  have hrun := hrest rest 1 _ _ Nat.one_pos hfirst fun t ht => hparts t (List.mem_cons_of_mem _ ht)
  rw [Collected.run, hsplit, List.zipIdx_cons, List.foldl_cons, glyphs_cons, glyphs_nil,
    List.append_nil, htext, List.map_append, ← List.append_assoc]
  exact hrun

theorem collects_runs (runs : List Span) :
    Collects measure (glyphs runs) (runs.foldl (Collected.run measure) ⟨[], [], 0⟩) := by
  have hall (runs : List Span) : ∀ (x : List Glyph) (c : Collected), Collects measure x c →
      Collects measure (x ++ glyphs runs) (runs.foldl (Collected.run measure) c) := by
    induction runs with
    | nil =>
      intro x c hc
      rw [glyphs_nil, List.append_nil]
      exact hc
    | cons run runs ih =>
      intro x c hc
      have := ih _ _ (hc.run run)
      rwa [List.append_assoc, ← glyphs_append, List.singleton_append] at this
  exact hall runs [] _ collects_nil

theorem wordsOfRuns_glyphs (measure : Bytes → Int) (runs : List Span) :
    (wordsOfRuns measure runs).map (fun w => glyphs w.pieces) = words Glyph.isSpace (glyphs runs) :=
  (collects_runs runs).flush_words

/-- A word is not empty, and its width is that of its pieces. -/
structure Word.Measured (measure : Bytes → Int) (w : Word) : Prop where
  pieces_ne : w.pieces ≠ []
  width : w.width = widthOfSpans measure w.pieces

theorem wordsOfRuns_measured (runs : List Span) :
    ∀ w ∈ wordsOfRuns measure runs, w.Measured measure := by
  intro w hw
  refine ⟨fun hnil => ?_, (collects_runs runs).flush_widths w (List.mem_reverse.mp hw)⟩
  have hmem : glyphs w.pieces ∈ words Glyph.isSpace (glyphs runs) := by
    rw [← wordsOfRuns_glyphs measure runs]
    exact List.mem_map_of_mem hw
  exact (WordWrap.mem_words hmem).1 (by rw [hnil]; rfl)

/-! ## Lines -/

/-- The words on a line, single spaces between them. -/
def laid : List Word → List Span
  | [] => []
  | [w] => w.pieces
  | w :: ws => w.pieces ++ plain [space] :: laid ws

theorem laid_append_singleton {line : List Word} (hline : line ≠ []) (w : Word) :
    laid (line ++ [w]) = laid line ++ plain [space] :: w.pieces := by
  induction line with
  | nil => exact absurd rfl hline
  | cons v line ih =>
    cases line with
    | nil => rfl
    | cons u line =>
      show v.pieces ++ plain [space] :: laid (u :: line ++ [w]) = _
      rw [ih (List.cons_ne_nil _ _), ← List.cons_append, ← List.append_assoc]
      rfl

theorem laid_ne_nil {line : List Word} (hline : line ≠ [])
    (hmeasured : ∀ w ∈ line, w.Measured measure) : laid line ≠ [] := by
  cases line with
  | nil => exact absurd rfl hline
  | cons w line =>
    have hw := (hmeasured w List.mem_cons_self).pieces_ne
    cases line with
    | nil => exact hw
    | cons u line => exact List.append_ne_nil_of_left_ne_nil hw _

section
variable (measure) (width : Int) (firstPrefix contPrefix : List Span)

def Fits (k : Nat) (line : List Word) : Prop :=
  widthOfSpans measure (laid line) ≤ avail measure width firstPrefix contPrefix k

instance (k : Nat) (line : List Word) : Decidable (Fits measure width firstPrefix contPrefix k line) :=
  inferInstanceAs (Decidable (_ ≤ _))

/-- The line begun holds the words of `line`. -/
structure Wrapped.Begun (line : List Word) (s : Wrapped) : Prop where
  line_ne : line ≠ []
  measured : ∀ w ∈ line, w.Measured measure
  cur : s.cur.reverse = laid line
  curW : s.curW = widthOfSpans measure (laid line)

/-- The lines that are given back in the end. -/
def Wrapped.finish (s : Wrapped) : List Line :=
  (if s.cur ≠ [] ∨ s.lineIdx = 0 then s.flush firstPrefix contPrefix else s).lines.reverse

theorem wrapWords_eq_finish (ws : List Word) :
    wrapWords measure width firstPrefix contPrefix ws = (ws.foldl
      (Wrapped.word measure width firstPrefix contPrefix) ⟨[], [], 0, 0⟩).finish
        firstPrefix contPrefix := rfl

end

variable {width : Int} {firstPrefix contPrefix : List Span}

theorem foldl_push (pieces cur : List Span) :
    pieces.foldl (fun cur p => p :: cur) cur = pieces.reverse ++ cur := by
  induction pieces generalizing cur with
  | nil => rfl
  | cons p pieces ih => rw [List.foldl_cons, ih, List.reverse_cons, List.append_assoc]; rfl

theorem Wrapped.Begun.cur_ne {line : List Word} {s : Wrapped} (h : s.Begun measure line) :
    s.cur ≠ [] := by
  intro hnil
  have := h.cur
  rw [hnil] at this
  exact laid_ne_nil h.line_ne h.measured this.symm

/-- A word behind what is on the line. -/
def Wrapped.put (s : Wrapped) (w : Word) : Wrapped :=
  let s := if s.cur ≠ [] then { s with cur := plain [space] :: s.cur, curW := s.curW + 1 } else s
  { s with
    cur := w.pieces.foldl (fun cur p => p :: cur) s.cur
    curW := s.curW + w.width }

theorem Wrapped.word_eq (s : Wrapped) (w : Word) :
    s.word measure width firstPrefix contPrefix w =
      (if s.cur ≠ [] ∧ s.curW + (if s.cur ≠ [] then 1 else 0) + w.width >
          avail measure width firstPrefix contPrefix s.lineIdx
        then s.flush firstPrefix contPrefix else s).put w := rfl

theorem Wrapped.put_begins {s : Wrapped} (hcur : s.cur = []) (hcurW : s.curW = 0) {w : Word}
    (hw : w.Measured measure) : (s.put w).Begun measure [w] ∧ (s.put w).lines = s.lines ∧
      (s.put w).lineIdx = s.lineIdx := by
  unfold Wrapped.put
  rw [if_neg (not_not.mpr hcur)]
  refine ⟨⟨List.cons_ne_nil _ _, List.forall_mem_singleton.mpr hw, ?_, ?_⟩, rfl, rfl⟩
  · show (w.pieces.foldl (fun cur p => p :: cur) s.cur).reverse = w.pieces
    rw [foldl_push, hcur, List.append_nil, List.reverse_reverse]
  · show s.curW + w.width = _
    rw [hcurW, hw.width, Int.zero_add]
    rfl

theorem width_laid_append (hspace : measure [space] = 1) {line : List Word} (hline : line ≠ [])
    {w : Word} (hw : w.Measured measure) :
    widthOfSpans measure (laid (line ++ [w])) = widthOfSpans measure (laid line) + 1 + w.width := by
  rw [laid_append_singleton hline, widthOfSpans_append, widthOfSpans_cons, hw.width,
    show (plain [space]).2 = [space] from rfl, hspace]
  omega

theorem Wrapped.Begun.put {line : List Word} {s : Wrapped} (hspace : measure [space] = 1)
    (h : s.Begun measure line) {w : Word} (hw : w.Measured measure) :
    (s.put w).Begun measure (line ++ [w]) ∧ (s.put w).lines = s.lines ∧
      (s.put w).lineIdx = s.lineIdx := by
  unfold Wrapped.put
  rw [if_pos h.cur_ne]
  refine ⟨⟨List.append_ne_nil_of_right_ne_nil _ (List.cons_ne_nil _ _),
    List.forall_mem_append.mpr ⟨h.measured, List.forall_mem_singleton.mpr hw⟩, ?_, ?_⟩, rfl, rfl⟩
  · show (w.pieces.foldl (fun cur p => p :: cur) (plain [space] :: s.cur)).reverse = _
    rw [foldl_push, List.reverse_append, List.reverse_reverse, List.reverse_cons, h.cur,
      laid_append_singleton h.line_ne, List.append_assoc, List.singleton_append]
  · show s.curW + 1 + w.width = _
    rw [width_laid_append hspace h.line_ne hw, h.curW]

/-- A word that does not fit closes the line and begins the next one. -/
theorem Wrapped.Begun.word {line : List Word} {s : Wrapped} (hspace : measure [space] = 1)
    (h : s.Begun measure line) {w : Word} (hw : w.Measured measure) :
    s.word measure width firstPrefix contPrefix w =
      if Fits measure width firstPrefix contPrefix s.lineIdx (line ++ [w]) then s.put w
      else (s.flush firstPrefix contPrefix).put w := by
  have hfits : Fits measure width firstPrefix contPrefix s.lineIdx (line ++ [w]) ↔
      ¬ (s.cur ≠ [] ∧ s.curW + (if s.cur ≠ [] then 1 else 0) + w.width >
        avail measure width firstPrefix contPrefix s.lineIdx) := by
    rw [Fits, width_laid_append hspace h.line_ne hw, if_pos h.cur_ne, h.curW]
    have := h.cur_ne
    simp only [ne_eq, this, not_false_eq_true, true_and]
    omega
  rw [Wrapped.word_eq]
  by_cases hw : Fits measure width firstPrefix contPrefix s.lineIdx (line ++ [w])
  · rw [if_pos hw, if_neg (hfits.mp hw)]
  · rw [if_neg hw, if_pos (not_not.mp (mt hfits.mpr hw))]

theorem Wrapped.Begun.foldl_word {line : List Word} {s : Wrapped} (hspace : measure [space] = 1)
    (h : s.Begun measure line) {ws : List Word} (hws : ∀ w ∈ ws, w.Measured measure) :
    (ws.foldl (Wrapped.word measure width firstPrefix contPrefix) s).finish firstPrefix contPrefix =
      s.lines.reverse ++ (fill (Fits measure width firstPrefix contPrefix) s.lineIdx line ws).mapIdx
        fun i l => prefixOf firstPrefix contPrefix (s.lineIdx + i) ++ laid l := by
  induction ws generalizing line s with
  | nil =>
    rw [List.foldl_nil, Wrapped.finish, if_pos (.inl h.cur_ne), Wrapped.flush, List.reverse_cons,
      h.cur, fill]
    rfl
  | cons w ws ih =>
    have hw := hws w List.mem_cons_self
    have hrest := fun v hv => hws v (List.mem_cons_of_mem w hv)
    rw [List.foldl_cons, h.word hspace hw, fill]
    split
    · obtain ⟨hput, hlines, hidx⟩ := h.put hspace hw
      rw [ih hput hrest, hlines, hidx]
    · obtain ⟨hput, hlines, hidx⟩ :=
        Wrapped.put_begins (s := s.flush firstPrefix contPrefix) rfl rfl hw
      have hidx' (i : Nat) : s.lineIdx + 1 + i = s.lineIdx + (i + 1) := by omega
      rw [ih hput hrest, hlines, hidx, List.mapIdx_cons, Wrapped.flush]
      simp only [List.reverse_cons, h.cur, hidx', List.append_assoc, List.singleton_append,
        Nat.add_zero]

/-- The lines are those of the greedy layout; without words there is one line all the same. -/
theorem wrapWords_eq (hspace : measure [space] = 1) {ws : List Word}
    (hws : ∀ w ∈ ws, w.Measured measure) :
    wrapWords measure width firstPrefix contPrefix ws =
      if ws = [] then [firstPrefix]
      else (wrap (Fits measure width firstPrefix contPrefix) 0 ws).mapIdx
        fun i line => prefixOf firstPrefix contPrefix i ++ laid line := by
  rw [wrapWords_eq_finish]
  cases ws with
  | nil =>
    rw [if_pos rfl, List.foldl_nil, Wrapped.finish, if_pos (.inr rfl), Wrapped.flush]
    show [firstPrefix ++ []] = _
    rw [List.append_nil]
  | cons w ws =>
    have hw := hws w List.mem_cons_self
    obtain ⟨hput, hlines, hidx⟩ := Wrapped.put_begins (s := ⟨[], [], 0, 0⟩) rfl rfl hw
    have hword : Wrapped.word measure width firstPrefix contPrefix ⟨[], [], 0, 0⟩ w =
        (⟨[], [], 0, 0⟩ : Wrapped).put w := by
      rw [Wrapped.word_eq, if_neg fun h => absurd rfl h.1]
    rw [if_neg (List.cons_ne_nil _ _), List.foldl_cons, hword,
      hput.foldl_word hspace fun v hv => hws v (List.mem_cons_of_mem w hv), hlines, hidx]
    simp only [List.reverse_nil, List.nil_append, Nat.zero_add]
    rfl

/-! ## The text -/

/-- Words with single spaces between them. -/
def joined (ws : List Bytes) : Bytes := concatWith [space] ws

def Word.text (w : Word) : Bytes := plainText w.pieces

theorem plainText_laid (line : List Word) : plainText (laid line) = joined (line.map Word.text) := by
  induction line with
  | nil => rfl
  | cons w line ih =>
    cases line with
    | nil => rfl
    | cons v line =>
      show plainText (w.pieces ++ plain [space] :: laid (v :: line)) = _
      rw [plainText_append, plainText_cons, ih, ← List.append_assoc]
      rfl

/-- The bytes of a line that are not spaces are those of its words. -/
theorem filter_glyphs_laid (line : List Word) :
    (glyphs (laid line)).filter (fun g => !g.isSpace) =
      (line.flatMap fun w => glyphs w.pieces).filter fun g => !g.isSpace := by
  induction line with
  | nil => rfl
  | cons w line ih =>
    cases line with
    | nil =>
      rw [List.flatMap_cons, List.flatMap_nil, List.append_nil]
      rfl
    | cons v line =>
      show (glyphs (w.pieces ++ plain [space] :: laid (v :: line))).filter _ =
        (glyphs w.pieces ++ (v :: line).flatMap fun w => glyphs w.pieces).filter _
      rw [glyphs_append, glyphs_cons, List.filter_append, List.filter_append, ih, List.filter_append]
      rfl

theorem filter_glyphs_lines (lines : List (List Word)) :
    ((lines.map laid).flatMap glyphs).filter (fun g => !g.isSpace) =
      (lines.flatten.flatMap fun w => glyphs w.pieces).filter fun g => !g.isSpace := by
  induction lines with
  | nil => rfl
  | cons line lines ih =>
    rw [List.map_cons, List.flatMap_cons, List.filter_append, ih, filter_glyphs_laid,
      List.flatten_cons, List.flatMap_append, List.filter_append]

theorem wordsOfRuns_text (measure : Bytes → Int) (runs : List Span) :
    (wordsOfRuns measure runs).map Word.text = words isSpace (plainText runs) := by
  have hmap := WordWrap.words_map (p := Glyph.isSpace) (q := isSpace) Prod.snd (fun g => rfl)
    (glyphs runs)
  rw [glyphs_map_snd, ← wordsOfRuns_glyphs measure, List.map_map] at hmap
  rw [hmap]
  exact List.map_congr_left fun w _ => (glyphs_map_snd w.pieces).symm

/-- What fits on line `k`, by the text. -/
def TextFits (measure : Bytes → Int) (width : Int) (firstPrefix contPrefix : List Span) (k : Nat)
    (line : List Bytes) : Prop :=
  measure (joined line) ≤ width - measure (plainText (prefixOf firstPrefix contPrefix k))

theorem textFits_iff (hm : Additive measure) (k : Nat) (line : List Word) :
    TextFits measure width firstPrefix contPrefix k (line.map Word.text) ↔
      Fits measure width firstPrefix contPrefix k line := by
  have havail : avail measure width firstPrefix contPrefix k =
      width - measure (plainText (prefixOf firstPrefix contPrefix k)) := by
    unfold avail prefixOf
    split
    · rw [hm.widthOfSpans_eq]
    · rw [hm.widthOfSpans_eq]
  rw [TextFits, Fits, hm.widthOfSpans_eq, plainText_laid, havail]

/-- The lines of wrapped runs, behind their prefixes. -/
theorem wrapWords_bodies (hm : Additive measure) (width : Int)
    (firstPrefix contPrefix runs : List Span) :
    ∃ (lines : List (List Bytes)) (bodies : List Line),
      IsWrap (TextFits measure width firstPrefix contPrefix) 0 (words isSpace (plainText runs)) lines ∧
      wrapWords measure width firstPrefix contPrefix (wordsOfRuns measure runs) =
        bodies.mapIdx (fun k body => prefixOf firstPrefix contPrefix k ++ body) ∧
      bodies.map plainText = (if lines = [] then [[]] else lines.map joined) ∧
      (bodies.flatMap glyphs).filter (fun g => !g.isSpace) =
        (glyphs runs).filter (fun g => !g.isSpace) := by
  have hwords := wordsOfRuns_text measure runs
  have hglyphs := wordsOfRuns_glyphs measure runs
  have hout : wrapWords measure width firstPrefix contPrefix (wordsOfRuns measure runs) = _ :=
    wrapWords_eq hm.space (wordsOfRuns_measured runs)
  generalize wordsOfRuns measure runs = ws at hwords hglyphs hout
  have hwrap : IsWrap (Fits measure width firstPrefix contPrefix) 0 ws _ := WordWrap.wrap_isWrap 0 ws
  generalize wrap (Fits measure width firstPrefix contPrefix) 0 ws = lines at hwrap hout
  have htext := hwrap.map Word.text (textFits_iff hm)
  rw [hwords] at htext
  split at hout
  · rename_i hnil
    subst hnil
    have hlines : lines = [] := by
      refine List.eq_nil_iff_forall_not_mem.mpr fun line hline => ?_
      have hflat := List.flatten_eq_nil_iff.mp hwrap.flatten line hline
      exact hwrap.line_ne line hline hflat
    rw [hlines] at htext
    refine ⟨[], [[]], htext, ?_, rfl, ?_⟩
    · rw [hout]
      show _ = [firstPrefix ++ []]
      rw [List.append_nil]
    · rw [← WordWrap.flatten_words (p := Glyph.isSpace) (glyphs runs), ← hglyphs]
      rfl
  · rename_i hne
    have hlines : lines ≠ [] := fun hnil => hne (by rw [← hwrap.flatten, hnil]; rfl)
    refine ⟨_, lines.map laid, htext, ?_, ?_, ?_⟩
    · rw [hout]
      refine List.mapIdx_eq_iff.mpr fun i => ?_
      rw [List.getElem?_mapIdx, List.getElem?_map, Option.map_map]
      rfl
    · rw [if_neg (mt List.map_eq_nil_iff.mp hlines), List.map_map, List.map_map]
      exact List.map_congr_left fun line _ => plainText_laid line
    · rw [filter_glyphs_lines, hwrap.flatten, List.flatMap_def, hglyphs, WordWrap.flatten_words,
        List.filter_filter]
      simp only [Bool.and_self]

/-- Wrapped runs are the text of the runs laid out word by word, whatever way it is cut into runs,
and every byte of a word keeps the style of its run. -/
theorem wrapWords_text (hm : Additive measure) (width : Int) (firstPrefix contPrefix runs : List Span) :
    (∃ (lines : List (List Bytes)) (bodies : List Line),
      IsWrap (TextFits measure width firstPrefix contPrefix) 0 (words isSpace (plainText runs)) lines ∧
      wrapWords measure width firstPrefix contPrefix (wordsOfRuns measure runs) =
        bodies.mapIdx (fun k body => prefixOf firstPrefix contPrefix k ++ body) ∧
      bodies.map plainText = (if lines = [] then [[]] else lines.map joined) ∧
      (bodies.flatMap glyphs).filter (fun g => !g.isSpace) =
        (glyphs runs).filter (fun g => !g.isSpace)) ∧
    ∀ runs', plainText runs' = plainText runs →
      (wrapWords measure width firstPrefix contPrefix (wordsOfRuns measure runs')).map plainText =
        (wrapWords measure width firstPrefix contPrefix (wordsOfRuns measure runs)).map plainText := by
  obtain ⟨lines, bodies, hwrap, hout, htext, hstyle⟩ :=
    wrapWords_bodies hm width firstPrefix contPrefix runs
  refine ⟨⟨lines, bodies, hwrap, hout, htext, hstyle⟩, fun runs' hruns => ?_⟩
  obtain ⟨lines', bodies', hwrap', hout', htext', -⟩ :=
    wrapWords_bodies hm width firstPrefix contPrefix runs'
  rw [hruns] at hwrap'
  obtain rfl := hwrap'.unique hwrap
  have hplain (bodies : List Line) :
      (bodies.mapIdx fun k body => prefixOf firstPrefix contPrefix k ++ body).map plainText =
        (bodies.map plainText).mapIdx fun k text =>
          plainText (prefixOf firstPrefix contPrefix k) ++ text := by
    refine List.ext_getElem? fun i => ?_
    simp only [List.getElem?_map, List.getElem?_mapIdx, Option.map_map]
    exact congrArg (Option.map · bodies[i]?) (funext fun body => plainText_append _ _)
  rw [hout, hout', hplain, hplain, htext, htext']

/-- The number of bytes as the measure. -/
def byteWidth (s : Bytes) : Int := s.length

/-- A word that changes its style in the middle. -/
def halfBold : List Span := [(⟨.body, { noEmphasis with bold := true }⟩, bytes "a"), plain (bytes "b c")]

theorem wrapWords_text_halfBold :
    (∃ (lines : List (List Bytes)) (bodies : List Line),
      IsWrap (TextFits byteWidth 3 [] []) 0 (words isSpace (bytes "ab c")) lines ∧
      wrapWords byteWidth 3 [] [] (wordsOfRuns byteWidth halfBold) =
        bodies.mapIdx (fun k body => prefixOf [] [] k ++ body) ∧
      bodies.map plainText = (if lines = [] then [[]] else lines.map joined) ∧
      (bodies.flatMap glyphs).filter (fun g => !g.isSpace) =
        (glyphs halfBold).filter (fun g => !g.isSpace)) ∧
    (wrapWords byteWidth 3 [] [] (wordsOfRuns byteWidth [plain (bytes "ab c")])).map plainText =
      (wrapWords byteWidth 3 [] [] (wordsOfRuns byteWidth halfBold)).map plainText := by
  have hm : Additive byteWidth :=
    ⟨fun s t => by rw [byteWidth, List.length_append, Int.natCast_add]; rfl, rfl⟩
  obtain ⟨hwrapped, hcut⟩ := wrapWords_text hm 3 [] [] halfBold
  exact ⟨hwrapped, hcut [plain (bytes "ab c")] rfl⟩

end MdLayout
end Raoui
