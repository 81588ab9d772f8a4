import Mathlib.Algebra.Ring.Int.Defs
import Raoui.Md.WordWrap

/-!
# Raoui.Md.Table

`render_table` of `lib/md_layout.ml`. The parsed table is data of the `cmarkit` package: only the
nodes that the source tells apart have a constructor here, and a link comes with its destination.

* `findCap_iff`: the columns are cut down as little as the width allows.
* `rstripLine_text`: only blanks are stripped at the end of a line.
* `cellLines_le_iff`: the lines of a cell stay within its column when its words do.
* `columnsAligned_iff`: when the columns of a table stand under each other.
-/

namespace Raoui
namespace MdLayout

/-! ## Inline walk -/

inductive Inline where
  | text (s : Bytes)
  | emphasis (inline : Inline)
  | strongEmphasis (inline : Inline)
  | codeSpan (code : Bytes)
  | link (dest : Bytes) (text : Inline)
  | image (dest : Bytes) (text : Inline)
  | autolink (dest : Bytes)
  | lineBreak
  | inlines (all : List Inline)
  | extStrikethrough (inline : Inline)
  | other

mutual
def inlineRuns (base : Role) (emph : Emphasis) : Inline → List Span
  | .text s => [(⟨base, emph⟩, s)]
  | .emphasis e => inlineRuns base { emph with italic := true } e
  | .strongEmphasis e => inlineRuns base { emph with bold := true } e
  | .codeSpan code => [(⟨.codeSpan, emph⟩, code)]
  | .link dest text => inlineRuns (.link dest) emph text
  | .image dest text => inlineRuns (.link dest) emph text
  | .autolink dest => [(⟨.link dest, emph⟩, dest)]
  | .lineBreak => [(⟨base, emph⟩, [space])]
  | .inlines all => inlinesRuns base emph all
  | .extStrikethrough e => inlineRuns base { emph with strike := true } e
  | .other => []

def inlinesRuns (base : Role) (emph : Emphasis) : List Inline → List Span
  | [] => []
  | inline :: rest => inlineRuns base emph inline ++ inlinesRuns base emph rest
end

/-! ## Cells and lines -/

/-- `String.trim t = ""` of the span's text. -/
def isBlank (s : Span) : Bool := trim s.2 = []

/-- Without the spaces at the end. -/
def dropSpaces (t : Bytes) : Bytes := (t.reverse.dropWhile fun c => c = space).reverse

def rstripLine (line : Line) : Line :=
  match line.reverse.dropWhile isBlank with
  | [] => []
  | (style, t) :: restRev => ((style, dropSpaces t) :: restRev).reverse

inductive Align where
  | left
  | right
  | center
  deriving DecidableEq, Repr

section
variable (measure : Bytes → Int)

def alignCell (w : Int) (align : Align) (line : List Span) : List Span :=
  let pad := max 0 (w - widthOfSpans measure line)
  if pad = 0 then line
  else
    match align with
    | .left => line ++ [spaces pad]
    | .right => spaces pad :: line
    | .center =>
      let l := pad / 2
      [spaces l] ++ line ++ [spaces (pad - l)]

/-! ## Tables -/

inductive TableRow where
  | sep (seps : List (Option Align))
  | header (cells : List Inline)
  | data (cells : List Inline)

structure Table where
  colCount : Nat
  rows : List TableRow

/-- `cells_to_runs`; cells past the last column are dropped. -/
def cellsToRuns (n : Nat) (bold : Bool) (cells : List Inline) : List (List Span) :=
  (List.range n).map fun i =>
    match cells[i]? with
    | some inl => inlineRuns .body { noEmphasis with bold } inl
    | none => []

/-- The rows in document order, each with whether it is a header. -/
def Table.runRows (tbl : Table) : List (Bool × List (List Span)) :=
  tbl.rows.filterMap fun row =>
    match row with
    | .sep _ => none
    | .header cells => some (true, cellsToRuns tbl.colCount true cells)
    | .data cells => some (false, cellsToRuns tbl.colCount false cells)

def Table.aligns (tbl : Table) : List Align :=
  tbl.rows.foldl (fun aligns row =>
    match row with
    | .sep seps => aligns.mapIdx fun i a =>
      match seps[i]? with
      | some (some a) => a
      | some none => .left
      | none => a
    | _ => aligns) (List.replicate tbl.colCount .left)

/-- The widest cell of each column. -/
def Table.natural (tbl : Table) : List Int :=
  tbl.runRows.foldl (fun natural row =>
    List.zipWith (fun nj runs => max nj (widthOfSpans measure runs)) natural row.2)
    (List.replicate tbl.colCount 0)

def gap : Int := 2

/-- The columns to share among the columns of a table. -/
def availCols (width : Int) (margin : List Span) (n : Nat) : Int :=
  let avail := max 1 (width - widthOfSpans measure margin)
  max 1 (avail - gap * (n - 1))

/-- What the columns take when none is wider than `c`. -/
def cappedSum (natural : List Int) (c : Int) : Int := (natural.map fun nj => min nj c).sum

/-- `find` -/
def findCap (natural : List Int) (avail : Int) : Nat → Int
  | 0 => 1
  | c + 1 =>
    if c + 1 ≤ 1 then 1
    else if cappedSum natural (c + 1 : Nat) ≤ avail then (c + 1 : Nat)
    else findCap natural avail c

def capOf (natural : List Int) (avail : Int) : Int :=
  let maxNatural := natural.foldl max 0
  if natural.sum ≤ avail then maxNatural else findCap natural avail maxNatural.toNat

/-- The column widths chosen for the table. -/
def Table.columnWidths (width : Int) (margin : List Span) (tbl : Table) : List Int :=
  let natural := tbl.natural measure
  let cap := capOf natural (availCols measure width margin tbl.colCount)
  natural.map fun nj => max 1 (min nj cap)

def gapSpan : Span := spaces gap

def joinCols : List Line → Line
  | [] => []
  | [c] => c
  | c :: rest => c ++ [gapSpan] ++ joinCols rest

/-- The wrapped lines of each cell of a row. -/
def cellLines (w : List Int) (row : List (List Span)) : List (List Line) :=
  List.zipWith (fun wj runs => wrapWords measure wj [] [] (wordsOfRuns measure runs)) w row

def rowHeight (wrapped : List (List Line)) : Nat :=
  wrapped.foldl (fun a ls => max a ls.length) 1

/-- The padded cells of visual line `k` of a row. -/
def fields (w : List Int) (aligns : List Align) (wrapped : List (List Line)) (k : Nat) :
    List Line :=
  List.zipWith (fun column ls => alignCell measure column.1 column.2 (ls[k]?.getD []))
    (w.zip aligns) wrapped

def assemble (margin : List Span) (w : List Int) (aligns : List Align) (row : List (List Span)) :
    List Line :=
  let wrapped := cellLines measure w row
  (List.range (rowHeight wrapped)).map fun k =>
    rstripLine (margin ++ joinCols (fields measure w aligns wrapped k))

structure CodeBlock where
  info : Bytes
  code : Bytes
  indent : Int
  deriving DecidableEq, Repr

inductive Block where
  | lines (lines : List Line)
  | code (block : CodeBlock)
  deriving DecidableEq, Repr

/-- The dashes under the header. -/
def ruleLine (margin : List Span) (w : List Int) : Line :=
  margin ++ joinCols (w.map fun wj => [(⟨.marker, noEmphasis⟩, List.replicate wj.toNat 45)])

def renderTable (width : Int) (margin : List Span) (tbl : Table) : List Block :=
  if tbl.colCount = 0 then []
  else
    let w := tbl.columnWidths measure width margin
    let lines (header : Bool) := (tbl.runRows.filter fun row => row.1 = header).flatMap fun row =>
      assemble measure margin w tbl.aligns row.2
    [.lines (lines true ++ [ruleLine margin w] ++ lines false)]

end

/-! ## The column widths -/

theorem cappedSum_mono (natural : List Int) {c d : Int} (h : c ≤ d) :
    cappedSum natural c ≤ cappedSum natural d := by
  unfold cappedSum
  induction natural with
  | nil => exact Int.le_refl 0
  | cons nj natural ih =>
    rw [List.map_cons, List.map_cons, List.sum_cons, List.sum_cons]
    omega

theorem cappedSum_le_sum (natural : List Int) (c : Int) : cappedSum natural c ≤ natural.sum := by
  unfold cappedSum
  induction natural with
  | nil => exact Int.le_refl 0
  | cons nj natural ih =>
    rw [List.map_cons, List.sum_cons, List.sum_cons]
    omega

theorem findCap_iff (natural : List Int) (avail : Int) (c : Nat) {v : Int} (hv : 1 < v) :
    v ≤ findCap natural avail c ↔ v ≤ c ∧ cappedSum natural v ≤ avail := by
  induction c with
  | zero =>
    rw [findCap]
    constructor
    · intro h
      omega
    · rintro ⟨h, -⟩
      omega
  | succ c ih =>
    rw [findCap]
    split
    · constructor
      · intro h
        omega
      · rintro ⟨h, -⟩
        omega
    · split
      · rename_i hfits
        refine ⟨fun h => ⟨h, ?_⟩, And.left⟩
        exact Int.le_trans (cappedSum_mono natural h) hfits
      · rename_i hfits
        rw [ih]
        refine ⟨fun h => ⟨by omega, h.2⟩, fun h => ⟨?_, h.2⟩⟩
        have hne : v ≠ ((c + 1 : Nat) : Int) := fun heq => hfits (heq ▸ h.2)
        omega

theorem le_foldl_max {l : List Int} {a init : Int} (h : a ∈ l ∨ a ≤ init) :
    a ≤ l.foldl max init := by
  induction l generalizing init with
  | nil => exact h.resolve_left List.not_mem_nil
  | cons b l ih =>
    refine ih ?_
    obtain h | h := h
    · obtain rfl | h := List.mem_cons.mp h
      · exact .inr (Int.le_max_right _ _)
      · exact .inl h
    · exact .inr (Int.le_trans h (Int.le_max_left _ _))

/-- What a column leaves room for: one column, or what is no wider than its widest cell and lets all
columns fit when they are cut down to it. -/
theorem le_columnWidth_iff {natural : List Int} {avail nj v : Int} (hj : nj ∈ natural) :
    v ≤ max 1 (min nj (capOf natural avail)) ↔
      v ≤ 1 ∨ (v ≤ nj ∧ cappedSum natural v ≤ avail) := by
  have hmax : nj ≤ natural.foldl max 0 := le_foldl_max (.inl hj)
  by_cases hv : v ≤ 1
  · exact ⟨fun _ => .inl hv, fun _ => by omega⟩
  · have hcap : v ≤ nj → (v ≤ capOf natural avail ↔ cappedSum natural v ≤ avail) := by
      intro hle
      unfold capOf
      dsimp only
      split
      · rename_i hsum
        exact ⟨fun _ => Int.le_trans (cappedSum_le_sum natural v) hsum, fun _ => by omega⟩
      · rw [findCap_iff natural avail _ (by omega)]
        exact ⟨And.right, fun h => ⟨by omega, h⟩⟩
    constructor
    · intro h
      have hle : v ≤ nj := by omega
      exact .inr ⟨hle, (hcap hle).mp (by omega)⟩
    · rintro (h | ⟨hle, hsum⟩)
      · exact absurd h hv
      · have := (hcap hle).mpr hsum
        omega

/-! ## The lines of a cell -/

/-- A measure of display columns: never negative, and a column for each space. -/
structure DisplayWidth (measure : Bytes → Int) : Prop where
  nonneg : ∀ s, 0 ≤ measure s
  spaces : ∀ n : Nat, measure (List.replicate n space) = n

variable {measure : Bytes → Int}

theorem DisplayWidth.space (h : DisplayWidth measure) : measure [MdLayout.space] = 1 := h.spaces 1

theorem DisplayWidth.widthOfSpans_nonneg (h : DisplayWidth measure) (spans : List Span) :
    0 ≤ widthOfSpans measure spans := by
  induction spans with
  | nil => exact Int.le_refl 0
  | cons s spans ih =>
    rw [widthOfSpans_cons]
    have := h.nonneg s.2
    omega

theorem DisplayWidth.width_spaces (h : DisplayWidth measure) {n : Int} (hn : 0 ≤ n) :
    measure (MdLayout.spaces n).2 = n := by
  rw [MdLayout.spaces, plain, h.spaces]
  omega

/-- A line is as wide as each of its words at least. -/
theorem width_le_laid (hm : DisplayWidth measure) {line : List Word}
    (hline : ∀ w ∈ line, w.Measured measure) :
    ∀ w ∈ line, w.width ≤ widthOfSpans measure (laid line) := by
  induction line with
  | nil => exact List.forall_mem_nil _
  | cons v line ih =>
    have hv := hline v List.mem_cons_self
    have hrest := ih fun w hw => hline w (List.mem_cons_of_mem _ hw)
    cases line with
    | nil =>
      refine List.forall_mem_singleton.mpr ?_
      rw [hv.width]
      exact Int.le_refl _
    | cons u line =>
      have hsum : widthOfSpans measure (laid (v :: u :: line)) =
          v.width + 1 + widthOfSpans measure (laid (u :: line)) := by
        show widthOfSpans measure (v.pieces ++ plain [space] :: laid (u :: line)) = _
        rw [widthOfSpans_append, widthOfSpans_cons, hv.width,
          show (plain [MdLayout.space]).2 = [MdLayout.space] from rfl, hm.space]
        omega
      have h0 := hm.widthOfSpans_nonneg (laid (u :: line))
      have hv0 := hm.widthOfSpans_nonneg v.pieces
      rw [← hv.width] at hv0
      rw [hsum]
      refine List.forall_mem_cons.mpr ⟨by omega, fun w hw => ?_⟩
      have := hrest w hw
      omega

theorem cellLines_le_iff (hm : DisplayWidth measure) {w : Int} (hw : 0 ≤ w) (runs : List Span) :
    (∀ line ∈ wrapWords measure w [] [] (wordsOfRuns measure runs), widthOfSpans measure line ≤ w) ↔
      ∀ word ∈ wordsOfRuns measure runs, word.width ≤ w := by
  have hmeasured : ∀ w ∈ wordsOfRuns measure runs, w.Measured measure := wordsOfRuns_measured runs
  rw [wrapWords_eq hm.space hmeasured]
  generalize wordsOfRuns measure runs = ws at hmeasured
  have hwrap : WordWrap.IsWrap (Fits measure w [] []) 0 ws _ := WordWrap.wrap_isWrap 0 ws
  generalize WordWrap.wrap (Fits measure w [] []) 0 ws = lines at hwrap
  have hfirst (k : Nat) : prefixOf [] [] k = [] := ite_self _
  have havail (k : Nat) : avail measure w [] [] k = w := by
    rw [avail, ite_self, widthOfSpans_nil, Int.sub_zero]
  split
  · rename_i hnil
    rw [hnil]
    exact ⟨fun _ => List.forall_mem_nil _, fun _ => List.forall_mem_singleton.mpr hw⟩
  · constructor
    · intro h word hword
      rw [← hwrap.flatten] at hword
      obtain ⟨line, hline, hword⟩ := List.mem_flatten.mp hword
      obtain ⟨k, hk, rfl⟩ := List.getElem_of_mem hline
      have hle := h (laid lines[k]) (List.mem_mapIdx.mpr ⟨k, hk, by rw [hfirst]; rfl⟩)
      have hwords : ∀ v ∈ lines[k], v.Measured measure := fun v hv =>
        hmeasured v (hwrap.flatten ▸ List.mem_flatten.mpr ⟨_, hline, hv⟩)
      exact Int.le_trans (width_le_laid hm hwords word hword) hle
    · intro h line hline
      obtain ⟨k, hk, rfl⟩ := List.mem_mapIdx.mp hline
      rw [hfirst, List.nil_append]
      have hmem : ∀ v ∈ lines[k], v ∈ ws := fun v hv =>
        hwrap.flatten ▸ List.mem_flatten.mpr ⟨_, List.getElem_mem hk, hv⟩
      have hwithin := hwrap.within k lines[k] (List.getElem?_eq_getElem hk) _ List.prefix_rfl
      generalize lines[k] = words at hmem hwithin
      obtain _ | ⟨v, _ | ⟨u, rest⟩⟩ := words
      · exact hw
      · have hv := hmem v (List.mem_singleton_self v)
        have hle := h v hv
        rwa [(hmeasured v hv).width] at hle
      · have hfits := hwithin (by simp only [List.length_cons]; omega)
        rwa [Fits, havail] at hfits

/-! ## What is stripped -/

theorem dropSpaces_append (t : Bytes) : ∃ n, t = dropSpaces t ++ List.replicate n space := by
  have hsplit := List.takeWhile_append_dropWhile (p := fun c => c = space) (l := t.reverse)
  refine ⟨(t.reverse.takeWhile fun c => c = space).length, ?_⟩
  have hspaces : t.reverse.takeWhile (fun c => c = space) =
      List.replicate (t.reverse.takeWhile fun c => c = space).length space :=
    List.eq_replicate_iff.mpr ⟨rfl, fun c hc =>
      of_decide_eq_true (List.mem_takeWhile_imp (p := fun c => decide (c = space)) hc)⟩
  rw [dropSpaces, ← List.reverse_replicate, ← hspaces, ← List.reverse_append, hsplit,
    List.reverse_reverse]

theorem rstripLine_text (line : Line) : ∃ blanks, (∀ c ∈ blanks, isTrimmed c = true) ∧
    plainText line = plainText (rstripLine line) ++ blanks := by
  have hsplit : line = (line.reverse.dropWhile isBlank).reverse ++
      (line.reverse.takeWhile isBlank).reverse := by
    rw [← List.reverse_append, List.takeWhile_append_dropWhile, List.reverse_reverse]
  have hblank : ∀ c ∈ plainText (line.reverse.takeWhile isBlank).reverse, isTrimmed c = true := by
    intro c hc
    obtain ⟨s, hs, hc⟩ := List.mem_flatMap.mp hc
    have htrim := List.mem_takeWhile_imp (List.mem_reverse.mp hs)
    exact forall_isTrimmed_of_trim (of_decide_eq_true htrim) c hc
  have htext := congrArg plainText hsplit
  rw [plainText_append] at htext
  unfold rstripLine
  split
  · rename_i hnil
    rw [hnil] at htext
    exact ⟨_, hblank, htext⟩
  · rename_i style t restRev hcons
    obtain ⟨n, ht⟩ := dropSpaces_append t
    have hlast (t : Bytes) : plainText ((style, t) :: restRev).reverse =
        plainText restRev.reverse ++ t := by
      rw [List.reverse_cons, plainText_append, plainText_cons]
      exact congrArg _ (List.append_nil t)
    refine ⟨List.replicate n space ++ plainText (line.reverse.takeWhile isBlank).reverse,
      List.forall_mem_append.mpr ⟨fun c hc => ?_, hblank⟩, ?_⟩
    · rw [List.eq_of_mem_replicate hc]
      rfl
    · rw [hcons, hlast t, ht, List.append_assoc, List.append_assoc] at htext
      rw [hlast, List.append_assoc]
      exact htext

/-! ## The fields of a line -/

theorem alignCell_width (hm : DisplayWidth measure) (w : Int) (align : Align) (line : List Span) :
    widthOfSpans measure (alignCell measure w align line) = max w (widthOfSpans measure line) := by
  unfold alignCell
  dsimp only
  split
  · omega
  · rename_i hpad
    cases align with
    | left =>
      dsimp only
      rw [widthOfSpans_append, widthOfSpans_cons, hm.width_spaces (by omega), widthOfSpans_nil]
      omega
    | right =>
      dsimp only
      rw [widthOfSpans_cons, hm.width_spaces (by omega)]
      omega
    | center =>
      dsimp only
      rw [widthOfSpans_append, widthOfSpans_append, widthOfSpans_cons, widthOfSpans_cons,
        hm.width_spaces (by omega), hm.width_spaces (by omega), widthOfSpans_nil]
      omega

/-- What stands on a line in front of field `j`. -/
def beforeField (margin : List Span) (cols : List Line) (j : Nat) : List Span :=
  margin ++ (cols.take j).flatMap fun c => c ++ [gapSpan]

/-- It is the beginning of the line, and the fields from `j` on follow. -/
theorem beforeField_append (margin : List Span) {cols : List Line} {j : Nat}
    (hj : j < cols.length) :
    beforeField margin cols j ++ joinCols (cols.drop j) = margin ++ joinCols cols := by
  have hfields : ((cols.take j).flatMap fun c => c ++ [gapSpan]) ++ joinCols (cols.drop j) =
      joinCols cols := by
    induction cols generalizing j with
    | nil => exact absurd hj (Nat.not_lt_zero j)
    | cons c rest ih =>
      cases j with
      | zero => rfl
      | succ j =>
        have hrest : rest ≠ [] := by
          rintro rfl
          simp only [List.length_cons, List.length_nil] at hj
          omega
        rw [List.take_succ_cons, List.drop_succ_cons, List.flatMap_cons, List.append_assoc,
          ih (Nat.lt_of_succ_lt_succ hj)]
        cases rest with
        | nil => exact absurd rfl hrest
        | cons d rest => rfl
  rw [beforeField, List.append_assoc, hfields]

/-- Where field `j` starts, from the widths of the fields before it. -/
theorem width_beforeField (hm : DisplayWidth measure) (margin : List Span) (cols : List Line)
    (j : Nat) : widthOfSpans measure (beforeField margin cols j) = widthOfSpans measure margin +
      (((cols.map (widthOfSpans measure)).take j).map fun w => w + gap).sum := by
  have hgap : measure gapSpan.2 = gap := hm.width_spaces (by decide)
  rw [beforeField, widthOfSpans_append, ← List.map_take, List.map_map]
  congr 1
  induction cols.take j with
  | nil => rfl
  | cons c cols ih =>
    rw [List.flatMap_cons, widthOfSpans_append, widthOfSpans_append, widthOfSpans_cons,
      widthOfSpans_nil, hgap, ih, List.map_cons, List.sum_cons]
    show widthOfSpans measure c + (gap + 0) + _ = widthOfSpans measure c + gap + _
    omega

/-- Two lists have the same sums up to each index when they are the same but for the end. -/
theorem take_sum_eq_iff {a b : List Int} (hlen : a.length = b.length) :
    (∀ j < a.length,
      ((a.take j).map fun w => w + gap).sum = ((b.take j).map fun w => w + gap).sum) ↔
      ∀ i x y, i + 1 < a.length → a[i]? = some x → b[i]? = some y → x = y := by
  have hsucc {l : List Int} {i : Nat} {x : Int} (hx : l[i]? = some x) :
      ((l.take (i + 1)).map fun w => w + gap).sum =
        ((l.take i).map fun w => w + gap).sum + (x + gap) := by
    rw [List.take_add_one, hx, Option.toList_some, List.map_append, List.sum_append]
    simp
  constructor
  · intro h i x y hi hx hy
    have hsum := h i (by omega)
    have hnext := h (i + 1) hi
    rw [hsucc hx, hsucc hy, hsum] at hnext
    omega
  · intro h j
    induction j with
    | zero => exact fun _ => rfl
    | succ j ih =>
      intro hj
      have hx : a[j]? = some a[j] := List.getElem?_eq_getElem (by omega)
      have hy : b[j]? = some b[j] := List.getElem?_eq_getElem (by omega)
      rw [hsucc hx, hsucc hy, ih (by omega), h j _ _ hj hx hy]

/-! ## Alignment -/

theorem Table.runRows_length (tbl : Table) : ∀ row ∈ tbl.runRows, row.2.length = tbl.colCount := by
  intro row hrow
  obtain ⟨r, -, hr⟩ := List.mem_filterMap.mp hrow
  have hcells (bold : Bool) (cells : List Inline) :
      (cellsToRuns tbl.colCount bold cells).length = tbl.colCount := by
    rw [cellsToRuns, List.length_map, List.length_range]
  cases r with
  | sep seps => cases hr
  | header cells =>
    cases hr
    exact hcells true cells
  | data cells =>
    cases hr
    exact hcells false cells

theorem Table.aligns_length (tbl : Table) : tbl.aligns.length = tbl.colCount := by
  unfold Table.aligns
  generalize hinit : List.replicate tbl.colCount Align.left = aligns
  have hlen : aligns.length = tbl.colCount := by rw [← hinit, List.length_replicate]
  clear hinit
  induction tbl.rows generalizing aligns with
  | nil => exact hlen
  | cons row rows ih =>
    rw [List.foldl_cons]
    refine ih _ ?_
    cases row with
    | sep seps => rw [List.length_mapIdx, hlen]
    | header cells => exact hlen
    | data cells => exact hlen

theorem Table.natural_length (measure : Bytes → Int) (tbl : Table) :
    (tbl.natural measure).length = tbl.colCount := by
  have hrows := tbl.runRows_length
  unfold Table.natural
  generalize hinit : List.replicate tbl.colCount (0 : Int) = natural
  have hlen : natural.length = tbl.colCount := by rw [← hinit, List.length_replicate]
  clear hinit
  generalize tbl.runRows = rows at hrows
  induction rows generalizing natural with
  | nil => exact hlen
  | cons row rows ih =>
    rw [List.foldl_cons]
    refine ih _ ?_ fun r hr => hrows r (List.mem_cons_of_mem _ hr)
    rw [List.length_zipWith, hlen, hrows row List.mem_cons_self, Nat.min_self]

theorem Table.columnWidths_length (measure : Bytes → Int) (width : Int) (margin : List Span)
    (tbl : Table) : (tbl.columnWidths measure width margin).length = tbl.colCount := by
  rw [Table.columnWidths, List.length_map, tbl.natural_length]

theorem cellLines_getElem? (w : List Int) (row : List (List Span)) {i : Nat} {wi : Int}
    {runs : List Span} (hw : w[i]? = some wi) (hrow : row[i]? = some runs) :
    (cellLines measure w row)[i]? =
      some (wrapWords measure wi [] [] (wordsOfRuns measure runs)) := by
  rw [cellLines, List.getElem?_zipWith, hw, hrow]

theorem le_rowHeight {wrapped : List (List Line)} {ls : List Line} (h : ls ∈ wrapped) :
    ls.length ≤ rowHeight wrapped := by
  have hfold (a : Nat) : a ≤ wrapped.foldl (fun a ls => max a ls.length) a ∧
      ∀ ls ∈ wrapped, ls.length ≤ wrapped.foldl (fun a ls => max a ls.length) a := by
    clear h
    induction wrapped generalizing a with
    | nil => exact ⟨Nat.le_refl a, List.forall_mem_nil _⟩
    | cons l wrapped ih =>
      obtain ⟨hinit, hall⟩ := ih (max a l.length)
      exact ⟨Nat.le_trans (Nat.le_max_left _ _) hinit,
        List.forall_mem_cons.mpr ⟨Nat.le_trans (Nat.le_max_right _ _) hinit, hall⟩⟩
  exact (hfold 1).2 ls h

theorem fields_width (hm : DisplayWidth measure) {w : List Int} {aligns : List Align}
    {wrapped : List (List Line)} (hlen : aligns.length = w.length) (k : Nat) {i : Nat} {wi : Int}
    {ls : List Line} (hw : w[i]? = some wi) (hls : wrapped[i]? = some ls) :
    ((fields measure w aligns wrapped k).map (widthOfSpans measure))[i]? =
      some (max wi (widthOfSpans measure (ls[k]?.getD []))) := by
  obtain ⟨hi, rfl⟩ := List.getElem?_eq_some_iff.mp hw
  have hzip : (w.zip aligns)[i]? = some (w[i], aligns[i]) := by
    rw [List.getElem?_zip_eq_some]
    exact ⟨hw, List.getElem?_eq_getElem (hlen ▸ hi)⟩
  rw [List.getElem?_map, fields, List.getElem?_zipWith, hzip, hls]
  dsimp only
  rw [Option.map_some, alignCell_width hm]

theorem cellLines_length {w : List Int} {row : List (List Span)} (hrow : row.length = w.length) :
    (cellLines measure w row).length = w.length := by
  rw [cellLines, List.length_zipWith, hrow, Nat.min_self]

theorem fields_length {w : List Int} {aligns : List Align} {row : List (List Span)}
    (haligns : aligns.length = w.length) (hrow : row.length = w.length) {k : Nat} :
    (fields measure w aligns (cellLines measure w row) k).length = w.length := by
  rw [fields, List.length_zipWith, List.length_zip, haligns, cellLines_length hrow, Nat.min_self,
    Nat.min_self]

/-- The fields of a row start where the widths `w` say when the words of its cells fit in them. -/
theorem row_aligned_iff (hm : DisplayWidth measure) (margin : List Span) {w : List Int}
    {aligns : List Align} {row : List (List Span)} (hw : ∀ wi ∈ w, 0 ≤ wi)
    (haligns : aligns.length = w.length) (hrow : row.length = w.length) :
    (∀ k < rowHeight (cellLines measure w row), ∀ j < w.length,
      widthOfSpans measure (beforeField margin
        (fields measure w aligns (cellLines measure w row) k) j) =
      widthOfSpans measure margin + ((w.take j).map fun wj => wj + gap).sum) ↔
    ∀ i wi runs, i + 1 < w.length → w[i]? = some wi → row[i]? = some runs →
      ∀ word ∈ wordsOfRuns measure runs, word.width ≤ wi := by
  have hfields (k : Nat) : ((fields measure w aligns (cellLines measure w row) k).map
      (widthOfSpans measure)).length = w.length := by
    rw [List.length_map, fields_length haligns hrow]
  -- line by line, the widths of the fields are to be `w` but for the last one
  have hline (k : Nat) : (∀ j < w.length, widthOfSpans measure (beforeField margin
        (fields measure w aligns (cellLines measure w row) k) j) =
      widthOfSpans measure margin + ((w.take j).map fun wj => wj + gap).sum) ↔
      ∀ i wi ls, i + 1 < w.length → w[i]? = some wi → (cellLines measure w row)[i]? = some ls →
        widthOfSpans measure (ls[k]?.getD []) ≤ wi := by
    have hsums := take_sum_eq_iff (hfields k)
    rw [hfields k] at hsums
    simp only [width_beforeField hm, Int.add_right_inj]
    rw [hsums]
    constructor
    · intro h i wi ls hi hwi hls
      have := h i _ wi hi (fields_width hm haligns k hwi hls) hwi
      omega
    · intro h i x wi hi hx hwi
      have hi' : i < (cellLines measure w row).length := by
        rw [cellLines_length hrow]
        omega
      have hls := List.getElem?_eq_getElem hi'
      rw [fields_width hm haligns k hwi hls, Option.some_inj] at hx
      have := h i wi _ hi hwi hls
      omega
  constructor
  · intro h i wi runs hi hwi hruns
    refine (cellLines_le_iff hm (hw wi (List.mem_of_getElem? hwi)) runs).mp fun line hmem => ?_
    have hls : (cellLines measure w row)[i]? = some _ := cellLines_getElem? w row hwi hruns
    obtain ⟨k, hk, rfl⟩ := List.getElem_of_mem hmem
    have hheight := le_rowHeight (List.mem_of_getElem? hls)
    have hle := (hline k).mp (h k (by omega)) i wi _ hi hwi hls
    rwa [List.getElem?_eq_getElem hk, Option.getD_some] at hle
  · intro h k _
    refine (hline k).mpr fun i wi ls hi hwi hls => ?_
    have hruns : row[i]? = some row[i] := List.getElem?_eq_getElem (by omega)
    rw [cellLines_getElem? w row hwi hruns, Option.some_inj] at hls
    have hnonneg := hw wi (List.mem_of_getElem? hwi)
    have hlines := (cellLines_le_iff hm hnonneg row[i]).mpr (h i wi _ hi hwi hruns)
    rw [hls] at hlines
    cases hk : ls[k]? with
    | none => rwa [Option.getD_none, widthOfSpans_nil]
    | some line => exact hlines line (List.mem_of_getElem? hk)

/-- The visual lines of a row, cut in front of field `j`. -/
theorem assemble_line (margin : List Span) (w : List Int) (aligns : List Align)
    (row : List (List Span)) {k : Nat} {line : Line}
    (hline : (assemble measure margin w aligns row)[k]? = some line) {j : Nat}
    (hj : j < (fields measure w aligns (cellLines measure w row) k).length) :
    line = rstripLine (beforeField margin (fields measure w aligns (cellLines measure w row) k) j ++
      joinCols ((fields measure w aligns (cellLines measure w row) k).drop j)) := by
  rw [beforeField_append margin hj]
  rw [assemble, List.getElem?_map, Option.map_eq_some_iff] at hline
  obtain ⟨k', hk, rfl⟩ := hline
  obtain ⟨hk', rfl⟩ := List.getElem?_eq_some_iff.mp hk
  rw [List.getElem_range]

theorem ruleLine_aligned (hm : DisplayWidth measure)
    (hdash : ∀ n : Nat, measure (List.replicate n 45) = n) (margin : List Span) {w : List Int}
    (hw : ∀ wi ∈ w, 0 ≤ wi) : ∃ cols : List Line, ruleLine margin w = margin ++ joinCols cols ∧
      ∀ j, widthOfSpans measure (beforeField margin cols j) =
        widthOfSpans measure margin + ((w.take j).map fun wj => wj + gap).sum := by
  refine ⟨_, rfl, fun j => ?_⟩
  have hwidths : (w.map fun wj => ([(⟨.marker, noEmphasis⟩, List.replicate wj.toNat 45)] :
      Line)).map (widthOfSpans measure) = w := by
    rw [List.map_map]
    refine (List.map_congr_left fun wj hwj => ?_).trans (List.map_id w)
    have hnonneg := hw wj hwj
    show widthOfSpans measure [(_, List.replicate wj.toNat 45)] = wj
    rw [widthOfSpans_cons, widthOfSpans_nil, hdash]
    omega
  rw [width_beforeField hm, hwidths]

/-- In every line of every row each field starts where the widths of the columns before it say,
before the blanks at the end of the line are stripped. -/
def Table.ColumnsAligned (measure : Bytes → Int) (width : Int) (margin : List Span) (tbl : Table) :
    Prop :=
  let w := tbl.columnWidths measure width margin
  ∀ row ∈ tbl.runRows, ∀ k line, (assemble measure margin w tbl.aligns row.2)[k]? = some line →
    ∀ j < tbl.colCount,
      let cols := fields measure w tbl.aligns (cellLines measure w row.2) k
      line = rstripLine (beforeField margin cols j ++ joinCols (cols.drop j)) ∧
      widthOfSpans measure (beforeField margin cols j) =
        widthOfSpans measure margin + ((w.take j).map fun wj => wj + gap).sum

/-- No word is too wide for the column of its cell, the last column apart. -/
def Table.WordsFit (measure : Bytes → Int) (width : Int) (margin : List Span) (tbl : Table) :
    Prop :=
  ∀ row ∈ tbl.runRows, ∀ j runs nj, j + 1 < tbl.colCount → row.2[j]? = some runs →
    (tbl.natural measure)[j]? = some nj → ∀ word ∈ wordsOfRuns measure runs,
      word.width ≤ 1 ∨ (word.width ≤ nj ∧ cappedSum (tbl.natural measure) word.width ≤
        availCols measure width margin tbl.colCount)

theorem Table.columnsAligned_iff (hm : DisplayWidth measure) (width : Int) (margin : List Span)
    (tbl : Table) :
    tbl.ColumnsAligned measure width margin ↔ tbl.WordsFit measure width margin := by
  have hlen := tbl.columnWidths_length measure width margin
  have hpos : ∀ wi ∈ tbl.columnWidths measure width margin, 0 ≤ wi := by
    intro wi hwi
    obtain ⟨nj, -, rfl⟩ := List.mem_map.mp hwi
    omega
  refine forall₂_congr fun row hrow => ?_
  have hrowlen : row.2.length = (tbl.columnWidths measure width margin).length := by
    rw [hlen, tbl.runRows_length row hrow]
  have haligns : tbl.aligns.length = (tbl.columnWidths measure width margin).length := by
    rw [hlen, tbl.aligns_length]
  rw [← hlen]
  refine Iff.trans ?_ ((row_aligned_iff hm margin hpos haligns hrowlen).trans ?_)
  · have hlines : (assemble measure margin (tbl.columnWidths measure width margin) tbl.aligns
        row.2).length =
        rowHeight (cellLines measure (tbl.columnWidths measure width margin) row.2) := by
      rw [assemble, List.length_map, List.length_range]
    constructor
    · intro h k hk j hj
      exact (h k _ (List.getElem?_eq_getElem (hlines ▸ hk)) j hj).2
    · intro h k line hline j hj
      refine ⟨assemble_line margin _ _ _ hline ?_, h k ?_ j hj⟩
      · rw [fields_length haligns hrowlen]
        exact hj
      · rw [← hlines]
        exact (List.getElem?_eq_some_iff.mp hline).1
  have hfits {nj : Int} (hnj : nj ∈ tbl.natural measure) (word : Word) :=
    @le_columnWidth_iff _ (availCols measure width margin tbl.colCount) _ word.width hnj
  constructor
  · intro h j runs nj hj hruns hnj word hword
    have hwj : (tbl.columnWidths measure width margin)[j]? = some _ :=
      (List.getElem?_map ..).trans (congrArg _ hnj)
    rw [hlen]
    exact (hfits (List.mem_of_getElem? hnj) word).mp (h j _ runs hj hwj hruns word hword)
  · intro h j wj runs hj hwj hruns word hword
    rw [Table.columnWidths, List.getElem?_map, Option.map_eq_some_iff] at hwj
    obtain ⟨nj, hnj, rfl⟩ := hwj
    have hfit := h j runs nj hj hruns hnj word hword
    rw [hlen] at hfit
    exact (hfits (List.mem_of_getElem? hnj) word).mpr hfit

theorem displayWidth_byteWidth : DisplayWidth byteWidth :=
  ⟨fun s => Int.natCast_nonneg s.length, fun _ => congrArg _ (List.length_replicate ..)⟩

/-- A table whose second column holds numbers. -/
def settings (key value : String) : Table :=
  ⟨2, [.header [.text (bytes "key"), .text (bytes "value")], .sep [none, some .right],
    .data [.text (bytes key), .text (bytes value)]]⟩

theorem columnsAligned_configuration :
    ¬ (settings "configuration" "10").ColumnsAligned byteWidth 12 [] := by
  intro h
  have hrow := h (false, _) (List.mem_cons_of_mem _ List.mem_cons_self) 0 _ rfl 1 (by decide)
  exact absurd hrow.2 (by decide +kernel)

theorem columnsAligned_width : (settings "max width" "10").ColumnsAligned byteWidth 12 [] := by
  refine (Table.columnsAligned_iff displayWidth_byteWidth 12 [] (settings "max width" "10")).mpr ?_
  have hwords : ∀ row ∈ (settings "max width" "10").runRows, ∀ runs ∈ row.2[0]?,
      ∀ word ∈ wordsOfRuns byteWidth runs, word.width ≤ 9 ∧ cappedSum [9, 5] word.width ≤ 10 := by
    decide +kernel
  have hnatural : (settings "max width" "10").natural byteWidth = [9, 5] := by decide +kernel
  intro row hrow j runs nj hj hruns hnj word hword
  have hcount : (settings "max width" "10").colCount = 2 := rfl
  obtain rfl : j = 0 := by omega
  rw [hnatural] at hnj ⊢
  obtain rfl : (9 : Int) = nj := Option.some_inj.mp hnj
  exact .inr (hwords row hrow runs hruns word hword)

end MdLayout
end Raoui
