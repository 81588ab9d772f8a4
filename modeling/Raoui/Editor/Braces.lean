import Raoui.Editor.Modes
import Raoui.Editor.Prompt
import Raoui.Editor.VisualRows
import Raoui.Editor.UnfinishedLiteral
import Raoui.Lexer.Boundary
import Raoui.Text.Aligned

/-!
# Raoui.Editor.Braces

Enter between two braces. The closing one goes to a line of its own, indented as the opening one,
and the cursor to a line in between, by way of the rows on the screen: it goes up one row from the
text after the cursor, and from there to the end of a line.

* `moveUp_between`: the line that going up one row leads to.
* `Prompt.expandBraces_typed`: the prompt before that.
* `lexesExpanding`: the lexer gets through every prompt on the way.
* `braces_expanded_iff`: when Enter does what it is for.
-/

namespace Raoui

open Outcome (bind_eq_ok)
open Filling (fill)

/-! ## The first row of a line -/

namespace UnicodeString

/-- A cluster fits with those before it when their widths together do. -/
theorem lt_fitting_iff {limit : Int} {used w : Nat} {ws : List Nat} (vs : List Nat) :
    vs.length < fitting limit used (vs ++ w :: ws) ↔ ((used + vs.sum + w : Nat) : Int) ≤ limit := by
  induction vs generalizing used with
  | nil =>
    rw [List.nil_append, fitting, List.sum_nil, List.length_nil]
    split
    · omega
    · omega
  | cons v vs ih =>
    have hrest := @ih (used + v)
    rw [List.cons_append, fitting, List.sum_cons, List.length_cons]
    split
    · omega
    · rw [Nat.add_lt_add_iff_right, hrest, Nat.add_assoc]
      omega

/-- The first row holds the clusters that fit in it, and at least one. -/
theorem exists_first_row {t : UnicodeString} {width : Int} (h : t.WellFormed) (hwidth : 0 < width)
    (hlen : t.length ≠ 0) : ∃ row rest, t.wrap width = row :: rest ∧
      row.length = max 1 (fitting width 0 t.widths) := by
  have hempty : t.isEmpty = false := by
    by_contra hne
    exact hlen (h.length_of_isEmpty (by simpa using hne))
  obtain ⟨w, ws, hws⟩ := List.exists_cons_of_ne_nil
    (fun hnil => hlen (by rw [← h.widths_length, hnil]; rfl) : t.widths ≠ [])
  obtain ⟨first, others, hfill, hfirst⟩ : ∃ first others, fill width [] t.widths = first :: others ∧
      first.length = max 1 (fitting width 0 t.widths) := by
    by_cases hfit : 0 < fitting width 0 t.widths
    · refine ⟨_, _, fill_fitting hfit, ?_⟩
      have hle := fitting_le width 0 t.widths
      rw [List.length_take]
      omega
    · have hwide : width < ((w : Nat) : Int) := by
        have hstops := @fitting_stops width 0 w t.widths ws
        rw [Nat.eq_zero_of_not_pos hfit] at hstops
        simpa using hstops hws
      rw [hws, Filling.fill_alone hwide, ← hws]
      refine ⟨_, _, rfl, ?_⟩
      rw [List.length_singleton]
      omega
  have hlengths := (wrapRows_widths h.widths_length width).2
  rw [hfill, List.map_cons] at hlengths
  obtain ⟨row, rest, hrows, hrow, -⟩ := List.map_eq_cons_iff.mp hlengths
  rw [wrap_eq hwidth hempty, hrows]
  exact ⟨row, _, rfl, hrow.trans hfirst⟩

end UnicodeString

/-- A cursor within a line is in its first row when the clusters up to it and the next fit there. -/
theorem exists_standsIn_first {t : UnicodeString} {width : Int} {w : Nat} {vs ws : List Nat}
    (h : t.WellFormed) (hwidths : t.widths = vs ++ w :: ws) : ∃ before row after off,
      StandsIn (wrapLine width t) before row after vs.length off ∧
        (before = [] ↔ vs = [] ∨ width ≤ 0 ∨ ((vs.sum + w : Nat) : Int) ≤ width) := by
  have hlt : vs.length < t.length := by
    rw [← h.widths_length, hwidths, List.length_append, List.length_cons]
    omega
  by_cases hwidth : width ≤ 0
  · have hrows : wrapLine width t = [] ++ t :: [] := if_pos hwidth
    exact ⟨[], t, [], vs.length, ⟨hrows, (Nat.zero_add _).symm, .inl hlt⟩, by simp [hwidth]⟩
  · obtain ⟨first, rest, hrows, hfirst⟩ :=
      UnicodeString.exists_first_row h (Int.not_le.mp hwidth) (by omega)
    have hwithin : vs.length < first.length ↔ vs = [] ∨ ((vs.sum + w : Nat) : Int) ≤ width := by
      have hfits := @UnicodeString.lt_fitting_iff width 0 w ws vs
      rw [Nat.zero_add] at hfits
      rw [hfirst, hwidths, ← hfits, ← List.length_eq_zero_iff]
      omega
    by_cases hin : vs.length < first.length
    · refine ⟨[], first, rest, vs.length, ⟨hrows, (Nat.zero_add _).symm, .inl hin⟩, ?_⟩
      simp only [hwidth, false_or, hwithin.mp hin]
    · have hsum : clusterSum (wrapLine width t) = t.length := UnicodeString.wrap_lengths h width
      obtain ⟨before, row, after, off, hstands⟩ := @exists_standsIn (wrapLine width t) vs.length
        (by rw [wrapLine, hrows]; exact List.cons_ne_nil _ _) (by omega)
      refine ⟨before, row, after, off, hstands, iff_of_false ?_ ?_⟩
      · rintro rfl
        have hsplit := hrows.symm.trans hstands.split
        obtain ⟨rfl, rfl⟩ := List.cons.inj hsplit
        have hcol := hstands.col
        rw [clusterSum_nil, Nat.zero_add] at hcol
        obtain hoff | ⟨hoff, rfl⟩ := hstands.within
        · omega
        · rw [hstands.split, List.nil_append, clusterSum_cons, clusterSum_nil] at hsum
          omega
      · rw [hwithin] at hin
        simpa only [hwidth, false_or] using hin

/-! ## One row up -/

namespace Model

variable {m : Model} {as bs before after : List UnicodeString} {p q row : UnicodeString}
  {col off : Nat}

/-- From a row of a line that is not its first, going up stays in the line; from the first it leads
to the line above. -/
theorem moveUp_between (hmode : m.input.mode = .normal)
    (hlines : m.input.lines = as ++ p :: q :: bs) (hline : m.input.cursorLine = as.length + 1)
    (hpos : m.input.cursorPos = col) (hp : wrapLine m.effectiveWidth p ≠ [])
    (h : StandsIn (wrapLine m.effectiveWidth q) before row after col off) :
    ∃ pos persistent, m.moveUp = .ok { m with
      input.cursorLine := if before = [] then as.length else as.length + 1
      input.cursorPos := pos
      input.persistentCol := persistent } := by
  have hsplit : m.input.lines = (as ++ [p]) ++ q :: bs := by
    rw [hlines]
    simp
  have hcursor : m.cursorTerminalPos = .ok ((wrapLines m.effectiveWidth (as ++ [p])).length +
      before.length, row.prefixWidth off) := by
    have hlen : m.input.cursorLine = (as ++ [p]).length := by
      rw [hline, List.length_append, List.length_singleton]
      rfl
    rw [cursorTerminalPos_normal hmode, hsplit, hlen, hpos]
    exact internalToTerminal_of h
  have habove : (wrapLines m.effectiveWidth (as ++ [p])).length =
      (wrapLines m.effectiveWidth as).length + (wrapLine m.effectiveWidth p).length := by
    rw [wrapLines_length_append]
    simp [wrapLines]
  have hrows := List.length_pos_of_ne_nil hp
  have hup : ∀ {k : Nat} {above below before' after' : List UnicodeString}
      {line row' : UnicodeString}, (k : Int) = (wrapLines m.effectiveWidth (as ++ [p])).length +
        before.length - 1 →
      RowAt m.effectiveWidth m.input.lines k above line below before' row' after' →
      m.moveUp = .ok { m with
        input.cursorLine := above.length
        input.cursorPos := clusterSum before' + row'.graphemeAtWidth
          (min (m.targetCol (row.prefixWidth off)) row'.displayWidth)
        input.persistentCol := m.targetCol (row.prefixWidth off) } := by
    intro k above below before' after' line row' hk hat
    rw [moveUp, hcursor, ← moveToRow_of hat, hk]
    exact if_pos (by omega)
  obtain rfl | ⟨before', last, rfl⟩ := List.eq_nil_or_concat' before
  · obtain ⟨first, last, hlast⟩ := (List.eq_nil_or_concat' _).resolve_left hp
    rw [if_pos rfl]
    refine ⟨_, _, hup ?_ ⟨hlines, hlast, rfl⟩⟩
    rw [habove, hlast]
    simp
    omega
  · have hrow : wrapLine m.effectiveWidth q = before' ++ last :: row :: after := by
      rw [h.split]
      simp
    have hlen : ((as ++ [p]).length : Int) = as.length + 1 := by simp
    rw [if_neg (List.append_ne_nil_of_right_ne_nil _ (List.cons_ne_nil _ _)), ← hlen]
    refine ⟨_, _, hup ?_ ⟨hsplit, hrow, rfl⟩⟩
    simp
    omega

/-! ## Blanks and line breaks -/

open UnicodeString (Cluster ascii ofClusters)
open NormalMode (insertSpaces expandBraces)

def blanks (k : Nat) : List Cluster := List.replicate k (ascii 32)

section
variable [Ucd] {n n' : Model} {above below : List UnicodeString} {lead : List Char}
  {l r : List Cluster} {s : Cluster} {k : Nat}

omit [Ucd] in
theorem split_ofClusters (hl : l ≠ []) (hr : r ≠ []) :
    (ofClusters lead (l ++ r)).split l.length = (ofClusters [] l, ofClusters [] r) := by
  have hlpos := List.length_pos_of_ne_nil hl
  have hrpos := List.length_pos_of_ne_nil hr
  have happend : (l ++ r).length = l.length + r.length := List.length_append
  have hlen : ((ofClusters lead (l ++ r)).length : Int) - l.length = r.length := by
    rw [UnicodeString.length_ofClusters]
    omega
  rw [UnicodeString.split, if_neg (by omega), if_neg (by omega), hlen,
    UnicodeString.sub_ofClusters (Int.le_refl 0) (by omega) (by omega),
    UnicodeString.sub_ofClusters (Int.natCast_nonneg _) (by omega) (by omega)]
  simp

omit [Ucd] in
theorem blanks_length (k : Nat) : (blanks k).length = k := List.length_replicate

omit [Ucd] in
theorem blanks_ne_nil (hk : k ≠ 0) : blanks k ≠ [] := by
  intro hnil
  exact hk ((blanks_length k).symm.trans (congrArg List.length hnil))

theorem Prompt.insertSpaces (h : m.Prompt n above (ofClusters lead (l ++ r)) l.length below)
    (hrun : insertSpaces k n = .ok n') :
    m.Prompt n' above (ofClusters lead (l ++ (blanks k ++ r))) (l.length + k) below := by
  induction k generalizing n l with
  | zero =>
    cases hrun
    simpa [blanks] using h
  | succ k ih =>
    obtain ⟨n₁, hn₁, hrun⟩ := bind_eq_ok.mp hrun
    have h₁ := h.goesTo ((h.insertChar_split (by decide)).symm.trans hn₁)
    have hrest := ih h₁.behind hrun
    rw [length_concat, List.append_assoc, List.singleton_append] at hrest
    have hcol : (l.length : Int) + 1 + k = l.length + (k + 1 : Nat) := by omega
    rwa [hcol] at hrest

theorem Prompt.insertSpaces_returns
    (h : m.Prompt n above (ofClusters lead (l ++ r)) l.length below)
    (hlexes : ∀ j ≤ k, Lexes (linesWith above lead (l ++ (blanks j ++ r)) below)) :
    ∃ n', NormalMode.insertSpaces k n = .ok n' := by
  induction k generalizing n l with
  | zero => exact ⟨n, rfl⟩
  | succ k ih =>
    have hone : Lexes (linesWith above lead (l ++ ascii 32 :: r) below) := hlexes 1 (by omega)
    obtain ⟨n₁, hn₁⟩ : ∃ n₁, n.insertChar (bytes " ") = .ok n₁ := by
      rw [show bytes " " = [32] from rfl, h.insertChar_split (by decide)]
      exact lexes_iff.mp hone
    have h₁ := h.goesTo ((h.insertChar_split (by decide)).symm.trans hn₁)
    obtain ⟨n', hn'⟩ := ih h₁.behind fun j hj => by
      have hmore := hlexes (j + 1) (Nat.succ_le_succ hj)
      rwa [List.append_assoc]
    exact ⟨n', bind_eq_ok.mpr ⟨n₁, hn₁, hn'⟩⟩

/-- At the start of a line. -/
theorem Prompt.insertSpaces_start (h : m.Prompt n above (ofClusters lead r) 0 below)
    (hrun : NormalMode.insertSpaces k n = .ok n') :
    m.Prompt n' above (ofClusters lead (blanks k ++ r)) (blanks k).length below := by
  have hrest := Prompt.insertSpaces (l := []) h hrun
  rw [List.nil_append, List.length_nil, Int.natCast_zero, Int.zero_add] at hrest
  rwa [blanks_length]

theorem Prompt.insertNewline_eq (hl : l ≠ []) (hr : r ≠ [])
    (h : m.Prompt n above (ofClusters lead (l ++ r)) l.length below) : n.insertNewline =
      m.withPrompt (above ++ ofClusters [] l :: ofClusters [] r :: below) (above.length + 1) 0 := by
  rw [h.insertNewline, split_ofClusters hl hr]

theorem Prompt.insertNewline_split (hl : l ≠ []) (hr : r ≠ [])
    (h : m.Prompt n above (ofClusters lead (l ++ r)) l.length below)
    (hrun : n.insertNewline = .ok n') :
    m.Prompt n' (above ++ [ofClusters [] l]) (ofClusters [] r) 0 below := by
  rw [h.insertNewline_eq hl hr] at hrun
  refine ⟨h.mode, ?_⟩
  rwa [List.append_assoc, List.singleton_append, List.length_append, List.length_singleton]

/-- The three lines that stand for the cursor's. -/
def expandedLines (above : List UnicodeString) (l : List Cluster) (inner outer : Nat)
    (r : List Cluster) (below : List UnicodeString) : List UnicodeString :=
  above ++ ofClusters [] l :: ofClusters [] (blanks inner) :: ofClusters [] (blanks outer ++ r) ::
    below

/-- The steps of `expandBraces`. -/
theorem expandBraces_eq_ok {inner outer : Int} : expandBraces inner outer m = .ok n' ↔
    ∃ n₁ n₂ n₃ n₄, m.insertNewline = .ok n₁ ∧ NormalMode.insertSpaces inner.toNat n₁ = .ok n₂ ∧
      n₂.insertNewline = .ok n₃ ∧ NormalMode.insertSpaces outer.toNat n₃ = .ok n₄ ∧
      (do (← n₄.moveUp).goToLineEnd) = .ok n' := by
  unfold expandBraces
  simp only [bind_eq_ok, exists_and_left]

/-- Before the cursor goes up it stands behind the blanks before the closing brace. -/
theorem Prompt.expandBraces_typed {inner outer : Nat} (hinner : inner ≠ 0) (hl : l ≠ [])
    (hr : r ≠ []) (h : m.Prompt m above (ofClusters lead (l ++ r)) l.length below)
    (hrun : expandBraces inner outer m = .ok n') :
    ∃ n, m.Prompt n (above ++ [ofClusters [] l, ofClusters [] (blanks inner)])
        (ofClusters [] (blanks outer ++ r)) (blanks outer).length below ∧
      (do (← n.moveUp).goToLineEnd) = .ok n' := by
  obtain ⟨n₁, n₂, n₃, n₄, hn₁, hn₂, hn₃, hn₄, hrun⟩ := expandBraces_eq_ok.mp hrun
  have h₂ := (h.insertNewline_split hl hr hn₁).insertSpaces_start hn₂
  have h₄ := (h₂.insertNewline_split (blanks_ne_nil hinner) hr hn₃).insertSpaces_start hn₄
  rw [List.append_assoc] at h₄
  exact ⟨n₄, h₄, hrun⟩

/-- The first row of a line holds `k` blanks and a cluster of width `w`. -/
def FirstRowHolds (m : Model) (k w : Nat) : Prop :=
  k = 0 ∨ m.effectiveWidth ≤ 0 ∨ ((k + w : Nat) : Int) ≤ m.effectiveWidth

omit [Ucd] in
theorem blanks_wellFormed (k : Nat) : ∀ c ∈ blanks k, c.1 ≠ [] := by
  intro c hc
  rw [List.eq_of_mem_replicate hc]
  exact List.cons_ne_nil _ _

omit [Ucd] in
theorem wrapLine_blanks (width : Int) (hk : k ≠ 0) :
    wrapLine width (ofClusters [] (blanks k)) ≠ [] := by
  have hwf : (ofClusters [] (blanks k)).WellFormed :=
    UnicodeString.wellFormed_ofClusters (blanks_wellFormed k)
  intro hnone
  by_cases hwidth : 0 < width
  · obtain ⟨-, hlen⟩ := (UnicodeString.wrap_eq_nil_iff hwf hwidth).mp hnone
    rw [UnicodeString.length_ofClusters, blanks_length] at hlen
    exact hk hlen
  · rw [wrapLine, UnicodeString.wrap, if_pos (Int.not_lt.mp hwidth)] at hnone
    cases hnone

omit [Ucd] in
theorem exists_standsIn_blanks (hne : ∀ c ∈ s :: r, c.1 ≠ []) : ∃ before row after off,
    StandsIn (wrapLine m.effectiveWidth (ofClusters [] (blanks k ++ s :: r))) before row after k
      off ∧ (before = [] ↔ m.FirstRowHolds k s.2) := by
  have hwf : (ofClusters [] (blanks k ++ s :: r)).WellFormed := by
    refine UnicodeString.wellFormed_ofClusters fun c hc => ?_
    obtain hc | hc := List.mem_append.mp hc
    · exact blanks_wellFormed k c hc
    · exact hne c hc
  have hwidths : (ofClusters [] (blanks k ++ s :: r)).widths =
      List.replicate k 1 ++ s.2 :: r.map Prod.snd := by
    simp [ofClusters, blanks, ascii]
  obtain ⟨before, row, after, off, hstands, hfirst⟩ :=
    @exists_standsIn_first _ m.effectiveWidth _ _ _ hwf hwidths
  rw [List.length_replicate] at hstands
  rw [List.replicate_eq_nil_iff, List.sum_replicate_nat, Nat.mul_one] at hfirst
  exact ⟨before, row, after, off, hstands, hfirst⟩

omit [Ucd] in
theorem goToLineEnd_of {t : UnicodeString} (hline : m.input.cursorLine = k)
    (ht : m.input.lines[k]? = some t) :
    m.goToLineEnd = .ok { m with input.cursorPos := t.length } := by
  have hcurrent : m.currentLine = .ok t := by
    rw [currentLine, hline, nth_eq (Int.natCast_nonneg k) ht]
  rw [goToLineEnd, lineLength, hcurrent]
  rfl

/-- One row up from the closing brace is the line above when the first row holds what is up to
it. -/
theorem Prompt.moveUp_toLineEnd {inner outer : Nat} (hinner : inner ≠ 0)
    (hne : ∀ c ∈ s :: r, c.1 ≠ [])
    (h : m.Prompt n (above ++ [ofClusters [] l, ofClusters [] (blanks inner)])
      (ofClusters [] (blanks outer ++ s :: r)) (blanks outer).length below) :
    ∃ n' : Model, (do (← n.moveUp).goToLineEnd) = .ok n' ∧
      n'.input.lines = expandedLines above l inner outer (s :: r) below ∧
      (m.FirstRowHolds outer s.2 →
        n'.input.cursorLine = above.length + 1 ∧ n'.input.cursorPos = inner) ∧
      (¬ m.FirstRowHolds outer s.2 → n'.input.cursorLine = above.length + 2) := by
  obtain ⟨hlines, hline, hpos, -, hmode⟩ := h.fields
  have hwidth : n.effectiveWidth = m.effectiveWidth := by
    obtain ⟨cache, -, rfl⟩ := withPrompt_eq_ok.mp h.shows
    rfl
  have hexpanded : n.input.lines = expandedLines above l inner outer (s :: r) below := by
    rw [hlines, expandedLines]
    simp
  have hsplit : n.input.lines = (above ++ [ofClusters [] l]) ++ ofClusters [] (blanks inner) ::
      ofClusters [] (blanks outer ++ s :: r) :: below := by
    rw [hexpanded, expandedLines]
    simp
  have hup : ((above ++ [ofClusters [] l]).length : Int) = above.length + 1 := by
    rw [List.length_append, List.length_singleton]
    rfl
  have hcol : n.input.cursorLine = ((above ++ [ofClusters [] l]).length : Int) + 1 := by
    rw [hline, List.length_append, List.length_append]
    rfl
  obtain ⟨before, row, after, off, hstands, hfirst⟩ :=
    exists_standsIn_blanks (m := n) (k := outer) hne
  obtain ⟨pos, persistent, hmoved⟩ := moveUp_between hmode hsplit hcol hpos
    (wrapLine_blanks n.effectiveWidth hinner) (by rwa [blanks_length])
  rw [hmoved]
  by_cases hholds : n.FirstRowHolds outer s.2
  · rw [if_pos (hfirst.mpr hholds), hup]
    refine ⟨_, goToLineEnd_of (k := above.length + 1) rfl (t := ofClusters [] (blanks inner))
      (by simp [hexpanded, expandedLines]), hexpanded, fun _ => ⟨rfl, ?_⟩, fun hnot => ?_⟩
    · simp [blanks_length]
    · rw [FirstRowHolds, hwidth] at hholds
      exact absurd hholds hnot
  · rw [if_neg fun hnil => hholds (hfirst.mp hnil), hup, Int.add_assoc]
    refine ⟨_, goToLineEnd_of (k := above.length + 2) rfl
      (t := ofClusters [] (blanks outer ++ s :: r)) (by simp [hexpanded, expandedLines]),
      hexpanded, fun hnot => ?_, fun _ => rfl⟩
    rw [FirstRowHolds, hwidth] at hholds
    exact absurd hnot hholds

/-- The lexer gets through the prompt at every moment of the expansion. -/
def LexesExpanding (above : List UnicodeString) (l : List Cluster) (inner outer : Nat)
    (r : List Cluster) (below : List UnicodeString) : Prop :=
  (∀ j ≤ inner, Lexes (above ++ ofClusters [] l :: ofClusters [] (blanks j ++ r) :: below)) ∧
    ∀ j ≤ outer, Lexes (expandedLines above l inner j r below)

theorem Prompt.expandBraces_returns {inner outer : Nat} (hinner : inner ≠ 0) (hl : l ≠ [])
    (hne : ∀ c ∈ s :: r, c.1 ≠ [])
    (h : m.Prompt m above (ofClusters lead (l ++ s :: r)) l.length below)
    (hlexes : LexesExpanding above l inner outer (s :: r) below) :
    ∃ n', expandBraces inner outer m = .ok n' := by
  have hr : s :: r ≠ [] := List.cons_ne_nil _ _
  obtain ⟨n₁, hn₁⟩ : ∃ n₁, m.insertNewline = .ok n₁ := by
    rw [h.insertNewline_eq hl hr]
    exact lexes_iff.mp (hlexes.1 0 (Nat.zero_le _))
  have h₁ := h.insertNewline_split hl hr hn₁
  obtain ⟨n₂, hn₂⟩ := Prompt.insertSpaces_returns (l := []) (k := inner) h₁ fun j hj => by
    simpa [linesWith] using hlexes.1 j hj
  have h₂ := h₁.insertSpaces_start hn₂
  obtain ⟨n₃, hn₃⟩ : ∃ n₃, n₂.insertNewline = .ok n₃ := by
    rw [h₂.insertNewline_eq (blanks_ne_nil hinner) hr]
    refine lexes_iff.mp ?_
    simpa [expandedLines, blanks] using hlexes.2 0 (Nat.zero_le _)
  have h₃ := h₂.insertNewline_split (blanks_ne_nil hinner) hr hn₃
  obtain ⟨n₄, hn₄⟩ := Prompt.insertSpaces_returns (l := []) (k := outer) h₃ fun j hj => by
    simpa [linesWith, expandedLines] using hlexes.2 j hj
  have h₄ := h₃.insertSpaces_start hn₄
  rw [List.append_assoc] at h₄
  obtain ⟨n', hn', -⟩ := h₄.moveUp_toLineEnd hinner hne
  exact ⟨n', expandBraces_eq_ok.mpr ⟨n₁, n₂, n₃, n₄, hn₁, hn₂, hn₃, hn₄, hn'⟩⟩

/-! ## The lines around the cursor's -/

theorem Prompt.insertSpaces_keeps {t : UnicodeString} {pos : Int} (hpos : 0 ≤ pos)
    (h : m.Prompt n above t pos below) (hrun : NormalMode.insertSpaces k n = .ok n') :
    ∃ t' pos', m.Prompt n' above t' pos' below := by
  induction k generalizing n t pos with
  | zero =>
    cases hrun
    exact ⟨t, pos, h⟩
  | succ k ih =>
    obtain ⟨n₁, hn₁, hrun⟩ := bind_eq_ok.mp hrun
    have hblank : UnicodeString.isSingleAsciiWidth1 (bytes " ") = true := by decide
    exact ih (by omega) (h.goesTo ((h.insertChar hblank hpos).symm.trans hn₁)) hrun

theorem Prompt.insertNewline_keeps {t : UnicodeString} {pos : Int}
    (h : m.Prompt n above t pos below) (hrun : n.insertNewline = .ok n') :
    m.Prompt n' (above ++ [(t.split pos).1]) (t.split pos).2 0 below := by
  refine ⟨h.mode, ?_⟩
  rw [List.append_assoc, List.length_append]
  exact h.insertNewline.symm.trans hrun

omit [Ucd] in
theorem moveUp_lines (hrun : m.moveUp = .ok n) : n.input.lines = m.input.lines := by
  obtain ⟨p, -, hrun⟩ := bind_eq_ok.mp hrun
  dsimp only at hrun
  split at hrun
  · obtain ⟨row, -, hrun⟩ := bind_eq_ok.mp hrun
    obtain ⟨q, -, hrun⟩ := bind_eq_ok.mp hrun
    cases hrun
    rfl
  · cases hrun
    rfl

omit [Ucd] in
theorem goToLineEnd_lines (hrun : m.goToLineEnd = .ok n) : n.input.lines = m.input.lines := by
  obtain ⟨len, -, hrun⟩ := bind_eq_ok.mp hrun
  cases hrun
  rfl

/-- Whatever is around the cursor, the line is cut there and two more are put behind. -/
theorem Prompt.expandBraces_keeps {t : UnicodeString} {pos inner outer : Int}
    (h : m.Prompt m above t pos below) (hrun : expandBraces inner outer m = .ok n') :
    ∃ t₁ t₂, n'.input.lines = above ++ (t.split pos).1 :: t₁ :: t₂ :: below := by
  obtain ⟨n₁, n₂, n₃, n₄, hn₁, hn₂, hn₃, hn₄, hrun⟩ := expandBraces_eq_ok.mp hrun
  obtain ⟨n₅, hn₅, hrun⟩ := bind_eq_ok.mp hrun
  obtain ⟨t₂, pos₂, h₂⟩ := (h.insertNewline_keeps hn₁).insertSpaces_keeps (Int.le_refl 0) hn₂
  obtain ⟨t₄, pos₄, h₄⟩ := (h₂.insertNewline_keeps hn₃).insertSpaces_keeps (Int.le_refl 0) hn₄
  refine ⟨(t₂.split pos₂).1, t₄, ?_⟩
  rw [goToLineEnd_lines hrun, moveUp_lines hn₅, h₄.fields.1]
  simp

/-! ## The tokens of the three lines -/

omit [Ucd] in
theorem text_blanks (k : Nat) : UnicodeString.text (blanks k) = List.replicate k ' ' := by
  induction k with
  | zero => rfl
  | succ k ih =>
    rw [List.replicate_succ, ← ih]
    rfl

theorem leads_line {mode mode' : RLexer.Mode} {cs : List Char} {ts : List RLexer.Token}
    {t : UnicodeString} (hbytes : t.bytes = Utf8.encode cs) (h : RLexer.Lexes mode cs ts mode')
    (hle : ts.length ≤ 1000) : LexerCache.Leads RLexCache.lexer mode [t] mode' := by
  refine .cons (?_ : RLexer.lexLine mode t.bytes = .ok (ts, mode')) .nil
  rw [hbytes]
  exact RLexer.lexLine_of_lexes h hle

section
variable {us rest : List Char} {cache : RLexCache.Cache}
  {e : LexerCache.Entry RLexer.Token RLexer.Mode}
  (hcache : RLexCache.create (above ++ ofClusters [] (l ++ r) :: below) = .ok cache)
  (he : cache[above.length]? = some e) (hl : UnicodeString.text l = us ++ ['{'])
  (hr : UnicodeString.text r = '}' :: rest)
  (hreaches : RLexer.Reaches e.startMode (us ++ '{' :: '}' :: rest) .normal ('{' :: '}' :: rest))
include hcache he hl hr hreaches

/-- The tokens of a line with the cursor between two braces, before it and behind it. -/
theorem exists_brace_tokens :
    ∃ before after, e.tokens = before ++ .leftBrace :: .rightBrace :: after ∧
      RLexer.lexemes before = e.startMode.carried ++ Utf8.encode us ∧ e.tokens.length ≤ 1000 ∧
      RLexer.Lexes e.startMode (us ++ ['{']) (before ++ [.leftBrace]) .normal ∧
      RLexer.Lexes .normal ('}' :: rest) (.rightBrace :: after) e.endMode := by
  obtain ⟨e', m', he', -, hline, -⟩ := LexerCache.exists_entry hcache
  obtain rfl := Option.some.inj (he.symm.trans he')
  have htext : (ofClusters [] (l ++ r)).bytes = Utf8.encode (us ++ '{' :: '}' :: rest) := by
    rw [UnicodeString.bytes_ofClusters, UnicodeString.text_append, hl, hr]
    simp
  obtain ⟨before, after, mode, hlexemes, hwhole, hopen, hclose⟩ := hreaches.braces
  have hlexed : RLexer.lexLine e.startMode (Utf8.encode (us ++ '{' :: '}' :: rest)) =
      .ok (e.tokens, e.endMode) := htext ▸ hline
  obtain ⟨hlexes, hguard⟩ := RLexer.lexLine_encode hlexed
  obtain ⟨htokens, hend⟩ := hwhole.unique hlexes
  exact ⟨before, after, htokens.symm, hlexemes, hguard, hopen, hend ▸ hclose⟩

/-- The line is cut where no token is, and blanks are few tokens. -/
theorem lexesExpanding {inner outer : Nat} :
    LexesExpanding above l inner outer r below := by
  obtain ⟨e', m', he', habove, -, hbelow⟩ := LexerCache.exists_entry hcache
  obtain rfl := Option.some.inj (he.symm.trans he')
  obtain ⟨before, after, htokens, -, hguard, hopen, hclose⟩ :=
    exists_brace_tokens hcache he hl hr hreaches
  rw [htokens, List.length_append, List.length_cons, List.length_cons] at hguard
  have hbefore : LexerCache.Leads RLexCache.lexer e.startMode [ofClusters [] l] .normal := by
    refine leads_line ?_ hopen (by rw [List.length_append, List.length_singleton]; omega)
    rw [UnicodeString.bytes_ofClusters, hl, List.nil_append]
  have hclosing : ∀ j, LexerCache.Leads RLexCache.lexer .normal [ofClusters [] (blanks j ++ r)]
      e.endMode := by
    intro j
    obtain ⟨ts, hts, -, hjoined⟩ := RLexer.lexes_blanks j hclose
    refine leads_line ?_ hjoined (by rw [List.length_append, List.length_cons]; omega)
    rw [UnicodeString.bytes_ofClusters, UnicodeString.text_append, text_blanks, hr, List.nil_append]
  have hblanks : ∀ j, LexerCache.Leads RLexCache.lexer .normal [ofClusters [] (blanks j)]
      .normal := by
    intro j
    obtain ⟨ts, hts, hj, -⟩ := RLexer.lexes_blanks j hclose
    refine leads_line ?_ hj (by omega)
    rw [UnicodeString.bytes_ofClusters, text_blanks, List.nil_append]
  constructor
  · intro j _
    exact (habove.append (hbefore.append ((hclosing j).append hbelow))).createFrom
  · intro j _
    exact (habove.append (hbefore.append ((hblanks inner).append
      ((hclosing j).append hbelow)))).createFrom

/-- Where no opening delimiter is carried over from the line above, the tokens are as far from the
start of the line as their text. -/
theorem betweenBraces_of_carried (hcarried : e.startMode.carried = []) :
    RContinuation.BetweenBraces e.tokens (Utf8.encode (UnicodeString.text l)).length := by
  obtain ⟨before, after, htokens, hlexemes, -⟩ := exists_brace_tokens hcache he hl hr hreaches
  refine ⟨before, after, htokens, ?_⟩
  rw [hlexemes, hcarried, List.nil_append, hl, Utf8.encode_append, List.length_append]
  rfl

end

/-! ## Enter -/

open RContinuation (BetweenBraces insideEmptyBrackets insideEmptyBrackets_iff)
open REnter (continuationIndentSize leadingSpaces)

omit [Ucd] in
theorem edge_split : (ofClusters lead (l ++ r)).edge l.length =
    (Utf8.encode (lead ++ UnicodeString.text l)).length := by
  cases r with
  | nil =>
    rw [UnicodeString.edge_of_le (by simp), UnicodeString.bytes_ofClusters, List.append_nil]
  | cons s r => rw [UnicodeString.edge_of_lt (by simp), UnicodeString.offset_split]

omit [Ucd] in
theorem cursorByteOffset_split (hl : l ≠ []) : LexerCache.cursorByteOffset
    (ofClusters [] (l ++ s :: r)) l.length = (Utf8.encode (UnicodeString.text l)).length := by
  have hpos := List.length_pos_of_ne_nil hl
  have hlen : (l ++ s :: r).length = l.length + (r.length + 1) := List.length_append
  rw [LexerCache.cursorByteOffset, if_neg (by rw [UnicodeString.length_ofClusters]; omega),
    UnicodeString.sub_ofClusters (Int.le_refl 0) (by omega) (by omega)]
  simp [UnicodeString.byteLength, UnicodeString.bytes_ofClusters]

omit [Ucd] in
theorem withoutEffects_eq_ok {run : Res Model} :
    withoutEffects run = .ok (n, []) ↔ run = .ok n := by
  rw [withoutEffects, bind_eq_ok]
  constructor
  · rintro ⟨n', hn', heq⟩
    cases heq
    exact hn'
  · exact fun hn => ⟨n, hn, rfl⟩

theorem Prompt.entry {t : UnicodeString} {pos : Int}
    {e : LexerCache.Entry RLexer.Token RLexer.Mode} (h : m.Prompt m above t pos below)
    (he : m.input.lexCache[above.length]? = some e) :
    nth m.input.lines m.input.cursorLine = .ok t ∧ m.input.cursorPos = pos ∧
      LexerCache.getLineTokens m.input.lexCache m.input.cursorLine = .ok (some e.tokens) := by
  obtain ⟨-, hline, hpos, -⟩ := h.fields
  refine ⟨h.currentLine, hpos, ?_⟩
  rw [hline, LexerCache.getLineTokens, LexerCache.getEntry, if_neg (by omega), Int.toNat_natCast,
    he]
  rfl

/-- Enter between two braces, as the tokens of the line have them. -/
theorem Prompt.submit_inside {t : UnicodeString} {pos : Int}
    {e : LexerCache.Entry RLexer.Token RLexer.Mode} (h : m.Prompt m above t pos below)
    (he : m.input.lexCache[above.length]? = some e) (hblank : trim t.toBytes ≠ [])
    (hin : insideEmptyBrackets e.tokens (LexerCache.cursorByteOffset t pos) = true) :
    NormalMode.submit m = withoutEffects (expandBraces
      (leadingSpaces t.toBytes + continuationIndentSize) (leadingSpaces t.toBytes) m) := by
  obtain ⟨hnth, hpos, htokens⟩ := h.entry he
  rw [NormalMode.submit, REnter.action, hnth, hpos, htokens]
  simp only [bind, Except.bind, if_neg hblank, if_pos hin]
  rfl

/-- Elsewhere Enter adds a line at most, unless it sends the text. -/
theorem Prompt.submit_outside {t : UnicodeString} {pos : Int}
    {e : LexerCache.Entry RLexer.Token RLexer.Mode} (h : m.Prompt m above t pos below)
    (he : m.input.lexCache[above.length]? = some e)
    (hin : insideEmptyBrackets e.tokens (LexerCache.cursorByteOffset t pos) = false)
    (hrun : NormalMode.submit m = .ok (n', [])) :
    ∃ t₁ t₂, n'.input.lines = above ++ t₁ :: t₂ :: below := by
  obtain ⟨hnth, hpos, htokens⟩ := h.entry he
  have hsent : NormalMode.submitNormalText m ≠ .ok (n', []) := by
    intro hsent
    rw [NormalMode.submitNormalText] at hsent
    split at hsent
    · cases hsent
    · obtain ⟨cleared, -, hsent⟩ := bind_eq_ok.mp hsent
      cases hsent
  obtain ⟨action, haction, hrun⟩ := bind_eq_ok.mp hrun
  cases action with
  | submit => exact absurd hrun hsent
  | insertNewline indent =>
    obtain ⟨n₁, hn₁, hrun⟩ := bind_eq_ok.mp (withoutEffects_eq_ok.mp hrun)
    obtain ⟨t', pos', h'⟩ := (h.insertNewline_keeps hn₁).insertSpaces_keeps (Int.le_refl 0) hrun
    refine ⟨(t.split pos).1, t', ?_⟩
    rw [h'.fields.1]
    simp
  | expandBraces inner outer =>
    rw [REnter.action, hnth, hpos, htokens] at haction
    simp only [bind, Except.bind, hin, Bool.false_eq_true, if_false] at haction
    split at haction
    · cases haction
    · split at haction
      · cases haction
      · cases haction

/-- Where the cursor is in the bytes of its line. -/
def cut (m : Model) : Nat := m.line.edge m.input.cursorPos.toNat

/-- The blanks its line begins with. -/
def indent (m : Model) : Nat := (leadingSpaces m.line.toBytes).toNat

/-- The lexer comes to two braces next to each other, and the cursor is between them. -/
def AtBraces (m : Model) (e : LexerCache.Entry RLexer.Token RLexer.Mode) : Prop :=
  ∃ us rest, m.line.bytes = Utf8.encode (us ++ '{' :: '}' :: rest) ∧
    m.cut = (Utf8.encode us).length + 1 ∧
    RLexer.Reaches e.startMode (us ++ '{' :: '}' :: rest) .normal ('{' :: '}' :: rest)

/-- Enter puts three lines in place of the cursor's: what is before the cursor, blanks, and what is
behind it, indented as the line was. The cursor goes to the end of the one in between. -/
def Expanded (m : Model) : Prop :=
  ∃ (m' : Model) (before between closing : UnicodeString), NormalMode.submit m = .ok (m', []) ∧
    m'.input.lines = m.input.lines.take m.input.cursorLine.toNat ++
      before :: between :: closing :: m.input.lines.drop (m.input.cursorLine.toNat + 1) ∧
    before.bytes = m.line.bytes.take m.cut ∧
    between.bytes = List.replicate (m.indent + 2) 32 ∧
    closing.bytes = List.replicate m.indent 32 ++ m.line.bytes.drop m.cut ∧
    m'.input.cursorLine = m.input.cursorLine + 1 ∧ m'.input.cursorPos = between.length

theorem Prompt.line_eq {t : UnicodeString} {pos : Int} (h : m.Prompt n above t pos below) :
    n.line = t := by
  obtain ⟨hlines, hline, -⟩ := h.fields
  rw [line, hline, hlines]
  simp

theorem Prompt.expanded_split (h : m.Prompt m above (ofClusters lead (l ++ r)) l.length below) :
    m.Expanded ↔ ∃ (m' : Model) (before between closing : UnicodeString),
      NormalMode.submit m = .ok (m', []) ∧
      m'.input.lines = above ++ before :: between :: closing :: below ∧
      before.bytes = Utf8.encode (lead ++ UnicodeString.text l) ∧
      between.bytes = List.replicate (m.indent + 2) 32 ∧
      closing.bytes = List.replicate m.indent 32 ++ Utf8.encode (UnicodeString.text r) ∧
      m'.input.cursorLine = above.length + 1 ∧ m'.input.cursorPos = between.length := by
  obtain ⟨hlines, hline, hpos, -⟩ := h.fields
  have hat := h.line_eq
  have hcut : m.cut = (Utf8.encode (lead ++ UnicodeString.text l)).length := by
    rw [cut, hat, hpos, Int.toNat_natCast, edge_split]
  have hbytes : m.line.bytes = Utf8.encode (lead ++ UnicodeString.text l) ++
      Utf8.encode (UnicodeString.text r) := by
    rw [hat, UnicodeString.bytes_ofClusters, UnicodeString.text_append, ← List.append_assoc,
      Utf8.encode_append]
  have htake : m.input.lines.take above.length = above := by
    rw [hlines, List.take_left]
  have hdrop : m.input.lines.drop (above.length + 1) = below := by
    rw [hlines, List.drop_length_add_append]
    rfl
  rw [Expanded, hcut, hbytes, List.take_left, List.drop_left, hline, Int.toNat_natCast, htake,
    hdrop]

omit [Ucd] in
/-- The first of the lines that Enter makes is without what the text began with. -/
theorem bytes_split_fst (hr : r ≠ []) :
    ((ofClusters lead (l ++ r)).split l.length).1.bytes = Utf8.encode (UnicodeString.text l) := by
  by_cases hl : l = []
  · subst hl
    rfl
  · rw [split_ofClusters hl hr]
    rfl

omit [Ucd] in
theorem trim_ne_nil {u : Bytes} {c : UInt8} (hc : c ∈ u) (hkeep : isTrimmed c = false) :
    trim u ≠ [] := by
  intro hnil
  rw [forall_isTrimmed_of_trim hnil c hc] at hkeep
  cases hkeep

omit [Ucd] in
theorem blank_of_brace {rest : List Char} (hr : UnicodeString.text r = '}' :: rest) :
    trim (ofClusters lead (l ++ r)).toBytes ≠ [] := by
  have hbrace : (125 : UInt8) ∈ Utf8.encode (UnicodeString.text r) := by
    rw [hr, Utf8.encode_cons]
    exact List.mem_append_left _ (by decide)
  refine trim_ne_nil (c := 125) ?_ (by decide)
  rw [UnicodeString.toBytes, UnicodeString.bytes_ofClusters, UnicodeString.text_append,
    Utf8.encode_append, Utf8.encode_append]
  exact List.mem_append_right _ (List.mem_append_right _ hbrace)

omit [Ucd] in
theorem bytes_blanks (k : Nat) (r : List Cluster) : (ofClusters [] (blanks k ++ r)).bytes =
    List.replicate k 32 ++ Utf8.encode (UnicodeString.text r) := by
  rw [UnicodeString.bytes_ofClusters, UnicodeString.text_append, text_blanks, List.nil_append,
    Utf8.encode_append, Utf8.encode_replicate (b := 32) rfl]

section
variable {e : LexerCache.Entry RLexer.Token RLexer.Mode}
  (h : m.Prompt m above (ofClusters lead (l ++ s :: r)) l.length below)
  (he : m.input.lexCache[above.length]? = some e)
include h he

/-- A byte-order mark is lost. -/
theorem Prompt.not_expanded_marked
    (hblank : trim (ofClusters lead (l ++ s :: r)).toBytes ≠ []) (hlead : lead ≠ []) :
    ¬ m.Expanded := by
  rw [h.expanded_split]
  rintro ⟨m', before, between, closing, hrun, hlines, hbefore, -⟩
  cases hin : insideEmptyBrackets e.tokens
      (LexerCache.cursorByteOffset (ofClusters lead (l ++ s :: r)) l.length) with
  | true =>
    rw [h.submit_inside he hblank hin, withoutEffects_eq_ok] at hrun
    obtain ⟨t₁, t₂, hlines'⟩ := h.expandBraces_keeps hrun
    rw [hlines] at hlines'
    obtain ⟨rfl, -⟩ := List.cons.inj (List.append_cancel_left hlines')
    rw [bytes_split_fst (List.cons_ne_nil s r), Utf8.encode_append] at hbefore
    have hnil : Utf8.encode lead = Utf8.encode [] := List.self_eq_append_left.mp hbefore
    exact hlead (Utf8.encode_injective hnil)
  | false =>
    obtain ⟨t₁, t₂, hlines'⟩ := h.submit_outside he hin hrun
    have hlen := congrArg List.length (hlines.symm.trans hlines')
    simp only [List.length_append, List.length_cons] at hlen
    omega

/-- With its tokens where they are in the line, the cursor between two braces has Enter put the
three lines, and the row above is that of the closing brace or the line in between. -/
theorem Prompt.expanded_unmarked {us rest : List Char} (hlead : lead = [])
    (hne : ∀ c ∈ s :: r, c.1 ≠ []) (hl : UnicodeString.text l = us ++ ['{'])
    (hr : UnicodeString.text (s :: r) = '}' :: rest)
    (hreaches : RLexer.Reaches e.startMode (us ++ '{' :: '}' :: rest) .normal
      ('{' :: '}' :: rest)) :
    m.Expanded ↔ (e.startMode.carried = [] ∨
      BetweenBraces e.tokens (Utf8.encode (UnicodeString.text l)).length) ∧
        m.FirstRowHolds m.indent s.2 := by
  subst hlead
  have hlnil : l ≠ [] := by
    rintro rfl
    cases us <;> cases hl
  obtain ⟨hlines, -, -, hcache, -⟩ := h.fields
  rw [hlines] at hcache
  obtain ⟨e', -, he', -, hline, -⟩ := LexerCache.exists_entry hcache
  obtain rfl := Option.some.inj (he.symm.trans he')
  obtain ⟨cs, -, hlexes⟩ := RLexer.lexLine_lexes hline
  have hbetween : insideEmptyBrackets e.tokens
      (LexerCache.cursorByteOffset (ofClusters [] (l ++ s :: r)) l.length) = true ↔
      BetweenBraces e.tokens (Utf8.encode (UnicodeString.text l)).length := by
    rw [insideEmptyBrackets_iff hlexes.lexeme_ne_nil, cursorByteOffset_split hlnil]
  have hindent : leadingSpaces (ofClusters [] (l ++ s :: r)).toBytes = (m.indent : Int) := by
    rw [indent, h.line_eq]
    rfl
  rw [or_iff_right_of_imp (betweenBraces_of_carried hcache he hl hr hreaches), ← hbetween,
    h.expanded_split]
  cases hin : insideEmptyBrackets e.tokens
      (LexerCache.cursorByteOffset (ofClusters [] (l ++ s :: r)) l.length) with
  | false =>
    refine iff_of_false ?_ fun hnot => absurd hnot.1 Bool.false_ne_true
    rintro ⟨m', before, between, closing, hrun, hlines', -⟩
    obtain ⟨t₁, t₂, hkept⟩ := h.submit_outside he hin hrun
    have hlen := congrArg List.length (hlines'.symm.trans hkept)
    simp only [List.length_append, List.length_cons] at hlen
    omega
  | true =>
    have hblank : trim (ofClusters [] (l ++ s :: r)).toBytes ≠ [] := blank_of_brace hr
    have hinner : ((m.indent : Int) + continuationIndentSize) = (m.indent + 2 : Nat) := rfl
    have hlexesAll : LexesExpanding above l (m.indent + 2) m.indent (s :: r) below :=
      lexesExpanding hcache he hl hr hreaches
    obtain ⟨n', hn'⟩ := h.expandBraces_returns (Nat.succ_ne_zero _) hlnil hne hlexesAll
    obtain ⟨n, hn, hup⟩ := h.expandBraces_typed (Nat.succ_ne_zero (m.indent + 1)) hlnil
      (List.cons_ne_nil s r) hn'
    obtain ⟨n'', hn'', hlines', hfits, hnot⟩ := hn.moveUp_toLineEnd (Nat.succ_ne_zero _) hne
    obtain rfl := Except.ok.inj (hup.symm.trans hn'')
    rw [h.submit_inside he hblank hin, hindent, hinner]
    simp only [withoutEffects_eq_ok, hn', Except.ok.injEq, true_and]
    constructor
    · rintro ⟨m', before, between, closing, rfl, -, -, -, -, hline', -⟩
      by_contra hwide
      rw [hnot hwide] at hline'
      omega
    · intro hholds
      obtain ⟨hline', hpos'⟩ := hfits hholds
      refine ⟨n', _, _, _, rfl, hlines', rfl, ?_, bytes_blanks _ _, hline', ?_⟩
      · have hbytes := bytes_blanks (m.indent + 2) []
        rwa [List.append_nil, UnicodeString.text_nil, Utf8.encode_nil, List.append_nil] at hbytes
      · rw [hpos', UnicodeString.length_ofClusters, blanks_length]

end

/-- The text before the cursor ends with the first brace, and the second begins what is behind. -/
theorem Prompt.texts {us rest : List Char}
    (h : m.Prompt m above (ofClusters lead (l ++ r)) l.length below)
    (hbytes : m.line.bytes = Utf8.encode (us ++ '{' :: '}' :: rest))
    (hcut : m.cut = (Utf8.encode us).length + 1) :
    lead ++ UnicodeString.text l = us ++ ['{'] ∧ UnicodeString.text r = '}' :: rest := by
  have hlen : (Utf8.encode (lead ++ UnicodeString.text l)).length =
      (Utf8.encode (us ++ ['{'])).length := by
    rw [← edge_split (r := r), Utf8.encode_append us, List.length_append]
    rw [cut, h.line_eq, h.fields.2.2.1, Int.toNat_natCast] at hcut
    exact hcut
  have hsplit : Utf8.encode (lead ++ UnicodeString.text l) ++ Utf8.encode (UnicodeString.text r) =
      Utf8.encode (us ++ ['{']) ++ Utf8.encode ('}' :: rest) := by
    rw [← Utf8.encode_append, ← Utf8.encode_append, List.append_assoc, List.append_assoc,
      ← UnicodeString.text_append]
    rw [h.line_eq, UnicodeString.bytes_ofClusters] at hbytes
    exact hbytes
  obtain ⟨hbefore, hbehind⟩ := List.append_inj hsplit hlen
  exact ⟨Utf8.encode_injective hbefore, Utf8.encode_injective hbehind⟩

/-- Enter between two braces does what it is for when the line does not begin with a byte-order
mark, no opening delimiter carried over from the line above is counted with its text, and one row up
from the closing brace is the line in between. -/
theorem braces_expanded_iff {e : LexerCache.Entry RLexer.Token RLexer.Mode}
    (hmode : m.input.mode = .normal) (hwf : ∀ line ∈ m.input.lines, line.WellFormed)
    (hinv : m.invariants = true) (hlexed : RLexCache.create m.input.lines = .ok m.input.lexCache)
    (he : m.input.lexCache[m.input.cursorLine.toNat]? = some e) (hcursor : m.AtBraces e) :
    m.Expanded ↔ m.line.offset 0 = 0 ∧
      (e.startMode.carried = [] ∨ BetweenBraces e.tokens m.cut) ∧
      m.FirstRowHolds m.indent (m.line.widths.getD m.input.cursorPos.toNat 0) := by
  obtain ⟨us, rest, hbytes, hcut, hreaches⟩ := hcursor
  obtain ⟨above, below, lead, l, r, hcs, hline, hlen, h⟩ :=
    exists_prompt_split hmode hwf hinv hlexed
  obtain ⟨hl, hr⟩ := h.texts hbytes hcut
  obtain ⟨s, r, rfl⟩ : ∃ s r', r = s :: r' := by
    cases r with
    | nil => cases hr
    | cons s r => exact ⟨s, r, rfl⟩
  rw [h.fields.2.1, Int.toNat_natCast] at he
  have hwidth : m.line.widths.getD m.input.cursorPos.toNat 0 = s.2 := by
    rw [hline, hlen, Int.toNat_natCast]
    simp [ofClusters]
  have hoffset : m.line.offset 0 = 0 ↔ lead = [] := by
    have hpos : 0 < (l ++ s :: r).length := by
      rw [List.length_append, List.length_cons]
      omega
    rw [hline, UnicodeString.offset_ofClusters hpos, List.take_zero,
      UnicodeString.text_nil, List.append_nil, List.length_eq_zero_iff]
    exact ⟨fun hnil => Utf8.encode_injective (hnil : Utf8.encode lead = Utf8.encode []),
      fun hnil => congrArg Utf8.encode hnil⟩
  rw [hwidth, hoffset]
  by_cases hlead : lead = []
  · have hne : ∀ c ∈ s :: r, c.1 ≠ [] := fun c hc => hcs c (List.mem_append_right _ hc)
    rw [hlead, List.nil_append] at hl
    rw [h.expanded_unmarked he hlead hne hl hr hreaches, cut, hline, hlen, Int.toNat_natCast,
      edge_split]
    simp only [hlead, true_and, List.nil_append]
  · exact iff_of_false (h.not_expanded_marked he (blank_of_brace hr) hlead) fun hnot =>
      hlead hnot.1

end

section
open Update (initialModel)
open RContinuation (BetweenBraces)

attribute [local instance] asciiUcd

/-- Two braces behind four blanks, on a terminal where the second is in the next row. -/
def narrow : Res Model := do
  let m ← initialModel (History.init ⟨[], []⟩) 1 (prompt.length + 4) 24
  (← m.insertPaste (bytes "    \x7b\x7d")).moveLeft

theorem narrow_runs : ∃ m e m', narrow = .ok m ∧ m.input.mode = .normal ∧
    (∀ line ∈ m.input.lines, line.WellFormed) ∧ m.invariants = true ∧
    RLexCache.create m.input.lines = .ok m.input.lexCache ∧
    m.input.lexCache[m.input.cursorLine.toNat]? = some e ∧ m.AtBraces e ∧
    BetweenBraces e.tokens m.cut ∧ NormalMode.submit m = .ok (m', []) ∧
    m.input.cursorLine = 0 ∧ m'.input.cursorLine = 2 := by
  obtain ⟨m, e, m', hm, hmode, hlines, hinv, hlexed, he, hmode', hcut, htokens, hrun, hline,
      hline'⟩ : ∃ m e m', narrow = .ok m ∧ m.input.mode = .normal ∧
        m.input.lines = [ofClusters [] (blanks 4 ++ [ascii 123, ascii 125])] ∧
        m.invariants = true ∧ RLexCache.create m.input.lines = .ok m.input.lexCache ∧
        m.input.lexCache[m.input.cursorLine.toNat]? = some e ∧ e.startMode = .normal ∧
        m.cut = 5 ∧ e.tokens = [.whitespace (bytes "    "), .leftBrace, .rightBrace] ∧
        NormalMode.submit m = .ok (m', []) ∧ m.input.cursorLine = 0 ∧ m'.input.cursorLine = 2 :=
    ⟨_, _, _, rfl, rfl, rfl, rfl, rfl, rfl, rfl, rfl, rfl, rfl, rfl, rfl⟩
  have hat : m.line = ofClusters [] (blanks 4 ++ [ascii 123, ascii 125]) := by
    rw [line, hline, hlines]
    rfl
  have htoken : RLexer.token .normal (List.replicate 4 ' ' ++ ['{', '}']) =
      .ok (.whitespace (bytes "    "), .normal, ['{', '}']) := rfl
  refine ⟨m, e, m', hm, hmode, ?_, hinv, hlexed, he, ?_, ?_, hrun, hline, hline'⟩
  · intro t ht
    rw [hlines, List.mem_singleton] at ht
    subst ht
    exact UnicodeString.wellFormed_ofClusters (by decide)
  · refine ⟨List.replicate 4 ' ', [], by rw [hat]; rfl, hcut, ?_⟩
    rw [hmode']
    exact .next htoken (fun heof => by cases heof) .here
  · rw [htokens, hcut]
    exact ⟨[.whitespace (bytes "    ")], [], rfl, rfl⟩

/-- The cursor goes up to the row of the blanks before the brace, and from there to the end of that
line. -/
theorem narrow_not_expanded : ∃ m e, narrow = .ok m ∧ m.input.mode = .normal ∧
    (∀ line ∈ m.input.lines, line.WellFormed) ∧ m.invariants = true ∧
    RLexCache.create m.input.lines = .ok m.input.lexCache ∧
    m.input.lexCache[m.input.cursorLine.toNat]? = some e ∧ m.AtBraces e ∧
    BetweenBraces e.tokens m.cut ∧ ¬ m.Expanded := by
  obtain ⟨m, e, m', hm, hmode, hwf, hinv, hlexed, he, hat, hbetween, hrun, hline, hline'⟩ :=
    narrow_runs
  refine ⟨m, e, hm, hmode, hwf, hinv, hlexed, he, hat, hbetween, ?_⟩
  rintro ⟨m'', -, -, -, hrun', -, -, -, -, hline'', -⟩
  obtain rfl := (Prod.mk.inj (Except.ok.inj (hrun.symm.trans hrun'))).1
  rw [hline, hline'] at hline''
  cases hline''

theorem braces_expanded_iff_narrow : ∃ m e, narrow = .ok m ∧ m.AtBraces e ∧
    (m.Expanded ↔ m.line.offset 0 = 0 ∧
      (e.startMode.carried = [] ∨ BetweenBraces e.tokens m.cut) ∧
      m.FirstRowHolds m.indent (m.line.widths.getD m.input.cursorPos.toNat 0)) := by
  obtain ⟨m, e, -, hm, hmode, hwf, hinv, hlexed, he, hat, -⟩ := narrow_runs
  exact ⟨m, e, hm, hat, braces_expanded_iff hmode hwf hinv hlexed he hat⟩

end

end Model
end Raoui
