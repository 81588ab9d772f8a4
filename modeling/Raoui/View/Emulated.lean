import Raoui.Lib.Emulator
import Raoui.View.Ansi
import Raoui.View.Legible
import Raoui.View.Painted

/-!
# Raoui.View.Emulated

`render` of `lib/terminal_ops.ml`: the bytes that a view is written in. A terminal that reads them
draws what the operations draw, as long as no text of the model has an Escape or a line feed.

* `render_runs`: the bytes of operations that run on a screen.
* `view_emulated`: the bytes of a whole view.
-/

namespace Raoui
namespace TerminalOps

open Ffi (decimal decimalInt)
open Sgr (Cell)
open Terminal (Raster Screen Emulator Emulates Grid)
open Terminal.Emulator (read read_append read_silent read_text)
open Theme (T)
open View (command commands LegibleText LegibleSpan LegibleSpans LegibleOps)

def csi : Bytes := bytes "\x1b["

def renderOpAnsi (theme : T) : Op → Bytes
  | .print spans => renderSpans theme spans
  | .newline => bytes "\n"
  | .cursorTo row col => csi ++ decimalInt row ++ bytes ";" ++ decimalInt col ++ bytes "H"
  | .clearToEol => csi ++ bytes "K"
  | .showCursor => csi ++ bytes "?25h"
  | .hideCursor => csi ++ bytes "?25l"

def render (theme : T) (ops : List Op) : Bytes := ops.flatMap (renderOpAnsi theme)

/-- The face of a style; a raw text is shown by a terminal that has been reset. -/
def faceOf (theme : T) (style : Style) : Sgr.Face :=
  if style = .raw then Sgr.plain else shownFace (styleToFace theme style)

/-- The cells that a span is shown as. -/
def spanCells (theme : T) (span : Span) : List Cell :=
  span.2.map fun c => (c, faceOf theme span.1)

def cells (theme : T) (spans : List Span) : List Cell := spans.flatMap (spanCells theme)

variable {ρ : Type} {r : Raster ρ} {h : Nat} {name : Bytes} {t : Emulator ρ}

theorem read_reset (ht : t.mode = .ground) : read r h t reset = { t with face := Sgr.plain } := by
  obtain ⟨hcells, hafter⟩ := reset_reads ht
  rw [read_silent hcells, hafter]

theorem read_style {style : Style} (hstyle : style.Named) (ht : t.mode = .ground) :
    read r h t (styleToAnsi (Theme.ofName name) style) =
      { t with face := faceOf (Theme.ofName name) style } := by
  unfold styleToAnsi faceOf
  split
  · exact read_reset ht
  · have hvalid : (styleToFace (Theme.ofName name) style).Valid :=
      styleToFace_valid name fun f hf => absurd hf (hstyle f)
    obtain ⟨hcells, hafter⟩ := faceToAnsi_reads hvalid ht
    rw [read_silent hcells, hafter]

/-- The spans put their cells into the line with the cursor. -/
theorem read_spans {spans : List Span} (hspans : LegibleSpans spans) (ht : t.mode = .ground) :
    let t' := read r h t
      (spans.flatMap fun span => styleToAnsi (Theme.ofName name) span.1 ++ span.2)
    t'.mode = .ground ∧ t'.other.above = t.other.above ∧ t'.other.below = t.other.below ∧
      (t'.other.line, t'.other.col) =
        (cells (Theme.ofName name) spans).foldl r.put (t.other.line, t.other.col) := by
  induction spans generalizing t with
  | nil => exact ⟨ht, rfl, rfl, rfl⟩
  | cons span spans ih =>
    obtain ⟨⟨hnamed, htext⟩, hspans⟩ := List.forall_mem_cons.mp hspans
    dsimp only
    rw [List.flatMap_cons, List.append_assoc, read_append, read_append,
      read_style hnamed ht]
    obtain ⟨hmode, hface, habove, hbelow, hline⟩ := read_text (r := r) (h := h)
      (t := { t with face := faceOf (Theme.ofName name) span.1 }) ht htext
    obtain ⟨hmode', habove', hbelow', hline'⟩ := ih hspans hmode
    refine ⟨hmode', habove'.trans habove, hbelow'.trans hbelow, hline'.trans ?_⟩
    have hcells : cells (Theme.ofName name) (span :: spans) =
        spanCells (Theme.ofName name) span ++ cells (Theme.ofName name) spans := List.flatMap_cons
    rw [hcells, List.foldl_append, hline]
    rfl

theorem emulates_print {spans : List Span} (hspans : LegibleSpans spans) :
    Emulates r h (cells (Theme.ofName name)) (renderSpans (Theme.ofName name) spans)
      (.write spans) := by
  refine Terminal.emulates_write fun t ht => ?_
  obtain ⟨hmode, habove, hbelow, hline⟩ := read_spans (r := r) (h := h) hspans ht
  rw [renderSpans, read_append, read_reset hmode]
  exact ⟨hmode, habove, hbelow, hline⟩

theorem emulates_cursorTo {f : List Span → List Cell} (theme : T) (row col : Int) :
    Emulates r h f (renderOpAnsi theme (.cursorTo row col)) (.place row col) := by
  intro t s s' ht hs hstep
  have hin : 1 ≤ row ∧ row ≤ h ∧ 1 ≤ col := by
    rw [Screen.step] at hstep
    split at hstep
    · assumption
    · cases hstep
  obtain ⟨n, rfl⟩ := Int.eq_ofNat_of_zero_le (show 0 ≤ row by omega)
  obtain ⟨k, rfl⟩ := Int.eq_ofNat_of_zero_le (show 0 ≤ col by omega)
  have hplace : Emulates r h f _ _ := Terminal.emulates_place (isCode_decimal n) (isCode_decimal k)
  rw [value_decimal, value_decimal] at hplace
  have hbytes : renderOpAnsi theme (.cursorTo n k) =
      27 :: 91 :: ((decimal n ++ 59 :: decimal k) ++ [72]) := by
    show [27, 91] ++ decimal n ++ [59] ++ decimal k ++ [72] = _
    simp only [List.append_assoc, List.cons_append, List.nil_append]
  rw [hbytes]
  exact hplace ht hs hstep

theorem read_showCursor (theme : T) (ht : t.mode = .ground) {op : Op}
    (hop : op = .showCursor ∨ op = .hideCursor) : read r h t (renderOpAnsi theme op) = t := by
  obtain ⟨m, f, g⟩ := t
  obtain rfl : m = .ground := ht
  obtain rfl | rfl := hop
  · exact read_silent (t := ⟨.ground, f, g⟩) rfl
  · exact read_silent (t := ⟨.ground, f, g⟩) rfl

/-- A terminal that shows a screen does on the bytes what the screen does on the operations. -/
theorem render_runs {ops : List Op} (hops : LegibleOps ops) {s s' : Screen ρ} (ht : t.mode = .ground)
    (hs : s.Of t.other)
    (hrun : Screen.run (r.device (cells (Theme.ofName name))) h s (commands ops) = some s') :
    (t.read r h (render (Theme.ofName name) ops)).mode = .ground ∧
      s'.Of (t.read r h (render (Theme.ofName name) ops)).other := by
  induction ops generalizing t s with
  | nil =>
    cases hrun
    exact ⟨ht, hs⟩
  | cons op ops ih =>
    obtain ⟨hop, hrest⟩ := List.forall_mem_cons.mp hops
    rw [render, List.flatMap_cons, read_append]
    have hnext {c : Terminal.Command (List Span)} (hc : command op = some c)
        (hbytes : Emulates r h (cells (Theme.ofName name)) (renderOpAnsi (Theme.ofName name) op) c) :
        (read r h (read r h t (renderOpAnsi (Theme.ofName name) op))
          (render (Theme.ofName name) ops)).mode = .ground ∧
        s'.Of (read r h (read r h t (renderOpAnsi (Theme.ofName name) op))
          (render (Theme.ofName name) ops)).other := by
      have hcommands : commands (op :: ops) = c :: commands ops := List.filterMap_cons_some hc
      rw [hcommands] at hrun
      obtain ⟨s₁, hstep, hrun⟩ := Option.bind_eq_some_iff.mp hrun
      obtain ⟨hmode, hscreen⟩ := hbytes ht hs hstep
      exact ih hrest hmode hscreen hrun
    cases op with
    | print spans => exact hnext rfl (emulates_print (hop spans rfl))
    | newline => exact hnext rfl Terminal.emulates_newline
    | cursorTo row col => exact hnext rfl (emulates_cursorTo _ row col)
    | clearToEol => exact hnext rfl Terminal.emulates_erase
    | showCursor =>
      rw [read_showCursor _ ht (.inl rfl)]
      exact ih hrest ht hs hrun
    | hideCursor =>
      rw [read_showCursor _ ht (.inr rfl)]
      exact ih hrest ht hs hrun

end TerminalOps

namespace View

open Terminal (Device Raster Emulator Screen)
open Terminal.Screen (aboveRow)
open TerminalOps (Span Op)

variable {ρ : Type}

section
variable [Ucd]

end

/-! ## Braces on a screen of three rows -/

/-- A line is the bytes that have been written into it. -/
def typewriter : Raster Bytes where
  blank := []
  put := fun s cell => (s.1.take (s.2 - 1).toNat ++ [cell.1] ++ s.1.drop s.2.toNat, s.2 + 1)
  erase := fun l col => l.take (col - 1).toNat
  erase_all := fun _ => rfl

/-- A full screen, with a face selected. -/
def fullTerminal : Emulator Bytes :=
  ⟨.ground, { Sgr.plain with bold := true }, [bytes "a", bytes "b"], bytes "c", [], 2⟩

section

attribute [local instance] asciiUcd

def typedBraces : Res (Model × List Op) := do
  let m ← Update.initialModel (History.init ⟨[], []⟩) 3 80 3
  let (m, _) ← Update.update (.key (.char (bytes "\x7b"))) m
  let (m, _) ← Update.update (.key .enter) m
  return (m, ← viewOps m)

/-- The braces' view draws `expected` over the lines. -/
def bracesDraw {ρ : Type} [DecidableEq ρ] (d : Device ρ (List Span)) (lines expected : List ρ) : Bool :=
  match typedBraces with
  | .error _ => false
  | .ok (m, _) =>
    match m.cursorTerminalPos, wrappedRows m, viewSearchPager m with
    | .ok cursor, .ok rows, .ok pager =>
      m.layout.termHeight = 3 && m.layout.promptTopRow = 1 && m.input.mode = .normal &&
        m.input.completion = none &&
        (placeCursor m cursor.2 (absoluteCursorPos m cursor.1 cursor.2) = .cursorTo 2 5 &&
          painted d m rows cursor pager lines = expected)
    | _, _, _ => false

theorem typedBraces_draw {ρ : Type} [DecidableEq ρ] (d : Device ρ (List Span))
    (lines expected : List ρ) (h : bracesDraw d lines expected = true) :
    ∃ m ops cursor rows pager, typedBraces = .ok (m, ops) ∧ viewOps m = .ok ops ∧ DrawsWithin m ∧
      m.layout.termHeight = 3 ∧ m.input.mode = .normal ∧ m.input.completion = none ∧
      m.cursorTerminalPos = .ok cursor ∧ wrappedRows m = .ok rows ∧ viewSearchPager m = .ok pager ∧
      painted d m rows cursor pager lines = expected := by
  unfold bracesDraw at h
  split at h
  · cases h
  · rename_i m ops htyped
    split at h
    · rename_i cursor rows pager hcursor hrows hpager
      simp only [Bool.and_eq_true, decide_eq_true_eq] at h
      obtain ⟨⟨⟨⟨hheight, htop⟩, hmode⟩, hnone⟩, hplace, hpainted⟩ := h
      have hops : viewOps m = .ok ops := by
        obtain ⟨_, -, htyped⟩ := Outcome.bind_eq_ok.mp htyped
        obtain ⟨_, -, htyped⟩ := Outcome.bind_eq_ok.mp htyped
        obtain ⟨_, -, htyped⟩ := Outcome.bind_eq_ok.mp htyped
        obtain ⟨_, hops, htyped⟩ := Outcome.bind_eq_ok.mp htyped
        cases htyped
        exact hops
      refine ⟨m, ops, cursor, rows, pager, htyped, hops, ?_, hheight, hmode, hnone, hcursor, hrows,
        hpager, hpainted⟩
      constructor
      · omega
      · omega
      · intro row col r c hpos hto
        cases hpos.symm.trans hcursor
        cases hto.symm.trans hplace
        omega
      · intro row col _ hshown
        rw [shouldShowCompletions, hnone, Bool.and_false] at hshown
        cases hshown
    · cases h

def bracesLegible : Bool :=
  match typedBraces with
  | .ok (m, _) => m.input.lines.all fun line => LegibleText line.toBytes
  | .error _ => false

end

end View
end Raoui
