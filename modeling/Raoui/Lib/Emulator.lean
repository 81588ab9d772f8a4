import Raoui.Lib.Screen
import Raoui.Lib.Sgr

/-!
# Terminal emulators

A terminal that reads bytes. Text is put into the line with the cursor, in the face that is
selected; control sequences place the cursor and erase.

* `Emulates`: what some bytes do to an emulator is what a command does to its screen.
* `emulates_place`, `emulates_erase`, `emulates_newline`, `emulates_write`: bytes for each command.
* `read_silent`: an input that shows nothing is one for the selection of faces alone.
-/

namespace Terminal

open Sgr (Cell Face Sequence)

/-- How a byte is put into a line at a column, and which column comes next. -/
structure Raster (ρ : Type) where
  blank : ρ
  put : ρ × Int → Cell → ρ × Int
  erase : ρ → Int → ρ
  erase_all : ∀ l, erase l 1 = blank

variable {ρ τ : Type}

/-- Texts are written cell by cell. -/
def Raster.device (r : Raster ρ) (cells : τ → List Cell) : Device ρ τ where
  blank := r.blank
  write l col text := ((cells text).foldl r.put (l, col)).1
  erase := r.erase
  erase_all := r.erase_all

/-- The lines, taken apart at the cursor. -/
structure Grid (ρ : Type) where
  above : List ρ
  line : ρ
  below : List ρ
  col : Int

namespace Grid

def all (g : Grid ρ) : List ρ := g.above ++ g.line :: g.below

/-- A place off the screen is moved onto it. -/
def place (h : Nat) (row col : Int) (g : Grid ρ) : Grid ρ :=
  let row := max 1 (min row h)
  match Screen.fromRow h g.all row with
  | [] => g
  | line :: below => ⟨Screen.aboveRow h g.all row, line, below, max 1 col⟩

theorem place_of_fromRow {h : Nat} {row col : Int} {g : Grid ρ} {line : ρ} {below : List ρ}
    (h1 : 1 ≤ row) (hlast : row ≤ h) (hfirst : 1 ≤ col)
    (hrest : Screen.fromRow h g.all row = line :: below) :
    g.place h row col = ⟨Screen.aboveRow h g.all row, line, below, col⟩ := by
  have hmin : max 1 (min row h) = row := by omega
  have hmax : max 1 col = col := by omega
  unfold place
  dsimp only
  rw [hmin, hmax, hrest]

/-- The terminal's driver puts a carriage return in front of every newline. -/
def newline (r : Raster ρ) (g : Grid ρ) : Grid ρ :=
  match g.below with
  | [] => ⟨g.above ++ [g.line], r.blank, [], 1⟩
  | line :: below => ⟨g.above ++ [g.line], line, below, 1⟩

def erase (r : Raster ρ) (g : Grid ρ) : Grid ρ := { g with line := r.erase g.line g.col }

def put (r : Raster ρ) (cell : Cell) (g : Grid ρ) : Grid ρ :=
  if cell.1 = 10 then g.newline r
  else
    let (line, col) := r.put (g.line, g.col) cell
    { g with line, col }

end Grid

/-- The grid of a screen whose column may be unknown. -/
structure Screen.Of (s : Screen ρ) (g : Grid ρ) : Prop where
  above : s.above = g.above
  line : s.line = g.line
  below : s.below = g.below
  col : ∀ c, s.col = some c → c = g.col

abbrev Emulator (ρ : Type) : Type := Sgr.Terminal (Grid ρ)

/-- What sequences other than selections of a face do: `H` places the cursor and `K` erases. -/
def sequence (r : Raster ρ) (h : Nat) : Sequence → Face × Grid ρ → Face × Grid ρ
  | .csi body final, (face, g) =>
    if final = 72 then
      match Sgr.params 0 body with
      | [row, col] => (face, g.place h row col)
      | _ => (face, g)
    else if final = 75 ∧ body = [] then (face, g.erase r)
    else (face, g)
  | .other _, s => s

namespace Emulator

def step (r : Raster ρ) (h : Nat) (t : Emulator ρ) (c : UInt8) : Emulator ρ :=
  if t.mode = .ground ∧ c ≠ 27 then { t with other := t.other.put r (c, t.face) }
  else Sgr.Terminal.step (sequence r h) t c

def read (r : Raster ρ) (h : Nat) (t : Emulator ρ) (s : List UInt8) : Emulator ρ :=
  s.foldl (step r h) t

variable {r : Raster ρ} {h : Nat} {t : Emulator ρ}

theorem read_append (u v : List UInt8) : read r h t (u ++ v) = read r h (read r h t u) v :=
  List.foldl_append

theorem read_silent {s : List UInt8} (hs : t.cells (sequence r h) s = []) :
    read r h t s = t.after (sequence r h) s := by
  induction s generalizing t with
  | nil => rfl
  | cons c s ih =>
    obtain ⟨hc, hs⟩ := List.append_eq_nil_iff.mp hs
    have hstep : step r h t c = Sgr.Terminal.step (sequence r h) t c := by
      refine if_neg fun hshown => ?_
      rw [Sgr.Terminal.shown, if_pos hshown] at hc
      exact List.cons_ne_nil _ _ hc
    have hrest := ih hs
    rw [← hstep] at hrest
    show read r h (step r h t c) s = (Sgr.Terminal.step (sequence r h) t c).after (sequence r h) s
    rw [← hstep, hrest]

/-- Text without line feeds goes into the line with the cursor. -/
theorem read_text (ht : t.mode = .ground) {s : List UInt8} (hs : ∀ c ∈ s, c ≠ 27 ∧ c ≠ 10) :
    (read r h t s).mode = .ground ∧ (read r h t s).face = t.face ∧
      (read r h t s).other.above = t.other.above ∧ (read r h t s).other.below = t.other.below ∧
      ((read r h t s).other.line, (read r h t s).other.col) =
        (s.map fun c => (c, t.face)).foldl r.put (t.other.line, t.other.col) := by
  induction s generalizing t with
  | nil => exact ⟨ht, rfl, rfl, rfl, rfl⟩
  | cons c s ih =>
    obtain ⟨⟨hescape, hfeed⟩, hs⟩ := List.forall_mem_cons.mp hs
    have hstep : step r h t c = { t with other := t.other.put r (c, t.face) } :=
      if_pos ⟨ht, hescape⟩
    let next := r.put (t.other.line, t.other.col) (c, t.face)
    have hput : t.other.put r (c, t.face) = ⟨t.other.above, next.1, t.other.below, next.2⟩ :=
      if_neg hfeed
    rw [hput] at hstep
    have hread : read r h t (c :: s) =
        read r h ⟨t.mode, t.face, t.other.above, next.1, t.other.below, next.2⟩ s := by
      show read r h (step r h t c) s = _
      rw [hstep]
    rw [hread]
    exact ih ht hs

/-- A sequence with digits and semicolons between its introducer and its final byte. -/
theorem read_csi (ht : t.mode = .ground) {body : List UInt8} (hbody : Sgr.isSelection body = true)
    {final : UInt8} (hnext : Sgr.nextMode (.csi body) final = .ground)
    (hdone : Sgr.completed (.csi body) final = some (.csi body final)) (hfinal : final ≠ 109) :
    read r h t (27 :: 91 :: (body ++ [final])) =
      ⟨.ground, (sequence r h (.csi body final) (t.face, t.other)).1,
        (sequence r h (.csi body final) (t.face, t.other)).2⟩ := by
  obtain ⟨m, f, g⟩ := t
  obtain rfl : m = .ground := ht
  obtain ⟨hcells, hafter⟩ := @Sgr.Terminal.read_body _ (sequence r h) [] f g body hbody
  have hlast : (⟨.csi body, f, g⟩ : Emulator ρ).after (sequence r h) [final] =
      ⟨.ground, (sequence r h (.csi body final) (f, g)).1,
        (sequence r h (.csi body final) (f, g)).2⟩ := by
    show Sgr.Terminal.step (sequence r h) ⟨.csi body, f, g⟩ final = _
    rw [Sgr.Terminal.step, hdone, hnext]
    show Sgr.Terminal.mk .ground (Sgr.perform (sequence r h) (.csi body final) (f, g)).1
      (Sgr.perform (sequence r h) (.csi body final) (f, g)).2 = _
    rw [Sgr.perform, if_neg fun hselect => hfinal hselect.1]
  have hopen : (27 :: 91 :: (body ++ [final]) : List UInt8) = [27, 91] ++ (body ++ [final]) := rfl
  have hcsi : (⟨.ground, f, g⟩ : Emulator ρ).after (sequence r h) [27, 91] = ⟨.csi [], f, g⟩ := rfl
  have hsilent : (⟨.ground, f, g⟩ : Emulator ρ).cells (sequence r h)
      (27 :: 91 :: (body ++ [final])) = [] := by
    rw [hopen, Sgr.Terminal.cells_append, hcsi, Sgr.Terminal.cells_append, hcells, hafter]
    rfl
  rw [read_silent hsilent, hopen, Sgr.Terminal.after_append, hcsi, Sgr.Terminal.after_append, hafter,
    List.nil_append, hlast]

end Emulator

/-! ## Commands -/

/-- Where the command runs on a screen, the bytes do the same to an emulator that shows it. -/
def Emulates (r : Raster ρ) (h : Nat) (cells : τ → List Cell) (s : List UInt8) (c : Command τ) :
    Prop :=
  ∀ ⦃t : Emulator ρ⦄ ⦃screen screen' : Screen ρ⦄, t.mode = .ground → screen.Of t.other →
    Screen.step (r.device cells) h screen c = some screen' →
    (t.read r h s).mode = .ground ∧ screen'.Of (t.read r h s).other

variable {r : Raster ρ} {h : Nat} {cells : τ → List Cell}

theorem Screen.Of.all_eq {s : Screen ρ} {g : Grid ρ} (hs : s.Of g) : s.all = g.all := by
  rw [Screen.all, Grid.all, hs.above, hs.line, hs.below]

/-- Two numbers with a semicolon between them are the body of a sequence. -/
theorem isSelection_pair {row col : List UInt8} (hrow : ∀ c ∈ row, Sgr.isDigit c = true)
    (hcol : ∀ c ∈ col, Sgr.isDigit c = true) : Sgr.isSelection (row ++ 59 :: col) = true := by
  rw [Sgr.isSelection, List.all_append, List.all_cons, Bool.and_eq_true, Bool.and_eq_true]
  refine ⟨List.all_eq_true.mpr fun c hc => ?_, rfl, List.all_eq_true.mpr fun c hc => ?_⟩
  · rw [hrow c hc]
    rfl
  · rw [hcol c hc]
    rfl

theorem emulates_place {row col : List UInt8} (hrow : ∀ c ∈ row, Sgr.isDigit c = true)
    (hcol : ∀ c ∈ col, Sgr.isDigit c = true) :
    Emulates r h cells (27 :: 91 :: ((row ++ 59 :: col) ++ [72]))
      (.place (Sgr.value 0 row) (Sgr.value 0 col)) := by
  intro t s s' ht hs hstep
  have hparams : Sgr.params 0 (row ++ 59 :: col) = [Sgr.value 0 row, Sgr.value 0 col] := by
    rw [(Sgr.params_digits hrow 0).2, (Sgr.params_digits hcol 0).1]
  have hread := @Emulator.read_csi _ r h t ht _ (isSelection_pair hrow hcol) 72 rfl rfl (by decide)
  have hplace : sequence r h (.csi (row ++ 59 :: col) 72) (t.face, t.other) =
      (t.face, t.other.place h (Sgr.value 0 row) (Sgr.value 0 col)) := by
    rw [sequence, if_pos rfl, hparams]
  rw [hplace] at hread
  rw [hread]
  refine ⟨rfl, ?_⟩
  rw [Screen.step] at hstep
  split at hstep
  · rename_i hin
    obtain ⟨h1, hlast, hfirst⟩ := hin
    split at hstep
    · cases hstep
    · rename_i line below hrest
      cases hstep
      have hgrid := Grid.place_of_fromRow h1 hlast hfirst (hs.all_eq ▸ hrest)
      show Screen.Of _ (t.other.place h _ _)
      rw [hgrid, ← hs.all_eq]
      exact ⟨rfl, rfl, rfl, fun c hc => (Option.some.inj hc).symm⟩
  · cases hstep

theorem emulates_erase : Emulates r h cells [27, 91, 75] .erase := by
  intro t s s' ht hs hstep
  have hread := @Emulator.read_csi _ r h t ht [] rfl 75 rfl rfl (by decide)
  have herase : sequence r h (.csi [] 75) (t.face, t.other) = (t.face, t.other.erase r) := rfl
  rw [herase] at hread
  rw [List.nil_append] at hread
  rw [hread]
  refine ⟨rfl, ?_⟩
  obtain ⟨c, hc, hstep⟩ := Option.map_eq_some_iff.mp hstep
  cases hstep
  refine ⟨hs.above, ?_, hs.below, hs.col⟩
  show r.erase s.line c = r.erase t.other.line t.other.col
  rw [hs.line, hs.col c hc]

theorem emulates_newline : Emulates r h cells [10] .newline := by
  intro t s s' ht hs hstep
  have hread : t.read r h [10] = { t with other := t.other.newline r } := by
    show Emulator.step r h t 10 = _
    exact if_pos ⟨ht, by decide⟩
  rw [hread]
  refine ⟨ht, ?_⟩
  rw [Screen.step, hs.below] at hstep
  cases hbelow : t.other.below with
  | nil =>
    rw [hbelow] at hstep
    cases hstep
    have hgrid : t.other.newline r = ⟨t.other.above ++ [t.other.line], r.blank, [], 1⟩ := by
      rw [Grid.newline, hbelow]
    show Screen.Of _ (t.other.newline r)
    rw [hgrid]
    exact ⟨by rw [hs.above, hs.line], rfl, rfl, fun c hc => (Option.some.inj hc).symm⟩
  | cons line below =>
    rw [hbelow] at hstep
    cases hstep
    have hgrid : t.other.newline r = ⟨t.other.above ++ [t.other.line], line, below, 1⟩ := by
      rw [Grid.newline, hbelow]
    show Screen.Of _ (t.other.newline r)
    rw [hgrid]
    exact ⟨by rw [hs.above, hs.line], rfl, rfl, fun c hc => (Option.some.inj hc).symm⟩

/-- A text is written when its bytes put its cells into the line. -/
theorem emulates_write {s : List UInt8} {text : τ}
    (hs : ∀ t : Emulator ρ, t.mode = .ground → (t.read r h s).mode = .ground ∧
      (t.read r h s).other.above = t.other.above ∧ (t.read r h s).other.below = t.other.below ∧
      ((t.read r h s).other.line, (t.read r h s).other.col) =
        (cells text).foldl r.put (t.other.line, t.other.col)) :
    Emulates r h cells s (.write text) := by
  intro t screen screen' ht hscreen hstep
  obtain ⟨hmode, habove, hbelow, hline⟩ := hs t ht
  obtain ⟨c, hc, hstep⟩ := Option.map_eq_some_iff.mp hstep
  cases hstep
  refine ⟨hmode, ⟨hscreen.above.trans habove.symm, ?_, hscreen.below.trans hbelow.symm, ?_⟩⟩
  · show ((cells text).foldl r.put (screen.line, c)).1 = _
    rw [hscreen.line, hscreen.col c hc, ← hline]
  · intro c hc
    cases hc

end Terminal
