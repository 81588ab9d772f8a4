import Raoui.Lib.Outcome
import Raoui.Editor.Update
import Raoui.Lib.Screen
import Raoui.View.View

/-!
# Raoui.View.Painted

What the operations of a view leave on a terminal. The lines above the prompt, those on the screen
and those that have scrolled off it, stay as they are; below them are the rows of the prompt, and
nothing else but what is put over them.

* `canvas`: the lines without completions and the search pager.
* `view_paints`: the operations draw it.
-/

namespace Raoui
namespace View

open Terminal (Device Command Screen)
open Terminal.Screen (run aboveRow fromRow rowIndex modifyRow writeRows eraseRows Patch writePatches
  patched)
open TerminalOps (Span Op)

/-- What an operation is to the terminal; whether the cursor can be seen makes no difference. -/
def command : Op → Option (Command (List Span))
  | .print spans => some (.write spans)
  | .newline => some .newline
  | .cursorTo row col => some (.place row col)
  | .clearToEol => some .erase
  | .showCursor | .hideCursor => none

def commands (ops : List Op) : List (Command (List Span)) := ops.filterMap command

theorem commands_append (ops ops' : List Op) : commands (ops ++ ops') = commands ops ++ commands ops' :=
  List.filterMap_append

/-! ## What is to be drawn -/

/-- The text of row `i` with what stands left of it. -/
def rowSpans (m : Model) (i : Nat) (content : List Span) : List Span :=
  match rowPrompt m.input.mode i m.repl.awaitingResponse with
  | .ok p => (promptStyle m.input.mode, p) :: content
  | .error _ => content

/-- Row `i` of the prompt is on the screen. -/
def inViewport (m : Model) (i : Nat) : Bool :=
  skipRows m ≤ i && i < skipRows m + m.layout.termHeight

/-- The rows on the screen, from the `i`th on. -/
def shownFrom (m : Model) (i : Nat) (rows : List (List Span)) : List (List Span) :=
  ((rows.zipIdx i).filter fun r => inViewport m r.2).map fun r => rowSpans m r.2 r.1

def shownRows (m : Model) (rows : List (List Span)) : List (List Span) := shownFrom m 0 rows

variable {ρ : Type} (d : Device ρ (List Span)) (m : Model)

/-- The lines, once the screen has been scrolled and the prompt been drawn. -/
def canvas (rows : List (List Span)) (lines : List ρ) : List ρ :=
  let h := m.layout.termHeight.toNat
  let scrolled := lines ++ List.replicate (-m.layout.scrollAmount).toNat d.blank
  aboveRow h scrolled (viewportStart m) ++ (shownRows m rows).map (d.write d.blank 1) ++
    List.replicate (h - (viewportStart m - 1).toNat - (shownRows m rows).length) d.blank

/-- The row that the first output will be written to is cleared. -/
def withOutputRow (lines : List ρ) : List ρ :=
  let (outRow, _) := m.repl.replCursor
  if awaitingFirstOutputChunk m ∧ outRow ≥ 1 ∧ outRow ≤ m.layout.termHeight then
    modifyRow m.layout.termHeight.toNat lines outRow fun _ => d.blank
  else lines

/-- The texts that the operations put over the rows. -/
def patches : List Op → List (Patch (List Span))
  | .cursorTo row col :: .print text :: ops => ⟨row, col, text⟩ :: patches ops
  | _ => []

/-- Everything is drawn within the screen. -/
structure DrawsWithin : Prop where
  height : 1 ≤ m.layout.termHeight
  top : m.layout.promptTopRow ≤ m.layout.termHeight
  cursor {row col r c : Int} : m.cursorTerminalPos = .ok (row, col) →
    placeCursor m col (absoluteCursorPos m row col) = .cursorTo r c →
    1 ≤ r ∧ r ≤ m.layout.termHeight ∧ 1 ≤ c
  completions {row col : Int} : m.cursorTerminalPos = .ok (row, col) →
    shouldShowCompletions m = true → 0 ≤ m.layout.promptTopRow + row ∧ 0 ≤ col

/-! ## The rows of the prompt -/

variable {d m} {i total : Nat} {rows : List (List Span)} {ops : List Op}

theorem shownFrom_cons (content : List Span) : shownFrom m i (content :: rows) =
    if inViewport m i then rowSpans m i content :: shownFrom m (i + 1) rows
    else shownFrom m (i + 1) rows := by
  unfold shownFrom
  rw [List.zipIdx_cons, List.filter_cons]
  split
  · rw [List.map_cons]
  · rfl

theorem shownFrom_past (h : skipRows m + m.layout.termHeight ≤ i) : shownFrom m i rows = [] := by
  induction rows generalizing i with
  | nil => rfl
  | cons content rows ih =>
    have hout : inViewport m i = false := by
      rw [inViewport, Bool.and_eq_false_iff]
      exact .inr (decide_eq_false (by omega))
    rw [shownFrom_cons, hout]
    exact ih (by omega)

theorem length_shownFrom : ((shownFrom m i rows).length : Int) =
    max 0 (min ((i : Int) + rows.length) (skipRows m + m.layout.termHeight) -
      max (i : Int) (skipRows m)) := by
  induction rows generalizing i with
  | nil =>
    show (0 : Int) = _
    rw [List.length_nil]
    omega
  | cons content rows ih =>
    have hnext := ih (i := i + 1)
    rw [shownFrom_cons, List.length_cons]
    cases hin : inViewport m i with
    | true =>
      rw [inViewport, Bool.and_eq_true, decide_eq_true_eq, decide_eq_true_eq] at hin
      rw [if_pos rfl, List.length_cons]
      omega
    | false =>
      rw [inViewport, Bool.and_eq_false_iff, decide_eq_false_iff_not, decide_eq_false_iff_not]
        at hin
      rw [if_neg Bool.false_ne_true]
      omega

theorem viewRow_ops {content : List Span} (h : viewRow m total i content = .ok ops) :
    ops = if inViewport m i then [.clearToEol, .print (rowSpans m i content)] ++
        if (i : Int) < skipRows m + m.layout.termHeight - 1 ∧ (i : Int) < total - 1 then [.newline]
        else []
      else [] := by
  unfold viewRow at h
  split at h
  · rename_i hin
    obtain ⟨p, hp, h⟩ := Outcome.bind_eq_ok.mp h
    cases h
    have hview : inViewport m i = true := by
      rw [inViewport, Bool.and_eq_true, decide_eq_true_eq, decide_eq_true_eq]
      exact hin
    rw [if_pos hview, rowSpans, hp]
  · rename_i hout
    cases h
    have hview : inViewport m i = false := by
      rw [inViewport, Bool.and_eq_false_iff, decide_eq_false_iff_not, decide_eq_false_iff_not]
      omega
    rw [if_neg (by rw [hview]; exact Bool.false_ne_true)]

/-- The rows are written one below the other. -/
theorem promptOps_commands (h : iteri (viewRow m total) i rows = .ok ops)
    (htotal : i + rows.length = total) : commands ops = writeRows (shownFrom m i rows) := by
  induction rows generalizing i ops with
  | nil =>
    cases h
    rfl
  | cons content rows ih =>
    obtain ⟨first, hfirst, h⟩ := Outcome.bind_eq_ok.mp h
    obtain ⟨rest, hrest, h⟩ := Outcome.bind_eq_ok.mp h
    cases h
    have hrest := ih hrest (by rw [← htotal, List.length_cons]; omega)
    rw [commands_append, hrest, viewRow_ops hfirst, shownFrom_cons]
    cases hin : inViewport m i with
    | false => rfl
    | true =>
      rw [inViewport, Bool.and_eq_true, decide_eq_true_eq, decide_eq_true_eq] at hin
      rw [if_pos rfl, if_pos rfl]
      split
      · rename_i hmore
        obtain ⟨next, rows, rfl⟩ : ∃ next rows', rows = next :: rows' := by
          cases rows with
          | nil =>
            rw [List.length_singleton] at htotal
            omega
          | cons next rows => exact ⟨next, rows, rfl⟩
        have hnext : inViewport m (i + 1) = true := by
          rw [inViewport, Bool.and_eq_true, decide_eq_true_eq, decide_eq_true_eq]
          omega
        rw [shownFrom_cons, hnext]
        rfl
      · rename_i hlast
        have hnone : shownFrom m (i + 1) rows = [] := by
          cases rows with
          | nil => rfl
          | cons next rows =>
            refine shownFrom_past ?_
            rw [List.length_cons, List.length_cons] at htotal
            omega
        rw [hnone]
        rfl

/-! ## What is put over them -/

def patchOps (ps : List (Patch (List Span))) : List Op :=
  ps.flatMap fun p => [.cursorTo p.row p.col, .print p.text]

theorem patches_patchOps (ps : List (Patch (List Span))) : patches (patchOps ps) = ps := by
  induction ps with
  | nil => rfl
  | cons p ps ih => exact congrArg (p :: ·) ih

theorem commands_patchOps (ps : List (Patch (List Span))) :
    commands (patchOps ps) = writePatches ps := by
  induction ps with
  | nil => rfl
  | cons p ps ih => exact congrArg ([.place p.row p.col, .write p.text] ++ ·) ih

/-- The operations put texts over the screen and do nothing else. -/
def Overlays (h : Nat) (ops : List Op) : Prop :=
  ∃ ps, ops = patchOps ps ∧ ∀ p ∈ ps, p.OnScreen h

variable {h : Nat}

theorem overlays_nil : Overlays h [] := ⟨[], rfl, List.forall_mem_nil _⟩

theorem overlays_one {row col : Int} {text : List Span} (h1 : 1 ≤ row) (hr : row ≤ h)
    (hc : 1 ≤ col) : Overlays h [.cursorTo row col, .print text] :=
  ⟨[⟨row, col, text⟩], rfl, List.forall_mem_singleton.mpr ⟨h1, hr, hc⟩⟩

theorem Overlays.append {ops ops' : List Op} (ho : Overlays h ops) (ho' : Overlays h ops') :
    Overlays h (ops ++ ops') := by
  obtain ⟨ps, rfl, hps⟩ := ho
  obtain ⟨ps', rfl, hps'⟩ := ho'
  exact ⟨ps ++ ps', List.flatMap_append.symm, List.forall_mem_append.mpr ⟨hps, hps'⟩⟩

theorem Overlays.commands {ops : List Op} (ho : Overlays h ops) :
    commands ops = writePatches (patches ops) ∧ ∀ p ∈ patches ops, p.OnScreen h := by
  obtain ⟨ps, rfl, hps⟩ := ho
  rw [patches_patchOps]
  exact ⟨commands_patchOps ps, hps⟩

theorem completionRows_overlays {termHeight colOffset maxWidth : Int} {selected : Option Int}
    {row idx : Int} {items : List Completion.Item} (h1 : 1 ≤ row) (hc : 1 ≤ colOffset) :
    Overlays termHeight.toNat
      (completionRows termHeight colOffset maxWidth selected row idx items) := by
  induction items generalizing row idx with
  | nil => exact overlays_nil
  | cons item items ih =>
    rw [completionRows]
    split
    · exact overlays_nil
    · exact (overlays_one h1 (by omega) hc).append (ih (by omega))

theorem viewCompletions_overlays (hm : DrawsWithin m) {row col : Int}
    (hpos : m.cursorTerminalPos = .ok (row, col)) :
    Overlays m.layout.termHeight.toNat (viewCompletions m (absoluteCursorPos m row col).1
      (absoluteCursorPos m row col).2) := by
  unfold viewCompletions
  split
  · exact overlays_nil
  · rename_i hshown
    split
    · exact overlays_nil
    · obtain ⟨hrow, hcol⟩ := hm.completions hpos (by simpa using hshown)
      refine completionRows_overlays ?_ ?_
      · show 1 ≤ m.layout.promptTopRow + row + 1
        omega
      · show 1 ≤ (promptWidthForMode m.input.mode : Int) + col + 1
        omega

theorem iteri_overlays {α : Type} {f : Nat → α → Res (List Op)} {l : List α}
    (hf : ∀ i a ops, f i a = .ok ops → Overlays h ops) (hops : iteri f i l = .ok ops) :
    Overlays h ops := by
  induction l generalizing i ops with
  | nil =>
    cases hops
    exact overlays_nil
  | cons a l ih =>
    obtain ⟨first, hfirst, hops⟩ := Outcome.bind_eq_ok.mp hops
    obtain ⟨rest, hrest, hops⟩ := Outcome.bind_eq_ok.mp hops
    cases hops
    exact (hf i a first hfirst).append (ih hrest)

section
variable [Ucd]

theorem pagerRow_overlays {layout : Layout} {s : SearchState} {row : SearchPager.Row}
    (hh : 1 ≤ layout.termHeight) (hops : pagerRow layout s i row = .ok ops) :
    Overlays layout.termHeight.toNat ops := by
  unfold pagerRow at hops
  dsimp only at hops
  split at hops
  · rename_i hrow
    have hone {text : List Span} : Overlays layout.termHeight.toNat
        [.cursorTo (layout.promptTopRow + 1 + i) 1, .print text] :=
      overlays_one hrow.1 (by omega) (Int.le_refl 1)
    obtain ⟨found, -, hops⟩ := Outcome.bind_eq_ok.mp hops
    split at hops
    · obtain ⟨line, -, hops⟩ := Outcome.bind_eq_ok.mp hops
      split at hops
      · cases hops
        exact hone
      · split at hops
        all_goals
          obtain ⟨content, -, hops⟩ := Outcome.bind_eq_ok.mp hops
          cases hops
          exact hone
    · cases hops
  · cases hops
    exact overlays_nil

theorem viewSearchPager_overlays (hh : 1 ≤ m.layout.termHeight) (hops : viewSearchPager m = .ok ops) :
    Overlays m.layout.termHeight.toNat ops := by
  unfold viewSearchPager at hops
  split at hops
  · cases hops
    exact overlays_nil
  · cases hops
    exact overlays_nil
  · cases hops
    exact overlays_nil
  · cases hops
    exact overlays_nil
  · obtain ⟨rows, -, hops⟩ := Outcome.bind_eq_ok.mp hops
    exact iteri_overlays (fun i row ops hrow => pagerRow_overlays hh hrow) hops

end

/-! ## The whole view -/

variable {s : Screen ρ}

theorem height_eq (hh : 1 ≤ m.layout.termHeight) :
    (m.layout.termHeight.toNat : Int) = m.layout.termHeight := Int.toNat_of_nonneg (by omega)

theorem scrollOps_run (hh : 1 ≤ m.layout.termHeight)
    (hlen : m.layout.termHeight.toNat ≤ s.all.length) :
    ∃ s', run d m.layout.termHeight.toNat s (commands (scrollOps m.layout)) = some s' ∧
      s'.all = s.all ++ List.replicate (-m.layout.scrollAmount).toNat d.blank := by
  unfold scrollOps
  split
  · have hcommands (k : Nat) : commands (.cursorTo m.layout.termHeight 1 :: List.replicate k .newline) =
        .place m.layout.termHeight.toNat 1 :: List.replicate k .newline := by
      rw [height_eq hh]
      refine congrArg (Command.place m.layout.termHeight 1 :: ·) ?_
      exact List.filterMap_replicate_of_some rfl
    rw [hcommands]
    exact Terminal.Screen.run_scroll _ hlen (by omega)
  · refine ⟨s, rfl, ?_⟩
    rw [Int.toNat_of_nonpos (by omega)]
    exact (List.append_nil _).symm

theorem clearRowsFrom_commands (first termHeight : Int) :
    commands (clearRowsFrom first termHeight) = eraseRows first (termHeight - first + 1).toNat := by
  unfold clearRowsFrom eraseRows commands
  simp only [List.filterMap_flatMap, List.bind_eq_flatMap, List.pure_def, List.flatMap_assoc,
    List.flatMap_singleton]
  rfl

/-- The rows of the prompt, and blank ones down to the end of the screen. -/
theorem prompt_run {rows : List (List Span)} {ops : List Op} (hon : DrawsWithin m)
    (hlen : m.layout.termHeight.toNat ≤ s.all.length)
    (hops : iteri (viewRow m rows.length) 0 rows = .ok ops) :
    ∃ s', run d m.layout.termHeight.toNat s (commands ([.cursorTo (viewportStart m) 1] ++ ops ++
        clearRowsFrom (max (viewportStart m) (viewportStart m +
          max 0 (min (rows.length - skipRows m) m.layout.termHeight) - 1 + 1))
          m.layout.termHeight)) = some s' ∧
      s'.all = aboveRow m.layout.termHeight.toNat s.all (viewportStart m) ++
        (shownRows m rows).map (d.write d.blank 1) ++
        List.replicate (m.layout.termHeight.toNat - (viewportStart m - 1).toNat -
          (shownRows m rows).length) d.blank := by
  have hh := hon.height
  have hskip : 0 ≤ skipRows m := by
    unfold skipRows viewportStart
    omega
  have hcount : ((shownRows m rows).length : Int) =
      max 0 (min (rows.length - skipRows m) m.layout.termHeight) := by
    rw [shownRows, length_shownFrom]
    omega
  have hstart : 1 ≤ viewportStart m ∧ viewportStart m ≤ m.layout.termHeight.toNat := by
    have := hon.top
    unfold viewportStart
    omega
  obtain ⟨s', hrun, hall⟩ := Terminal.Screen.run_redraw (d := d) (shownRows m rows) hlen hstart.1
    hstart.2
  refine ⟨s', ?_, hall⟩
  rw [← hrun, ← hcount, commands_append, commands_append, clearRowsFrom_commands,
    promptOps_commands hops (Nat.zero_add _), List.append_assoc]
  have hfirst : max (viewportStart m) (viewportStart m + (shownRows m rows).length - 1 + 1) =
      viewportStart m + (shownRows m rows).length := by omega
  have hrest : (m.layout.termHeight - (viewportStart m + (shownRows m rows).length) + 1).toNat =
      m.layout.termHeight.toNat - (viewportStart m - 1).toNat - (shownRows m rows).length := by omega
  rw [hfirst, hrest]
  rfl

theorem clearOutputRow_run (hlen : m.layout.termHeight.toNat ≤ s.all.length) :
    ∃ s', run d m.layout.termHeight.toNat s (commands (clearOutputRow m)) = some s' ∧
      s'.all = withOutputRow d m s.all := by
  unfold clearOutputRow withOutputRow
  dsimp only
  split
  · rename_i hrow
    exact Terminal.Screen.run_blank hlen hrow.2.1 (by omega)
  · exact ⟨s, rfl, rfl⟩

/-- The lines when the view has been drawn, with the cursor at `cursor` and these operations of the
pager. -/
def painted (d : Device ρ (List Span)) (m : Model) (rows : List (List Span)) (cursor : Int × Int)
    (pager : List Op) (lines : List ρ) : List ρ :=
  let cursorAbs := absoluteCursorPos m cursor.1 cursor.2
  patched d m.layout.termHeight.toNat (withOutputRow d m (canvas d m rows lines))
    (patches (viewCompletions m cursorAbs.1 cursorAbs.2 ++ pager))

theorem length_withOutputRow {lines : List ρ} : (withOutputRow d m lines).length = lines.length := by
  unfold withOutputRow
  dsimp only
  split
  · exact Terminal.Screen.length_modifyRow
  · rfl

theorem length_canvas (hon : DrawsWithin m) {rows : List (List Span)} {lines : List ρ}
    (hlen : m.layout.termHeight.toNat ≤ lines.length) :
    m.layout.termHeight.toNat ≤ (canvas d m rows lines).length := by
  have hh := hon.height
  have htop := hon.top
  unfold canvas viewportStart aboveRow rowIndex
  simp only [List.length_append, List.length_take, List.length_map, List.length_replicate]
  omega

section
variable [Ucd]

/-- Whatever the terminal has shown, a view leaves all lines above the prompt as they are, moved up
by the rows that it scrolls and by those that do not fit below the prompt's first; it draws the rows
of the prompt under them, blanks the rest and puts the cursor in its place. -/
theorem view_paints (d : Device ρ (List Span)) {m : Model} {ops : List Op} (hops : viewOps m = .ok ops)
    (hon : DrawsWithin m) {s : Screen ρ} (hlen : m.layout.termHeight.toNat ≤ s.all.length) :
    ∃ rows cursor pager r c s', wrappedRows m = .ok rows ∧ m.cursorTerminalPos = .ok cursor ∧
      viewSearchPager m = .ok pager ∧
      run d m.layout.termHeight.toNat s (commands ops) = some s' ∧
      s'.all = painted d m rows cursor pager s.all ∧
      placeCursor m cursor.2 (absoluteCursorPos m cursor.1 cursor.2) = .cursorTo r c ∧
      s'.above = aboveRow m.layout.termHeight.toNat s'.all r ∧ s'.col = some c := by
  obtain ⟨⟨row, col⟩, hcursor, hops⟩ := Outcome.bind_eq_ok.mp hops
  obtain ⟨rows, hrows, hops⟩ := Outcome.bind_eq_ok.mp hops
  obtain ⟨prompts, hprompts, hops⟩ := Outcome.bind_eq_ok.mp hops
  obtain ⟨pager, hpager, hops⟩ := Outcome.bind_eq_ok.mp hops
  cases hops
  have hheight := height_eq hon.height
  obtain ⟨s₁, hscroll, hall₁⟩ := scrollOps_run (d := d) hon.height hlen
  have hlen₁ : m.layout.termHeight.toNat ≤ s₁.all.length := by
    rw [hall₁, List.length_append]
    omega
  obtain ⟨s₂, hprompt, hall₂⟩ := prompt_run (d := d) hon hlen₁ hprompts
  rw [hall₁] at hall₂
  have hcanvas : s₂.all = canvas d m rows s.all := hall₂
  obtain ⟨s₃, hclear, hall₃⟩ := clearOutputRow_run (d := d) (m := m)
    (hcanvas ▸ length_canvas hon hlen)
  rw [hcanvas] at hall₃
  have hlen₃ : m.layout.termHeight.toNat ≤ s₃.all.length := by
    rw [hall₃, length_withOutputRow]
    exact length_canvas hon hlen
  obtain ⟨hover, hpatches⟩ := ((viewCompletions_overlays hon hcursor).append
    (viewSearchPager_overlays hon.height hpager)).commands
  obtain ⟨s₄, hpatch, hall₄⟩ := Terminal.Screen.run_writePatches (d := d) hlen₃ hpatches
  obtain ⟨r, c, hplace⟩ : ∃ r c,
      placeCursor m col (absoluteCursorPos m row col) = .cursorTo r c := by
    unfold placeCursor
    split <;> exact ⟨_, _, rfl⟩
  obtain ⟨h1, hr, hc⟩ := hon.cursor hcursor hplace
  obtain ⟨s', hlast, hall', habove, -, hcol⟩ := Terminal.Screen.step_place (d := d) (s := s₄)
    (h := m.layout.termHeight.toNat) (by rw [hall₄, Terminal.Screen.length_patched]; exact hlen₃)
    h1 (hheight ▸ hr) hc
  refine ⟨rows, (row, col), pager, r, c, s', hrows, hcursor, hpager, ?_, ?_, hplace,
    hall' ▸ habove, hcol⟩
  · have hshow : commands [if showCursor m then .showCursor else .hideCursor] = [] := by
      split <;> rfl
    have hlast : run d m.layout.termHeight.toNat s₄ (commands [placeCursor m col
        (absoluteCursorPos m row col)]) = some s' := by
      rw [hplace]
      exact Terminal.Screen.run_cons hlast rfl
    have hpatch : run d m.layout.termHeight.toNat s₃ (commands (viewCompletions m _ _ ++ pager)) =
        some s₄ := hover ▸ hpatch
    have hrun := Terminal.Screen.run_append hscroll (Terminal.Screen.run_append hprompt
      (Terminal.Screen.run_append hclear (Terminal.Screen.run_append hpatch hlast)))
    simp only [commands_append, hshow, List.nil_append, List.append_assoc] at hrun ⊢
    exact hrun
  · rw [hall', hall₄, hall₃]
    rfl

end

end View
end Raoui
