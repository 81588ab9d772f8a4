import Raoui.Editor.Update

/-!
# Raoui.Main.OutputRenderer

`print_repl_output` of `lib/output_renderer.ml`, and what else of `bin/main.ml` places the prompt,
as far as the model goes: the row and the column are those of the terminal's cursor report after
the output. What is printed is left out.
-/

namespace Raoui
namespace OutputRenderer

def contentHeight (m : Model) : Int := max 1 (wrapLines m.effectiveWidth m.input.lines).length

def nextPromptRow (row col : Int) : Int := if col = 1 then row else row + 1

def settlePromptAfterOutput (m : Model) (outRow outCol : Int) : Model :=
  let content := contentHeight m
  let natural := max m.layout.promptTopRow (nextPromptRow outRow outCol)
  let reserve := max content minPromptHeight
  let pinned := max 2 (min natural (m.layout.termHeight - reserve + 1))
  { m with
    repl.replOutput := none
    repl.replCursor := (outRow - (natural - pinned), outCol)
    layout.promptTopRow := pinned
    layout.promptBoxHeight := content
    layout.scrollAmount := 0 }

def printReplOutput (cursor : Int × Int) (m : Model) : Model :=
  match m.repl.replOutput with
  | none => m
  | some (.outputText []) => settlePromptAfterOutput m cursor.1 cursor.2
  | some _ =>
    { m with
      repl.replOutput := none
      repl.replCursor := cursor
      layout.promptTopRow := max m.layout.promptTopRow (nextPromptRow cursor.1 cursor.2)
      layout.promptBoxHeight := contentHeight m }

/-- The model the loop goes on with at the end of `passthrough_loop`. -/
def resume (cursor : Int × Int) (m : Model) : Model :=
  let natural := max m.layout.promptTopRow (nextPromptRow cursor.1 cursor.2)
  let clamped := clampPromptTop m.layout.termHeight natural
  { m with
    layout.promptTopRow := clamped
    layout.promptBoxHeight := minPromptHeight
    repl.replCursor := (cursor.1 - (natural - clamped), cursor.2) }

theorem printReplOutput_input (cursor : Int × Int) (m : Model) :
    (printReplOutput cursor m).input = m.input := by
  unfold printReplOutput
  split <;> rfl

end OutputRenderer
end Raoui
