import Raoui.View.Theme

/-!
# Raoui.View.TerminalOps

`lib/terminal_ops.ml`: styles, spans and the operations a view is made of.
-/

namespace Raoui
namespace TerminalOps

inductive Style where
  | raw
  | plain
  | accent
  | error
  | keyword
  | string
  | number
  | comment
  | operator
  | constant
  | ident
  | bracket
  | function
  | completion
  | completionSelected
  | shellPrompt
  | aiPrompt
  | face (f : Theme.Face)
  deriving DecidableEq, Repr

abbrev Span := Style × Bytes

inductive Op where
  | print (spans : List Span)
  | newline
  | cursorTo (row col : Int)
  | clearToEol
  | showCursor
  | hideCursor
  deriving DecidableEq, Repr

end TerminalOps
end Raoui
