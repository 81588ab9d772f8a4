import Mathlib.Data.List.Basic

/-!
# Raoui.Text.Ucd

The Unicode data the program takes from Uucp and Uuseg, as a parameter. Nothing is assumed of it
beyond what `Uuseg` fixes for any text: a boundary at the start and one at the end.
-/

namespace Raoui

class Ucd where
  /-- `Uucp.Gc.general_category` is one of the marks. -/
  isMark : Char → Bool
  /-- `Uucp.Break.tty_width_hint`. -/
  ttyWidthHint : Char → Int
  /-- `Uucp.Id.is_id_start`. -/
  isIdStart : Char → Bool
  /-- `Uucp.Id.is_id_continue`. -/
  isIdContinue : Char → Bool
  /-- Whether `Uuseg` puts a grapheme boundary between the text so far and the next character. -/
  boundary : List Char → Char → Bool

/-- The data of the ASCII characters, with every other character taken for a wide symbol. -/
@[reducible] def asciiUcd : Ucd where
  isMark _ := false
  ttyWidthHint c :=
    if c.toNat = 0 then 0 else if c.toNat < 32 ∨ c.toNat = 127 then -1
    else if c.toNat < 127 then 1 else 2
  isIdStart c := c.isAlpha
  isIdContinue c := c.isAlphanum || c = '_'
  boundary before c := !(before.getLast? = some '\r' && c = '\n')

end Raoui
