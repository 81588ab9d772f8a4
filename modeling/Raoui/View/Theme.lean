import Raoui.Base

/-!
# Raoui.View.Theme

`lib/theme.ml`: colours, faces and the themes.

* `ofName_valid`: the themes stay within the 256 colours of a terminal.
-/

namespace Raoui
namespace Theme

inductive StandardColor where
  | black
  | red
  | green
  | yellow
  | blue
  | magenta
  | cyan
  | white
  | brightBlack
  | brightRed
  | brightGreen
  | brightYellow
  | brightBlue
  | brightMagenta
  | brightCyan
  | brightWhite
  deriving DecidableEq, Repr

inductive Color where
  | default
  | standard (c : StandardColor)
  | rgb (r g b : Int)
  | greyscale (n : Int)
  deriving DecidableEq, Repr

def toAnsi256 : Color → Option Int
  | .default => none
  | .standard c => some
    (match c with
    | .black => 0
    | .red => 1
    | .green => 2
    | .yellow => 3
    | .blue => 4
    | .magenta => 5
    | .cyan => 6
    | .white => 7
    | .brightBlack => 8
    | .brightRed => 9
    | .brightGreen => 10
    | .brightYellow => 11
    | .brightBlue => 12
    | .brightMagenta => 13
    | .brightCyan => 14
    | .brightWhite => 15)
  | .rgb r g b => some (16 + 36 * r + 6 * g + b)
  | .greyscale n => some (232 + n)

structure Face where
  fg : Color
  bg : Option Color
  bold : Bool
  dim : Bool
  italic : Bool
  underline : Bool
  strike : Bool
  deriving DecidableEq, Repr

structure T where
  name : Bytes
  plain : Face
  accent : Face
  error : Face
  keyword : Face
  string : Face
  number : Face
  comment : Face
  operator : Face
  constant : Face
  ident : Face
  bracket : Face
  function : Face
  completion : Face
  completionSelected : Face
  shellPrompt : Face
  aiPrompt : Face

def T.faces (t : T) : List Face :=
  [t.plain, t.accent, t.error, t.keyword, t.string, t.number, t.comment, t.operator, t.constant,
    t.ident, t.bracket, t.function, t.completion, t.completionSelected, t.shellPrompt, t.aiPrompt]

/-- `face` with its optional arguments left out. -/
def face (fg : Color) : Face := ⟨fg, none, false, false, false, false, false⟩

def default : T where
  name := bytes "default"
  plain := face .default
  accent := face (.standard .cyan)
  error := face (.standard .red)
  keyword := face (.standard .magenta)
  string := face (.standard .green)
  number := face (.standard .yellow)
  comment := face (.standard .brightBlack)
  operator := face (.standard .cyan)
  constant := face (.standard .blue)
  ident := face .default
  bracket := face .default
  function := face (.standard .magenta)
  completion := { face .default with bg := some (.greyscale 4) }
  completionSelected := { face .default with bg := some (.greyscale 8), bold := true }
  shellPrompt := face (.standard .red)
  aiPrompt := face (.standard .brightMagenta)

def tokyoNight : T where
  name := bytes "tokyo_night"
  plain := face .default
  accent := face (.rgb 2 4 5)
  error := face (.rgb 5 2 2)
  keyword := face (.rgb 3 2 5)
  string := face (.rgb 3 4 2)
  number := face (.rgb 5 4 1)
  comment := face (.rgb 2 2 3)
  operator := face (.rgb 2 4 5)
  constant := face (.rgb 2 3 5)
  ident := face .default
  bracket := face (.rgb 4 3 5)
  function := face (.rgb 1 4 5)
  completion := { face (.greyscale 20) with bg := some (.greyscale 6) }
  completionSelected := { face (.rgb 5 5 5) with bg := some (.rgb 1 1 2), bold := true }
  shellPrompt := face (.rgb 5 1 2)
  aiPrompt := face (.rgb 5 2 5)

def gruvbox : T where
  name := bytes "gruvbox"
  plain := face .default
  accent := face (.rgb 4 3 1)
  error := face (.rgb 5 1 1)
  keyword := face (.rgb 5 1 1)
  string := face (.rgb 3 3 0)
  number := face (.standard .magenta)
  comment := face (.greyscale 12)
  operator := face .default
  constant := face (.rgb 4 3 3)
  ident := face .default
  bracket := face (.rgb 3 3 3)
  function := face (.rgb 5 2 1)
  completion := { face (.rgb 5 4 3) with bg := some (.greyscale 5) }
  completionSelected := { face (.greyscale 3) with bg := some (.rgb 4 3 1), bold := true }
  shellPrompt := face (.rgb 5 0 0)
  aiPrompt := face (.rgb 4 2 3)

def catppuccin : T where
  name := bytes "catppuccin"
  plain := face .default
  accent := face (.rgb 3 4 5)
  error := face (.rgb 5 3 3)
  keyword := face (.rgb 4 3 5)
  string := face (.rgb 3 4 3)
  number := face (.rgb 5 4 3)
  comment := face (.greyscale 11)
  operator := face (.rgb 2 4 4)
  constant := face (.rgb 5 4 3)
  ident := face .default
  bracket := face (.greyscale 15)
  function := face (.rgb 3 4 5)
  completion := { face (.rgb 4 4 5) with bg := some (.greyscale 5) }
  completionSelected := { face (.rgb 4 4 5) with bg := some (.greyscale 9), bold := true }
  shellPrompt := face (.rgb 3 4 3)
  aiPrompt := face (.rgb 5 3 5)

def solarized : T where
  name := bytes "solarized"
  plain := face .default
  accent := face (.rgb 1 3 4)
  error := face (.rgb 4 1 1)
  keyword := face (.rgb 3 3 0)
  string := face (.rgb 1 3 3)
  number := face (.rgb 4 1 3)
  comment := face (.rgb 2 2 2)
  operator := face (.rgb 3 2 0)
  constant := face (.rgb 4 1 0)
  ident := face .default
  bracket := face (.greyscale 11)
  function := face (.rgb 1 3 4)
  completion := { face (.greyscale 13) with bg := some (.rgb 0 1 1) }
  completionSelected := { face (.greyscale 23) with bg := some (.rgb 2 2 2), bold := true }
  shellPrompt := face (.rgb 3 3 0)
  aiPrompt := face (.rgb 4 1 3)

def dracula : T where
  name := bytes "dracula"
  plain := face .default
  accent := face (.rgb 4 3 5)
  error := face (.rgb 5 2 2)
  keyword := face (.rgb 5 2 4)
  string := face (.rgb 5 5 3)
  number := face (.rgb 4 3 5)
  comment := face (.rgb 2 2 3)
  operator := face (.rgb 5 2 4)
  constant := face (.rgb 4 3 5)
  ident := face .default
  bracket := face .default
  function := face (.rgb 2 5 2)
  completion := { face (.greyscale 23) with bg := some (.greyscale 7) }
  completionSelected := { face (.greyscale 23) with bg := some (.rgb 2 2 3), bold := true }
  shellPrompt := face (.rgb 2 5 2)
  aiPrompt := face (.rgb 5 2 4)

def nord : T where
  name := bytes "nord"
  plain := face .default
  accent := face (.rgb 3 4 4)
  error := face (.rgb 4 2 2)
  keyword := face (.rgb 3 3 4)
  string := face (.rgb 3 4 3)
  number := face (.rgb 3 2 3)
  comment := face (.rgb 2 2 3)
  operator := face (.rgb 3 3 4)
  constant := face (.rgb 4 3 2)
  ident := face .default
  bracket := face .default
  function := face (.rgb 3 4 4)
  completion := { face (.greyscale 21) with bg := some (.greyscale 6) }
  completionSelected := { face (.greyscale 22) with bg := some (.greyscale 8), bold := true }
  shellPrompt := face (.rgb 3 4 3)
  aiPrompt := face (.rgb 4 2 4)

def ofName (name : Bytes) : T :=
  if name = bytes "default" then default
  else if name = bytes "tokyo_night" then tokyoNight
  else if name = bytes "gruvbox" then gruvbox
  else if name = bytes "catppuccin" then catppuccin
  else if name = bytes "solarized" then solarized
  else if name = bytes "dracula" then dracula
  else if name = bytes "nord" then nord
  else default

/-! ## The palette -/

/-- The colour has an index in the palette, or is the default one. -/
def Color.InPalette (c : Color) : Prop := ∀ n ∈ toAnsi256 c, 0 ≤ n ∧ n < 256

instance (c : Color) : Decidable c.InPalette :=
  inferInstanceAs (Decidable (∀ n ∈ toAnsi256 c, 0 ≤ n ∧ n < 256))

/-- A face a terminal with 256 colours can show. -/
structure Face.Valid (f : Face) : Prop where
  fg : f.fg.InPalette
  bg : ∀ c ∈ f.bg, c.InPalette

theorem Face.valid_iff (f : Face) : f.Valid ↔ f.fg.InPalette ∧ ∀ c ∈ f.bg, c.InPalette :=
  ⟨fun h => ⟨h.fg, h.bg⟩, fun h => ⟨h.1, h.2⟩⟩

instance (f : Face) : Decidable f.Valid := decidable_of_iff _ f.valid_iff.symm

theorem ofName_valid (name : Bytes) : ∀ f ∈ (ofName name).faces, f.Valid := by
  unfold ofName
  repeat' split
  all_goals decide

end Theme
end Raoui
