import Raoui.Md.Table
import Raoui.Text.AsciiLine
import Raoui.View.Ansi

/-!
# Raoui.Md.Tty

The measure and the faces of `lib/md_tty.ml`.

* `displayWidth_measure`: the measure counts the columns of the display.
* `spanOf_valid`: markdown text is styled in the palette.
-/

namespace Raoui
namespace MdTty

open MdLayout (DisplayWidth)
open Theme (T Face)

section
variable [Ucd]

def measure (s : Bytes) : Int :=
  match UnicodeString.ofString s with
  | .ok t => t.displayWidth
  | .error _ => s.length

theorem displayWidth_measure (hucd : PrintableAscii) : DisplayWidth measure where
  nonneg s := by
    unfold measure
    split
    · exact Int.natCast_nonneg _
    · exact Int.natCast_nonneg _
  spaces n := by
    have hprintable : UnicodeString.Printable (List.replicate n MdLayout.space) := by
      intro c hc
      rw [List.eq_of_mem_replicate hc]
      decide
    rw [measure, UnicodeString.ofString_asciiLine hucd hprintable]
    simp [UnicodeString.displayWidth, UnicodeString.asciiLine]

end

def baseFace (theme : T) : MdLayout.Role → Face
  | .body => theme.plain
  | .heading _ => theme.accent
  | .quote => theme.comment
  | .codeSpan => theme.string
  | .link _ => theme.constant
  | .marker => theme.keyword

def isHeading : MdLayout.Role → Bool
  | .heading _ => true
  | _ => false

def isQuote : MdLayout.Role → Bool
  | .quote => true
  | _ => false

def isLink : MdLayout.Role → Bool
  | .link _ => true
  | _ => false

def faceOf (theme : T) (style : MdLayout.Style) : Face :=
  let base := baseFace theme style.role
  let e := style.emphasis
  { base with
    bold := base.bold || e.bold || isHeading style.role
    italic := base.italic || e.italic || isQuote style.role
    underline := base.underline || isLink style.role
    strike := base.strike || e.strike }

def spanOf (theme : T) (span : MdLayout.Span) : TerminalOps.Span :=
  (.face (faceOf theme span.1), span.2)

/-- The emphasis changes no colour. -/
theorem faceOf_valid (name : Bytes) (style : MdLayout.Style) :
    (faceOf (Theme.ofName name) style).Valid := by
  have hbase : (baseFace (Theme.ofName name) style.role).Valid := by
    have hfaces := Theme.ofName_valid name
    simp only [T.faces, List.forall_mem_cons] at hfaces
    cases style.role with
    | _ => simp only [baseFace, hfaces]
  exact ⟨hbase.fg, hbase.bg⟩

theorem spanOf_valid (name : Bytes) (span : MdLayout.Span) :
    (TerminalOps.styleToFace (Theme.ofName name) (spanOf (Theme.ofName name) span).1).Valid :=
  TerminalOps.styleToFace_valid name fun f hf => by
    cases hf
    exact faceOf_valid name span.1

end MdTty
end Raoui
