import Raoui.Base

/-!
# Raoui.Md.Layout

`lib/md_layout.ml`: styled runs of text, cut into words and laid out on lines. `measure` gives the
columns a text takes.
-/

namespace Raoui
namespace MdLayout

structure Emphasis where
  italic : Bool
  bold : Bool
  strike : Bool
  deriving DecidableEq, Repr

def noEmphasis : Emphasis := ⟨false, false, false⟩

inductive Role where
  | body
  | heading (level : Int)
  | quote
  | codeSpan
  | link (dest : Bytes)
  | marker
  deriving DecidableEq, Repr

structure Style where
  role : Role
  emphasis : Emphasis
  deriving DecidableEq, Repr

abbrev Span := Style × Bytes

abbrev Line := List Span

def space : UInt8 := 32

def plain (text : Bytes) : Span := (⟨.body, noEmphasis⟩, text)

def spaces (n : Int) : Span := plain (List.replicate (max 0 n).toNat space)

section
variable (measure : Bytes → Int)

def widthOfSpans (spans : List Span) : Int := spans.foldl (fun acc s => acc + measure s.2) 0

/-! ## Words -/

structure Word where
  pieces : List Span
  width : Int
  deriving DecidableEq, Repr

/-- The references of `words_of_runs`; both lists grow at the front. -/
structure Collected where
  words : List Word
  cur : List Span
  curW : Int

def Collected.flush (c : Collected) : Collected :=
  { words := if c.cur = [] then c.words else ⟨c.cur.reverse, c.curW⟩ :: c.words
    cur := []
    curW := 0 }

/-- Part `i` of a run; a space stands in front of every part but the first. -/
def Collected.part (style : Style) (c : Collected) (i : Nat) (part : Bytes) : Collected :=
  let c := if i > 0 then c.flush else c
  if part = [] then c
  else { c with cur := (style, part) :: c.cur, curW := c.curW + measure part }

def Collected.run (c : Collected) (run : Span) : Collected :=
  (splitOnChar space run.2).zipIdx.foldl (fun c part => c.part measure run.1 part.2 part.1) c

def wordsOfRuns (runs : List Span) : List Word :=
  (runs.foldl (Collected.run measure) ⟨[], [], 0⟩).flush.words.reverse

/-! ## Lines -/

/-- The references of `wrap_words`. -/
structure Wrapped where
  lines : List Line
  cur : List Span
  curW : Int
  lineIdx : Nat

variable (width : Int) (firstPrefix contPrefix : List Span)

def prefixOf (lineIdx : Nat) : List Span := if lineIdx = 0 then firstPrefix else contPrefix

def avail (lineIdx : Nat) : Int :=
  if lineIdx = 0 then width - widthOfSpans measure firstPrefix
  else width - widthOfSpans measure contPrefix

def Wrapped.flush (s : Wrapped) : Wrapped :=
  { lines := (prefixOf firstPrefix contPrefix s.lineIdx ++ s.cur.reverse) :: s.lines
    cur := []
    curW := 0
    lineIdx := s.lineIdx + 1 }

def Wrapped.word (s : Wrapped) (w : Word) : Wrapped :=
  let sep : Int := if s.cur ≠ [] then 1 else 0
  let s := if s.cur ≠ [] ∧ s.curW + sep + w.width > avail measure width firstPrefix contPrefix s.lineIdx
    then s.flush firstPrefix contPrefix else s
  let s := if s.cur ≠ [] then { s with cur := plain [space] :: s.cur, curW := s.curW + 1 } else s
  { s with
    cur := w.pieces.foldl (fun cur p => p :: cur) s.cur
    curW := s.curW + w.width }

def wrapWords (words : List Word) : List Line :=
  let s := words.foldl (Wrapped.word measure width firstPrefix contPrefix) ⟨[], [], 0, 0⟩
  let s := if s.cur ≠ [] ∨ s.lineIdx = 0 then s.flush firstPrefix contPrefix else s
  s.lines.reverse

end

end MdLayout
end Raoui
