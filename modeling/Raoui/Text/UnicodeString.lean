import Raoui.Base
import Raoui.Lib.Utf8
import Raoui.Text.Ucd

/-!
# Raoui.Text.UnicodeString

`lib/unicode_string.ml`: a UTF-8 text with the byte offset and the display width of each of its
grapheme clusters. Positions are OCaml `int`s, so they are integers here. Array reads that the
source guards are total; the accessors that can be called out of bounds answer in `Res`.
-/

namespace Raoui

structure UnicodeString where
  bytes : Bytes
  /-- Byte offset where each cluster starts. -/
  offsets : List Nat
  /-- Display width of each cluster. -/
  widths : List Nat
  deriving DecidableEq, Repr

namespace UnicodeString

inductive Error where
  | invalidUtf8
  | leadingCombiner
  deriving DecidableEq, Repr

def empty : UnicodeString := ⟨[], [], []⟩

def length (t : UnicodeString) : Nat := t.offsets.length

def displayWidth (t : UnicodeString) : Nat := t.widths.sum

def byteLength (t : UnicodeString) : Nat := t.bytes.length

def isEmpty (t : UnicodeString) : Bool := t.bytes.length = 0

/-- `to_string`. -/
def toBytes (t : UnicodeString) : Bytes := t.bytes

/-- Where cluster `i` starts. -/
def offset (t : UnicodeString) (i : Nat) : Nat := t.offsets.getD i 0

/-- Where cluster `i` stops: at the next offset, or at the end of the text. -/
def stop (t : UnicodeString) (i : Nat) : Nat :=
  if i + 1 < t.offsets.length then t.offset (i + 1) else t.bytes.length

/-- The bytes from `start` up to `stop`, as `String.sub` cuts them. -/
def slice (s : Bytes) (start stop : Nat) : Bytes := (s.drop start).take (stop - start)

def indexOutOfBounds : Exn := .invalidArgument (Raoui.bytes "index out of bounds")

def clusterAt (t : UnicodeString) (i : Int) : Res Bytes :=
  if 0 ≤ i ∧ i < t.length then .ok (slice t.bytes (t.offset i.toNat) (t.stop i.toNat))
  else .error indexOutOfBounds

def widthAt (t : UnicodeString) (i : Int) : Res Nat :=
  if 0 ≤ i ∧ i < t.length then .ok (t.widths.getD i.toNat 0) else .error indexOutOfBounds

def byteRangeAt (t : UnicodeString) (i : Int) : Res (Nat × Nat) :=
  if 0 ≤ i ∧ i < t.length then .ok (t.offset i.toNat, t.stop i.toNat) else .error .assertFailure

def sliceBytes (t : UnicodeString) (startByte endByte : Nat) : Res Bytes :=
  if startByte ≤ endByte ∧ endByte ≤ t.bytes.length then .ok (slice t.bytes startByte endByte)
  else .error .assertFailure

def prefixWidth (t : UnicodeString) (n : Int) : Nat := (t.widths.take (min n t.length).toNat).sum

/-- How many of the next clusters fit before the width `limit`, starting at width `w`. -/
def fitting (limit : Int) : Nat → List Nat → Nat
  | _, [] => 0
  | w, cw :: rest => if (w + cw : Nat) > limit then 0 else fitting limit (w + cw) rest + 1

def graphemeAtWidth (t : UnicodeString) (targetWidth : Int) : Nat := fitting targetWidth 0 t.widths

/-! ## Construction -/

section
variable [Ucd]

/-- Display width of a single code point: control characters and marks have none. -/
def ucharWidth (u : Char) : Nat :=
  match Ucd.ttyWidthHint u with
  | -1 => 0
  | n => n.toNat

def isCombiner (u : Char) : Bool := Ucd.isMark u

/-- The byte-order mark, which `Uutf` drops at the start of a text. -/
def byteOrderMark : Char := '\uFEFF'

/-- The code points with their byte positions, the first at `pos`. -/
def withPositions (pos : Nat) : List Char → List (Char × Nat)
  | [] => []
  | u :: rest => (u, pos) :: withPositions (pos + (Utf8.encodeChar u).length) rest

def codepoints (cs : List Char) : List (Char × Nat) :=
  match cs with
  | u :: rest =>
    if u = byteOrderMark then withPositions (Utf8.encodeChar u).length rest
    else withPositions 0 (u :: rest)
  | [] => []

/-- The clusters as offset and width, the current one starting at `start`: its width is the
greatest of its code points, and the end of the text closes the last. -/
def segment (before : List Char) (start width : Nat) : List (Char × Nat) → List (Nat × Nat)
  | [] => [(start, width)]
  | (u, pos) :: rest =>
    if Ucd.boundary before u then
      (start, width) :: segment (before ++ [u]) pos (ucharWidth u) rest
    else segment (before ++ [u]) start (max width (ucharWidth u)) rest

def ofString (s : Bytes) : Except Error UnicodeString :=
  if s.length = 0 then .ok empty
  else
    match Utf8.decode s with
    | none => .error .invalidUtf8
    | some cs =>
      match codepoints cs with
      | [] => .ok empty
      | (u, pos) :: rest =>
        if isCombiner u then .error .leadingCombiner
        else
          let clusters := segment [u] pos (ucharWidth u) rest
          .ok ⟨s, clusters.map Prod.fst, clusters.map Prod.snd⟩

/-! ## Modification -/

def isSingleAsciiWidth1 (s : Bytes) : Bool :=
  match s with
  | [c] => 32 ≤ c && c < 127
  | _ => false

/-- The two assertions of the source are the hypotheses. -/
def insertAsciiWidth1 (t : UnicodeString) (pos : Int) (str : Bytes)
    (_ : 0 ≤ pos ∧ isSingleAsciiWidth1 str = true) : UnicodeString :=
  let len := t.length
  let pos := (min pos len).toNat
  let bytePos := if pos = len then t.bytes.length else t.offset pos
  ⟨t.bytes.take bytePos ++ str ++ t.bytes.drop bytePos,
    t.offsets.take pos ++ bytePos :: (t.offsets.drop pos).map (· + 1),
    t.widths.take pos ++ 1 :: t.widths.drop pos⟩

def insertString (t : UnicodeString) (pos : Int) (str : Bytes) : Except Error UnicodeString :=
  if h : 0 ≤ pos ∧ isSingleAsciiWidth1 str = true then .ok (insertAsciiWidth1 t pos str h)
  else
    match ofString str with
    | .error e => .error e
    | .ok _ =>
      let len := t.length
      let bytePos := if pos ≥ len then t.bytes.length else t.offset pos.toNat
      -- only the inserted text and what follows is parsed again
      match ofString (str ++ t.bytes.drop bytePos) with
      | .error _ => .error .invalidUtf8
      | .ok suffix =>
        let prefixLen := (min pos len).toNat
        .ok ⟨t.bytes.take bytePos ++ suffix.bytes,
          t.offsets.take prefixLen ++ suffix.offsets.map (· + bytePos),
          t.widths.take prefixLen ++ suffix.widths⟩

/-- The text without the bytes from `start` up to `stop`, parsed again. -/
def reparseWithout (t : UnicodeString) (start stop : Nat) : UnicodeString :=
  match ofString (t.bytes.take start ++ t.bytes.drop stop) with
  | .ok t' => t'
  | .error _ => t

/-- A cluster of width one that is a single ASCII byte, which is cut out without parsing. -/
def isAsciiAt (t : UnicodeString) (i : Nat) : Bool :=
  t.widths.getD i 0 = 1 && t.stop i - t.offset i = 1 && t.bytes.getD (t.offset i) 0 < 128

def delete (t : UnicodeString) (pos : Int) : UnicodeString :=
  if pos < 0 ∨ pos ≥ t.length then t
  else
    let pos := pos.toNat
    let start := t.offset pos
    let stop := t.stop pos
    if t.isAsciiAt pos then
      ⟨t.bytes.take start ++ t.bytes.drop stop,
        t.offsets.take pos ++ (t.offsets.drop (pos + 1)).map (· - 1),
        t.widths.take pos ++ t.widths.drop (pos + 1)⟩
    else t.reparseWithout start stop

/-- Where the clusters from `start` on, `len` of them, stop. -/
def stopOf (t : UnicodeString) (start len : Nat) : Nat :=
  if start + len ≥ t.length then t.bytes.length else t.offset (start + len)

def deleteRange (t : UnicodeString) (start len : Int) : UnicodeString :=
  if start < 0 ∨ len ≤ 0 ∨ start ≥ t.length then t
  else
    let actualLen := (min len (t.length - start)).toNat
    let start := start.toNat
    t.reparseWithout (t.offset start) (t.stopOf start actualLen)

def sub (t : UnicodeString) (start len : Int) : UnicodeString :=
  if start < 0 ∨ len ≤ 0 ∨ start ≥ t.length then empty
  else
    let actualLen := (min len (t.length - start)).toNat
    let start := start.toNat
    let byteStart := t.offset start
    ⟨slice t.bytes byteStart (t.stopOf start actualLen),
      ((t.offsets.drop start).take actualLen).map (· - byteStart),
      (t.widths.drop start).take actualLen⟩

def append (a b : UnicodeString) : UnicodeString :=
  if a.isEmpty then b
  else if b.isEmpty then a
  else
    match ofString (a.bytes ++ b.bytes) with
    | .ok t => t
    | .error _ => a

def concat (ts : List UnicodeString) : UnicodeString :=
  match ofString (ts.flatMap toBytes) with
  | .ok t => t
  | .error _ => empty

def split (t : UnicodeString) (pos : Int) : UnicodeString × UnicodeString :=
  if pos ≤ 0 then (empty, t)
  else if pos ≥ t.length then (t, empty)
  else (t.sub 0 pos, t.sub pos (t.length - pos))

end

/-! ## Wrapping -/

/-- The rows from cluster `start` on. Each takes at least one cluster, so `length` rounds do. -/
def wrapRows (t : UnicodeString) (width : Int) : Nat → Nat → List UnicodeString
  | 0, _ => []
  | fuel + 1, start =>
    if start ≥ t.length then []
    else
      let endIdx := start + fitting width 0 (t.widths.drop start)
      if endIdx = start then t.sub start 1 :: wrapRows t width fuel (start + 1)
      else t.sub start (endIdx - start) :: wrapRows t width fuel endIdx

def wrap (t : UnicodeString) (width : Int) : List UnicodeString :=
  if width ≤ 0 then [t]
  else if t.isEmpty then [empty]
  else
    let wrapped := wrapRows t width t.length 0
    let totalWidth := t.displayWidth
    -- a line that exactly fills the width gets an empty row for the cursor
    if totalWidth > 0 ∧ (totalWidth : Int) % width = 0 then wrapped ++ [empty] else wrapped

end UnicodeString
end Raoui
