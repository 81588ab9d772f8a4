import Mathlib.Data.List.Sort
import Raoui.Lexer.Cache
import Raoui.View.TerminalOps

/-!
# Raoui.View.RHighlight

`lib/r_highlight.ml`: the styled byte ranges of a lexed line. Ranges start at or after the line's
first byte, so positions are natural numbers.
-/

namespace Raoui
namespace RHighlight

open RLexer (Token lexLine tokenToLexeme)
open TerminalOps (Style)

structure StyledRange where
  startByte : Nat
  endByte : Nat
  style : Style
  deriving DecidableEq, Repr

def styleOfToken : Token → Style
  | .number _ => .number
  | .string _ => .string
  | .comment _ => .comment
  | .keyword _ => .keyword
  | .constant _ => .constant
  | .operator _ => .operator
  | .ident _ => .ident
  | .backtickIdent _ => .ident
  | .lambda => .function
  | .punctuation _ => .plain
  | .leftParen | .rightParen | .leftBracket | .rightBracket | .leftBrace | .rightBrace => .bracket
  | .whitespace _ => .plain
  | .unknown _ => .error
  | .default _ => .plain
  | .eof => .plain

/-! ## Lists of ranges -/

/-- The loop of `merge_ranges`. -/
def mergeLoop : List StyledRange → List StyledRange → List StyledRange
  | acc, [] => acc.reverse
  | [], range :: rest => mergeLoop [range] rest
  | prev :: accRest, range :: rest =>
    if prev.style = range.style ∧ prev.endByte = range.startByte then
      mergeLoop ({ prev with endByte := range.endByte } :: accRest) rest
    else mergeLoop (range :: prev :: accRest) rest

def mergeRanges (ranges : List StyledRange) : List StyledRange := mergeLoop [] ranges

/-- The order `normalize_ranges` sorts by. -/
def Before (a b : StyledRange) : Prop :=
  a.startByte < b.startByte ∨ (a.startByte = b.startByte ∧ a.endByte ≤ b.endByte)

instance : DecidableRel Before := fun a b =>
  inferInstanceAs (Decidable
    (a.startByte < b.startByte ∨ (a.startByte = b.startByte ∧ a.endByte ≤ b.endByte)))

/-- Plain text where the ranges leave a gap. -/
def fillGap (startByte endByte : Nat) (acc : List StyledRange) : List StyledRange :=
  if startByte < endByte then ⟨startByte, endByte, .plain⟩ :: acc else acc

/-- The loop of `normalize_ranges`. -/
def normalizeLoop (textLen : Nat) : Nat → List StyledRange → List StyledRange → List StyledRange
  | pos, acc, [] => mergeRanges (fillGap pos textLen acc).reverse
  | pos, acc, range :: rest =>
    let startByte := max pos range.startByte
    let endByte := min textLen range.endByte
    let acc := fillGap pos startByte acc
    if endByte ≤ startByte then normalizeLoop textLen pos acc rest
    else normalizeLoop textLen endByte (⟨startByte, endByte, range.style⟩ :: acc) rest

/-- `List.sort` is stable, and so is insertion sort. -/
def normalizeRanges (textLen : Nat) (ranges : List StyledRange) : List StyledRange :=
  normalizeLoop textLen 0 [] (ranges.insertionSort Before)

def shiftRange (offset : Nat) (range : StyledRange) : StyledRange :=
  { range with startByte := range.startByte + offset, endByte := range.endByte + offset }

/-! ## Strings with interpolations -/

def openBrace : UInt8 := 123
def closeBrace : UInt8 := 125
def doubleQuote : UInt8 := 34

/-- `find_close`, over the bytes from `pos` on: where the brace that closes the expression is. -/
def findClose : Nat → Nat → Bytes → Option Nat
  | _, _, [] => none
  | depth, pos, c :: rest =>
    if c = openBrace then findClose (depth + 1) (pos + 1) rest
    else if c = closeBrace then
      if depth = 1 then some pos else findClose (depth - 1) (pos + 1) rest
    else findClose depth (pos + 1) rest

/-- `find_brace`, over the bytes from `pos` on: where the text before the next brace ends. -/
def findBrace : Nat → Bytes → Nat
  | pos, [] => pos
  | pos, c :: rest => if c = openBrace ∨ c = closeBrace then pos else findBrace (pos + 1) rest

/-- `parse`, inside a literal up to `innerEnd`: the ranges found so far, the last first.
`exprRanges` highlights an expression. Every round moves on, so the fuel given by
`glueStringRanges` does not run out. -/
def parseGlue (exprRanges : Bytes → Res (List StyledRange)) (startByte : Nat) (s : Bytes)
    (innerEnd : Nat) : Nat → List StyledRange → Nat → Res (List StyledRange)
  | 0, acc, _ => return acc
  | fuel + 1, acc, pos =>
    match (s.take innerEnd).drop pos with
    | [] => return acc
    | c :: rest =>
      if c = openBrace then
        if rest.head? = some openBrace then
          parseGlue exprRanges startByte s innerEnd fuel
            (⟨startByte + pos, startByte + pos + 2, .string⟩ :: acc) (pos + 2)
        else
          match findClose 1 (pos + 1) rest with
          | none => return ⟨startByte + pos, startByte + innerEnd, .string⟩ :: acc
          | some closePos => do
            let exprStart := pos + 1
            let expr := rest.take (closePos - exprStart)
            let inside := (← exprRanges expr).map (shiftRange (startByte + exprStart))
            let ranges :=
              [⟨startByte + pos, startByte + pos + 1, .bracket⟩] ++ inside ++
                [⟨startByte + closePos, startByte + closePos + 1, .bracket⟩]
            parseGlue exprRanges startByte s innerEnd fuel (ranges.reverse ++ acc) (closePos + 1)
      else if c = closeBrace then
        if rest.head? = some closeBrace then
          parseGlue exprRanges startByte s innerEnd fuel
            (⟨startByte + pos, startByte + pos + 2, .string⟩ :: acc) (pos + 2)
        else
          parseGlue exprRanges startByte s innerEnd fuel
            (⟨startByte + pos, startByte + pos + 1, .string⟩ :: acc) (pos + 1)
      else
        let endPos := findBrace pos (c :: rest)
        parseGlue exprRanges startByte s innerEnd fuel
          (⟨startByte + pos, startByte + endPos, .string⟩ :: acc) endPos

/-- A literal in double quotes. -/
def isDoubleQuoted (s : Bytes) : Bool := 2 ≤ s.length && s.head? = some doubleQuote

/-- Where the inside of a literal ends: before its closing quote, if it has one. -/
def hasClose (s : Bytes) : Bool := s.getLast? = some doubleQuote

def innerEnd (s : Bytes) : Nat := if hasClose s then s.length - 1 else s.length

def glueStringRanges (exprRanges : Bytes → Res (List StyledRange)) (startByte : Nat) (s : Bytes) :
    Res (List StyledRange) :=
  if !isDoubleQuoted s then return [⟨startByte, startByte + s.length, .string⟩]
  else do
    let acc ← parseGlue exprRanges startByte s (innerEnd s) s.length
      [⟨startByte, startByte + 1, .string⟩] 1
    -- only a literal without its closing quote is turned round
    let ranges :=
      if hasClose s then ⟨startByte + s.length - 1, startByte + s.length, .string⟩ :: acc
      else acc.reverse
    return mergeRanges ranges

/-! ## Lines -/

def isGlue (f : Bytes) : Bool := f = bytes "glue" || f = bytes "str_glue"

/-- The loop of `ranges_for_tokens` over the tokens with their positions. -/
def rangesLoop (glueRanges : Nat → Bytes → Res (List StyledRange)) :
    List (Token × Nat × Nat) → Res (List StyledRange)
  | [] => return []
  | (token, startByte, endByte) :: rest =>
    let styled (style : Style) : Res (List StyledRange) := do
      return ⟨startByte, endByte, style⟩ :: (← rangesLoop glueRanges rest)
    match token, rest with
    | .ident f, (.leftParen, parenStart, parenEnd) :: (.string s, stringStart, _) :: rest' =>
      if isGlue f then do
        let argument ← glueRanges stringStart s
        return [⟨startByte, endByte, .function⟩, ⟨parenStart, parenEnd, .bracket⟩] ++ argument ++
          (← rangesLoop glueRanges rest')
      else styled .function
    | .ident _, (.leftParen, _, _) :: _ => styled .function
    | _, _ => styled (styleOfToken token)

section
variable [Ucd]

/-- `ranges_for_tokens` with interpolations nested less than `depth` deep. -/
def rangesAt : Nat → List Token → Res (List StyledRange)
  | 0, _ => return []
  | depth + 1, tokens =>
    rangesLoop
      (glueStringRanges fun expr => do
        let (exprTokens, _) ← lexLine .normal expr
        return normalizeRanges expr.length (← rangesAt depth exprTokens))
      (LexerCache.tokensWithPositions tokenToLexeme 0 tokens)

/-- An expression is shorter than the literal it is in, so the depth given is not reached. -/
def rangesForTokens (tokens : List Token) : Res (List StyledRange) :=
  rangesAt ((tokens.flatMap tokenToLexeme).length + 1) tokens

def rangesForEntry (entry : LexerCache.Entry Token RLexer.Mode) : Res (List StyledRange) := do
  return normalizeRanges entry.text.length (← rangesForTokens entry.tokens)

end

end RHighlight
end Raoui
