import Raoui.Lexer.Cache

/-!
# Raoui.Editor.Continuation

`lib/r_continuation.ml` and `lib/r_enter.ml`: whether the tokens up to the cursor make a complete
command, and what Enter then does.
-/

namespace Raoui
namespace RContinuation

open RLexer (Token Keyword)

inductive Signal where
  | submit
  | continue (indentLevels : Int) (inEmptyBrackets : Bool)
  deriving DecidableEq, Repr

structure PendingControl where
  needsHeader : Bool
  headerDepth : Int
  headerDone : Bool
  deriving DecidableEq, Repr

structure ContinuationState where
  parens : Int
  brackets : Int
  braces : Int
  lastSignificant : Option Token
  pending : Option PendingControl
  deriving DecidableEq, Repr

def isIgnorable : Token → Bool
  | .whitespace _ | .comment _ => true
  | _ => false

def isControlKeyword : Keyword → Bool
  | .kIf | .kElse | .kFor | .kWhile | .kRepeat | .kFunction => true
  | _ => false

def pendingForKeyword : Keyword → Option PendingControl
  | .kIf | .kFor | .kWhile | .kFunction => some ⟨true, 0, false⟩
  | .kElse | .kRepeat => some ⟨false, 0, true⟩
  | _ => none

def isExprToken : Token → Bool
  | .number _ | .string _ | .constant _ | .ident _ | .backtickIdent _ | .lambda | .unknown _ => true
  | .keyword kw => !isControlKeyword kw
  | .leftParen | .leftBracket => true
  | _ => false

def isTrailingToken : Token → Bool
  | .operator _ => true
  | .leftParen | .leftBracket | .leftBrace => true
  | .punctuation s => s = bytes ","
  | .keyword kw => isControlKeyword kw || kw = .kIn
  | _ => false

def updatePendingForHeader (pending : Option PendingControl) (tok : Token) :
    Option PendingControl :=
  match pending with
  | none => none
  | some p =>
    if p.needsHeader && !p.headerDone then
      match tok with
      | .leftParen => some { p with headerDepth := p.headerDepth + 1 }
      | .rightParen =>
        if p.headerDepth > 0 then
          let depth := p.headerDepth - 1
          some { p with headerDepth := depth, headerDone := depth = 0 }
        else some p
      | _ => some p
    else some p

/-- The `step` of `fold_continuation_state`. -/
def continuationStep (state : ContinuationState) (tok : Token) : ContinuationState :=
  if isIgnorable tok then state
  else
    let state := { state with lastSignificant := some tok }
    let state :=
      match tok with
      | .keyword kw =>
        match pendingForKeyword kw with
        | some pending => { state with pending := some pending }
        | none => state
      | .leftParen =>
        { state with
          parens := state.parens + 1, pending := updatePendingForHeader state.pending tok }
      | .rightParen =>
        { state with
          parens := max 0 (state.parens - 1), pending := updatePendingForHeader state.pending tok }
      | .leftBracket => { state with brackets := state.brackets + 1 }
      | .rightBracket => { state with brackets := max 0 (state.brackets - 1) }
      | .leftBrace => { state with braces := state.braces + 1, pending := none }
      | .rightBrace => { state with braces := max 0 (state.braces - 1) }
      | _ => state
    match state.pending with
    | some p => if p.headerDone && isExprToken tok then { state with pending := none } else state
    | none => state

def foldContinuationState (tokens : List Token) : ContinuationState :=
  tokens.foldl continuationStep ⟨0, 0, 0, none, none⟩

def analyze (tokens : List Token) : Signal :=
  let state := foldContinuationState tokens
  let unclosed : Bool := state.parens > 0 || state.brackets > 0 || state.braces > 0
  let trailing :=
    match state.lastSignificant with
    | some tok => isTrailingToken tok
    | none => false
  let incomplete := state.pending.isSome
  if unclosed || trailing || incomplete then
    let operatorCont :=
      match state.lastSignificant with
      | some (.operator _) => true
      | _ => false
    .continue (state.braces + state.parens + state.brackets + if operatorCont then 1 else 0) false
  else .submit

def insideEmptyBrackets (tokens : List Token) (cursorByteOffset : Nat) : Bool :=
  let positioned := LexerCache.tokensWithPositions RLexer.tokenToLexeme 0 tokens
  let tokenBefore := (positioned.reverse.find? fun (_, _, endPos) => endPos = cursorByteOffset).map
    fun (tok, _, _) => tok
  let tokenAfter := (positioned.find? fun (_, startPos, _) => startPos = cursorByteOffset).map
    fun (tok, _, _) => tok
  tokenBefore = some .leftBrace && tokenAfter = some .rightBrace

end RContinuation

namespace REnter

def continuationIndentSize : Int := 2

def leadingSpaces (s : Bytes) : Int := (s.takeWhile (· = 32)).length

inductive Action where
  | submit
  | insertNewline (indent : Int)
  | expandBraces (innerIndent outerIndent : Int)
  deriving DecidableEq, Repr

def action (lines : List UnicodeString) (cursorLine cursorPos : Int) (cache : RLexCache.Cache) :
    Res Action := do
  let line ← nth lines cursorLine
  let lineText := line.toBytes
  let baseIndent := leadingSpaces lineText
  if trim lineText = [] then return .submit
  else
    match ← LexerCache.getLineTokens cache cursorLine with
    | some lineTokens =>
      let cursorByte := LexerCache.cursorByteOffset line cursorPos
      if RContinuation.insideEmptyBrackets lineTokens cursorByte then
        return .expandBraces (baseIndent + continuationIndentSize) baseIndent
      else
        match RContinuation.analyze (LexerCache.tokensBeforeLine cache (cursorLine + 1)) with
        | .submit => return .submit
        | .continue indentLevels _ =>
          return .insertNewline (max baseIndent (indentLevels * continuationIndentSize))
    | none => return .submit

end REnter
end Raoui
