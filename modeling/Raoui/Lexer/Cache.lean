import Raoui.Lexer.RLexer
import Raoui.Text.UnicodeString

/-!
# Raoui.Lexer.Cache

`lib/lexer_cache.ml`: the cache of lexed lines over any `LEXER`, and its instance for R,
`lib/r_lex_cache.ml`. Lexing a line may raise, so building a cache may.
-/

namespace Raoui

/-- `LEXER`. -/
structure Lexer (Token Mode : Type) where
  initialMode : Mode
  lexLine : Mode → Bytes → Res (List Token × Mode)
  lexAsDefault : Bytes → Token

namespace LexerCache

structure Entry (Token Mode : Type) where
  text : Bytes
  tokens : List Token
  startMode : Mode
  endMode : Mode
  deriving DecidableEq, Repr

abbrev Cache (Token Mode : Type) := List (Entry Token Mode)

variable {Token Mode : Type}

def lexEntry (l : Lexer Token Mode) (mode : Mode) (line : UnicodeString) :
    Res (Entry Token Mode) := do
  let text := line.toBytes
  let (tokens, endMode) ← l.lexLine mode text
  return ⟨text, tokens, mode, endMode⟩

/-- The inner `loop` of `create`. -/
def createFrom (l : Lexer Token Mode) (mode : Mode) : List UnicodeString → Res (Cache Token Mode)
  | [] => return []
  | line :: rest => do
    let entry ← lexEntry l mode line
    return entry :: (← createFrom l entry.endMode rest)

theorem createFrom_cons_iff {l : Lexer Token Mode} {mode : Mode} {line : UnicodeString}
    {rest : List UnicodeString} {cache : Cache Token Mode} :
    createFrom l mode (line :: rest) = .ok cache ↔
      ∃ tokens m cache', l.lexLine mode line.toBytes = .ok (tokens, m) ∧
        createFrom l m rest = .ok cache' ∧ cache = ⟨line.toBytes, tokens, mode, m⟩ :: cache' := by
  simp only [createFrom, lexEntry]
  cases hl : l.lexLine mode line.toBytes with
  | error e => simp [bind, Except.bind]
  | ok r =>
    obtain ⟨tokens, m⟩ := r
    cases hr : createFrom l m rest with
    | error e => simp [bind, Except.bind, pure, Except.pure, hr]
    | ok cache' => simp [bind, Except.bind, pure, Except.pure, hr, eq_comm]

def create (l : Lexer Token Mode) (lines : List UnicodeString) : Res (Cache Token Mode) :=
  createFrom l l.initialMode lines

def makeAllDefault (l : Lexer Token Mode) (lines : List UnicodeString) : Cache Token Mode :=
  lines.map fun line =>
    let text := line.toBytes
    ⟨text, [l.lexAsDefault text], l.initialMode, l.initialMode⟩

/-- The inner `loop` of `update`, at line `i`. -/
def updateFrom [DecidableEq Mode] (l : Lexer Token Mode) (startLine endLine : Int) :
    Int → Mode → List UnicodeString → Cache Token Mode → Res (Cache Token Mode)
  | _, _, [], _ => return []
  | i, mode, line :: linesTail, cacheRest =>
    let relex : Res (Cache Token Mode) := do
      let entry ← lexEntry l mode line
      return entry ::
        (← updateFrom l startLine endLine (i + 1) entry.endMode linesTail (cacheRest.drop 1))
    if i < startLine then
      match cacheRest with
      | cached :: cacheTail => do
        return cached ::
          (← updateFrom l startLine endLine (i + 1) cached.endMode linesTail cacheTail)
      | [] => return []
    else if i > endLine ∧ mode = l.initialMode then
      match cacheRest with
      | cached :: cacheTail =>
        -- past the change and back to the initial mode: what is cached still holds
        if cached.startMode = l.initialMode then return cached :: cacheTail else relex
      | [] => relex
    else relex

def update [DecidableEq Mode] (l : Lexer Token Mode) (startLine endLine : Int)
    (lines : List UnicodeString) (cache : Cache Token Mode) : Res (Cache Token Mode) :=
  if lines.length ≠ cache.length then create l lines
  else updateFrom l startLine endLine 0 l.initialMode lines cache

/-- The entries at the indices below `line`. -/
def tokensBeforeLine (cache : Cache Token Mode) (line : Int) : List Token :=
  (cache.take line.toNat).flatMap Entry.tokens

def tokensThroughLine (cache : Cache Token Mode) (line : Int) : List Token :=
  (cache.take (line + 1).toNat).flatMap Entry.tokens

/-- `List.nth_opt` refuses a negative index. -/
def getEntry (cache : Cache Token Mode) (line : Int) : Res (Option (Entry Token Mode)) :=
  if line < 0 then .error (.invalidArgument (bytes "List.nth")) else .ok cache[line.toNat]?

def getLineTokens (cache : Cache Token Mode) (line : Int) : Res (Option (List Token)) :=
  (getEntry cache line).map (·.map Entry.tokens)

def getStartMode (cache : Cache Token Mode) (line : Int) : Res (Option Mode) :=
  (getEntry cache line).map (·.map Entry.startMode)

/-- The byte offset of a cursor position within a line. -/
def cursorByteOffset (line : UnicodeString) (cursorPos : Int) : Nat :=
  if cursorPos ≥ line.length then line.byteLength else (line.sub 0 cursorPos).byteLength

/-- The tokens with the bytes they span, from `pos` on. -/
def tokensWithPositions (tokenToLexeme : Token → Bytes) (pos : Nat) :
    List Token → List (Token × Nat × Nat)
  | [] => []
  | tok :: rest =>
    let nextPos := pos + (tokenToLexeme tok).length
    (tok, pos, nextPos) :: tokensWithPositions tokenToLexeme nextPos rest

end LexerCache

namespace RLexCache

open LexerCache

abbrev Cache := LexerCache.Cache RLexer.Token RLexer.Mode

section
variable [Ucd]

def lexer : Lexer RLexer.Token RLexer.Mode where
  initialMode := .normal
  lexLine := RLexer.lexLine
  lexAsDefault := RLexer.lexAsDefault

def create (lines : List UnicodeString) : Res Cache := LexerCache.create lexer lines

def update (startLine endLine : Int) (lines : List UnicodeString) (cache : Cache) : Res Cache :=
  LexerCache.update lexer startLine endLine lines cache

def makeAllDefault (lines : List UnicodeString) : Cache := LexerCache.makeAllDefault lexer lines

end

end RLexCache
end Raoui
