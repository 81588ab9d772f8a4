import Raoui.Base
import Raoui.Lib.Pattern
import Raoui.Lib.Utf8
import Raoui.Text.Ucd

/-!
# Raoui.Lexer.RLexer

`lib/r_lexer.ml`. The buffer is the list of code points still to be read, and a reader returns the
token, the mode to continue in and the rest of the buffer. `read_normal` keeps the `sedlex` rules
as a table of patterns with longest match; the readers inside a literal have rules of one or two
code points, written as a match.

Text that is not UTF-8 makes `sedlex` raise when it reaches the bad byte; here it is refused at
once.
-/

namespace Raoui
namespace RLexer

open Utf8 (encode)

inductive Keyword where
  | kIf
  | kElse
  | kFor
  | kWhile
  | kRepeat
  | kIn
  | kFunction
  | kBreak
  | kNext
  | kReturn
  deriving DecidableEq, Repr

inductive Token where
  | number (s : Bytes)
  | string (s : Bytes)
  | comment (s : Bytes)
  | keyword (k : Keyword)
  | constant (s : Bytes)
  | operator (s : Bytes)
  | ident (s : Bytes)
  | backtickIdent (s : Bytes)
  | punctuation (s : Bytes)
  | lambda
  | leftParen
  | rightParen
  | leftBracket
  | rightBracket
  | leftBrace
  | rightBrace
  | whitespace (s : Bytes)
  | unknown (s : Bytes)
  | default (s : Bytes)
  | eof
  deriving DecidableEq, Repr

inductive Mode where
  | normal
  | inDoubleQuote (prev : Bytes)
  | inSingleQuote (prev : Bytes)
  | inBacktick (prev : Bytes)
  | inRawString (closingSeq prev : Bytes)
  deriving DecidableEq, Repr

/-! ## Patterns -/

section
open Pattern

abbrev Re := Pattern Char

def range (lo hi : Char) : Re := sat fun c => lo ≤ c ∧ c ≤ hi

def chars (s : String) : Re := sat fun c => s.toList.contains c

def str (s : String) : Re := word s.toList

/-- `Compl` of a character. -/
def compl (c : Char) : Re := sat fun d => d ≠ c

def digit : Re := range '0' '9'
def hexDigit : Re := alts [range '0' '9', range 'a' 'f', range 'A' 'F']
def binaryDigit : Re := alt (chr '0') (chr '1')

def integer : Re :=
  alts [seqs [chr '0', chr 'x', plus hexDigit], seqs [chr '0', chr 'b', plus binaryDigit],
    plus digit]

def floatingPoint : Re :=
  alts [seqs [plus digit, chr '.', star digit], seqs [star digit, chr '.', plus digit]]

def scientificNumber : Re :=
  seqs [alt floatingPoint integer, chars "eE", opt (chars "+-"), plus digit]

def realNumber : Re := seq (alts [integer, floatingPoint, scientificNumber]) (opt (chr 'L'))

def imaginaryNumber : Re := seq (alt integer floatingPoint) (chr 'i')

def complexNumber : Re :=
  alts [seqs [realNumber, chars "+-", imaginaryNumber],
    seqs [imaginaryNumber, chars "+-", realNumber]]

def rNumber : Re := alts [realNumber, complexNumber, imaginaryNumber]
def whitespace : Re := plus (chars "\t ")
def punctuation : Re := chars ",;_\\"
def wildcardOperator : Re := seqs [chr '%', plus (compl '%'), chr '%']

def constant : Re :=
  alts (["TRUE", "FALSE", "NULL", "NA", "Inf", "NaN", "NA_integer_", "NA_real_", "NA_complex_",
    "NA_character_"].map str)

def identStart : Re := alt (range 'a' 'z') (range 'A' 'Z')

def identContinue : Re := alts [range 'a' 'z', range 'A' 'Z', range '0' '9', chr '_', chr '.']

def ident : Re :=
  alts [seq identStart (star identContinue), seqs [chr '.', identStart, star identContinue],
    str "..."]

def multiCharOperators : Re :=
  alts ([">=", "<=", "<-", "->", "<<-", "->>", ":::", "::", "|>", "==", "!=", "%%", "||"].map str)

def comment : Re := seq (chr '#') (star any)
def operators : Re := chars "+-*/%^&|=<>!$@~?:"

/-- The rules of `read_normal` other than `eof`. -/
inductive Rule where
  | comment
  | rawStart
  | doubleQuote
  | singleQuote
  | backtick
  | lambda
  | number
  | leftParen
  | rightParen
  | leftBracket
  | rightBracket
  | leftBrace
  | rightBrace
  | operator
  | punctuation
  | whitespace
  | constant
  | ident
  | any
  deriving DecidableEq, Repr

def rules : List (Re × Rule) :=
  [(comment, .comment),
   (seq (alt (chr 'r') (chr 'R')) (chr '"'), .rawStart),
   (chr '"', .doubleQuote),
   (chr '\'', .singleQuote),
   (chr '\x60', .backtick),
   (seq (chr '\\') (chr '('), .lambda),
   (rNumber, .number),
   (chr '(', .leftParen),
   (chr ')', .rightParen),
   (chr '[', .leftBracket),
   (chr ']', .rightBracket),
   (chr '{', .leftBrace),
   (chr '}', .rightBrace),
   (wildcardOperator, .operator),
   (multiCharOperators, .operator),
   (operators, .operator),
   (punctuation, .punctuation),
   (whitespace, .whitespace),
   (constant, .constant),
   (ident, .ident),
   (Pattern.any, .any)]

end

/-! ## Keywords and lexemes -/

def keywords : List (Bytes × Keyword) :=
  [(bytes "if", .kIf), (bytes "else", .kElse), (bytes "for", .kFor), (bytes "while", .kWhile),
   (bytes "repeat", .kRepeat), (bytes "in", .kIn), (bytes "function", .kFunction),
   (bytes "break", .kBreak), (bytes "next", .kNext), (bytes "return", .kReturn)]

def keywordOfString (s : Bytes) : Option Keyword := keywords.lookup s

def stringOfKeyword : Keyword → Bytes
  | .kIf => bytes "if"
  | .kElse => bytes "else"
  | .kFor => bytes "for"
  | .kWhile => bytes "while"
  | .kRepeat => bytes "repeat"
  | .kIn => bytes "in"
  | .kFunction => bytes "function"
  | .kBreak => bytes "break"
  | .kNext => bytes "next"
  | .kReturn => bytes "return"

def printType : Token → Bytes
  | .number s => bytes "NUMBER: " ++ s
  | .string s => bytes "STRING: " ++ s ++ bytes "`"
  | .comment s => bytes "COMMENT: " ++ s
  | .keyword kw => bytes "KEYWORD: " ++ stringOfKeyword kw
  | .constant s => bytes "CONSTANT: " ++ s
  | .operator s => bytes "OPERATOR: " ++ s
  | .ident s => bytes "IDENT: " ++ s
  | .backtickIdent s => bytes "BACKTICK_IDENT: " ++ s
  | .punctuation s => bytes "PUNCTUATION: " ++ s
  | .lambda => bytes "LAMBDA"
  | .leftParen => bytes "LEFT_PAREN"
  | .rightParen => bytes "RIGHT_PAREN"
  | .leftBracket => bytes "LEFT_BRACKET"
  | .rightBracket => bytes "RIGHT_BRACKET"
  | .leftBrace => bytes "LEFT_BRACE"
  | .rightBrace => bytes "RIGHT_BRACE"
  | .whitespace s => bytes "WHITESPACE: " ++ s
  | .unknown s => bytes "UNKNOWN: " ++ s
  | .default s => bytes "DEFAULT: " ++ s
  | .eof => bytes "EOF"

def tokenToLexeme : Token → Bytes
  | .number s => s
  | .string s => s
  | .comment s => s
  | .keyword kw => stringOfKeyword kw
  | .constant s => s
  | .operator s => s
  | .ident s => s
  | .backtickIdent s => s
  | .lambda => bytes "\\"
  | .punctuation s => s
  | .leftParen => bytes "("
  | .rightParen => bytes ")"
  | .leftBracket => bytes "["
  | .rightBracket => bytes "]"
  | .leftBrace => bytes "\x7b"
  | .rightBrace => bytes "\x7d"
  | .whitespace s => s
  | .unknown s => s
  | .default s => s
  | .eof => []

/-! ## Readers -/

/-- A token, the mode after it and the code points left. -/
abbrev Read := Token × Mode × List Char

/-- The lexemes of `acc`, which the loops collect backwards. -/
def joined (acc : List Bytes) : Bytes := acc.reverse.flatten

/-- The loop of the three readers of a quoted literal. With nothing read past `start` at the end of
the line there is no token; otherwise the literal goes on in the next line. -/
def readQuotedLoop (quote : Char) (tok : Bytes → Token) (mode : Bytes → Mode) (start : Bytes)
    (acc : List Bytes) : List Char → Read
  | [] => if acc = [start] then (.eof, mode start, []) else (tok (joined acc), mode [], [])
  | '\\' :: c :: cs => readQuotedLoop quote tok mode start (encode ['\\', c] :: acc) cs
  | c :: cs =>
    if c = quote then (tok (joined acc ++ encode [quote]), .normal, cs)
    else readQuotedLoop quote tok mode start (encode [c] :: acc) cs

def readDoubleQuote (prev : Bytes) (cs : List Char) : Read :=
  readQuotedLoop '"' .string .inDoubleQuote [] [prev] cs

def readSingleQuote (prev : Bytes) (cs : List Char) : Read :=
  readQuotedLoop '\'' .string .inSingleQuote prev [prev] cs

def readBacktick (prev : Bytes) (cs : List Char) : Read :=
  readQuotedLoop '\x60' .backtickIdent .inBacktick prev [prev] cs

def closingBracket (bracket : Bytes) : Res Bytes :=
  if bracket = bytes "(" then .ok (bytes ")")
  else if bracket = bytes "[" then .ok (bytes "]")
  else if bracket = bytes "\x7b" then .ok (bytes "\x7d")
  else .error (.failure (bytes "invalid bracket"))

def readRawStringLoop (closingSeq prev : Bytes) (acc : List Bytes) : List Char → Read
  | [] =>
    let current := joined acc
    if current = [] ∧ prev = [] then (.eof, .inRawString closingSeq prev, [])
    else (.string (prev ++ current), .inRawString closingSeq [], [])
  | c :: cs =>
    let acc' := encode [c] :: acc
    let current := joined acc'
    if closingSeq.length ≤ current.length ∧
        current.drop (current.length - closingSeq.length) = closingSeq then
      (.string (prev ++ current), .normal, cs)
    else readRawStringLoop closingSeq prev acc' cs

def readRawString (closingSeq prev : Bytes) (cs : List Char) : Read :=
  readRawStringLoop closingSeq prev [] cs

def isBracket (c : Char) : Bool := c = '(' || c = '[' || c = '{'

/-- `get_delim`. -/
def getDelim (rawPrefix : Bytes) (acc : List Bytes) : List Char → Res Read
  | [] => .ok (.string (rawPrefix ++ joined acc), .inRawString [] (rawPrefix ++ joined acc), [])
  | c :: cs =>
    if isBracket c then
      (closingBracket (encode [c])).map fun close =>
        readRawString (close ++ joined acc ++ bytes "\"") (rawPrefix ++ joined acc ++ encode [c]) cs
    else getDelim rawPrefix (encode [c] :: acc) cs

def readRawStringStart (rawPrefix : Bytes) (cs : List Char) : Res Read := getDelim rawPrefix [] cs

section
variable [Ucd]

/-- The lexemes tested are single code points. -/
def isUnicodeIdentStart (c : Char) : Bool := Ucd.isIdStart c

def isUnicodeIdentContinue (c : Char) : Bool := c = '.' || Ucd.isIdContinue c

/-- `read_unicode_ident`: a code point that does not continue the name is rolled back. -/
def readUnicodeIdent (acc : List Bytes) : List Char → Read
  | [] => (.ident (joined acc), .normal, [])
  | c :: cs =>
    if isUnicodeIdentContinue c then readUnicodeIdent (encode [c] :: acc) cs
    else (.ident (joined acc), .normal, c :: cs)

/-- The action of a rule that matched `lexeme`, with `cs` left. -/
def action (rule : Rule) (lexeme cs : List Char) : Res Read :=
  let s := encode lexeme
  match rule with
  | .comment => .ok (.comment s, .normal, cs)
  | .rawStart => readRawStringStart s cs
  | .doubleQuote => .ok (readDoubleQuote (bytes "\"") cs)
  | .singleQuote => .ok (readSingleQuote (bytes "'") cs)
  | .backtick => .ok (readBacktick (bytes "`") cs)
  | .lambda => .ok (.lambda, .normal, cs)
  | .number => .ok (.number s, .normal, cs)
  | .leftParen => .ok (.leftParen, .normal, cs)
  | .rightParen => .ok (.rightParen, .normal, cs)
  | .leftBracket => .ok (.leftBracket, .normal, cs)
  | .rightBracket => .ok (.rightBracket, .normal, cs)
  | .leftBrace => .ok (.leftBrace, .normal, cs)
  | .rightBrace => .ok (.rightBrace, .normal, cs)
  | .operator => .ok (.operator s, .normal, cs)
  | .punctuation => .ok (.punctuation s, .normal, cs)
  | .whitespace => .ok (.whitespace s, .normal, cs)
  | .constant => .ok (.constant s, .normal, cs)
  | .ident =>
    match keywordOfString s with
    | some kw => .ok (.keyword kw, .normal, cs)
    | none => .ok (.ident s, .normal, cs)
  | .any =>
    match lexeme with
    | [c] =>
      if isUnicodeIdentStart c then .ok (readUnicodeIdent [s] cs) else .ok (.unknown s, .normal, cs)
    | _ => .ok (.unknown s, .normal, cs)

def readNormal (cs : List Char) : Res Read :=
  match cs with
  | [] => .ok (.eof, .normal, [])
  | _ =>
    match Pattern.choose rules cs with
    | some (n, rule) => action rule (cs.take n) (cs.drop n)
    | none => .error (.failure (bytes "no match"))

def token (mode : Mode) (cs : List Char) : Res Read :=
  match mode with
  | .normal => readNormal cs
  | .inDoubleQuote prev => .ok (readDoubleQuote prev cs)
  | .inSingleQuote prev => .ok (readSingleQuote prev cs)
  | .inBacktick prev => .ok (readBacktick prev cs)
  | .inRawString closingSeq prev => .ok (readRawString closingSeq prev cs)

/-- The guard against endless loops. -/
def tooMuchIteration (acc : List Token) : Exn :=
  .failure (bytes "too much iteration: " ++ concatWith (bytes ", ") (acc.map printType))

/-- `loop`. Every round adds a token and the guard stops the loop after 1000 of them, so the fuel
given by `lexLine` does not run out. -/
def lexLoop : Nat → List Token → Mode → List Char → Res (List Token × Mode)
  | 0, acc, _, _ => .error (tooMuchIteration acc)
  | fuel + 1, acc, mode, cs =>
    if acc.length > 1000 then .error (tooMuchIteration acc)
    else
      match token mode cs with
      | .error e => .error e
      | .ok (.eof, m, _) => .ok (acc.reverse, m)
      -- `\(` is expanded into two tokens for the balance of brackets
      | .ok (.lambda, m, cs) => lexLoop fuel (.leftParen :: .lambda :: acc) m cs
      | .ok (t, m, cs) => lexLoop fuel (t :: acc) m cs

def lexLine (mode : Mode) (line : Bytes) : Res (List Token × Mode) :=
  match Utf8.decode line with
  | some cs => lexLoop 1002 [] mode cs
  | none => .error .malformed

end

def lexAsDefault (line : Bytes) : Token := .default line

end RLexer
end Raoui
