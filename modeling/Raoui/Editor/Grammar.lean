import Raoui.Editor.Continuation

/-!
# Raoui.Editor.Grammar

The token lists of complete R programs.

* `Derives`: the grammar, one rule a constructor.
* `Balanced`: bracketed token lists; what is derived is balanced.
-/

namespace Raoui
namespace RContinuation

open RLexer (Token Keyword)

/-- The tokens without whitespace and comments. -/
def significant (tokens : List Token) : List Token := tokens.filter fun t => !isIgnorable t

/-! ## The grammar -/

def isAtom : Token → Bool
  | .number _ | .string _ | .constant _ | .ident _ | .backtickIdent _ => true
  | .keyword k => k = .kBreak || k = .kNext || k = .kReturn
  | _ => false

def isName : Token → Bool
  | .string _ | .ident _ | .backtickIdent _ => true
  | _ => false

inductive Nonterminal where
  | expr
  | arguments
  | parameters
  /-- What stands between the parentheses behind this token. -/
  | header (opening : Token)
  | program

/-- The token lists of each part of the language. Precedence and the choice of operators are left
out, so more is derived than R accepts. -/
inductive Derives : Nonterminal → List Token → Prop where
  | atom {t : Token} : isAtom t = true → Derives .expr [t]
  | call {f a : List Token} : Derives .expr f → Derives .arguments a →
      Derives .expr (f ++ (.leftParen :: (a ++ [.rightParen])))
  | index {f a : List Token} : Derives .expr f → Derives .arguments a →
      Derives .expr (f ++ (.leftBracket :: (a ++ [.rightBracket])))
  | element {f a : List Token} : Derives .expr f → Derives .arguments a →
      Derives .expr (f ++ (.leftBracket :: .leftBracket :: (a ++ [.rightBracket, .rightBracket])))
  | unary {e : List Token} (s : Bytes) : Derives .expr e → Derives .expr (.operator s :: e)
  | binary {e e' : List Token} (s : Bytes) : Derives .expr e → Derives .expr e' →
      Derives .expr (e ++ (.operator s :: e'))
  | paren {e : List Token} : Derives .expr e → Derives .expr (.leftParen :: (e ++ [.rightParen]))
  | block {b : List Token} : Derives .program b → Derives .expr (.leftBrace :: (b ++ [.rightBrace]))
  | headed {k : Token} {c b : List Token} : Derives (.header k) c → Derives .expr b →
      Derives .expr (k :: .leftParen :: (c ++ (.rightParen :: b)))
  | ifElse {c b b' : List Token} : Derives .expr c → Derives .expr b → Derives .expr b' →
      Derives .expr
        (.keyword .kIf :: .leftParen :: (c ++ (.rightParen :: (b ++ (.keyword .kElse :: b')))))
  | repeatLoop {b : List Token} : Derives .expr b → Derives .expr (.keyword .kRepeat :: b)
  | ifHeader {c : List Token} : Derives .expr c → Derives (.header (.keyword .kIf)) c
  | whileHeader {c : List Token} : Derives .expr c → Derives (.header (.keyword .kWhile)) c
  | forHeader {t : Token} {e : List Token} : isName t = true → Derives .expr e →
      Derives (.header (.keyword .kFor)) (t :: .keyword .kIn :: e)
  | functionHeader {c : List Token} :
      Derives .parameters c → Derives (.header (.keyword .kFunction)) c
  | lambdaHeader {c : List Token} : Derives .parameters c → Derives (.header .lambda) c
  | noArguments : Derives .arguments []
  | argument {e : List Token} : Derives .expr e → Derives .arguments e
  | emptyArgument {t : Token} (s : Bytes) : isName t = true → Derives .arguments [t, .operator s]
  | moreArguments {a a' : List Token} : Derives .arguments a → Derives .arguments a' →
      Derives .arguments (a ++ (.punctuation (bytes ",") :: a'))
  | noParameters : Derives .parameters []
  | parameter {t : Token} : isName t = true → Derives .parameters [t]
  | defaultParameter {t : Token} {e : List Token} (s : Bytes) : isName t = true → Derives .expr e →
      Derives .parameters (t :: .operator s :: e)
  | moreParameters {a a' : List Token} : Derives .parameters a → Derives .parameters a' →
      Derives .parameters (a ++ (.punctuation (bytes ",") :: a'))
  | noStatement : Derives .program []
  | statement {e : List Token} : Derives .expr e → Derives .program e
  | semicolon {p p' : List Token} : Derives .program p → Derives .program p' →
      Derives .program (p ++ (.punctuation (bytes ";") :: p'))
  /-- A line break leaves no token. -/
  | lineBreak {p p' : List Token} : Derives .program p → Derives .program p' →
      Derives .program (p ++ p')

/-! ## Brackets -/

def isBracket : Token → Bool
  | .leftParen | .rightParen | .leftBracket | .rightBracket | .leftBrace | .rightBrace => true
  | _ => false

inductive Balanced : List Token → Prop where
  | nil : Balanced []
  | token {t : Token} : isBracket t = false → Balanced [t]
  | parens {w : List Token} : Balanced w → Balanced (.leftParen :: (w ++ [.rightParen]))
  | brackets {w : List Token} : Balanced w → Balanced (.leftBracket :: (w ++ [.rightBracket]))
  | braces {w : List Token} : Balanced w → Balanced (.leftBrace :: (w ++ [.rightBrace]))
  | append {u v : List Token} : Balanced u → Balanced v → Balanced (u ++ v)

theorem Balanced.cons {t : Token} {w : List Token} (ht : isBracket t = false) (hw : Balanced w) :
    Balanced (t :: w) := (Balanced.token ht).append hw

theorem not_isBracket_of_isAtom {t : Token} (h : isAtom t = true) : isBracket t = false := by
  cases t <;> first | rfl | cases h

theorem not_isBracket_of_isName {t : Token} (h : isName t = true) : isBracket t = false := by
  cases t <;> first | rfl | cases h

/-- The tokens in front of a header's parentheses. -/
theorem Derives.opening {n : Nonterminal} {w : List Token} (h : Derives n w) {k : Token}
    (hn : n = .header k) : k = .lambda ∨ ∃ kw, k = .keyword kw ∧
      pendingForKeyword kw = some ⟨true, 0, false⟩ := by
  cases h <;> cases hn
  · exact .inr ⟨_, rfl, rfl⟩
  · exact .inr ⟨_, rfl, rfl⟩
  · exact .inr ⟨_, rfl, rfl⟩
  · exact .inr ⟨_, rfl, rfl⟩
  · exact .inl rfl

theorem Derives.not_isBracket_opening {k : Token} {c : List Token} (h : Derives (.header k) c) :
    isBracket k = false := by
  obtain rfl | ⟨kw, rfl, -⟩ := h.opening rfl
  · rfl
  · rfl

theorem Derives.balanced {n : Nonterminal} {w : List Token} (h : Derives n w) : Balanced w := by
  induction h with
  | atom ht => exact .token (not_isBracket_of_isAtom ht)
  | call _ _ ihf iha => exact ihf.append (.parens iha)
  | index _ _ ihf iha => exact ihf.append (.brackets iha)
  | @element f a _ _ ihf iha =>
    have h := ihf.append (.brackets (.brackets iha))
    rw [List.cons_append, List.append_assoc] at h
    exact h
  | unary s _ ih => exact .cons rfl ih
  | binary s _ _ ih ih' => exact ih.append (.cons rfl ih')
  | paren _ ih => exact .parens ih
  | block _ ih => exact .braces ih
  | @headed k c b hc _ ihc ihb =>
    have h := Balanced.cons hc.not_isBracket_opening ((Balanced.parens ihc).append ihb)
    rw [List.cons_append, List.append_assoc] at h
    exact h
  | @ifElse c b b' _ _ _ ihc ihb ihb' =>
    have hbodies := ihb.append (.cons (t := .keyword .kElse) rfl ihb')
    have h := Balanced.cons (t := .keyword .kIf) rfl ((Balanced.parens ihc).append hbodies)
    rw [List.cons_append, List.append_assoc] at h
    exact h
  | repeatLoop _ ih => exact .cons rfl ih
  | ifHeader _ ih => exact ih
  | whileHeader _ ih => exact ih
  | forHeader ht _ ih => exact .cons (not_isBracket_of_isName ht) (.cons rfl ih)
  | functionHeader _ ih => exact ih
  | lambdaHeader _ ih => exact ih
  | noArguments => exact .nil
  | argument _ ih => exact ih
  | emptyArgument s ht => exact .cons (not_isBracket_of_isName ht) (.token rfl)
  | moreArguments _ _ ih ih' => exact ih.append (.cons rfl ih')
  | noParameters => exact .nil
  | parameter ht => exact .token (not_isBracket_of_isName ht)
  | defaultParameter s ht _ ih => exact .cons (not_isBracket_of_isName ht) (.cons rfl ih)
  | moreParameters _ _ ih ih' => exact ih.append (.cons rfl ih')
  | noStatement => exact .nil
  | statement _ ih => exact ih
  | semicolon _ _ ih ih' => exact ih.append (.cons rfl ih')
  | lineBreak _ _ ih ih' => exact ih.append ih'

end RContinuation
end Raoui
