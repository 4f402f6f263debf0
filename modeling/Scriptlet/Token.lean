import Scriptlet.Literal

/-!
# Tokens

A program text is a sequence of lexemes, each of some `TokenKind`. Comments, line breaks and blanks
are passed over (`TokenKind.isSkipped`); all other lexemes become tokens, and the last token of
every program has the kind `endOfInput`.
-/

namespace Scriptlet

/-- The class of a lexeme. -/
inductive TokenKind where
  | leftParen
  | rightParen
  | leftBrace
  | rightBrace
  | leftBracket
  | rightBracket
  | comma
  | dot
  | semicolon
  | plus
  | minus
  | star
  | slash
  | bang
  | bangEqual
  | equal
  | equalEqual
  | greater
  | greaterEqual
  | less
  | lessEqual
  | number
  | doubleQuoted
  | singleQuoted
  | identifier
  | kwIf
  | kwElse
  | kwAnd
  | kwOr
  | kwFun
  | kwVar
  | kwTrue
  | kwFalse
  | kwNull
  | kwFor
  | kwWhile
  | kwIn
  | kwReturn
  | comment
  | lineBreak
  | blank
  | endOfInput
deriving DecidableEq, Inhabited

namespace TokenKind

/-- Lexemes that only separate tokens. -/
def isSkipped : TokenKind → Bool
  | .comment | .lineBreak | .blank => true
  | _ => false

/-- Keywords that only occur at the start of a statement; after an error the parser resumes at
one of them. -/
def startsStatement : TokenKind → Bool
  | .kwIf | .kwFun | .kwVar | .kwFor | .kwWhile | .kwReturn => true
  | _ => false

/-- The reserved words. -/
def keywords : List (String × TokenKind) :=
  [("if", .kwIf), ("else", .kwElse), ("and", .kwAnd), ("or", .kwOr), ("fun", .kwFun),
    ("var", .kwVar), ("true", .kwTrue), ("false", .kwFalse), ("null", .kwNull), ("for", .kwFor),
    ("while", .kwWhile), ("in", .kwIn), ("return", .kwReturn)]

/-- The kind of a word: its keyword, or else a name. -/
def ofWord (word : String) : TokenKind := (keywords.lookup word).getD .identifier

end TokenKind

/-- A lexeme with its kind, the constant it writes if any, and the line on which it starts. -/
structure Token where
  kind : TokenKind
  lexeme : String
  literal : Option Literal
  line : Nat
deriving DecidableEq, Inhabited

/-- The token that ends a program. -/
def Token.endOfInput (line : Nat) : Token := ⟨.endOfInput, "", none, line⟩

end Scriptlet
