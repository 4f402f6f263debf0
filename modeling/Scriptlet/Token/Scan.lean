import Scriptlet.Error
import Scriptlet.Token

/-!
# Scanning

Program text is cut from left to right, always taking the longest lexeme.

* `lexeme?`: the kind of the lexeme at the front of a text, and how far it extends.
* `linesPassed`: the lines that are counted at a lexeme.
* `scan`: **the tokens of a text**, closed by the end of input, or the first error.
-/

namespace Scriptlet

/-! ## Character classes -/

/-- Blanks within a line: space, tab, carriage return and form feed. -/
def isBlank (c : Char) : Bool := c == ' ' || c == '\t' || c == '\r' || c == '\x0c'

/-- How many characters at the front of a text satisfy `p`. -/
def runLength (p : Char → Bool) (cs : List Char) : Nat := (cs.takeWhile p).length

/-! ## Lexemes -/

/-- How far a number extends: over its digits, and over a point if a digit follows it. -/
def numberLength (cs : List Char) : Nat :=
  let whole := runLength Char.isDigit cs
  match cs.drop whole with
  | '.' :: d :: rest => if d.isDigit then whole + 2 + runLength Char.isDigit rest else whole
  | _ => whole

/-- How far a string extends, its closing quote included. -/
def quotedLength? (quote : Char) (cs : List Char) : Option Nat :=
  let body := runLength (· != quote) cs
  if body < cs.length then some (body + 1) else none

/-- One of two operators, depending on whether an equals sign follows. -/
def withEqual (cs : List Char) (alone joined : TokenKind) : TokenKind × Nat :=
  if cs.head? == some '=' then (joined, 1) else (alone, 0)

/-- The lexeme at the front of `c :: cs`: its kind and how many characters of `cs` it takes. -/
def lexeme? (c : Char) (cs : List Char) : Option (TokenKind × Nat) :=
  match c with
  | '(' => some (.leftParen, 0)
  | ')' => some (.rightParen, 0)
  | '\x7b' => some (.leftBrace, 0)
  | '\x7d' => some (.rightBrace, 0)
  | '[' => some (.leftBracket, 0)
  | ']' => some (.rightBracket, 0)
  | ',' => some (.comma, 0)
  | '.' => some (.dot, 0)
  | ';' => some (.semicolon, 0)
  | '+' => some (.plus, 0)
  | '-' => some (.minus, 0)
  | '*' => some (.star, 0)
  | '/' =>
    if cs.head? == some '/' then some (.comment, runLength (· != '\n') cs) else some (.slash, 0)
  | '!' => some (withEqual cs .bang .bangEqual)
  | '=' => some (withEqual cs .equal .equalEqual)
  | '>' => some (withEqual cs .greater .greaterEqual)
  | '<' => some (withEqual cs .less .lessEqual)
  | '"' => (quotedLength? '"' cs).map (.doubleQuoted, ·)
  | '\'' => (quotedLength? '\'' cs).map (.singleQuoted, ·)
  | '\n' => some (.lineBreak, 0)
  | _ =>
    if isBlank c then some (.blank, runLength isBlank cs)
    else if c.isDigit then some (.number, numberLength cs)
    else if c.isAlpha then
      let n := runLength Char.isAlphanum cs
      some (.ofWord (.ofList (c :: cs.take n)), n)
    else none

/-- The constant that a lexeme writes. -/
def literal? (kind : TokenKind) (lexeme : List Char) : Option Literal :=
  match kind with
  | .number =>
    let whole := lexeme.takeWhile (· != '.')
    let fraction := lexeme.drop (whole.length + 1)
    some (.number (Decimal.ofDigits whole fraction).toNumber)
  | .doubleQuoted | .singleQuoted => some (.string (.ofList lexeme.tail.dropLast))
  | .kwTrue => some (.bool true)
  | .kwFalse => some (.bool false)
  | .kwNull => some .null
  | _ => none

/-! ## Texts -/

/-- The error at a character that starts no lexeme: a quote without its partner, or a character
that the language does not use. -/
def scanError (c : Char) (line : Nat) : ScanError :=
  if c == '"' || c == '\'' then .unterminatedString line else .unexpectedCharacter c line

/-- How many lines the scanner moves on at a lexeme. The rule for line breaks moves on by one, and
comments and blanks do not count; what becomes a token is searched for newlines. -/
def linesPassed (kind : TokenKind) (lexeme : List Char) : Nat :=
  match kind with
  | .lineBreak => 1
  | .comment | .blank => 0
  | _ => lexeme.count '\n'

/-- The tokens of a text that starts on the given line. -/
def scanFrom (line : Nat) : List Char → Except ScanError (List Token)
  | [] => .ok [.endOfInput line]
  | c :: cs =>
    match lexeme? c cs with
    | none => .error (scanError c line)
    | some (kind, n) =>
      let lexeme := c :: cs.take n
      match scanFrom (line + linesPassed kind lexeme) (cs.drop n) with
      | .error e => .error e
      | .ok tokens =>
        if kind.isSkipped then .ok tokens
        else .ok (⟨kind, .ofList lexeme, literal? kind lexeme, line⟩ :: tokens)
termination_by cs => cs.length
decreasing_by simp only [List.length_drop, List.length_cons]; omega

/-- **The tokens of a program text.** -/
def scan (source : String) : Except ScanError (List Token) := scanFrom 1 source.toList

end Scriptlet
