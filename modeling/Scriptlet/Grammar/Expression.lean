import Scriptlet.Grammar.Parser

/-!
# Expressions

Precedence grows from assignment over `or`, `and`, equality, comparison, sums and products to unary
operators, calls and primaries. Every whole expression, operand of a unary operator and right side
of an assignment is one level further in, and only `maxNesting` levels are there: each parser is
given the parsers one level in, or `none` when no room is left.

* `exprLevel`: the parsers with a given number of levels of room.
* `expression`: **an expression with that much room**.
-/

namespace Scriptlet

namespace Grammar

open Scriptlet.Parser

/-- The parsers that other parsers call one level further in. -/
structure ExprParsers where
  unary : Parser Expr
  assignment : Parser Expr

/-- Goes one level further in, at the given line. -/
def enter {ι α : Type} (inner : Option ι) (line : Nat) (p : ι → Parser α) : Parser α :=
  match inner with
  | none => fail (.tooDeeplyNested line)
  | some i => p i

section Levels

variable (inner : Option ExprParsers)

/-- An expression of its own: the operand of a group, an argument, a condition. -/
def wholeExpression : Parser Expr := do
  let line ← nextLine
  enter inner line (·.assignment)

/-- Literals, names and groups. -/
def primary : Parser Expr :=
  headed
    (fun t =>
      match t.kind with
      | .number | .doubleQuoted | .singleQuoted | .kwTrue | .kwFalse | .kwNull =>
        some (succeed (.literal t.line (t.literal.getD .null)))
      | .identifier => some (succeed (.var t.line t.lexeme .unresolved))
      | .leftParen => some do
        let e ← wholeExpression inner
        let _ ← expect .rightParen .closingParen
        return .group t.line e
      | _ => none)
    (unexpected .expression)

/-- What may follow a callee or an object: a list of arguments or a member. -/
def callSuffix (e : Expr) (t : Token) : Option (Parser Expr) :=
  match t.kind with
  | .leftParen => some do
    let arguments ← commaList (wholeExpression inner)
    if maxArguments < arguments.length then fail (.tooManyArguments t.line)
    else return .call t.line e arguments
  | .dot => some do
    let member ← name .propertyName
    return .get t.line member e
  | _ => none

/-- Calls and members. -/
def call : Parser Expr := do
  let e ← primary inner
  extend (callSuffix inner) e

/-- The unary operator that a token writes. -/
def unaryOp? : TokenKind → Option UnaryOp
  | .minus => some .negate
  | .bang => some .not
  | _ => none

/-- Unary operators, the outermost first. -/
def unary : Parser Expr :=
  headed
    (fun t => (unaryOp? t.kind).map fun op => do
      let operand ← enter inner t.line (·.unary)
      return .unary t.line op operand)
    (call inner)

end Levels

/-! ## Binary levels -/

/-- Operands joined by the operators that `join?` knows, grouped to the left. -/
def leftAssoc (operand : Parser Expr) (join? : Token → Option (Expr → Expr → Expr)) :
    Parser Expr := do
  let first ← operand
  extend
    (fun left t => (join? t).map fun join => do
      let right ← operand
      return join left right)
    first

/-- The binary operator that a token writes. -/
def binaryOp? : TokenKind → Option BinaryOp
  | .plus => some .add
  | .minus => some .sub
  | .star => some .mul
  | .slash => some .div
  | .less => some .less
  | .greater => some .greater
  | .lessEqual => some .lessEqual
  | .greaterEqual => some .greaterEqual
  | .equalEqual => some .equal
  | .bangEqual => some .notEqual
  | _ => none

/-- Joins two operands by one of the given operators. -/
def joinBinary (ops : List BinaryOp) (t : Token) : Option (Expr → Expr → Expr) :=
  ((binaryOp? t.kind).filter ops.contains).map (.binary t.line)

/-- Joins two operands by a keyword. -/
def joinLogical (kind : TokenKind) (op : LogicalOp) (t : Token) : Option (Expr → Expr → Expr) :=
  if t.kind = kind then some (.logical t.line op) else none

section Levels

variable (inner : Option ExprParsers)

def multiplicative : Parser Expr := leftAssoc (unary inner) (joinBinary [.mul, .div])

def additive : Parser Expr := leftAssoc (multiplicative inner) (joinBinary [.add, .sub])

def comparison : Parser Expr :=
  leftAssoc (additive inner) (joinBinary [.less, .greater, .lessEqual, .greaterEqual])

def equality : Parser Expr := leftAssoc (comparison inner) (joinBinary [.equal, .notEqual])

def logicalAnd : Parser Expr := leftAssoc (equality inner) (joinLogical .kwAnd .and)

def logicalOr : Parser Expr := leftAssoc (logicalAnd inner) (joinLogical .kwOr .or)

/-- The assignment of a value to what stands left of the equals sign: a variable or a member. -/
def assignTo (target value : Expr) (line : Nat) : Parser Expr :=
  match target with
  | .var line name _ => succeed (.assign line name .unresolved value)
  | .get line name object => succeed (.set line name object value)
  | _ => fail (.invalidTarget line)

/-- Assignments, grouped to the right. -/
def assignment : Parser Expr := do
  let target ← logicalOr inner
  headed
    (fun t =>
      if t.kind = .equal then some do
        let value ← enter inner t.line (·.assignment)
        assignTo target value t.line
      else none)
    (succeed target)

end Levels

/-! ## Room -/

/-- The parsers with the given number of levels of room. -/
def exprLevel : Nat → Option ExprParsers
  | 0 => none
  | room + 1 => some ⟨unary (exprLevel room), assignment (exprLevel room)⟩

/-- **An expression**, with the given number of levels of room. -/
def expression (room : Nat) : Parser Expr := wholeExpression (exprLevel room)

end Grammar

end Scriptlet
