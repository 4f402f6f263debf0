import Scriptlet.Tree
import Scriptlet.Value.Kind

/-!
# Errors

One type of error for each stage of a run: cutting the text into tokens, parsing, scope analysis
and evaluation. Every error knows its line; `Error.message` is the only place that words one.
-/

namespace Scriptlet

/-- The text cannot be cut into tokens. -/
inductive ScanError where
  | unexpectedCharacter (character : Char) (line : Nat)
  | unterminatedString (line : Nat)
deriving DecidableEq, Inhabited

/-- What the parser was looking for. -/
inductive Expectation where
  | expression
  | closingParen
  | propertyName
  | listSeparator
  | blockEnd
  | blockStart
  | functionName
  | parameterList
  | parameterName
  | variableName
  | declarationEnd
  | loopVariable
  | loopIn
  | returnEnd
  | expressionEnd
  | statement
deriving DecidableEq, Inhabited

/-- The tokens do not follow the grammar. -/
inductive ParseError where
  | unexpectedToken (expected : Expectation) (found : String) (line : Nat)
  | unexpectedEnd (expected : Expectation) (line : Nat)
  | invalidTarget (line : Nat)
  | tooManyParameters (line : Nat)
  | tooManyArguments (line : Nat)
  | tooDeeplyNested (line : Nat)
deriving DecidableEq, Inhabited

/-- A name is used against the rules of scope. -/
inductive ScopeError where
  | alreadyDeclared (name : String) (line : Nat)
  | readInOwnInitializer (name : String) (line : Nat)
  | returnOutsideFunction (line : Nat)
deriving DecidableEq, Inhabited

/-- An operation met a value of the wrong kind. -/
inductive KindFault where
  | addOperands (left right : Kind)
  | leftOperand (op : BinaryOp) (found : Kind)
  | rightOperand (op : BinaryOp) (found : Kind)
  | negation (found : Kind)
  | rangeBound (found : Kind)
  | notIterable (found : Kind)
deriving DecidableEq, Inhabited

/-- A number cannot be counted with. -/
inductive ArgumentFault where
  | number (value : Number) (fault : Number.CountFault)
  | index (value : Int)
deriving DecidableEq

/-- What went wrong during evaluation. -/
inductive EvalFault where
  | undefinedVariable (name : String)
  | kind (fault : KindFault)
  | arityMismatch (expected : Arity) (given : Nat)
  | notCallable (found : Kind)
  | unsupportedMember (name : String)
  | invalidArgument (fault : ArgumentFault)
  | stackOverflow
deriving DecidableEq

/-- Evaluation failed. -/
structure EvalError where
  fault : EvalFault
  line : Nat
deriving DecidableEq

/-- An error of any stage. -/
inductive Error where
  | scan (error : ScanError)
  | parse (error : ParseError)
  | scope (error : ScopeError)
  | eval (error : EvalError)
deriving DecidableEq

/-- The number of calls that may be open at once. -/
def maxCallDepth : Nat := 256

/-- The number of arguments that a call may have. -/
def maxArguments : Nat := 255

/-- The number of parameters that a function may have. -/
def maxParameters : Nat := 255

/-- The number of levels that statements and expressions may be nested. -/
def maxNesting : Nat := 64

/-! ## Lines -/

def ScanError.line : ScanError → Nat
  | .unexpectedCharacter _ line | .unterminatedString line => line

def ParseError.line : ParseError → Nat
  | .unexpectedToken _ _ line | .unexpectedEnd _ line | .invalidTarget line
  | .tooManyParameters line | .tooManyArguments line | .tooDeeplyNested line => line

def ScopeError.line : ScopeError → Nat
  | .alreadyDeclared _ line | .readInOwnInitializer _ line | .returnOutsideFunction line => line

/-- The line that an error is reported on. -/
def Error.line : Error → Nat
  | .scan e => e.line
  | .parse e => e.line
  | .scope e => e.line
  | .eval e => e.line

/-! ## Wording -/

def ScanError.details : ScanError → String
  | .unexpectedCharacter c _ => "Unexpected character '" ++ c.toString ++ "'."
  | .unterminatedString _ => "Unterminated string."

def Expectation.text : Expectation → String
  | .expression => "expression"
  | .closingParen => "')' after expression"
  | .propertyName => "property name after '.'"
  | .listSeparator => "',' or RightParen"
  | .blockEnd => "'\x7d' after block"
  | .blockStart => "'\x7b' before block"
  | .functionName => "function name"
  | .parameterList => "'(' after function name"
  | .parameterName => "parameter name"
  | .variableName => "variable name"
  | .declarationEnd => "';' after variable declaration"
  | .loopVariable => "loop variable after 'for'"
  | .loopIn => "'in' after loop variable"
  | .returnEnd => "';' after return value"
  | .expressionEnd => "';' after expression"
  | .statement => "statement"

def ParseError.details : ParseError → String
  | .unexpectedToken expected found _ =>
    "Expected " ++ expected.text ++ ", found '" ++ found ++ "'."
  | .unexpectedEnd expected _ => "Expected " ++ expected.text ++ ", found end of input."
  | .invalidTarget _ => "Invalid assignment target."
  | .tooManyParameters _ => "Can't have more than " ++ toString maxParameters ++ " parameters."
  | .tooManyArguments _ => "Can't have more than " ++ toString maxArguments ++ " arguments."
  | .tooDeeplyNested _ => "Nesting is deeper than " ++ toString maxNesting ++ " levels."

def ScopeError.details : ScopeError → String
  | .alreadyDeclared name _ => "Variable '" ++ name ++ "' is already declared in this scope."
  | .readInOwnInitializer name _ =>
    "Can't read local variable '" ++ name ++ "' in its own initializer."
  | .returnOutsideFunction _ => "Can't return from top-level code."

def KindFault.text : KindFault → String
  | .addOperands left right =>
    "operands of '+' must be two numbers or two strings, found " ++ left.name ++ " and " ++
      right.name
  | .leftOperand op found =>
    "left operand of '" ++ op.symbol ++ "' must be a number, found " ++ found.name
  | .rightOperand op found =>
    "right operand of '" ++ op.symbol ++ "' must be a number, found " ++ found.name
  | .negation found => "operand of '-' must be a number, found " ++ found.name
  | .rangeBound found => "range bounds must be numbers, found " ++ found.name
  | .notIterable found => "can only iterate over a range, found " ++ found.name

def ArgumentFault.text : ArgumentFault → String
  | .number x .notFinite => x.plainText ++ " is not a finite number"
  | .number x .tooLarge => x.plainText ++ " is too large to count with"
  | .number x .notInteger => x.plainText ++ " is not an integer"
  | .index i => toString i ++ " is too large to count with"

def EvalFault.text : EvalFault → String
  | .undefinedVariable name => "Undefined variable '" ++ name ++ "'."
  | .kind fault => "Type error: " ++ fault.text ++ "."
  | .arityMismatch expected given =>
    "Expected " ++ expected.text ++ " arguments but got " ++ toString given ++ "."
  | .notCallable found => "Can only call functions, found " ++ found.name ++ "."
  | .unsupportedMember name => "Member access '." ++ name ++ "' is not supported."
  | .invalidArgument fault => "Invalid argument: " ++ fault.text ++ "."
  | .stackOverflow => "Stack overflow after " ++ toString maxCallDepth ++ " nested calls."

/-- The stage that an error comes from. -/
def Error.stage : Error → String
  | .scan _ => "Syntax"
  | .parse _ => "Parse"
  | .scope _ => "Resolution"
  | .eval _ => "Runtime"

def Error.details : Error → String
  | .scan e => e.details
  | .parse e => e.details
  | .scope e => e.details
  | .eval e => e.fault.text

/-- The full text of an error. -/
def Error.message (e : Error) : String :=
  e.stage ++ " error: Error on line " ++ toString e.line ++ ": " ++ e.details

end Scriptlet
