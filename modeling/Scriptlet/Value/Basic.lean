import Scriptlet.Error

/-!
# Values

What expressions evaluate to. A function value is a declaration together with the environment in
which it was declared; two function values are the same only if they come from one execution of
one declaration, which their `id` records.

* `Value.truthy`: zero, `false` and `null` are false, all else is true.
* `Value.equals`: the equality of the language.
* `Value.text`: the text that `print` writes.
-/

namespace Scriptlet

/-- The place of a frame in the arena. -/
abbrev Slot : Type := Nat

/-- The native functions. -/
inductive Builtin where
  | clock
  | print
  | range
deriving DecidableEq, Inhabited, Repr

namespace Builtin

/-- All native functions, in the order in which they are installed. -/
def all : List Builtin := [.clock, .print, .range]

def name : Builtin → String
  | .clock => "clock"
  | .print => "print"
  | .range => "range"

def arity : Builtin → Arity
  | .clock => .exactly 0
  | .print => .exactly 1
  | .range => .oneOf [1, 2]

end Builtin

/-- A function value: a declaration and the frame it closes over. -/
structure Closure where
  id : Nat
  name : String
  params : List String
  body : List Stmt
  env : Slot
deriving Inhabited

/-- The values of the language. A range holds the integers from `start` up to below `stop`. -/
inductive Value where
  | number (value : Number)
  | string (value : String)
  | bool (value : Bool)
  | null
  | function (closure : Closure)
  | builtin (function : Builtin)
  | range (start stop : Int)
deriving Inhabited

namespace Value

def ofLiteral : Literal → Value
  | .number x => .number x
  | .string s => .string s
  | .bool b => .bool b
  | .null => .null

def kind : Value → Kind
  | .number _ => .number
  | .string _ => .string
  | .bool _ => .boolean
  | .null => .null
  | .function _ | .builtin _ => .function
  | .range _ _ => .range

def truthy : Value → Bool
  | .null => false
  | .bool b => b
  | .number x => !x.equals .zero
  | _ => true

/-- Values of different kinds are never equal. -/
def equals : Value → Value → Bool
  | .number x, .number y => x.equals y
  | .string s, .string t => s == t
  | .bool b, .bool c => b == c
  | .null, .null => true
  | .function f, .function g => f.id == g.id
  | .builtin f, .builtin g => f == g
  | .range a b, .range c d => a == c && b == d
  | _, _ => false

/-- The text that reports a value. -/
def text : Value → String
  | .number x => x.text
  | .string s => s
  | .bool true => "true"
  | .bool false => "false"
  | .null => "null"
  | .function f => "<fn " ++ f.name ++ ">"
  | .builtin f => "<native fn " ++ f.name ++ ">"
  | .range start stop => "range(" ++ toString start ++ ", " ++ toString stop ++ ")"

/-- The function that a value is, if it has an environment. -/
def closure? : Value → Option Closure
  | .function f => some f
  | _ => none

end Value

end Scriptlet
