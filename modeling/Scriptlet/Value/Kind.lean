/-!
# Kinds of values

The type of a value as error messages name it, and the argument counts that a callable accepts.
-/

namespace Scriptlet

/-- The type of a value. -/
inductive Kind where
  | number
  | string
  | boolean
  | null
  | function
  | range
deriving DecidableEq, Inhabited, Repr

def Kind.name : Kind → String
  | .number => "number"
  | .string => "string"
  | .boolean => "boolean"
  | .null => "null"
  | .function => "function"
  | .range => "range"

/-- The argument counts that a callable accepts. -/
inductive Arity where
  | exactly (count : Nat)
  | oneOf (counts : List Nat)
deriving DecidableEq, Inhabited, Repr

namespace Arity

def accepts : Arity → Nat → Bool
  | .exactly count, n => n == count
  | .oneOf counts, n => counts.contains n

/-- Counts listed with commas and an "or" before the last. -/
def listing : List Nat → String
  | [] => ""
  | [n] => toString n
  | [n, m] => toString n ++ " or " ++ toString m
  | n :: ns => toString n ++ ", " ++ listing ns

def text : Arity → String
  | .exactly count => toString count
  | .oneOf counts => listing counts

end Arity

end Scriptlet
