import Scriptlet.Number.Decimal

/-!
# Literals

The constants that can be written in a program, and the text that writes each of them.
-/

namespace Scriptlet

/-- A constant of the language. -/
inductive Literal where
  | number (value : Number)
  | string (value : String)
  | bool (value : Bool)
  | null
deriving DecidableEq, Inhabited

namespace Literal

/-- The quote around a string. Strings have no escapes, so a text that holds a double quote is
written between single ones. -/
def quoteFor (s : String) : String := if s.contains '"' then "'" else "\""

/-- The source text of a literal. -/
def text : Literal → String
  | .number x => x.plainText
  | .string s => quoteFor s ++ s ++ quoteFor s
  | .bool true => "true"
  | .bool false => "false"
  | .null => "null"

/-- Equality of constants; numbers are compared as numbers. -/
def same : Literal → Literal → Bool
  | .number x, .number y => x.equals y
  | .string s, .string t => s == t
  | .bool b, .bool c => b == c
  | .null, .null => true
  | _, _ => false

end Literal

end Scriptlet
