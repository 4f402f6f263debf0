import Scriptlet.Literal

/-!
# Program trees

The trees of expressions and statements. Every node carries the line of the token it is reported
at. A reference to a variable carries a `Binding`, which the parser leaves `unresolved` and scope
analysis fills in.

* `Expr.same`, `Stmt.same`: equality of trees, lines and bindings included. Number literals are
  compared as numbers, so a tree that holds a NaN differs from itself.
-/

namespace Scriptlet

/-! ## Operators -/

/-- Operators on two values, both of which are always evaluated. -/
inductive BinaryOp where
  | add
  | sub
  | mul
  | div
  | less
  | greater
  | lessEqual
  | greaterEqual
  | equal
  | notEqual
deriving DecidableEq, Inhabited, Repr

/-- Operators that may leave their right operand alone. -/
inductive LogicalOp where
  | and
  | or
deriving DecidableEq, Inhabited, Repr

/-- Operators on one value. -/
inductive UnaryOp where
  | negate
  | not
deriving DecidableEq, Inhabited, Repr

def BinaryOp.symbol : BinaryOp → String
  | .add => "+"
  | .sub => "-"
  | .mul => "*"
  | .div => "/"
  | .less => "<"
  | .greater => ">"
  | .lessEqual => "<="
  | .greaterEqual => ">="
  | .equal => "=="
  | .notEqual => "!="

def LogicalOp.symbol : LogicalOp → String
  | .and => "and"
  | .or => "or"

def UnaryOp.symbol : UnaryOp → String
  | .negate => "-"
  | .not => "!"

/-! ## Trees -/

/-- Where a variable lives: found by its name at run time, a fixed number of environments outward,
or in the globals. -/
inductive Binding where
  | unresolved
  | enclosing (distance : Nat)
  | toplevel
deriving DecidableEq, Inhabited, Repr

/-- Expressions. -/
inductive Expr where
  | assign (line : Nat) (name : String) (binding : Binding) (value : Expr)
  | binary (line : Nat) (op : BinaryOp) (left right : Expr)
  | call (line : Nat) (callee : Expr) (arguments : List Expr)
  | get (line : Nat) (name : String) (object : Expr)
  | group (line : Nat) (inner : Expr)
  | literal (line : Nat) (value : Literal)
  | logical (line : Nat) (op : LogicalOp) (left right : Expr)
  | set (line : Nat) (name : String) (object value : Expr)
  | unary (line : Nat) (op : UnaryOp) (operand : Expr)
  | var (line : Nat) (name : String) (binding : Binding)
deriving Inhabited

/-- Statements. -/
inductive Stmt where
  | block (line : Nat) (body : List Stmt)
  | expression (line : Nat) (expr : Expr)
  | function (line : Nat) (name : String) (params : List String) (body : List Stmt)
  | ifThen (line : Nat) (condition : Expr) (yes : Stmt)
  | ifElse (line : Nat) (condition : Expr) (yes no : Stmt)
  | giveBack (line : Nat) (value : Option Expr)
  | declare (line : Nat) (name : String) (initial : Option Expr)
  | whileLoop (line : Nat) (condition : Expr) (body : Stmt)
  | forLoop (line : Nat) (name : String) (iterable : Expr) (body : Stmt)
deriving Inhabited

/-- The line of an expression's own token. -/
def Expr.line : Expr → Nat
  | .assign line .. | .binary line .. | .call line .. | .get line .. | .group line ..
  | .literal line .. | .logical line .. | .set line .. | .unary line .. | .var line .. => line

/-- The line on which a statement starts. -/
def Stmt.line : Stmt → Nat
  | .block line .. | .expression line .. | .function line .. | .ifThen line .. | .ifElse line ..
  | .giveBack line .. | .declare line .. | .whileLoop line .. | .forLoop line .. => line

/-! ## Equality -/

mutual

/-- Equality of expressions. -/
def Expr.same : Expr → Expr → Bool
  | .assign l n b v, .assign l' n' b' v' => l == l' && n == n' && b == b' && v.same v'
  | .binary l o x y, .binary l' o' x' y' => l == l' && o == o' && x.same x' && y.same y'
  | .call l c as, .call l' c' as' => l == l' && c.same c' && Expr.sameAll as as'
  | .get l n o, .get l' n' o' => l == l' && n == n' && o.same o'
  | .group l e, .group l' e' => l == l' && e.same e'
  | .literal l v, .literal l' v' => l == l' && v.same v'
  | .logical l o x y, .logical l' o' x' y' => l == l' && o == o' && x.same x' && y.same y'
  | .set l n o v, .set l' n' o' v' => l == l' && n == n' && o.same o' && v.same v'
  | .unary l o e, .unary l' o' e' => l == l' && o == o' && e.same e'
  | .var l n b, .var l' n' b' => l == l' && n == n' && b == b'
  | _, _ => false

/-- Equality of lists of expressions. -/
def Expr.sameAll : List Expr → List Expr → Bool
  | [], [] => true
  | e :: es, e' :: es' => e.same e' && Expr.sameAll es es'
  | _, _ => false

end

/-- Equality of optional expressions. -/
def Expr.sameOption : Option Expr → Option Expr → Bool
  | none, none => true
  | some e, some e' => e.same e'
  | _, _ => false

mutual

/-- Equality of statements. -/
def Stmt.same : Stmt → Stmt → Bool
  | .block l b, .block l' b' => l == l' && Stmt.sameAll b b'
  | .expression l e, .expression l' e' => l == l' && e.same e'
  | .function l n p b, .function l' n' p' b' =>
    l == l' && n == n' && p == p' && Stmt.sameAll b b'
  | .ifThen l c y, .ifThen l' c' y' => l == l' && c.same c' && y.same y'
  | .ifElse l c y n, .ifElse l' c' y' n' => l == l' && c.same c' && y.same y' && n.same n'
  | .giveBack l v, .giveBack l' v' => l == l' && Expr.sameOption v v'
  | .declare l n v, .declare l' n' v' => l == l' && n == n' && Expr.sameOption v v'
  | .whileLoop l c b, .whileLoop l' c' b' => l == l' && c.same c' && b.same b'
  | .forLoop l n i b, .forLoop l' n' i' b' => l == l' && n == n' && i.same i' && b.same b'
  | _, _ => false

/-- Equality of programs. -/
def Stmt.sameAll : List Stmt → List Stmt → Bool
  | [], [] => true
  | s :: ss, s' :: ss' => s.same s' && Stmt.sameAll ss ss'
  | _, _ => false

end

end Scriptlet
