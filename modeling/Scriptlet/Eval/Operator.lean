import Scriptlet.Value.Basic

/-!
# Operators

What the operators do to values. Sums take two numbers or two strings; the other arithmetic
operators and the comparisons take numbers; equality and `!` take anything.
-/

namespace Scriptlet

/-- The two numbers that an operator is applied to. If both operands are wrong, the left one is
blamed. -/
def numberOperands (op : BinaryOp) : Value → Value → Except EvalFault (Number × Number)
  | .number x, .number y => .ok (x, y)
  | .number _, right => .error (.kind (.rightOperand op right.kind))
  | left, _ => .error (.kind (.leftOperand op left.kind))

/-- The sum of two numbers, or two strings joined. -/
def addValues : Value → Value → Except EvalFault Value
  | .number x, .number y => .ok (.number (x + y))
  | .string s, .string t => .ok (.string (s ++ t))
  | left, right => .error (.kind (.addOperands left.kind right.kind))

/-- Equality, or its opposite for `!=`. -/
def compareEqual (op : BinaryOp) (left right : Value) : Value :=
  .bool (if op = .notEqual then !left.equals right else left.equals right)

def arithmetic (op : BinaryOp) (f : Number → Number → Number) (left right : Value) :
    Except EvalFault Value := do
  let (x, y) ← numberOperands op left right
  return .number (f x y)

def comparison (op : BinaryOp) (f : Number → Number → Bool) (left right : Value) :
    Except EvalFault Value := do
  let (x, y) ← numberOperands op left right
  return .bool (f x y)

/-- Applies a binary operator. -/
def BinaryOp.apply (op : BinaryOp) (left right : Value) : Except EvalFault Value :=
  match op with
  | .add => addValues left right
  | .sub => arithmetic op Number.sub left right
  | .mul => arithmetic op Number.mul left right
  | .div => arithmetic op Number.div left right
  | .less => comparison op Number.less left right
  | .greater => comparison op (fun x y => y.less x) left right
  | .lessEqual => comparison op Number.atMost left right
  | .greaterEqual => comparison op (fun x y => y.atMost x) left right
  | .equal | .notEqual => .ok (compareEqual op left right)

/-- Applies a unary operator. -/
def UnaryOp.apply : UnaryOp → Value → Except EvalFault Value
  | .negate, .number x => .ok (.number (-x))
  | .negate, v => .error (.kind (.negation v.kind))
  | .not, v => .ok (.bool (!v.truthy))

/-- Whether the left operand alone decides a logical operator. -/
def LogicalOp.decidedBy : LogicalOp → Value → Bool
  | .or, v => v.truthy
  | .and, v => !v.truthy

/-- Checks a number of arguments. -/
def Arity.check (arity : Arity) (given : Nat) : Except EvalFault Unit :=
  if arity.accepts given then .ok () else .error (.arityMismatch arity given)

theorem Arity.eq_of_check {n given : Nat} (h : (Arity.exactly n).check given = .ok ()) :
    n = given := by
  unfold Arity.check at h
  split at h
  · rename_i haccepts
    exact (beq_iff_eq.mp haccepts).symm
  · cases h

/-- The integer that a range bound is. -/
def rangeBound : Value → Except EvalFault Int
  | .number x =>
    match x.toInt with
    | .ok i => .ok i
    | .error fault => .error (.invalidArgument (.number x fault))
  | v => .error (.kind (.rangeBound v.kind))

/-- The range that a list of bounds gives: one bound is the end, two are start and end. -/
def makeRange : List Value → Except EvalFault Value
  | [stop] => do return .range 0 (← rangeBound stop)
  | [start, stop] => do return .range (← rangeBound start) (← rangeBound stop)
  | args => .error (.arityMismatch Builtin.range.arity args.length)

end Scriptlet
