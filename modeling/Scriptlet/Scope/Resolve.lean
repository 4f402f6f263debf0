import Scriptlet.Error

/-!
# Scope analysis

Scope analysis walks over a program and writes into every reference how many scopes out its
variable is declared. Blocks, functions and `for` loops open scopes; what is found in no scope is
global. The walk stops at the first violation of the rules of scope.

* `Scopes`: the open scopes, innermost first.
* `Walk`: a step of the walk. **Once an error has occurred every further step leaves the tree as it
  is**, so the result of a failed walk holds the bindings written up to the error.
* `resolve`: the walk over a program.
-/

namespace Scriptlet

/-- The names declared in a scope, and whether each may be read yet. -/
abbrev Scope : Type := List (String × Bool)

/-- The scopes around a place in a program, innermost first, and the number of functions. -/
structure Scopes where
  chain : List Scope
  functions : Nat
deriving DecidableEq, Inhabited

namespace Scopes

/-- Top level: globals are in no scope. -/
def outermost : Scopes := ⟨[], 0⟩

/-- The scope in which a name is declared, counted from the innermost. -/
def find (s : Scopes) (name : String) : Binding :=
  match s.chain.findIdx? (fun scope => (scope.lookup name).isSome) with
  | some distance => .enclosing distance
  | none => .toplevel

/-- Declares a name, not yet readable, in the innermost scope. -/
def declare (s : Scopes) (name : String) (line : Nat) : Except ScopeError Scopes :=
  match s.chain with
  | [] => .ok s
  | scope :: outer =>
    if (scope.lookup name).isSome then .error (.alreadyDeclared name line)
    else .ok { s with chain := ((name, false) :: scope) :: outer }

/-- Makes a name of the innermost scope readable. -/
def define (s : Scopes) (name : String) : Scopes :=
  match s.chain with
  | [] => s
  | scope :: outer =>
    { s with chain := ((name, true) :: scope.filter (·.1 != name)) :: outer }

/-- Refuses to read a name that is still being initialised in the innermost scope. -/
def read (s : Scopes) (name : String) (line : Nat) : Except ScopeError Scopes :=
  match s.chain.head?.bind (List.lookup name) with
  | some false => .error (.readInOwnInitializer name line)
  | _ => .ok s

/-- Refuses to return from outside all functions. -/
def leave (s : Scopes) (line : Nat) : Except ScopeError Scopes :=
  if s.functions = 0 then .error (.returnOutsideFunction line) else .ok s

def push (s : Scopes) : Scopes := { s with chain := [] :: s.chain }

def pop (s : Scopes) : Scopes := { s with chain := s.chain.tail }

def enterFunction (s : Scopes) : Scopes := { s with functions := s.functions + 1 }

def leaveFunction (s : Scopes) : Scopes := { s with functions := s.functions - 1 }

end Scopes

/-! ## The walk -/

/-- A step of scope analysis: it rebuilds a part of the tree, and changes the scopes unless an
error has occurred. -/
abbrev Walk : Type → Type := StateM (Except ScopeError Scopes)

namespace Walk

/-- Changes the scopes, or fails. -/
def check (f : Scopes → Except ScopeError Scopes) : Walk Unit := modify (· >>= f)

/-- Changes the scopes. -/
def change (f : Scopes → Scopes) : Walk Unit := modify (·.map f)

/-- The binding of a name here; after an error, the one that was there. -/
def bindingOf (name : String) (old : Binding) : Walk Binding := do
  match ← get with
  | .ok scopes => return scopes.find name
  | .error _ => return old

/-- Declares a name that can be read at once. -/
def introduce (name : String) (line : Nat) : Walk Unit := do
  check (·.declare name line)
  change (·.define name)

/-- Declares parameters one after another. -/
def introduceAll (line : Nat) : List String → Walk Unit
  | [] => return
  | name :: names => do
    introduce name line
    introduceAll line names

end Walk

open Walk

mutual

/-- Writes the bindings of an expression. -/
def Expr.resolve : Expr → Walk Expr
  | .assign line name binding value => do
    let value ← value.resolve
    let binding ← bindingOf name binding
    return .assign line name binding value
  | .binary line op left right => do
    let left ← left.resolve
    let right ← right.resolve
    return .binary line op left right
  | .call line callee arguments => do
    let callee ← callee.resolve
    let arguments ← Expr.resolveAll arguments
    return .call line callee arguments
  | .get line name object => do
    let object ← object.resolve
    return .get line name object
  | .group line inner => do
    let inner ← inner.resolve
    return .group line inner
  | .literal line value => return .literal line value
  | .logical line op left right => do
    let left ← left.resolve
    let right ← right.resolve
    return .logical line op left right
  | .set line name object value => do
    let value ← value.resolve
    let object ← object.resolve
    return .set line name object value
  | .unary line op operand => do
    let operand ← operand.resolve
    return .unary line op operand
  | .var line name binding => do
    check (·.read name line)
    let binding ← bindingOf name binding
    return .var line name binding

/-- Writes the bindings of expressions, from left to right. -/
def Expr.resolveAll : List Expr → Walk (List Expr)
  | [] => return []
  | e :: es => do
    let e ← e.resolve
    let es ← Expr.resolveAll es
    return e :: es

end

/-- Writes the bindings of an optional expression. -/
def Expr.resolveOption : Option Expr → Walk (Option Expr)
  | none => return none
  | some e => do
    let e ← e.resolve
    return some e

mutual

/-- Writes the bindings of a statement. -/
def Stmt.resolve : Stmt → Walk Stmt
  | .block line body => do
    change Scopes.push
    let body ← Stmt.resolveAll body
    change Scopes.pop
    return .block line body
  | .expression line expr => do
    let expr ← expr.resolve
    return .expression line expr
  | .function line name params body => do
    introduce name line
    change (·.enterFunction.push)
    introduceAll line params
    let body ← Stmt.resolveAll body
    change (·.pop.leaveFunction)
    return .function line name params body
  | .ifThen line condition yes => do
    let condition ← condition.resolve
    let yes ← yes.resolve
    return .ifThen line condition yes
  | .ifElse line condition yes no => do
    let condition ← condition.resolve
    let yes ← yes.resolve
    let no ← no.resolve
    return .ifElse line condition yes no
  | .giveBack line value => do
    check (·.leave line)
    let value ← Expr.resolveOption value
    return .giveBack line value
  | .declare line name initial => do
    check (·.declare name line)
    let initial ← Expr.resolveOption initial
    change (·.define name)
    return .declare line name initial
  | .whileLoop line condition body => do
    let condition ← condition.resolve
    let body ← body.resolve
    return .whileLoop line condition body
  | .forLoop line name iterable body => do
    let iterable ← iterable.resolve
    change Scopes.push
    introduce name line
    let body ← body.resolve
    change Scopes.pop
    return .forLoop line name iterable body

/-- Writes the bindings of statements in order. -/
def Stmt.resolveAll : List Stmt → Walk (List Stmt)
  | [] => return []
  | s :: ss => do
    let s ← s.resolve
    let ss ← Stmt.resolveAll ss
    return s :: ss

end

/-- **Scope analysis**: the program with its bindings written, and the error that stopped the walk
if there was one. -/
def resolve (program : List Stmt) : List Stmt × Option ScopeError :=
  match (Stmt.resolveAll program).run (.ok .outermost) with
  | (program, .ok _) => (program, none)
  | (program, .error e) => (program, some e)

end Scriptlet
