import Scriptlet.Eval.Operator
import Scriptlet.Eval.Outcome

/-!
# Evaluation

Programs are evaluated on a fixed supply of fuel, which bounds how deep the evaluation of an
expression, statement or loop goes. With more fuel an evaluation that ended ends the same way; one
that ran out of fuel says nothing about the program.

Every function takes the slot of the environment it works in and the values `held` by the
evaluations around it: a callee and its arguments, the left operand of an operator. Opening a frame
may collect others, and what is held keeps its frames.

* `evaluate`: the value of an expression.
* `execute`: the effect of a statement, which may give back a value from the function around it.
* `call`: the value of a call.
-/

namespace Scriptlet

/-- How a statement ends: it goes on with the next one, or leaves the function around it. -/
inductive Flow where
  | next
  | giveBack (value : Value)
deriving Inhabited

open Eval

/-! ## Variables -/

/-- The value of a variable. -/
def readVariable (env : Slot) (line : Nat) (name : String) (binding : Binding) : Eval Value :=
  fun σ =>
    let found :=
      match binding with
      | .enclosing distance => σ.arena.getAt? env distance name
      | .toplevel => σ.arena.get? Arena.globals name
      | .unresolved => σ.arena.lookup? env name
    match found with
    | some v => .done v σ
    | none => .failed ⟨.undefinedVariable name, line⟩ σ

/-- Gives a variable a new value. One that is not bound to a scope is searched outward. -/
def writeVariable (env : Slot) (line : Nat) (name : String) (binding : Binding) (v : Value) :
    Eval Unit := fun σ =>
  let assigned :=
    match binding with
    | .enclosing distance => σ.arena.assignAt? env distance name v
    | .toplevel | .unresolved => σ.arena.assign? env name v
  match assigned with
  | some arena => .done () { σ with arena }
  | none => .failed ⟨.undefinedVariable name, line⟩ σ

/-- Declares a function in a frame, which it captures. -/
def declareFunction (host : Host) (env : Slot) (held : List Value) (name : String)
    (params : List String) (body : List Stmt) : Eval Unit :=
  update fun σ =>
    let f : Closure := ⟨σ.functions, name, params, body, env⟩
    { σ with
      arena := (host.track f held (σ.arena.capture env)).define env name (.function f)
      functions := σ.functions + 1 }

/-- Binds parameters to arguments in a frame. -/
def bindAll (s : Slot) : List String → List Value → Eval Unit
  | name :: names, v :: vs => do
    update (State.define s name v)
    bindAll s names vs
  | _, _ => value ()

/-! ## Native functions -/

/-- Runs a native function on arguments. -/
def Builtin.run (host : Host) (line : Nat) : Builtin → List Value → Eval Value
  | .clock, args => do
    ofExcept line (Builtin.clock.arity.check args.length)
    fun σ => .done (.number (host.clock σ.readings)) { σ with readings := σ.readings + 1 }
  | .print, [v] => do
    update fun σ => { σ with output := σ.output ++ v.text ++ "\n" }
    value v
  | .print, args => fail (.arityMismatch Builtin.print.arity args.length) line
  | .range, args => ofExcept line (makeRange args)

/-! ## Expressions and statements -/

mutual

/-- **The value of an expression.** -/
def evaluate (host : Host) (fuel : Nat) (env : Slot) (held : List Value) (e : Expr) :
    Eval Value :=
  match fuel with
  | 0 => stuck
  | fuel + 1 =>
    match e with
    | .literal _ literal => value (.ofLiteral literal)
    | .var line name binding => readVariable env line name binding
    | .assign line name binding rhs => do
      let v ← evaluate host fuel env held rhs
      writeVariable env line name binding v
      value v
    | .group _ inner => evaluate host fuel env held inner
    | .unary line op operand => do
      let v ← evaluate host fuel env held operand
      ofExcept line (op.apply v)
    | .binary line op left right => do
      let l ← evaluate host fuel env held left
      let r ← evaluate host fuel env (l :: held) right
      ofExcept line (op.apply l r)
    | .logical _ op left right => do
      let l ← evaluate host fuel env held left
      if op.decidedBy l then value l else evaluate host fuel env (l :: held) right
    | .call line callee arguments => do
      let f ← evaluate host fuel env held callee
      let args ← evaluateAll host fuel env (f :: held) arguments
      call host fuel (f :: args ++ held) line f args
    | .get line name object => do
      let _ ← evaluate host fuel env held object
      fail (.unsupportedMember name) line
    | .set line name object rhs => do
      let _ ← evaluate host fuel env held object
      let _ ← evaluate host fuel env held rhs
      fail (.unsupportedMember name) line

/-- The values of expressions, from left to right. -/
def evaluateAll (host : Host) (fuel : Nat) (env : Slot) (held : List Value) (es : List Expr) :
    Eval (List Value) :=
  match fuel with
  | 0 => stuck
  | fuel + 1 =>
    match es with
    | [] => value []
    | e :: es => do
      let v ← evaluate host fuel env held e
      let vs ← evaluateAll host fuel env (v :: held) es
      value (v :: vs)

/-- The value of a call. -/
def call (host : Host) (fuel : Nat) (held : List Value) (line : Nat) (callee : Value)
    (args : List Value) : Eval Value :=
  match fuel with
  | 0 => stuck
  | fuel + 1 =>
    match callee with
    | .builtin f => do
      ofExcept line (f.arity.check args.length)
      f.run host line args
    | .function f => do
      ofExcept line ((Arity.exactly f.params.length).check args.length)
      fun σ =>
        if maxCallDepth ≤ σ.depth then .failed ⟨.stackOverflow, line⟩ σ
        else
          (inFrame host f.env held fun s => do
            bindAll s f.params args
            let flow ← counted (executeAll host fuel s held f.body)
            match flow with
            | .next => value .null
            | .giveBack v => value v) σ
    | v => fail (.notCallable v.kind) line

/-- **The effect of a statement.** -/
def execute (host : Host) (fuel : Nat) (env : Slot) (held : List Value) (s : Stmt) :
    Eval Flow :=
  match fuel with
  | 0 => stuck
  | fuel + 1 =>
    match s with
    | .block _ body => inFrame host env held fun s => executeAll host fuel s held body
    | .expression _ e => do
      let _ ← evaluate host fuel env held e
      value .next
    | .function _ name params body => do
      declareFunction host env held name params body
      value .next
    | .ifThen _ condition yes => do
      let c ← evaluate host fuel env held condition
      if c.truthy then execute host fuel env held yes else value .next
    | .ifElse _ condition yes no => do
      let c ← evaluate host fuel env held condition
      execute host fuel env held (if c.truthy then yes else no)
    | .giveBack _ none => value (.giveBack .null)
    | .giveBack _ (some e) => do
      let v ← evaluate host fuel env held e
      value (.giveBack v)
    | .declare _ name none => do
      update (State.define env name .null)
      value .next
    | .declare _ name (some e) => do
      let v ← evaluate host fuel env held e
      update (State.define env name v)
      value .next
    | .whileLoop line condition body => do
      let c ← evaluate host fuel env held condition
      if c.truthy then
        match ← execute host fuel env held body with
        | .next => execute host fuel env held (.whileLoop line condition body)
        | .giveBack v => value (.giveBack v)
      else value .next
    | .forLoop line name iterable body => do
      match ← evaluate host fuel env held iterable with
      | .range start stop => iterate host fuel env held line name body start stop
      | v => fail (.kind (.notIterable v.kind)) line

/-- The effect of statements in order, up to one that leaves the function. -/
def executeAll (host : Host) (fuel : Nat) (env : Slot) (held : List Value) (ss : List Stmt) :
    Eval Flow :=
  match fuel with
  | 0 => stuck
  | fuel + 1 =>
    match ss with
    | [] => value .next
    | s :: ss => do
      match ← execute host fuel env held s with
      | .next => executeAll host fuel env held ss
      | .giveBack v => value (.giveBack v)

/-- The effect of a loop body for the integers from `i` up to below `stop`, each in a frame of its
own. -/
def iterate (host : Host) (fuel : Nat) (env : Slot) (held : List Value) (line : Nat)
    (name : String) (body : Stmt) (i stop : Int) : Eval Flow :=
  match fuel with
  | 0 => stuck
  | fuel + 1 =>
    if i < stop then
      match Number.ofInt? i with
      | none => fail (.invalidArgument (.index i)) line
      | some x => do
        let flow ← inFrame host env held fun s => do
          update (State.define s name (.number x))
          execute host fuel s held body
        match flow with
        | .next => iterate host fuel env held line name body (i + 1) stop
        | .giveBack v => value (.giveBack v)
    else value .next

end

/-! ## Without fuel -/

section WithoutFuel

variable (host : Host) (env : Slot) (held : List Value)

@[simp] theorem evaluate_zero (e : Expr) : evaluate host 0 env held e = stuck := by
  rw [evaluate]

@[simp] theorem evaluateAll_zero (es : List Expr) : evaluateAll host 0 env held es = stuck := by
  rw [evaluateAll]

@[simp] theorem call_zero (line : Nat) (callee : Value) (args : List Value) :
    call host 0 held line callee args = stuck := by
  rw [call]

@[simp] theorem execute_zero (s : Stmt) : execute host 0 env held s = stuck := by
  rw [execute]

@[simp] theorem executeAll_zero (ss : List Stmt) : executeAll host 0 env held ss = stuck := by
  rw [executeAll]

@[simp] theorem iterate_zero (line : Nat) (name : String) (body : Stmt) (i stop : Int) :
    iterate host 0 env held line name body i stop = stuck := by
  rw [iterate]

end WithoutFuel

end Scriptlet
