import Scriptlet.Eval.Evaluate
import Scriptlet.Grammar.Statement
import Scriptlet.Scope.Resolve
import Scriptlet.Token.Scan

/-!
# Sessions

A session runs source units one after another on one interpreter, so that globals and functions
persist. A unit with an error in its text never runs; a unit that fails while it runs keeps the
effects it had.

* `tree`, `program`: the tree of a source text, without and with its bindings.
* `interpret`: runs statements and reports the value of the last one.
* `run`: **runs a source unit**.
-/

namespace Scriptlet

/-! ## From text to tree -/

/-- The tree of a source text, with no bindings, or all errors of the stage that failed. -/
def tree (source : String) : Except (List Error) (List Stmt) :=
  match scan source with
  | .error e => .error [.scan e]
  | .ok tokens =>
    match Grammar.parse tokens with
    | .error es => .error (es.map .parse)
    | .ok statements => .ok statements

/-- The tree of a source text with its bindings. -/
def program (source : String) : Except (List Error) (List Stmt) :=
  match tree source with
  | .error es => .error es
  | .ok statements =>
    match resolve statements with
    | (_, some e) => .error [.scope e]
    | (statements, none) => .ok statements

/-! ## Running -/

/-- What a unit did: the text of its last value, unless it never ran, its errors and its output. -/
structure Report where
  result : Option String
  errors : List Error
  output : String

/-- The result of a unit, or its first error. -/
def Report.outcome (r : Report) : Except Error String :=
  match r.errors with
  | e :: _ => .error e
  | [] => .ok (r.result.getD Value.null.text)

/-- The value of a statement at top level: that of an expression, or else null. -/
def topLevel (host : Host) (fuel : Nat) (held : List Value) (s : Stmt) : Eval Value :=
  match s with
  | .expression _ e => evaluate host fuel Arena.globals held e
  | s => do
    let _ ← execute host fuel Arena.globals held s
    return .null

/-- Where a list of statements ended. -/
structure Ending where
  last : Value
  error? : Option EvalError
  state : State

/-- Runs statements in order up to the first that fails; `last` is the value so far. -/
def topLevelFrom (host : Host) (fuel : Nat) (last : Value) : List Stmt → State → Option Ending
  | [], σ => some ⟨last, none, σ⟩
  | s :: ss, σ =>
    match topLevel host fuel [last] s σ with
    | .done v σ => topLevelFrom host fuel v ss σ
    | .failed e σ => some ⟨last, some e, σ⟩
    | .outOfFuel => none

/-- Runs statements and reports the value of the last one, or nothing if the fuel runs out. -/
def interpret (host : Host) (fuel : Nat) (statements : List Stmt) (σ : State) :
    Option (Report × State) :=
  (topLevelFrom host fuel .null statements { σ with output := "" }).map fun e =>
    (⟨some e.last.text, e.error?.toList.map .eval, e.state.output⟩, e.state)

/-- Runs a unit that may have errors in its text, in which case the state stays as it is. -/
def interpretChecked (host : Host) (fuel : Nat) (unit : Except (List Error) (List Stmt))
    (σ : State) : Option (Report × State) :=
  match unit with
  | .error es => some (⟨none, es, ""⟩, σ)
  | .ok statements => interpret host fuel statements σ

/-- **Runs a source unit.** -/
def run (host : Host) (fuel : Nat) (source : String) (σ : State) : Option (Report × State) :=
  interpretChecked host fuel (program source) σ

/-- Runs a source unit without scope analysis, so that every variable is searched by name. -/
def runByName (host : Host) (fuel : Nat) (source : String) (σ : State) :
    Option (Report × State) :=
  interpretChecked host fuel (tree source) σ

/-- Runs units one after another. -/
def runAll {υ : Type} (step : υ → State → Option (Report × State)) :
    List υ → State → Option (List Report × State)
  | [], σ => some ([], σ)
  | u :: us, σ =>
    match step u σ with
    | none => none
    | some (r, σ) => (runAll step us σ).map fun (rs, σ) => (r :: rs, σ)

end Scriptlet
