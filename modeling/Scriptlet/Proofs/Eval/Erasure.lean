import Scriptlet.Proofs.Eval.Bodies
import Scriptlet.Proofs.Tree.Unbound

/-!
# States without bindings

Functions carry their bodies, and bodies carry bindings. The state that a program without bindings
would have reached is that of the program with bindings, once the bindings are erased from all
functions in it. Nothing but a reference itself can tell the two apart.

* `Value.unbound`, `Arena.unbound`, `State.unbound`: the erasure.
* `BinaryOp.apply_unbound` and so on: operators do not see bodies.
* `Arena.define_unbound`, `Arena.find?_unbound` and so on: **arenas change and answer alike**.
-/

namespace Scriptlet

/-! ## Values -/

/-- The same function, with a body without bindings. -/
def Closure.unbound (f : Closure) : Closure := { f with body := Stmt.allUnbound f.body }

/-- The same value, with a body without bindings if it is a function. -/
def Value.unbound : Value → Value
  | .function f => .function f.unbound
  | v => v

namespace Value

theorem unbound_of_closure? {v : Value} (h : v.closure? = none) : v.unbound = v :=
  mapBody_of_closure? Stmt.allUnbound h

theorem truthy_unbound (v : Value) : v.unbound.truthy = v.truthy :=
  truthy_mapBody Stmt.allUnbound v

theorem text_unbound (v : Value) : v.unbound.text = v.text := text_mapBody Stmt.allUnbound v

end Value

/-! ## Operators -/

theorem BinaryOp.apply_unbound (op : BinaryOp) (l r : Value) :
    op.apply l.unbound r.unbound = op.apply l r :=
  op.apply_mapBody Stmt.allUnbound l r

theorem UnaryOp.apply_unbound (op : UnaryOp) (v : Value) : op.apply v.unbound = op.apply v :=
  op.apply_mapBody Stmt.allUnbound v

theorem LogicalOp.decidedBy_unbound (op : LogicalOp) (v : Value) :
    op.decidedBy v.unbound = op.decidedBy v :=
  op.decidedBy_mapBody Stmt.allUnbound v

theorem makeRange_unbound (args : List Value) :
    makeRange (args.map Value.unbound) = makeRange args :=
  makeRange_mapBody Stmt.allUnbound args

/-! ## Arenas -/

/-- The same bindings of names, with all values erased. -/
def Bindings.unbound (b : Bindings) : Bindings := b.map fun p => (p.1, p.2.unbound)

def Frame.unbound (fr : Frame) : Frame := { fr with bindings := fr.bindings.unbound }

/-- The same arena, with all values erased. -/
def Arena.unbound (a : Arena) : Arena :=
  { a with frames := a.frames.map Frame.unbound, tracked := a.tracked.map Closure.unbound }

namespace Arena

variable (a : Arena)

theorem size_unbound : a.unbound.frames.size = a.frames.size := a.size_mapBody Stmt.allUnbound

theorem get?_unbound (s : Slot) (name : String) :
    a.unbound.get? s name = (a.get? s name).map Value.unbound :=
  a.get?_mapBody Stmt.allUnbound s name

/-- **The search by name** finds the same frame. -/
theorem find?_unbound (s : Slot) (name : String) : a.unbound.find? s name = a.find? s name :=
  a.find?_mapBody Stmt.allUnbound s name

theorem define_unbound (s : Slot) (name : String) (v : Value) :
    (a.define s name v).unbound = a.unbound.define s name v.unbound :=
  a.define_mapBody Stmt.allUnbound s name v

theorem capture_unbound (s : Slot) : (a.capture s).unbound = a.unbound.capture s :=
  a.capture_mapBody Stmt.allUnbound s

theorem note_unbound (f : Closure) : (a.note f).unbound = a.unbound.note f.unbound :=
  a.note_mapBody Stmt.allUnbound f

theorem append_unbound (env : Slot) :
    (a.append (fresh env)).2.unbound = (a.unbound.append (fresh env)).2 :=
  a.append_mapBody Stmt.allUnbound env

end Arena

/-! ## States -/

/-- The same state, with all values erased. -/
def State.unbound (σ : State) : State := { σ with arena := σ.arena.unbound }

theorem State.define_unbound (s : Slot) (name : String) (v : Value) (σ : State) :
    (σ.define s name v).unbound = σ.unbound.define s name v.unbound :=
  congrArg (fun a => { σ with arena := a }) (σ.arena.define_unbound s name v)

/-- Results of computations from which bindings can be erased. -/
class Erasable (α : Type) where
  erase : α → α

instance : Erasable Value := ⟨Value.unbound⟩

instance : Erasable (List Value) := ⟨List.map Value.unbound⟩

instance : Erasable Unit := ⟨id⟩

/-- The same way to end, with the value erased. -/
def Flow.unbound : Flow → Flow
  | .next => .next
  | .giveBack v => .giveBack v.unbound

instance : Erasable Flow := ⟨Flow.unbound⟩

/-- The same outcome, with value and state erased. -/
def Outcome.unbound {α : Type} [Erasable α] : Outcome α → Outcome α
  | .done x σ => .done (Erasable.erase x) σ.unbound
  | .failed e σ => .failed e σ.unbound
  | .outOfFuel => .outOfFuel

section Computations

variable (σ : State)

theorem declareFunction_unbound {host : Host} (hhost : host.recycles = false) (env : Slot)
    (held held' : List Value) (name : String) (params : List String) (body : List Stmt) :
    declareFunction host env held' name params (Stmt.allUnbound body) σ.unbound =
      (declareFunction host env held name params body σ).unbound := by
  simp only [declareFunction, Eval.update, Outcome.unbound, State.unbound, Host.track, hhost,
    Bool.false_eq_true, if_false, Arena.define_unbound, Arena.note_unbound, Arena.capture_unbound]
  rfl

theorem ofExcept_unbound (line : Nat) {r : Except EvalFault Value}
    (hr : ∀ v, r = .ok v → v.closure? = none) :
    Eval.ofExcept line r σ.unbound = (Eval.ofExcept line r σ).unbound := by
  cases r with
  | error fault => rfl
  | ok v => exact congrArg (Outcome.done · σ.unbound) (Value.unbound_of_closure? (hr v rfl)).symm

end Computations

end Scriptlet
