import Scriptlet.Arena.Collect

/-!
# Outcomes of evaluation

Evaluation changes a `State` and ends with a value or an error, or runs out of fuel. An error keeps
the state that was reached, since a session goes on after it.

* `Host`: what evaluation takes from outside: the readings of the clock, and whether frames are
  recycled or all kept.
* `Eval`: a computation on states, as a monad.
* `Eval.inFrame`, `Eval.counted`: a computation inside a frame or a call, **which is left again on
  success and on failure**.
-/

namespace Scriptlet

/-- The surroundings of a run. -/
structure Host where
  /-- The readings of the clock, in milliseconds, in the order in which they are asked for. -/
  clock : Nat → Number
  /-- Whether frames are freed and their slots used again. -/
  recycles : Bool := true

/-- The state of an interpreter. -/
structure State where
  arena : Arena
  /-- The number of open calls. -/
  depth : Nat
  /-- What has been printed. -/
  output : String
  /-- How often the clock has been read. -/
  readings : Nat
  /-- How many function values have been made. -/
  functions : Nat
deriving Inhabited

/-- The globals of a fresh interpreter: the native functions. -/
def Arena.withBuiltins : Arena :=
  Builtin.all.foldl (fun a f => a.define Arena.globals f.name (.builtin f)) Arena.empty

/-- A fresh interpreter. -/
def State.start : State := ⟨Arena.withBuiltins, 0, "", 0, 0⟩

/-- How a computation ends. -/
inductive Outcome (α : Type) where
  | done (value : α) (state : State)
  | failed (error : EvalError) (state : State)
  | outOfFuel

/-- A computation on states. -/
def Eval (α : Type) : Type := State → Outcome α

namespace Eval

variable {α β : Type}

@[inline] def value (a : α) : Eval α := fun σ => .done a σ

@[inline] def andThen (x : Eval α) (f : α → Eval β) : Eval β := fun σ =>
  match x σ with
  | .done a σ => f a σ
  | .failed e σ => .failed e σ
  | .outOfFuel => .outOfFuel

instance : Monad Eval where
  pure := value
  bind := andThen

/-- Ends with an error. -/
@[inline] def fail (fault : EvalFault) (line : Nat) : Eval α := fun σ => .failed ⟨fault, line⟩ σ

/-- Ends because no fuel is left. -/
@[inline] def stuck : Eval α := fun _ => .outOfFuel

/-- A result that does not depend on the state. -/
@[inline] def ofExcept (line : Nat) : Except EvalFault α → Eval α
  | .ok a => value a
  | .error fault => fail fault line

/-- Changes the state. -/
@[inline] def update (f : State → State) : Eval Unit := fun σ => .done () (f σ)

/-- Changes the state whichever way a computation ends. -/
@[inline] def closing (x : Eval α) (f : State → State) : Eval α := fun σ =>
  match x σ with
  | .done a σ => .done a (f σ)
  | .failed e σ => .failed e (f σ)
  | .outOfFuel => .outOfFuel

end Eval

/-! ## Frames -/

/-- Opens a frame inside `env`. -/
def State.push (host : Host) (env : Slot) (held : List Value) (σ : State) : Slot × State :=
  let (s, arena) :=
    if host.recycles then σ.arena.push env held else σ.arena.append (Arena.fresh env)
  (s, { σ with arena })

/-- Closes a frame. -/
def State.release (host : Host) (s : Slot) (σ : State) : State :=
  if host.recycles then { σ with arena := σ.arena.release s } else σ

/-- Looks after a function that is held beside `held`. Where all frames are kept it is only added to
the others, since they are never looked at. -/
def Host.track (host : Host) (f : Closure) (held : List Value) (a : Arena) : Arena :=
  if host.recycles then a.track f (.function f :: held) else a.note f

/-- Binds a name in a frame. -/
def State.define (s : Slot) (name : String) (value : Value) (σ : State) : State :=
  { σ with arena := σ.arena.define s name value }

namespace Eval

variable {α : Type}

/-- Runs a computation in a frame inside `env`, which is closed afterwards. -/
@[inline] def inFrame (host : Host) (env : Slot) (held : List Value) (body : Slot → Eval α) :
    Eval α := fun σ =>
  let (s, σ) := σ.push host env held
  closing (body s) (State.release host s) σ

/-- Runs a computation as one more open call. -/
@[inline] def counted (x : Eval α) : Eval α := fun σ =>
  closing x (fun σ => { σ with depth := σ.depth - 1 }) { σ with depth := σ.depth + 1 }

end Eval

end Scriptlet
