import Mathlib.Logic.Relation
import Mathlib.Tactic.Common
import Scriptlet.Session

/-!
# Moments of a session

Evaluation of a program starts the evaluation of its parts, which start that of their parts, and so
on. A moment is the start of one of these, with the state in which it starts; whether it ends, and
how, is left open.

* `Moment`: **something is about to be done**.
* `Moment.Part`, `Moment.Starts`: what a moment starts, at once or after what it started before has
  ended.
* `Moment.Defines`: the definitions that a moment makes itself.
* `Visited`: **the moments of a session**, of all statements that are reached at top level.
* `Eval.bind_eq_done`, `Eval.bind_eq_failed`: how computations end that are made of others.
-/

namespace Scriptlet

open Arena (globals)
open Relation (ReflTransGen)

/-! ## What a moment starts -/

/-- What evaluation can be asked to do. -/
inductive Task where
  | evaluate (env : Slot) (held : List Value) (e : Expr)
  | evaluateAll (env : Slot) (held : List Value) (es : List Expr)
  | call (held : List Value) (line : Nat) (callee : Value) (args : List Value)
  | execute (env : Slot) (held : List Value) (s : Stmt)
  | executeAll (env : Slot) (held : List Value) (ss : List Stmt)
  | iterate (env : Slot) (held : List Value) (line : Nat) (name : String) (body : Stmt)
      (i stop : Int)

/-- **A moment**: something is about to be done, on some fuel and in some state. -/
structure Moment where
  fuel : Nat
  task : Task
  state : State

/-- The part of an expression that is evaluated first. -/
def Expr.first? : Expr → Option Expr
  | .literal .. | .var .. => none
  | .assign _ _ _ e | .get _ _ e | .group _ e | .unary _ _ e | .binary _ _ e _ | .logical _ _ e _
  | .set _ _ e _ | .call _ e _ => some e

/-- The expression of a statement that is evaluated first. -/
def Stmt.first? : Stmt → Option Expr
  | .block .. | .function .. | .giveBack _ none | .declare _ _ none => none
  | .expression _ e | .ifThen _ e _ | .ifElse _ e _ _ | .giveBack _ (some e)
  | .declare _ _ (some e) | .whileLoop _ e _ | .forLoop _ _ e _ => some e

/-- **The parts of an expression** are evaluated one after another, in the same environment. -/
inductive Moment.Part (host : Host) : Moment → Moment → Prop
  | first {n env held e e' σ} (part : Expr.first? e = some e') :
    Part host ⟨n + 1, .evaluate env held e, σ⟩ ⟨n, .evaluate env held e', σ⟩
  | right {n env held line op left right l σ σ'}
      (ended : evaluate host n env held left σ = .done l σ') :
    Part host ⟨n + 1, .evaluate env held (.binary line op left right), σ⟩
      ⟨n, .evaluate env (l :: held) right, σ'⟩
  | undecided {n env held line left right l σ σ'} {op : LogicalOp}
      (ended : evaluate host n env held left σ = .done l σ') (decides : op.decidedBy l = false) :
    Part host ⟨n + 1, .evaluate env held (.logical line op left right), σ⟩
      ⟨n, .evaluate env (l :: held) right, σ'⟩
  | arguments {n env held line callee arguments f σ σ'}
      (ended : evaluate host n env held callee σ = .done f σ') :
    Part host ⟨n + 1, .evaluate env held (.call line callee arguments), σ⟩
      ⟨n, .evaluateAll env (f :: held) arguments, σ'⟩
  | assigned {n env held line name object rhs v σ σ'}
      (ended : evaluate host n env held object σ = .done v σ') :
    Part host ⟨n + 1, .evaluate env held (.set line name object rhs), σ⟩
      ⟨n, .evaluate env held rhs, σ'⟩
  | head {n env held e es σ} :
    Part host ⟨n + 1, .evaluateAll env held (e :: es), σ⟩ ⟨n, .evaluate env held e, σ⟩
  | tail {n env held e es v σ σ'} (ended : evaluate host n env held e σ = .done v σ') :
    Part host ⟨n + 1, .evaluateAll env held (e :: es), σ⟩ ⟨n, .evaluateAll env (v :: held) es, σ'⟩

/-- The body of a function can be entered: the arguments fit, and there is room for a call. -/
structure Closure.Enters (f : Closure) (args : List Value) (σ : State) : Prop where
  arity : f.params.length = args.length
  depth : σ.depth < maxCallDepth

/-- **What a moment starts.** -/
inductive Moment.Starts (host : Host) : Moment → Moment → Prop
  | part {m m'} (h : Moment.Part host m m') : Starts host m m'
  | call {n env held line callee arguments f args σ σ' σ''}
      (ended : evaluate host n env held callee σ = .done f σ')
      (ended' : evaluateAll host n env (f :: held) arguments σ' = .done args σ'') :
    Starts host ⟨n + 1, .evaluate env held (.call line callee arguments), σ⟩
      ⟨n, .call (f :: args ++ held) line f args, σ''⟩
  | body {n held line args s σ σ' σ''} {f : Closure} (enters : f.Enters args σ)
      (opened : State.push host f.env held σ = (s, σ'))
      (bound : bindAll s f.params args σ' = .done () σ'') :
    Starts host ⟨n + 1, .call held line (.function f) args, σ⟩
      ⟨n, .executeAll s held f.body, { σ'' with depth := σ''.depth + 1 }⟩
  | first {n env held s e σ} (part : Stmt.first? s = some e) :
    Starts host ⟨n + 1, .execute env held s, σ⟩ ⟨n, .evaluate env held e, σ⟩
  | block {n env held line body s σ σ'} (opened : State.push host env held σ = (s, σ')) :
    Starts host ⟨n + 1, .execute env held (.block line body), σ⟩ ⟨n, .executeAll s held body, σ'⟩
  | yes {n env held line condition yes c σ σ'}
      (ended : evaluate host n env held condition σ = .done c σ') (holds : c.truthy = true) :
    Starts host ⟨n + 1, .execute env held (.ifThen line condition yes), σ⟩
      ⟨n, .execute env held yes, σ'⟩
  | branch {n env held line condition yes no c σ σ'}
      (ended : evaluate host n env held condition σ = .done c σ') :
    Starts host ⟨n + 1, .execute env held (.ifElse line condition yes no), σ⟩
      ⟨n, .execute env held (if c.truthy then yes else no), σ'⟩
  | loop {n env held line condition body c σ σ'}
      (ended : evaluate host n env held condition σ = .done c σ') (holds : c.truthy = true) :
    Starts host ⟨n + 1, .execute env held (.whileLoop line condition body), σ⟩
      ⟨n, .execute env held body, σ'⟩
  | again {n env held line condition body c σ σ' σ''}
      (ended : evaluate host n env held condition σ = .done c σ') (holds : c.truthy = true)
      (ended' : execute host n env held body σ' = .done .next σ'') :
    Starts host ⟨n + 1, .execute env held (.whileLoop line condition body), σ⟩
      ⟨n, .execute env held (.whileLoop line condition body), σ''⟩
  | range {n env held line name iterable body start stop σ σ'}
      (ended : evaluate host n env held iterable σ = .done (.range start stop) σ') :
    Starts host ⟨n + 1, .execute env held (.forLoop line name iterable body), σ⟩
      ⟨n, .iterate env held line name body start stop, σ'⟩
  | head {n env held s ss σ} :
    Starts host ⟨n + 1, .executeAll env held (s :: ss), σ⟩ ⟨n, .execute env held s, σ⟩
  | tail {n env held s ss σ σ'} (ended : execute host n env held s σ = .done .next σ') :
    Starts host ⟨n + 1, .executeAll env held (s :: ss), σ⟩ ⟨n, .executeAll env held ss, σ'⟩
  | turn {n env held line name body i stop x s σ σ'} (below : i < stop)
      (index : Number.ofInt? i = some x) (opened : State.push host env held σ = (s, σ')) :
    Starts host ⟨n + 1, .iterate env held line name body i stop, σ⟩
      ⟨n, .execute s held body, σ'.define s name (.number x)⟩
  | next {n env held line name body i stop x σ σ'} (below : i < stop)
      (index : Number.ofInt? i = some x)
      (ended : Eval.inFrame host env held (fun s => do
        Eval.update (State.define s name (.number x))
        execute host n s held body) σ = .done .next σ') :
    Starts host ⟨n + 1, .iterate env held line name body i stop, σ⟩
      ⟨n, .iterate env held line name body (i + 1) stop, σ'⟩

/-- **The definitions that a moment makes itself**: the frame, the name, and the arena right before.
The parameters of a function are defined one after another. -/
inductive Moment.Defines (host : Host) : Moment → Slot → String → Arena → Prop
  | null {n env held line x σ} :
    Defines host ⟨n + 1, .execute env held (.declare line x none), σ⟩ env x σ.arena
  | declare {n env held line x e v σ σ'} (ended : evaluate host n env held e σ = .done v σ') :
    Defines host ⟨n + 1, .execute env held (.declare line x (some e)), σ⟩ env x σ'.arena
  | function {n env held line x params body σ} :
    Defines host ⟨n + 1, .execute env held (.function line x params body), σ⟩ env x
      (host.track ⟨σ.functions, x, params, body, env⟩ held (σ.arena.capture env))
  | parameter {n held line args s x before after σ σ' σ''} {f : Closure}
      (enters : f.Enters args σ) (opened : State.push host f.env held σ = (s, σ'))
      (split : f.params = before ++ x :: after)
      (bound : bindAll s before args σ' = .done () σ'') :
    Defines host ⟨n + 1, .call held line (.function f) args, σ⟩ s x σ''.arena
  | index {n env held line x body i stop s σ σ'} (below : i < stop)
      (opened : State.push host env held σ = (s, σ')) :
    Defines host ⟨n + 1, .iterate env held line x body i stop, σ⟩ s x σ'.arena

/-! ## Sessions -/

/-- **A statement is reached at top level**: the units before its own have run, and so have the
statements before it, the last of which had the given value. -/
inductive Begins (host : Host) (fuel : Nat) (sources : List String) :
    Value → Stmt → State → Prop
  | reached {earlier later : List String} {source : String} {reports : List Report} {σ σ' : State}
      {before after : List Stmt} {s : Stmt} {last : Value}
      (units : sources = earlier ++ source :: later)
      (ran : runAll (run host fuel) earlier .start = some (reports, σ))
      (text : program source = .ok (before ++ s :: after))
      (ended : topLevelFrom host fuel .null before { σ with output := "" } =
        some ⟨last, none, σ'⟩) :
    Begins host fuel sources last s σ'

/-- What a statement at top level is: an expression is evaluated for its value. -/
def Task.topLevel (last : Value) : Stmt → Task
  | .expression _ e => .evaluate globals [last] e
  | s => .execute globals [last] s

/-- **The moments of a session.** -/
inductive Visited (host : Host) (fuel : Nat) (sources : List String) : Moment → Prop
  | begins {last : Value} {s : Stmt} {σ : State} (h : Begins host fuel sources last s σ) :
    Visited host fuel sources ⟨fuel, .topLevel last s, σ⟩
  | starts {m m' : Moment} (h : Visited host fuel sources m) (next : m.Starts host m') :
    Visited host fuel sources m'

theorem Visited.trans {host : Host} {fuel : Nat} {sources : List String} {m m' : Moment}
    (h : Visited host fuel sources m) (hpath : ReflTransGen (Moment.Starts host) m m') :
    Visited host fuel sources m' := by
  induction hpath with
  | refl => exact h
  | tail _ hstarts ih => exact .starts ih hstarts

theorem runAll_cons {υ : Type} {step : υ → State → Option (Report × State)} {σ σ' : State}
    {rs : List Report} {u : υ} {us : List υ} (h : runAll step (u :: us) σ = some (rs, σ')) :
    ∃ r σ₁ rs', step u σ = some (r, σ₁) ∧ runAll step us σ₁ = some (rs', σ') ∧ rs = r :: rs' := by
  simp only [runAll] at h
  split at h
  · cases h
  · rename_i r σ₁ hfirst
    obtain ⟨⟨rs', σ₂⟩, hmore, heq⟩ := Option.map_eq_some_iff.mp h
    cases heq
    exact ⟨r, σ₁, rs', hfirst, hmore, rfl⟩

/-! ## How computations end -/

namespace Eval

variable {α β : Type} {x : Eval α} {f : α → Eval β} {σ σ' : State} {e : EvalError}

theorem bind_of_done {a : α} {σ₁ : State} (h : x σ = .done a σ₁) : (x >>= f) σ = f a σ₁ := by
  change x.andThen f σ = _
  rw [andThen, h]

theorem bind_eq_done {b : β} :
    (x >>= f) σ = .done b σ' ↔ ∃ a σ₁, x σ = .done a σ₁ ∧ f a σ₁ = .done b σ' := by
  change x.andThen f σ = _ ↔ _
  unfold andThen
  cases x σ <;> simp

theorem bind_eq_failed :
    (x >>= f) σ = .failed e σ' ↔
      x σ = .failed e σ' ∨ ∃ a σ₁, x σ = .done a σ₁ ∧ f a σ₁ = .failed e σ' := by
  change x.andThen f σ = _ ↔ _
  unfold andThen
  cases x σ <;> simp

theorem closing_eq_failed {g : State → State} :
    closing x g σ = .failed e σ' ↔ ∃ σ₁, x σ = .failed e σ₁ ∧ g σ₁ = σ' := by
  unfold closing
  cases x σ <;> simp

theorem closing_eq_done {g : State → State} {a : α} :
    closing x g σ = .done a σ' ↔ ∃ σ₁, x σ = .done a σ₁ ∧ g σ₁ = σ' := by
  unfold closing
  cases x σ <;> simp

theorem inFrame_eq_done {host : Host} {env : Slot} {held : List Value} {body : Slot → Eval α}
    {a : α} (h : inFrame host env held body σ = .done a σ') :
    ∃ s σ₁ σ₂, State.push host env held σ = (s, σ₁) ∧ body s σ₁ = .done a σ₂ := by
  obtain ⟨σ₂, hbody, -⟩ := closing_eq_done.mp h
  exact ⟨_, _, σ₂, rfl, hbody⟩

theorem inFrame_eq_failed {host : Host} {env : Slot} {held : List Value} {body : Slot → Eval α}
    (h : inFrame host env held body σ = .failed e σ') :
    ∃ s σ₁ σ₂, State.push host env held σ = (s, σ₁) ∧ body s σ₁ = .failed e σ₂ := by
  obtain ⟨σ₂, hbody, -⟩ := closing_eq_failed.mp h
  exact ⟨_, _, σ₂, rfl, hbody⟩

theorem counted_eq_failed (h : counted x σ = .failed e σ') :
    ∃ σ₁, x { σ with depth := σ.depth + 1 } = .failed e σ₁ := by
  obtain ⟨σ₁, hx, -⟩ := closing_eq_failed.mp h
  exact ⟨σ₁, hx⟩

theorem ofExcept_eq_failed {line : Nat} {r : Except EvalFault α} :
    ofExcept line r σ = .failed e σ' ↔ r = .error e.fault ∧ e.line = line ∧ σ' = σ := by
  obtain ⟨fault, k⟩ := e
  cases r with
  | ok a => simp [ofExcept, value]
  | error fault' =>
    simp only [ofExcept, fail, Outcome.failed.injEq, EvalError.mk.injEq, Except.error.injEq]
    tauto

theorem ofExcept_eq_done {line : Nat} {r : Except EvalFault α} {a : α} :
    ofExcept line r σ = .done a σ' ↔ r = .ok a ∧ σ = σ' := by
  cases r <;> simp [ofExcept, value, fail]

end Eval

end Scriptlet
