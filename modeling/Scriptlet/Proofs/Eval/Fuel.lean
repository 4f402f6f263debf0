import Mathlib.Tactic.Common
import Scriptlet.Eval.Evaluate

/-!
# Fuel

Fuel bounds how deep an evaluation goes and has no other effect: what ends on some fuel ends in the
same way on more.

* `Eval.Below`: a computation does what another does, unless it lacks the fuel.
* `extended`: **one more unit of fuel changes nothing that has ended**, for expressions, calls and
  statements, by induction on the fuel.
* `Eval.Grows`: a computation that goes on with what it did on less fuel; `grows_evaluate` and so
  on.
-/

namespace Scriptlet

namespace Eval

/-! ## Lack of fuel -/

/-- **The first computation does what the second does**, unless it lacks the fuel. -/
def Below {α : Type} (x y : Eval α) : Prop := ∀ σ, x σ ≠ .outOfFuel → y σ = x σ

variable {α β : Type}

theorem Below.refl (x : Eval α) : Below x x := fun _ _ => rfl

theorem Below.trans {x y z : Eval α} (h : Below x y) (h' : Below y z) : Below x z := by
  intro σ hx
  have hy := h σ hx
  rw [h' σ (hy ▸ hx), hy]

theorem stuck_below (x : Eval α) : Below stuck x := fun _ h => absurd rfl h

/-- **Computations compose.** -/
theorem Below.bind {x y : Eval α} {f g : α → Eval β} (h : Below x y)
    (hf : ∀ a, Below (f a) (g a)) : Below (x >>= f) (y >>= g) := by
  intro σ hx
  change x.andThen f σ ≠ _ at hx
  change y.andThen g σ = x.andThen f σ
  have hσ := h σ
  unfold andThen at hx ⊢
  cases hrun : x σ with
  | done a σ₁ =>
    rw [hrun] at hx hσ
    rw [hσ nofun]
    exact hf a σ₁ hx
  | failed e σ₁ =>
    rw [hrun] at hσ
    rw [hσ nofun]
  | outOfFuel => exact absurd (by rw [hrun]) hx

theorem Below.closing {x y : Eval α} (h : Below x y) (f : State → State) :
    Below (closing x f) (closing y f) := by
  intro σ hx
  unfold Eval.closing at hx ⊢
  have hended : x σ ≠ .outOfFuel := fun hrun => hx (by rw [hrun])
  rw [h σ hended]

theorem Below.inFrame {x y : Slot → Eval α} (h : ∀ s, Below (x s) (y s)) (host : Host)
    (env : Slot) (held : List Value) :
    Below (inFrame host env held x) (inFrame host env held y) :=
  fun _ => (h _).closing _ _

theorem Below.counted {x y : Eval α} (h : Below x y) : Below (counted x) (counted y) :=
  fun _ => h.closing _ _

theorem Below.ite {c : Prop} [Decidable c] {x y x' y' : Eval α} (h : Below x y)
    (h' : Below x' y') : Below (if c then x else x') (if c then y else y') := by
  split_ifs
  · exact h
  · exact h'

end Eval

open Eval

/-! ## One more unit -/

/-- **One more unit of fuel** changes nothing that has ended. -/
structure Extended (host : Host) (n : Nat) : Prop where
  evaluate (env : Slot) (held : List Value) (e : Expr) :
    Below (evaluate host n env held e) (Scriptlet.evaluate host (n + 1) env held e)
  evaluateAll (env : Slot) (held : List Value) (es : List Expr) :
    Below (evaluateAll host n env held es) (Scriptlet.evaluateAll host (n + 1) env held es)
  call (held : List Value) (line : Nat) (callee : Value) (args : List Value) :
    Below (call host n held line callee args)
      (Scriptlet.call host (n + 1) held line callee args)
  execute (env : Slot) (held : List Value) (s : Stmt) :
    Below (execute host n env held s) (Scriptlet.execute host (n + 1) env held s)
  executeAll (env : Slot) (held : List Value) (ss : List Stmt) :
    Below (executeAll host n env held ss) (Scriptlet.executeAll host (n + 1) env held ss)
  iterate (env : Slot) (held : List Value) (line : Nat) (name : String) (body : Stmt)
    (i stop : Int) :
    Below (iterate host n env held line name body i stop)
      (Scriptlet.iterate host (n + 1) env held line name body i stop)

namespace Extended

variable {host : Host} {n : Nat} (ih : Extended host n)
include ih

theorem evaluate_succ (env : Slot) (held : List Value) (e : Expr) :
    Below (Scriptlet.evaluate host (n + 1) env held e)
      (Scriptlet.evaluate host (n + 1 + 1) env held e) := by
  cases e with
  | literal | var =>
    rw [Scriptlet.evaluate, Scriptlet.evaluate]
    exact .refl _
  | group line inner =>
    rw [Scriptlet.evaluate, Scriptlet.evaluate]
    exact ih.evaluate env held inner
  | assign line name binding rhs =>
    rw [Scriptlet.evaluate, Scriptlet.evaluate]
    exact (ih.evaluate env held rhs).bind fun v => .refl _
  | unary line op operand =>
    rw [Scriptlet.evaluate, Scriptlet.evaluate]
    exact (ih.evaluate env held operand).bind fun v => .refl _
  | get line name object =>
    rw [Scriptlet.evaluate, Scriptlet.evaluate]
    exact (ih.evaluate env held object).bind fun v => .refl _
  | binary line op left right =>
    rw [Scriptlet.evaluate, Scriptlet.evaluate]
    exact (ih.evaluate env held left).bind fun l =>
      (ih.evaluate env (l :: held) right).bind fun r => .refl _
  | logical line op left right =>
    rw [Scriptlet.evaluate, Scriptlet.evaluate]
    exact (ih.evaluate env held left).bind fun l =>
      .ite (.refl _) (ih.evaluate env (l :: held) right)
  | call line callee arguments =>
    rw [Scriptlet.evaluate, Scriptlet.evaluate]
    exact (ih.evaluate env held callee).bind fun f =>
      (ih.evaluateAll env (f :: held) arguments).bind fun args => ih.call _ line f args
  | set line name object rhs =>
    rw [Scriptlet.evaluate, Scriptlet.evaluate]
    exact (ih.evaluate env held object).bind fun v =>
      (ih.evaluate env held rhs).bind fun u => .refl _

theorem evaluateAll_succ (env : Slot) (held : List Value) (es : List Expr) :
    Below (Scriptlet.evaluateAll host (n + 1) env held es)
      (Scriptlet.evaluateAll host (n + 1 + 1) env held es) := by
  cases es with
  | nil =>
    rw [Scriptlet.evaluateAll, Scriptlet.evaluateAll]
    exact .refl _
  | cons e es =>
    rw [Scriptlet.evaluateAll, Scriptlet.evaluateAll]
    exact (ih.evaluate env held e).bind fun v =>
      (ih.evaluateAll env (v :: held) es).bind fun vs => .refl _

theorem call_succ (held : List Value) (line : Nat) (callee : Value) (args : List Value) :
    Below (Scriptlet.call host (n + 1) held line callee args)
      (Scriptlet.call host (n + 1 + 1) held line callee args) := by
  cases callee with
  | function f =>
    rw [Scriptlet.call, Scriptlet.call]
    refine (Below.refl _).bind fun _ σ => ?_
    split_ifs
    · exact fun _ => rfl
    · refine Below.inFrame (fun s => ?_) host f.env held σ
      refine (Below.refl _).bind fun _ => ?_
      exact (ih.executeAll s held f.body).counted.bind fun flow => .refl _
  | _ =>
    simp only [Scriptlet.call]
    exact .refl _

theorem execute_succ (env : Slot) (held : List Value) (s : Stmt) :
    Below (Scriptlet.execute host (n + 1) env held s)
      (Scriptlet.execute host (n + 1 + 1) env held s) := by
  cases s with
  | block line body =>
    rw [Scriptlet.execute, Scriptlet.execute]
    exact .inFrame (fun s => ih.executeAll s held body) host env held
  | function =>
    rw [Scriptlet.execute, Scriptlet.execute]
    exact .refl _
  | expression line e =>
    rw [Scriptlet.execute, Scriptlet.execute]
    exact (ih.evaluate env held e).bind fun v => .refl _
  | ifThen line condition yes =>
    rw [Scriptlet.execute, Scriptlet.execute]
    exact (ih.evaluate env held condition).bind fun c =>
      .ite (ih.execute env held yes) (.refl _)
  | ifElse line condition yes no =>
    rw [Scriptlet.execute, Scriptlet.execute]
    exact (ih.evaluate env held condition).bind fun c => ih.execute env held _
  | giveBack line e =>
    cases e with
    | none =>
      rw [Scriptlet.execute, Scriptlet.execute]
      exact .refl _
    | some e =>
      rw [Scriptlet.execute, Scriptlet.execute]
      exact (ih.evaluate env held e).bind fun v => .refl _
  | declare line name e =>
    cases e with
    | none =>
      rw [Scriptlet.execute, Scriptlet.execute]
      exact .refl _
    | some e =>
      rw [Scriptlet.execute, Scriptlet.execute]
      exact (ih.evaluate env held e).bind fun v => .refl _
  | whileLoop line condition body =>
    rw [Scriptlet.execute, Scriptlet.execute]
    refine (ih.evaluate env held condition).bind fun c => .ite ?_ (.refl _)
    refine (ih.execute env held body).bind fun flow => ?_
    cases flow with
    | next => exact ih.execute env held _
    | giveBack v => exact .refl _
  | forLoop line name iterable body =>
    rw [Scriptlet.execute, Scriptlet.execute]
    refine (ih.evaluate env held iterable).bind fun v => ?_
    cases v with
    | range start stop => exact ih.iterate env held line name body start stop
    | _ => exact .refl _

theorem executeAll_succ (env : Slot) (held : List Value) (ss : List Stmt) :
    Below (Scriptlet.executeAll host (n + 1) env held ss)
      (Scriptlet.executeAll host (n + 1 + 1) env held ss) := by
  cases ss with
  | nil =>
    rw [Scriptlet.executeAll, Scriptlet.executeAll]
    exact .refl _
  | cons s ss =>
    rw [Scriptlet.executeAll, Scriptlet.executeAll]
    refine (ih.execute env held s).bind fun flow => ?_
    cases flow with
    | next => exact ih.executeAll env held ss
    | giveBack v => exact .refl _

theorem iterate_succ (env : Slot) (held : List Value) (line : Nat) (name : String) (body : Stmt)
    (i stop : Int) :
    Below (Scriptlet.iterate host (n + 1) env held line name body i stop)
      (Scriptlet.iterate host (n + 1 + 1) env held line name body i stop) := by
  rw [Scriptlet.iterate, Scriptlet.iterate]
  refine .ite ?_ (.refl _)
  cases Number.ofInt? i with
  | none => exact .refl _
  | some x =>
    refine (Below.inFrame (fun s => (Below.refl _).bind fun _ => ih.execute s held body)
      host env held).bind fun flow => ?_
    cases flow with
    | next => exact ih.iterate env held line name body _ stop
    | giveBack v => exact .refl _

end Extended

/-- **What has ended ends in the same way on one more unit of fuel.** -/
theorem extended (host : Host) (n : Nat) : Extended host n := by
  induction n with
  | zero =>
    constructor <;> intros <;>
      simp only [evaluate_zero, evaluateAll_zero, call_zero, execute_zero, executeAll_zero,
        iterate_zero] <;>
      exact stuck_below _
  | succ n ih =>
    exact ⟨ih.evaluate_succ, ih.evaluateAll_succ, ih.call_succ, ih.execute_succ,
      ih.executeAll_succ, ih.iterate_succ⟩

/-! ## Any amount more -/

/-- A computation goes on with what it did on less fuel. -/
def Eval.Grows {α : Type} (x : Nat → Eval α) : Prop := ∀ n, Below (x n) (x (n + 1))

theorem Eval.Grows.below {α : Type} {x : Nat → Eval α} (h : Grows x) {n m : Nat} (hle : n ≤ m) :
    Below (x n) (x m) := by
  induction hle with
  | refl => exact .refl _
  | step _ ih => exact ih.trans (h _)

section Grows

variable (host : Host) (env : Slot) (held : List Value)

theorem grows_evaluate (e : Expr) : Grows fun n => evaluate host n env held e :=
  fun n => (extended host n).evaluate env held e

theorem grows_evaluateAll (es : List Expr) : Grows fun n => evaluateAll host n env held es :=
  fun n => (extended host n).evaluateAll env held es

theorem grows_execute (s : Stmt) : Grows fun n => execute host n env held s :=
  fun n => (extended host n).execute env held s

theorem grows_iterate (line : Nat) (name : String) (body : Stmt) (i stop : Int) :
    Grows fun n => iterate host n env held line name body i stop :=
  fun n => (extended host n).iterate env held line name body i stop

theorem grows_turn (name : String) (x : Number) (body : Stmt) :
    Grows fun n => inFrame host env held (fun s => do
      update (State.define s name (.number x))
      execute host n s held body) :=
  fun n => .inFrame (fun s => (Below.refl _).bind fun _ => grows_execute host s held body n)
    host env held

end Grows

end Scriptlet
