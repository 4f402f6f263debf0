import Scriptlet.Proofs.Eval.Bodies
import Scriptlet.Proofs.Eval.Recycling
import Scriptlet.Proofs.Eval.Running
import Scriptlet.Proofs.Tree.Relined

/-!
# Evaluation on other lines

Evaluation looks at lines for its errors only, and it never reads what has been printed. So a
program on other lines, run behind other output, goes the same way: it ends with the same value, or
with the same error on the moved line, and prints the same behind what was there.

* `State.relined`: a state with the lines of all functions moved, behind other output.
* `Eval.Moved`: **two computations differ in lines and earlier output only**; `Eval.Moved.bind`
  composes computations.
* `Relined`: expressions, calls and statements with a given fuel; `relined`: with any fuel, by
  induction on it.
-/

namespace Scriptlet

variable {α β : Type} (f : Nat → Nat) (before : String)

/-! ## States -/

/-- The same error on another line. -/
def EvalError.relined (e : EvalError) : EvalError := { e with line := f e.line }

/-- The same value, with the lines of its body moved if it is a function. -/
def Value.relined : Value → Value := Value.mapBody (Stmt.allRelined f)

/-- The same way to end, with the value moved. -/
def Flow.relined : Flow → Flow
  | .next => .next
  | .giveBack v => .giveBack (v.relined f)

/-- The same state with the lines of all functions moved, and with `before` printed first. -/
def State.relined (σ : State) : State :=
  { σ with arena := σ.arena.mapBody (Stmt.allRelined f), output := before ++ σ.output }

/-- The same outcome, its value changed by `m` and its state or error moved. -/
def Outcome.relined (m : α → α) : Outcome α → Outcome α
  | .done x σ => .done (m x) (σ.relined f before)
  | .failed e σ => .failed (e.relined f) (σ.relined f before)
  | .outOfFuel => .outOfFuel

/-! ## Computations -/

/-- **Two computations differ in lines and earlier output only.** -/
def Eval.Moved (m : α → α) (x y : Eval α) : Prop :=
  ∀ σ, y (σ.relined f before) = (x σ).relined f before m

namespace Eval

variable {f before} {m : α → α} {m' : β → β}

theorem moved_value (m : α → α) (a : α) : Moved f before m (value a) (value (m a)) := fun _ => rfl

theorem moved_fail (m : α → α) (fault : EvalFault) (line : Nat) :
    Moved f before m (fail fault line) (fail fault (f line)) :=
  fun _ => rfl

theorem moved_check (line : Nat) (r : Except EvalFault Unit) :
    Moved f before id (ofExcept line r) (ofExcept (f line) r) := by
  cases r with
  | error fault => exact moved_fail id fault line
  | ok u => exact moved_value id u

theorem moved_ofExcept (line : Nat) {r : Except EvalFault Value}
    (hr : ∀ v, r = .ok v → v.closure? = none) :
    Moved f before (Value.relined f) (ofExcept line r) (ofExcept (f line) r) := by
  cases r with
  | error fault => exact moved_fail _ fault line
  | ok v =>
    intro σ
    exact congrArg (Outcome.done · _) (Value.mapBody_of_closure? _ (hr v rfl)).symm

theorem moved_update {h h' : State → State}
    (hmove : ∀ σ, h' (σ.relined f before) = (h σ).relined f before) :
    Moved f before id (update h) (update h') :=
  fun σ => congrArg (Outcome.done ()) (hmove σ)

/-- **Computations compose.** -/
theorem Moved.bind {x y : Eval α} {k k' : α → Eval β} (h : Moved f before m x y)
    (hk : ∀ a, Moved f before m' (k a) (k' (m a))) :
    Moved f before m' (x >>= k) (y >>= k') := by
  intro σ
  change y.andThen k' _ = (x.andThen k σ).relined f before m'
  unfold andThen
  rw [h σ]
  cases x σ with
  | done a σ' => exact hk a σ'
  | failed e σ' => rfl
  | outOfFuel => rfl

theorem Moved.closing {x y : Eval α} (h : Moved f before m x y) {k k' : State → State}
    (hk : ∀ σ, k' (σ.relined f before) = (k σ).relined f before) :
    Moved f before m (closing x k) (closing y k') := by
  intro σ
  unfold Eval.closing
  rw [h σ]
  cases x σ with
  | done a σ' => exact congrArg (Outcome.done _) (hk σ')
  | failed e σ' => exact congrArg (Outcome.failed _) (hk σ')
  | outOfFuel => rfl

theorem Moved.counted {x y : Eval α} (h : Moved f before m x y) :
    Moved f before m (counted x) (counted y) := by
  have hclosing : Moved f before m (Eval.closing x fun σ => { σ with depth := σ.depth - 1 })
      (Eval.closing y fun σ => { σ with depth := σ.depth - 1 }) := h.closing fun _ => rfl
  exact fun σ => hclosing { σ with depth := σ.depth + 1 }

/-- **A computation in a frame of its own**, where all frames are kept. -/
theorem Moved.inFrame (clock : Nat → Number) (env : Slot) (held held' : List Value)
    {x y : Slot → Eval α} (h : ∀ s, Moved f before m (x s) (y s)) :
    Moved f before m (inFrame (.keeping clock) env held x)
      (inFrame (.keeping clock) env held' y) := by
  intro σ
  have hsize : (σ.relined f before).arena.frames.size = σ.arena.frames.size :=
    σ.arena.size_mapBody _
  have hopened : (σ.relined f before).opened env = (σ.opened env).relined f before :=
    congrArg (fun a => { σ.relined f before with arena := a })
      (σ.arena.append_mapBody (Stmt.allRelined f) env).symm
  rw [inFrame_keeping, inFrame_keeping, hsize, hopened]
  exact h _ _

end Eval

/-! ## Variables and native functions -/

open Eval

section Steps

variable {f before}

theorem Arena.valueAt?_mapBody (g : List Stmt → List Stmt) (a : Arena) (env : Slot) (x : String)
    (b : Binding) :
    (a.mapBody g).valueAt? env x b = (a.valueAt? env x b).map (Value.mapBody g) := by
  have hget : (fun t => (a.mapBody g).get? t x) = fun t => (a.get? t x).map (Value.mapBody g) :=
    funext fun t => a.get?_mapBody g t x
  cases b with
  | toplevel => exact a.get?_mapBody g _ x
  | enclosing d =>
    rw [valueAt?, getAt?, ancestor?_mapBody, hget, valueAt?, getAt?, Option.map_bind]
    rfl
  | unresolved =>
    rw [valueAt?, lookup?, find?_mapBody, hget, valueAt?, lookup?, Option.map_bind]
    rfl

theorem Arena.slotAt?_mapBody (g : List Stmt → List Stmt) (a : Arena) (env : Slot) (x : String)
    (b : Binding) : (a.mapBody g).slotAt? env x b = a.slotAt? env x b := by
  cases b with
  | enclosing d => simp only [slotAt?, ancestor?_mapBody, isSome_get?_mapBody]
  | toplevel | unresolved => exact a.find?_mapBody g env x

theorem moved_readVariable (env : Slot) (line : Nat) (x : String) (b : Binding) :
    Moved f before (Value.relined f) (readVariable env line x b)
      (readVariable env (f line) x b) := by
  intro σ
  rw [readVariable_eq, readVariable_eq]
  have hvalue : (σ.relined f before).arena.valueAt? env x b = _ :=
    σ.arena.valueAt?_mapBody (Stmt.allRelined f) env x b
  rw [hvalue]
  cases σ.arena.valueAt? env x b <;> rfl

theorem moved_define (s : Slot) (name : String) (v : Value) :
    Moved f before id (update (State.define s name v))
      (update (State.define s name (v.relined f))) := by
  refine moved_update fun σ => ?_
  exact congrArg (fun a => { σ.relined f before with arena := a })
    (σ.arena.define_mapBody (Stmt.allRelined f) s name v).symm

theorem moved_writeVariable (env : Slot) (line : Nat) (x : String) (b : Binding) (v : Value) :
    Moved f before id (writeVariable env line x b v)
      (writeVariable env (f line) x b (v.relined f)) := by
  intro σ
  rw [writeVariable_eq, writeVariable_eq]
  have hslot : (σ.relined f before).arena.slotAt? env x b = _ :=
    σ.arena.slotAt?_mapBody (Stmt.allRelined f) env x b
  rw [hslot]
  cases σ.arena.slotAt? env x b with
  | none => rfl
  | some t => exact moved_define t x v σ

theorem moved_declareFunction (clock : Nat → Number) (env : Slot) (held held' : List Value)
    (name : String) (params : List String) (body : List Stmt) :
    Moved f before id (declareFunction (.keeping clock) env held name params body)
      (declareFunction (.keeping clock) env held' name params (Stmt.allRelined f body)) := by
  refine moved_update fun σ => ?_
  simp only [State.relined, Host.track, Host.keeping, Bool.false_eq_true, if_false,
    Arena.define_mapBody, Arena.note_mapBody, Arena.capture_mapBody]
  rfl

theorem moved_bindAll (s : Slot) (params : List String) (args : List Value) :
    Moved f before id (bindAll s params args) (bindAll s params (args.map (Value.relined f))) := by
  induction params generalizing args with
  | nil => exact moved_value id ()
  | cons name names ih =>
    cases args with
    | nil => exact moved_value id ()
    | cons v vs => exact (moved_define s name v).bind fun _ => ih vs

/-- **Native functions** take no notice of lines, and print behind what was printed. -/
theorem moved_builtin (clock : Nat → Number) (line : Nat) (b : Builtin) (args : List Value) :
    Moved f before (Value.relined f) (b.run (.keeping clock) line args)
      (b.run (.keeping clock) (f line) (args.map (Value.relined f))) := by
  cases b with
  | clock =>
    simp only [Builtin.run, List.length_map]
    exact (moved_check line _).bind fun _ _ => rfl
  | range =>
    simp only [Builtin.run]
    rw [show makeRange (args.map (Value.relined f)) = makeRange args from makeRange_mapBody _ args]
    exact moved_ofExcept line fun v hv => closure?_of_makeRange hv
  | print =>
    rcases args with _ | ⟨v, _ | ⟨w, args⟩⟩
    · exact moved_fail _ _ _
    · refine (moved_update fun σ => ?_).bind fun _ => moved_value (Value.relined f) v
      have htext : (v.relined f).text = v.text := v.text_mapBody _
      simp only [State.relined, htext, String.append_assoc]
    · simp only [Builtin.run, List.map, List.length_cons, List.length_map]
      exact moved_fail _ _ _

end Steps

/-! ## Evaluation -/

/-- **Evaluation with fuel `n` goes the same way on other lines**, whatever is held. -/
structure Relined (clock : Nat → Number) (n : Nat) : Prop where
  evaluate (env : Slot) (held held' : List Value) (e : Expr) :
    Moved f before (Value.relined f) (evaluate (.keeping clock) n env held e)
      (Scriptlet.evaluate (.keeping clock) n env held' (e.relined f))
  evaluateAll (env : Slot) (held held' : List Value) (es : List Expr) :
    Moved f before (List.map (Value.relined f)) (evaluateAll (.keeping clock) n env held es)
      (Scriptlet.evaluateAll (.keeping clock) n env held' (Expr.allRelined f es))
  call (held held' : List Value) (line : Nat) (callee : Value) (args : List Value) :
    Moved f before (Value.relined f) (call (.keeping clock) n held line callee args)
      (Scriptlet.call (.keeping clock) n held' (f line) (callee.relined f)
        (args.map (Value.relined f)))
  execute (env : Slot) (held held' : List Value) (s : Stmt) :
    Moved f before (Flow.relined f) (execute (.keeping clock) n env held s)
      (Scriptlet.execute (.keeping clock) n env held' (s.relined f))
  executeAll (env : Slot) (held held' : List Value) (ss : List Stmt) :
    Moved f before (Flow.relined f) (executeAll (.keeping clock) n env held ss)
      (Scriptlet.executeAll (.keeping clock) n env held' (Stmt.allRelined f ss))
  iterate (env : Slot) (held held' : List Value) (line : Nat) (name : String) (body : Stmt)
    (i stop : Int) :
    Moved f before (Flow.relined f) (iterate (.keeping clock) n env held line name body i stop)
      (Scriptlet.iterate (.keeping clock) n env held' (f line) name (body.relined f) i stop)

namespace Relined

variable {f before} {clock : Nat → Number} {n : Nat} (ih : Relined f before clock n)
include ih

theorem evaluate_succ (env : Slot) (held held' : List Value) (e : Expr) :
    Moved f before (Value.relined f) (Scriptlet.evaluate (.keeping clock) (n + 1) env held e)
      (Scriptlet.evaluate (.keeping clock) (n + 1) env held' (e.relined f)) := by
  cases e with
  | literal line l =>
    simp only [Scriptlet.evaluate, Expr.relined]
    intro σ
    exact congrArg (Outcome.done · _) (Value.mapBody_of_closure? _ (closure?_ofLiteral l)).symm
  | var line name binding =>
    simp only [Scriptlet.evaluate, Expr.relined]
    exact moved_readVariable env line name binding
  | assign line name binding rhs =>
    simp only [Scriptlet.evaluate, Expr.relined]
    exact (ih.evaluate env held held' rhs).bind fun v =>
      (moved_writeVariable env line name binding v).bind fun _ => moved_value _ v
  | group line inner =>
    simp only [Scriptlet.evaluate, Expr.relined]
    exact ih.evaluate env held held' inner
  | unary line op operand =>
    simp only [Scriptlet.evaluate, Expr.relined]
    refine (ih.evaluate env held held' operand).bind fun v => ?_
    rw [show op.apply (v.relined f) = op.apply v from op.apply_mapBody _ v]
    exact moved_ofExcept line fun _ => UnaryOp.closure?_of_apply
  | binary line op left right =>
    simp only [Scriptlet.evaluate, Expr.relined]
    refine (ih.evaluate env held held' left).bind fun l => (ih.evaluate env _ _ right).bind
      fun r => ?_
    rw [show op.apply (l.relined f) (r.relined f) = op.apply l r from op.apply_mapBody _ l r]
    exact moved_ofExcept line fun _ => BinaryOp.closure?_of_apply
  | logical line op left right =>
    simp only [Scriptlet.evaluate, Expr.relined]
    refine (ih.evaluate env held held' left).bind fun l => ?_
    rw [show op.decidedBy (l.relined f) = op.decidedBy l from op.decidedBy_mapBody _ l]
    split_ifs
    · exact moved_value _ l
    · exact ih.evaluate env _ _ right
  | call line callee arguments =>
    simp only [Scriptlet.evaluate, Expr.relined]
    exact (ih.evaluate env held held' callee).bind fun c =>
      (ih.evaluateAll env _ _ arguments).bind fun args => ih.call _ _ line c args
  | get line name object =>
    simp only [Scriptlet.evaluate, Expr.relined]
    exact (ih.evaluate env held held' object).bind fun _ => moved_fail _ _ line
  | set line name object rhs =>
    simp only [Scriptlet.evaluate, Expr.relined]
    exact (ih.evaluate env held held' object).bind fun _ =>
      (ih.evaluate env held held' rhs).bind fun _ => moved_fail _ _ line

theorem evaluateAll_succ (env : Slot) (held held' : List Value) (es : List Expr) :
    Moved f before (List.map (Value.relined f))
      (Scriptlet.evaluateAll (.keeping clock) (n + 1) env held es)
      (Scriptlet.evaluateAll (.keeping clock) (n + 1) env held' (Expr.allRelined f es)) := by
  cases es with
  | nil =>
    simp only [Scriptlet.evaluateAll, Expr.allRelined]
    exact moved_value (List.map (Value.relined f)) []
  | cons e es =>
    simp only [Scriptlet.evaluateAll, Expr.allRelined]
    exact (ih.evaluate env held held' e).bind fun v => (ih.evaluateAll env _ _ es).bind fun vs =>
      moved_value (List.map (Value.relined f)) (v :: vs)

theorem call_succ (held held' : List Value) (line : Nat) (callee : Value) (args : List Value) :
    Moved f before (Value.relined f)
      (Scriptlet.call (.keeping clock) (n + 1) held line callee args)
      (Scriptlet.call (.keeping clock) (n + 1) held' (f line) (callee.relined f)
        (args.map (Value.relined f))) := by
  cases callee with
  | builtin b =>
    simp only [Scriptlet.call, Value.relined, Value.mapBody, List.length_map]
    exact (moved_check line _).bind fun _ => moved_builtin clock line b args
  | function c =>
    simp only [Scriptlet.call, Value.relined, Value.mapBody, Closure.mapBody, List.length_map]
    refine (moved_check line _).bind fun _ σ => ?_
    have hdepth : (σ.relined f before).depth = σ.depth := rfl
    simp only [hdepth]
    split_ifs
    · rfl
    · refine Moved.inFrame clock c.env held held' (fun s => ?_) σ
      refine (moved_bindAll s c.params args).bind fun _ =>
        (ih.executeAll s held held' c.body).counted.bind fun flow => ?_
      cases flow with
      | next => exact moved_value (Value.relined f) .null
      | giveBack v => exact moved_value (Value.relined f) v
  | _ =>
    simp only [Scriptlet.call, Value.relined, Value.mapBody]
    exact moved_fail _ _ line

theorem execute_succ (env : Slot) (held held' : List Value) (s : Stmt) :
    Moved f before (Flow.relined f) (Scriptlet.execute (.keeping clock) (n + 1) env held s)
      (Scriptlet.execute (.keeping clock) (n + 1) env held' (s.relined f)) := by
  have hnext : Moved f before (Flow.relined f) (value .next) (value .next) :=
    moved_value (Flow.relined f) .next
  cases s with
  | block line body =>
    simp only [Scriptlet.execute, Stmt.relined]
    exact Moved.inFrame clock env held held' fun s => ih.executeAll s held held' body
  | expression line e =>
    simp only [Scriptlet.execute, Stmt.relined]
    exact (ih.evaluate env held held' e).bind fun _ => hnext
  | function line name params body =>
    simp only [Scriptlet.execute, Stmt.relined]
    exact (moved_declareFunction clock env held held' name params body).bind fun _ => hnext
  | ifThen line condition yes =>
    simp only [Scriptlet.execute, Stmt.relined]
    refine (ih.evaluate env held held' condition).bind fun c => ?_
    rw [show (c.relined f).truthy = c.truthy from c.truthy_mapBody _]
    split_ifs
    · exact ih.execute env held held' yes
    · exact hnext
  | ifElse line condition yes no =>
    simp only [Scriptlet.execute, Stmt.relined]
    refine (ih.evaluate env held held' condition).bind fun c => ?_
    rw [show (c.relined f).truthy = c.truthy from c.truthy_mapBody _]
    split_ifs
    · exact ih.execute env held held' yes
    · exact ih.execute env held held' no
  | giveBack line e =>
    cases e with
    | none =>
      simp only [Scriptlet.execute, Stmt.relined, Option.map_none]
      exact moved_value (Flow.relined f) (.giveBack .null)
    | some e =>
      simp only [Scriptlet.execute, Stmt.relined, Option.map_some]
      exact (ih.evaluate env held held' e).bind fun v => moved_value (Flow.relined f) (.giveBack v)
  | declare line name e =>
    cases e with
    | none =>
      simp only [Scriptlet.execute, Stmt.relined, Option.map_none]
      exact (moved_define env name .null).bind fun _ => hnext
    | some e =>
      simp only [Scriptlet.execute, Stmt.relined, Option.map_some]
      exact (ih.evaluate env held held' e).bind fun v => (moved_define env name v).bind
        fun _ => hnext
  | whileLoop line condition body =>
    simp only [Scriptlet.execute, Stmt.relined]
    refine (ih.evaluate env held held' condition).bind fun c => ?_
    rw [show (c.relined f).truthy = c.truthy from c.truthy_mapBody _]
    split_ifs
    · refine (ih.execute env held held' body).bind fun flow => ?_
      cases flow with
      | next => exact ih.execute env held held' (.whileLoop line condition body)
      | giveBack v => exact moved_value (Flow.relined f) (.giveBack v)
    · exact hnext
  | forLoop line name iterable body =>
    simp only [Scriptlet.execute, Stmt.relined]
    refine (ih.evaluate env held held' iterable).bind fun v => ?_
    cases v with
    | range start stop => exact ih.iterate env held held' line name body start stop
    | _ => exact moved_fail _ _ line

theorem executeAll_succ (env : Slot) (held held' : List Value) (ss : List Stmt) :
    Moved f before (Flow.relined f) (Scriptlet.executeAll (.keeping clock) (n + 1) env held ss)
      (Scriptlet.executeAll (.keeping clock) (n + 1) env held' (Stmt.allRelined f ss)) := by
  cases ss with
  | nil =>
    simp only [Scriptlet.executeAll, Stmt.allRelined]
    exact moved_value (Flow.relined f) .next
  | cons s ss =>
    simp only [Scriptlet.executeAll, Stmt.allRelined]
    refine (ih.execute env held held' s).bind fun flow => ?_
    cases flow with
    | next => exact ih.executeAll env held held' ss
    | giveBack v => exact moved_value (Flow.relined f) (.giveBack v)

theorem iterate_succ (env : Slot) (held held' : List Value) (line : Nat) (name : String)
    (body : Stmt) (i stop : Int) :
    Moved f before (Flow.relined f)
      (Scriptlet.iterate (.keeping clock) (n + 1) env held line name body i stop)
      (Scriptlet.iterate (.keeping clock) (n + 1) env held' (f line) name (body.relined f) i
        stop) := by
  simp only [Scriptlet.iterate]
  split_ifs
  · cases Number.ofInt? i with
    | none => exact moved_fail _ _ line
    | some x =>
      refine (Moved.inFrame clock env held held' fun s => (moved_define s name (.number x)).bind
        fun _ => ih.execute s held held' body).bind fun flow => ?_
      cases flow with
      | next => exact ih.iterate env held held' line name body (i + 1) stop
      | giveBack v => exact moved_value (Flow.relined f) (.giveBack v)
  · exact moved_value (Flow.relined f) .next

end Relined

/-- **Evaluation goes the same way on other lines, whatever the fuel.** -/
theorem relined (clock : Nat → Number) (n : Nat) : Relined f before clock n := by
  induction n with
  | zero =>
    constructor <;> intros <;>
      simp only [evaluate, evaluateAll, call, execute, executeAll, iterate] <;> exact fun _ => rfl
  | succ n ih =>
    exact ⟨ih.evaluate_succ, ih.evaluateAll_succ, ih.call_succ, ih.execute_succ,
      ih.executeAll_succ, ih.iterate_succ⟩

end Scriptlet
