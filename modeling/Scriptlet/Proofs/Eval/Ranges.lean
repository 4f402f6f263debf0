import Scriptlet.Proofs.Arena.Bindings
import Scriptlet.Proofs.Eval.Balance
import Scriptlet.Proofs.Number.Counting

/-!
# Ranges can be counted through

The only source of ranges are numbers that were checked to be countable integers. So all ranges of
a session have countable bounds, wherever they are: bound in a frame, held by an evaluation, given
back by a function. A loop counts between the bounds of one range and never meets an integer that
is too large to count with.

* `Value.Countable`, `State.Countable`: ranges with countable bounds, as values and in frames.
* `Eval.Counts`: **a computation makes no other range**, and fails at no index.
* `counting`: this holds of all of evaluation, by induction on the fuel.
* `Moment.Countable`: what all moments of a session have in common.
* `ranges_countable`: **all ranges of a session are countable**, and so are all indices.
-/

namespace Scriptlet

open Arena (globals)
open Relation (ReflTransGen)

/-! ## Countable ranges -/

/-- **If a value is a range, its bounds are countable.** -/
def Value.Countable : Value → Prop
  | .range start stop => Number.Countable start ∧ Number.Countable stop
  | _ => True

/-- All ranges that are bound in frames are countable. -/
def State.Countable (σ : State) : Prop := σ.arena.Binds Value.Countable

/-- A fault other than that of an index that is too large to count with. -/
def EvalFault.NoIndex (fault : EvalFault) : Prop := ∀ i, fault ≠ .invalidArgument (.index i)

/-! ### Operators and native functions -/

theorem Value.Atomic.countable {v : Value} (h : v.Atomic) : v.Countable := by
  cases v with
  | range => cases h
  | _ => trivial

theorem countable_of_rangeBound {v : Value} {i : Int} (h : rangeBound v = .ok i) :
    Number.Countable i := by
  unfold rangeBound at h
  split at h
  · split at h <;> cases h
    rename_i hi
    exact Number.countable_of_toInt hi
  · cases h

/-- **Ranges are made of checked bounds.** -/
theorem countable_of_makeRange {args : List Value} {v : Value} (h : makeRange args = .ok v) :
    v.Countable := by
  match args with
  | [] => cases h
  | [stop] =>
    cases hstop : rangeBound stop <;> simp only [makeRange, hstop] at h <;> cases h
    exact ⟨Nat.zero_le _, countable_of_rangeBound hstop⟩
  | [start, stop] =>
    cases hstart : rangeBound start <;> cases hstop : rangeBound stop <;>
      simp only [makeRange, hstart, hstop] at h <;> cases h
    exact ⟨countable_of_rangeBound hstart, countable_of_rangeBound hstop⟩
  | _ :: _ :: _ :: _ => cases h

theorem UnaryOp.noIndex_of_apply {op : UnaryOp} {v : Value} {fault : EvalFault}
    (h : op.apply v = .error fault) : fault.NoIndex := by
  unfold UnaryOp.apply at h
  split at h <;> cases h
  exact nofun

theorem BinaryOp.noIndex_of_apply {op : BinaryOp} {l r : Value} {fault : EvalFault}
    (h : op.apply l r = .error fault) : fault.NoIndex := by
  have hnumber : ∀ {f : Number × Number → Value},
      (numberOperands op l r).map f = .error fault → fault.NoIndex := by
    intro f h
    unfold numberOperands at h
    split at h <;> cases h <;> exact nofun
  cases op with
  | add =>
    unfold BinaryOp.apply addValues at h
    dsimp only at h
    split at h <;> cases h
    exact nofun
  | equal | notEqual => cases h
  | _ => exact hnumber h

theorem Arity.noIndex_of_check {arity : Arity} {n : Nat} {fault : EvalFault}
    (h : arity.check n = .error fault) : fault.NoIndex := by
  unfold Arity.check at h
  split_ifs at h
  cases h
  exact nofun

theorem noIndex_of_rangeBound {v : Value} {fault : EvalFault} (h : rangeBound v = .error fault) :
    fault.NoIndex := by
  unfold rangeBound at h
  split at h
  · split at h <;> cases h
    exact nofun
  · cases h
    exact nofun

theorem noIndex_of_makeRange {args : List Value} {fault : EvalFault}
    (h : makeRange args = .error fault) : fault.NoIndex := by
  match args with
  | [] | _ :: _ :: _ :: _ =>
    cases h
    exact nofun
  | [stop] =>
    cases hstop : rangeBound stop <;> simp only [makeRange, hstop] at h <;> cases h
    exact noIndex_of_rangeBound hstop
  | [start, stop] =>
    cases hstart : rangeBound start <;> cases hstop : rangeBound stop <;>
      simp only [makeRange, hstart, hstop] at h <;> cases h
    · exact noIndex_of_rangeBound hstart
    · exact noIndex_of_rangeBound hstart
    · exact noIndex_of_rangeBound hstop

/-! ## Computations -/

/-- **An outcome with countable ranges only**, and with no index that is too large. -/
inductive Outcome.Countable {α : Type} [Carries α] : Outcome α → Prop
  | done {a : α} {σ : State} (values : ∀ v ∈ Carries.values a, v.Countable)
      (state : σ.Countable) : Countable (.done a σ)
  | failed {e : EvalError} {σ : State} (fault : e.fault.NoIndex) (state : σ.Countable) :
    Countable (.failed e σ)
  | outOfFuel : Countable .outOfFuel

namespace Eval

variable {α β : Type} [Carries α] [Carries β] {x : Eval α}

/-- **A computation keeps all ranges countable.** -/
def Counts (x : Eval α) : Prop := ∀ σ, σ.Countable → (x σ).Countable

/-- **Computations compose.** -/
theorem Counts.bind {f : α → Eval β} (hx : Counts x)
    (hf : ∀ a, (∀ v ∈ Carries.values a, v.Countable) → Counts (f a)) : Counts (x >>= f) := by
  intro σ hσ
  have ho := hx σ hσ
  change (x.andThen f σ).Countable
  unfold andThen
  generalize x σ = o at ho
  cases ho with
  | done values state => exact hf _ values _ state
  | failed fault state => exact .failed fault state
  | outOfFuel => exact .outOfFuel

theorem counts_value {a : α} (ha : ∀ v ∈ Carries.values a, v.Countable) : Counts (value a) :=
  fun _ hσ => .done ha hσ

theorem counts_stuck : Counts (stuck : Eval α) := fun _ _ => .outOfFuel

theorem counts_fail {fault : EvalFault} (h : fault.NoIndex) (line : Nat) :
    Counts (fail fault line : Eval α) :=
  fun _ hσ => .failed h hσ

theorem counts_ofExcept (line : Nat) {r : Except EvalFault α}
    (hok : ∀ a, r = .ok a → ∀ v ∈ Carries.values a, v.Countable)
    (herror : ∀ fault, r = .error fault → fault.NoIndex) : Counts (ofExcept line r) := by
  cases r with
  | ok a => exact counts_value (hok a rfl)
  | error fault => exact counts_fail (herror fault rfl) line

theorem counts_check (line : Nat) (arity : Arity) (n : Nat) :
    Counts (ofExcept line (arity.check n)) :=
  counts_ofExcept line (fun _ _ => nofun) fun _ => Arity.noIndex_of_check

theorem counts_update {f : State → State} (hf : ∀ σ, σ.Countable → (f σ).Countable) :
    Counts (update f) :=
  fun σ hσ => .done nofun (hf σ hσ)

theorem Counts.closing {f : State → State} (hx : Counts x)
    (hf : ∀ σ, σ.Countable → (f σ).Countable) : Counts (closing x f) := by
  intro σ hσ
  have ho := hx σ hσ
  unfold Eval.closing
  generalize x σ = o at ho
  cases ho with
  | done values state => exact .done values (hf _ state)
  | failed fault state => exact .failed fault (hf _ state)
  | outOfFuel => exact .outOfFuel

theorem Counts.inFrame (host : Host) (env : Slot) (held : List Value) {body : Slot → Eval α}
    (hbody : ∀ s, Counts (body s)) : Counts (inFrame host env held body) := by
  intro σ hσ
  refine ((hbody _).closing fun σ' hσ' => ?_) _ (hσ.statePush host env held)
  exact hσ'.stateRelease host _

theorem Counts.counted (hx : Counts x) : Counts (counted x) := by
  have hclosing := hx.closing (f := fun σ => { σ with depth := σ.depth - 1 }) fun _ hσ => hσ
  exact fun σ hσ => hclosing { σ with depth := σ.depth + 1 } hσ

theorem Counts.ite {c : Prop} [Decidable c] {y : Eval α} (hx : Counts x) (hy : Counts y) :
    Counts (if c then x else y) := by
  split_ifs
  · exact hx
  · exact hy

end Eval

open Eval

theorem Value.forall_carried {v : Value} :
    (∀ u ∈ Carries.values v, u.Countable) ↔ v.Countable := by
  simp [Carries.values]

section Steps

variable (env : Slot) (line : Nat)

theorem counts_plain {v : Value} (hv : v.Countable) : Counts (value v) :=
  counts_value (Value.forall_carried.mpr hv)

theorem counts_next : Counts (value Flow.next) := counts_value nofun

theorem counts_readVariable (name : String) (binding : Binding) :
    Counts (readVariable env line name binding) := by
  intro σ hσ
  rw [readVariable_eq]
  cases hv : σ.arena.valueAt? env name binding with
  | none => exact .failed nofun hσ
  | some v =>
    obtain ⟨t, ht⟩ := Arena.get?_of_valueAt? hv
    exact .done (Value.forall_carried.mpr (hσ.get? ht)) hσ

theorem counts_define {v : Value} (hv : v.Countable) (s : Slot) (name : String) :
    Counts (update (State.define s name v)) :=
  counts_update fun _ hσ => hσ.define hv s name

theorem counts_writeVariable (name : String) (binding : Binding) {v : Value}
    (hv : v.Countable) : Counts (writeVariable env line name binding v) := by
  intro σ hσ
  rw [writeVariable_eq]
  cases σ.arena.slotAt? env name binding with
  | none => exact .failed nofun hσ
  | some t => exact .done nofun (hσ.define hv t name)

theorem counts_declareFunction (host : Host) (held : List Value) (name : String)
    (params : List String) (body : List Stmt) :
    Counts (declareFunction host env held name params body) :=
  counts_update fun σ hσ => ((hσ.capture env).track host _ held).define
    (v := .function ⟨σ.functions, name, params, body, env⟩) trivial env name

theorem counts_bindAll (s : Slot) (names : List String) {vs : List Value}
    (hvs : ∀ v ∈ vs, v.Countable) : Counts (bindAll s names vs) := by
  induction names generalizing vs with
  | nil => exact counts_value nofun
  | cons name names ih =>
    cases vs with
    | nil => exact counts_value nofun
    | cons v vs =>
      obtain ⟨hv, hvs⟩ := List.forall_mem_cons.mp hvs
      exact (counts_define hv s name).bind fun _ _ => ih hvs

theorem counts_builtin (host : Host) (f : Builtin) {args : List Value}
    (hargs : ∀ v ∈ args, v.Countable) : Counts (f.run host line args) := by
  cases f with
  | clock =>
    refine (counts_check line _ _).bind fun _ _ σ hσ => ?_
    exact .done (Value.forall_carried.mpr trivial) hσ
  | range =>
    refine counts_ofExcept line (fun v hv => ?_) fun _ => noIndex_of_makeRange
    exact Value.forall_carried.mpr (countable_of_makeRange hv)
  | print =>
    match args with
    | [] | _ :: _ :: _ => exact counts_fail (by nofun) line
    | [v] =>
      have hprint := counts_update (f := fun σ => { σ with output := σ.output ++ v.text ++ "\n" })
        fun _ hσ => hσ
      exact hprint.bind fun _ _ => counts_value hargs

end Steps

/-! ## Evaluation -/

/-- **Evaluation keeps all ranges countable**, on the given fuel. -/
structure Counting (host : Host) (n : Nat) : Prop where
  evaluate (env : Slot) (held : List Value) (e : Expr) :
    Counts (evaluate host n env held e)
  evaluateAll (env : Slot) (held : List Value) (es : List Expr) :
    Counts (evaluateAll host n env held es)
  call (held : List Value) (line : Nat) (callee : Value) {args : List Value}
    (hargs : ∀ v ∈ args, v.Countable) : Counts (call host n held line callee args)
  execute (env : Slot) (held : List Value) (s : Stmt) :
    Counts (execute host n env held s)
  executeAll (env : Slot) (held : List Value) (ss : List Stmt) :
    Counts (executeAll host n env held ss)
  iterate (env : Slot) (held : List Value) (line : Nat) (name : String) (body : Stmt)
    {i stop : Int} (hi : Number.Countable i) (hstop : Number.Countable stop) :
    Counts (iterate host n env held line name body i stop)

namespace Counting

variable {host : Host} {n : Nat} (ih : Counting host n)
include ih

theorem evaluate_succ (env : Slot) (held : List Value) (e : Expr) :
    Counts (Scriptlet.evaluate host (n + 1) env held e) := by
  cases e with
  | literal line l =>
    simp only [Scriptlet.evaluate]
    exact counts_plain (Value.atomic_ofLiteral l).countable
  | var line name binding =>
    simp only [Scriptlet.evaluate]
    exact counts_readVariable env line name binding
  | assign line name binding rhs =>
    simp only [Scriptlet.evaluate]
    refine (ih.evaluate env held rhs).bind fun v hv => ?_
    have hv := Value.forall_carried.mp hv
    exact (counts_writeVariable env line name binding hv).bind fun _ _ => counts_plain hv
  | group line inner =>
    simp only [Scriptlet.evaluate]
    exact ih.evaluate env held inner
  | unary line op operand =>
    simp only [Scriptlet.evaluate]
    refine (ih.evaluate env held operand).bind fun v _ => ?_
    refine counts_ofExcept line (fun u hu => ?_) fun _ => UnaryOp.noIndex_of_apply
    exact Value.forall_carried.mpr (UnaryOp.atomic_of_apply hu).countable
  | binary line op left right =>
    simp only [Scriptlet.evaluate]
    refine (ih.evaluate env held left).bind fun l _ => ?_
    refine (ih.evaluate env (l :: held) right).bind fun r _ => ?_
    refine counts_ofExcept line (fun u hu => ?_) fun _ => BinaryOp.noIndex_of_apply
    exact Value.forall_carried.mpr (BinaryOp.atomic_of_apply hu).countable
  | logical line op left right =>
    simp only [Scriptlet.evaluate]
    exact (ih.evaluate env held left).bind fun l hl =>
      .ite (counts_value hl) (ih.evaluate env (l :: held) right)
  | call line callee arguments =>
    simp only [Scriptlet.evaluate]
    exact (ih.evaluate env held callee).bind fun f _ =>
      (ih.evaluateAll env (f :: held) arguments).bind fun args hargs => ih.call _ line f hargs
  | get line name object =>
    simp only [Scriptlet.evaluate]
    exact (ih.evaluate env held object).bind fun v _ =>
      counts_fail (by simp [EvalFault.NoIndex]) line
  | set line name object rhs =>
    simp only [Scriptlet.evaluate]
    exact (ih.evaluate env held object).bind fun v _ =>
      (ih.evaluate env held rhs).bind fun u _ => counts_fail (by simp [EvalFault.NoIndex]) line

theorem evaluateAll_succ (env : Slot) (held : List Value) (es : List Expr) :
    Counts (Scriptlet.evaluateAll host (n + 1) env held es) := by
  cases es with
  | nil =>
    simp only [Scriptlet.evaluateAll]
    exact counts_value (by simp [Carries.values])
  | cons e es =>
    simp only [Scriptlet.evaluateAll]
    refine (ih.evaluate env held e).bind fun v hv => ?_
    refine (ih.evaluateAll env (v :: held) es).bind fun vs hvs => counts_value ?_
    exact List.forall_mem_cons.mpr ⟨Value.forall_carried.mp hv, hvs⟩

theorem call_succ (held : List Value) (line : Nat) (callee : Value) {args : List Value}
    (hargs : ∀ v ∈ args, v.Countable) :
    Counts (Scriptlet.call host (n + 1) held line callee args) := by
  cases callee with
  | builtin f =>
    simp only [Scriptlet.call]
    exact (counts_check line _ _).bind fun _ _ => counts_builtin line host f hargs
  | function f =>
    simp only [Scriptlet.call]
    refine (counts_check line _ _).bind fun _ _ σ hσ => ?_
    split_ifs
    · exact .failed (by simp [EvalFault.NoIndex]) hσ
    · refine Counts.inFrame host f.env held (fun s => ?_) σ hσ
      refine (counts_bindAll s f.params hargs).bind fun _ _ => ?_
      refine (ih.executeAll s held f.body).counted.bind fun flow hflow => ?_
      cases flow with
      | next => exact counts_plain trivial
      | giveBack v => exact counts_value hflow
  | _ =>
    simp only [Scriptlet.call]
    exact counts_fail (by simp [EvalFault.NoIndex]) line

theorem execute_succ (env : Slot) (held : List Value) (s : Stmt) :
    Counts (Scriptlet.execute host (n + 1) env held s) := by
  cases s with
  | block line body =>
    simp only [Scriptlet.execute]
    exact .inFrame host env held fun s => ih.executeAll s held body
  | expression line e =>
    simp only [Scriptlet.execute]
    exact (ih.evaluate env held e).bind fun _ _ => counts_next
  | function line name params body =>
    simp only [Scriptlet.execute]
    exact (counts_declareFunction env host held name params body).bind fun _ _ => counts_next
  | ifThen line condition yes =>
    simp only [Scriptlet.execute]
    exact (ih.evaluate env held condition).bind fun c _ =>
      .ite (ih.execute env held yes) counts_next
  | ifElse line condition yes no =>
    simp only [Scriptlet.execute]
    exact (ih.evaluate env held condition).bind fun c _ => ih.execute env held _
  | giveBack line e =>
    cases e with
    | none =>
      simp only [Scriptlet.execute]
      exact counts_value (by simp [Carries.values, Flow.values, Value.Countable])
    | some e =>
      simp only [Scriptlet.execute]
      exact (ih.evaluate env held e).bind fun v hv => counts_value hv
  | declare line name e =>
    cases e with
    | none =>
      simp only [Scriptlet.execute]
      exact (counts_define (by trivial) env name).bind fun _ _ => counts_next
    | some e =>
      simp only [Scriptlet.execute]
      exact (ih.evaluate env held e).bind fun v hv =>
        (counts_define (Value.forall_carried.mp hv) env name).bind fun _ _ => counts_next
  | whileLoop line condition body =>
    simp only [Scriptlet.execute]
    refine (ih.evaluate env held condition).bind fun c _ => .ite ?_ counts_next
    refine (ih.execute env held body).bind fun flow hflow => ?_
    cases flow with
    | next => exact ih.execute env held _
    | giveBack v => exact counts_value hflow
  | forLoop line name iterable body =>
    simp only [Scriptlet.execute]
    refine (ih.evaluate env held iterable).bind fun v hv => ?_
    cases v with
    | range start stop =>
      obtain ⟨hstart, hstop⟩ := Value.forall_carried.mp hv
      exact ih.iterate env held line name body hstart hstop
    | _ => exact counts_fail (by simp [EvalFault.NoIndex]) line

theorem executeAll_succ (env : Slot) (held : List Value) (ss : List Stmt) :
    Counts (Scriptlet.executeAll host (n + 1) env held ss) := by
  cases ss with
  | nil =>
    simp only [Scriptlet.executeAll]
    exact counts_next
  | cons s ss =>
    simp only [Scriptlet.executeAll]
    refine (ih.execute env held s).bind fun flow hflow => ?_
    cases flow with
    | next => exact ih.executeAll env held ss
    | giveBack v => exact counts_value hflow

/-- An index lies between the bounds of its range, so that it is a number. -/
theorem iterate_succ (env : Slot) (held : List Value) (line : Nat) (name : String) (body : Stmt)
    {i stop : Int} (hi : Number.Countable i) (hstop : Number.Countable stop) :
    Counts (Scriptlet.iterate host (n + 1) env held line name body i stop) := by
  by_cases hlt : i < stop
  · simp only [Scriptlet.iterate, if_pos hlt, Number.ofInt?_of_countable hi]
    refine (Counts.inFrame host env held fun s => (counts_define (by trivial) s name).bind
      fun _ _ => ih.execute s held body).bind fun flow hflow => ?_
    cases flow with
    | next => exact ih.iterate env held line name body (hi.between hstop (by omega) hlt) hstop
    | giveBack v => exact counts_value hflow
  · simp only [Scriptlet.iterate, if_neg hlt]
    exact counts_next

end Counting

/-- **Evaluation keeps all ranges countable.** -/
theorem counting (host : Host) (n : Nat) : Counting host n := by
  induction n with
  | zero =>
    constructor <;> intros <;>
      simp only [evaluate_zero, evaluateAll_zero, call_zero, execute_zero, executeAll_zero,
        iterate_zero] <;>
      exact counts_stuck
  | succ n ih =>
    exact ⟨ih.evaluate_succ, ih.evaluateAll_succ, fun held line callee _ hargs =>
      ih.call_succ held line callee hargs, ih.execute_succ, ih.executeAll_succ,
      fun env held line name body _ _ => ih.iterate_succ env held line name body⟩

/-! ## Moments -/

/-- The arguments of a call and the bounds of a loop are countable. -/
def Task.Countable : Task → Prop
  | .call _ _ _ args => ∀ v ∈ args, v.Countable
  | .iterate _ _ _ _ _ i stop => Number.Countable i ∧ Number.Countable stop
  | _ => True

/-- **A moment at which all ranges are countable**: those that are held, those that evaluation is
asked to work with, and those that are bound. -/
structure Moment.Countable (m : Moment) : Prop where
  held : ∀ v ∈ m.task.held, v.Countable
  task : m.task.Countable
  state : m.state.Countable

section Outcomes

variable {α : Type} [Carries α] {x : Eval α} {σ σ' : State} {a : α} {e : EvalError}

theorem Eval.Counts.of_done (hx : Counts x) (hσ : σ.Countable) (h : x σ = .done a σ') :
    (∀ v ∈ Carries.values a, v.Countable) ∧ σ'.Countable := by
  have ho := hx σ hσ
  rw [h] at ho
  cases ho with
  | done values state => exact ⟨values, state⟩

theorem Eval.Counts.of_failed (hx : Counts x) (hσ : σ.Countable) (h : x σ = .failed e σ') :
    e.fault.NoIndex ∧ σ'.Countable := by
  have ho := hx σ hσ
  rw [h] at ho
  cases ho with
  | failed fault state => exact ⟨fault, state⟩

end Outcomes

theorem State.Countable.evaluate {host : Host} {n : Nat} {env : Slot} {held : List Value}
    {e : Expr} {v : Value} {σ σ' : State} (h : σ.Countable)
    (hrun : evaluate host n env held e σ = .done v σ') : v.Countable ∧ σ'.Countable := by
  obtain ⟨hv, hσ'⟩ := ((counting host n).evaluate env held e).of_done h hrun
  exact ⟨Value.forall_carried.mp hv, hσ'⟩

/-- **What such a moment starts is one.** -/
theorem Moment.Countable.starts {host : Host} {m m' : Moment} (h : m.Countable)
    (hstarts : m.Starts host m') : m'.Countable := by
  obtain ⟨hheld, htask, hstate⟩ := h
  cases hstarts with
  | part hpart =>
    cases hpart with
    | first _ | head => exact ⟨hheld, trivial, hstate⟩
    | assigned ended => exact ⟨hheld, trivial, (hstate.evaluate ended).2⟩
    | right ended | undecided ended _ | arguments ended | tail ended =>
      obtain ⟨hv, hstate⟩ := hstate.evaluate ended
      exact ⟨List.forall_mem_cons.mpr ⟨hv, hheld⟩, trivial, hstate⟩
  | @call n env held line callee arguments f args σ σ₁ σ₂ ended ended' =>
    obtain ⟨hf, hstate₁⟩ := hstate.evaluate ended
    obtain ⟨hargs, hstate₂⟩ :=
      ((counting host n).evaluateAll env (f :: held) arguments).of_done hstate₁ ended'
    refine ⟨List.forall_mem_cons.mpr ⟨hf, fun v hv => ?_⟩, hargs, hstate₂⟩
    exact (List.mem_append.mp hv).elim (hargs v) (hheld v)
  | @body n held line args s σ σ₁ σ₂ f enters opened bound =>
    have hopened := hstate.statePush host f.env held
    rw [opened] at hopened
    exact ⟨hheld, trivial, ((counts_bindAll s f.params htask).of_done hopened bound).2⟩
  | first _ | head => exact ⟨hheld, trivial, hstate⟩
  | @block n env held line body s σ σ₁ opened =>
    have hopened := hstate.statePush host env held
    rw [opened] at hopened
    exact ⟨hheld, trivial, hopened⟩
  | yes ended _ | branch ended | loop ended _ =>
    exact ⟨hheld, trivial, (hstate.evaluate ended).2⟩
  | @again n env held line condition body c σ σ₁ σ₂ ended _ ended' =>
    have hstate₁ := (hstate.evaluate ended).2
    exact ⟨hheld, trivial, (((counting host n).execute env held body).of_done hstate₁ ended').2⟩
  | range ended =>
    obtain ⟨hbounds, hstate⟩ := hstate.evaluate ended
    exact ⟨hheld, hbounds, hstate⟩
  | @tail n env held s ss σ σ₁ ended =>
    exact ⟨hheld, trivial, (((counting host n).execute env held s).of_done hstate ended).2⟩
  | @turn n env held line name body i stop x s σ σ₁ below index opened =>
    have hopened := hstate.statePush host env held
    rw [opened] at hopened
    exact ⟨hheld, trivial, hopened.define (by trivial) s name⟩
  | @next n env held line name body i stop x σ σ₁ below index ended =>
    have hturn : Counts (inFrame host env held fun s => do
        update (State.define s name (.number x))
        Scriptlet.execute host n s held body) :=
      .inFrame host env held fun s => (counts_define (by trivial) s name).bind fun _ _ =>
        (counting host n).execute s held body
    obtain ⟨hi, hstop⟩ := htask
    exact ⟨hheld, ⟨hi.between hstop (by omega) below, hstop⟩, (hturn.of_done hstate ended).2⟩

theorem Moment.Countable.reaches {host : Host} {m m' : Moment} (h : m.Countable)
    (hpath : ReflTransGen (Moment.Starts host) m m') : m'.Countable := by
  induction hpath with
  | refl => exact h
  | tail _ hstarts ih => exact ih.starts hstarts

/-! ## Sessions -/

section Sessions

variable {host : Host} {fuel : Nat} {last : Value} {ss : List Stmt} {σ σ' : State}

theorem counts_topLevel (host : Host) (fuel : Nat) (held : List Value) (s : Stmt) :
    Counts (topLevel host fuel held s) := by
  have hexecute : Counts (do
      let _ ← execute host fuel globals held s
      return .null : Eval Value) :=
    ((counting host fuel).execute globals held s).bind fun _ _ => counts_plain trivial
  cases s with
  | expression line e => exact (counting host fuel).evaluate globals held e
  | _ => exact hexecute

theorem Begun.countable {m : Moment} (h : Begun host fuel last ss σ m) (hlast : last.Countable)
    (hσ : σ.Countable) : m.Countable := by
  induction h with
  | @first last s ss σ =>
    cases s <;> exact ⟨List.forall_mem_singleton.mpr hlast, trivial, hσ⟩
  | @later last s ss σ v σ₁ m ended _ ih =>
    obtain ⟨hv, hσ₁⟩ := (counts_topLevel host fuel [last] s).of_done hσ ended
    exact ih (Value.forall_carried.mp hv) hσ₁

theorem State.Countable.topLevelFrom (h : σ.Countable) {ending : Ending}
    (hend : topLevelFrom host fuel last ss σ = some ending) :
    ending.state.Countable ∧ ∀ err ∈ ending.error?, err.fault.NoIndex := by
  induction ss generalizing last σ with
  | nil =>
    cases hend
    exact ⟨h, nofun⟩
  | cons s ss ih =>
    simp only [Scriptlet.topLevelFrom] at hend
    have hs := counts_topLevel host fuel [last] s
    cases hrun : topLevel host fuel [last] s σ with
    | done v σ₁ =>
      rw [hrun] at hend
      exact ih (hs.of_done h hrun).2 hend
    | failed err σ₁ =>
      rw [hrun] at hend
      cases hend
      obtain ⟨hfault, hσ₁⟩ := hs.of_failed h hrun
      refine ⟨hσ₁, ?_⟩
      rintro _ ⟨⟩
      exact hfault
    | outOfFuel =>
      rw [hrun] at hend
      cases hend

/-- **A unit reports no index that is too large to count with.** -/
theorem State.Countable.run (h : σ.Countable) {u : Input} {r : Report}
    (hran : u.run host fuel σ = some (r, σ')) :
    σ'.Countable ∧ ∀ err, .eval err ∈ r.errors → err.fault.NoIndex := by
  rw [u.run_eq] at hran
  cases hchecked : u.checked with
  | error es =>
    rw [hchecked] at hran
    cases hran
    refine ⟨h, fun err herr => ?_⟩
    cases u with
    | source text => exact absurd herr (eval_not_mem_of_program hchecked err)
    | statements => cases hchecked
  | ok ss =>
    rw [hchecked] at hran
    obtain ⟨ending, hending, heq⟩ := Option.map_eq_some_iff.mp hran
    cases heq
    obtain ⟨hstate, herror⟩ :=
      State.Countable.topLevelFrom (σ := { σ with output := "" }) h hending
    exact ⟨hstate, fun err herr => herror err (by simpa using herr)⟩

theorem InSession.countable (h : InSession host σ) : σ.Countable := by
  induction h with
  | start => exact Arena.binds_withBuiltins fun _ => trivial
  | ran _ hran ih => exact (ih.run hran).1

theorem Within.countable {m : Moment} (h : InSession host σ) (hm : Within host fuel ss σ m) :
    m.Countable := by
  obtain ⟨m₀, hbegun, hpath⟩ := hm
  exact (hbegun.countable trivial h.countable).reaches hpath

/-- **All ranges of an interpreter are countable at all times.** -/
theorem Reachable.countable {held : List Value} (h : Reachable host held σ) :
    σ.Countable ∧ ∀ v ∈ held, v.Countable := by
  cases h with
  | between h => exact ⟨h.countable, nofun⟩
  | during h moment =>
    have hm := Within.countable h moment
    exact ⟨hm.state, hm.held⟩

end Sessions

/-- **All ranges of a session are countable.** At every time of an interpreter all ranges that
frames bind and that evaluations hold have countable bounds, and so has every range that is the
value of an expression or given back by a statement. No index of a loop is too large to count with:
nothing fails with such an error, no unit reports one, and the number that a loop binds is its
index. -/
theorem ranges_countable (host : Host) :
    (∀ held σ, Reachable host held σ →
      (∀ s, ∀ p ∈ (σ.arena.frame s).bindings, p.2.Countable) ∧ (∀ v ∈ held, v.Countable) ∧
      (∀ n env e v σ', evaluate host n env held e σ = .done v σ' →
        v.Countable ∧ σ'.Countable) ∧
      (∀ n env e err σ', evaluate host n env held e σ = .failed err σ' →
        err.fault.NoIndex ∧ σ'.Countable) ∧
      (∀ n env s flow σ', execute host n env held s σ = .done flow σ' →
        (∀ v ∈ flow.values, v.Countable) ∧ σ'.Countable) ∧
      ∀ n env s err σ', execute host n env held s σ = .failed err σ' →
        err.fault.NoIndex ∧ σ'.Countable) ∧
    (∀ σ fuel u r σ', InSession host σ → Input.run host fuel u σ = some (r, σ') →
      ∀ i line, .eval ⟨.invalidArgument (.index i), line⟩ ∉ r.errors) ∧
    ∀ σ fuel ss n env held line name body i stop σ', InSession host σ →
      Within host fuel ss σ ⟨n, .iterate env held line name body i stop, σ'⟩ → i < stop →
      ∃ x, Number.ofInt? i = some x ∧ x.Denotes i := by
  refine ⟨fun held σ hreachable => ?_, ?_, ?_⟩
  · obtain ⟨hσ, hheld⟩ := hreachable.countable
    refine ⟨hσ, hheld, ?_, ?_, ?_, ?_⟩
    · exact fun n env e v σ' hrun => hσ.evaluate hrun
    · exact fun n env e err σ' hrun => ((counting host n).evaluate env held e).of_failed hσ hrun
    · exact fun n env s flow σ' hrun => ((counting host n).execute env held s).of_done hσ hrun
    · exact fun n env s err σ' hrun => ((counting host n).execute env held s).of_failed hσ hrun
  · intro σ fuel u r σ' h hran i line herror
    exact (h.countable.run hran).2 _ herror i rfl
  · intro σ fuel ss n env held line name body i stop σ' h hmoment hlt
    have hi := (Within.countable h hmoment).task.1
    exact ⟨.ofInt i, Number.ofInt?_of_countable hi, Number.denotes_ofInt hi⟩

/-- A loop over the last integers that can be counted with. -/
theorem ranges_countable_limit :
    let host : Host := ⟨fun _ => .zero, true⟩
    let iterable : Expr := .call 1 (.var 1 "range" .toplevel)
      [.literal 1 (.number ⟨0x433ffffffffffffd⟩),
        .literal 1 (.number ⟨0x433fffffffffffff⟩)]
    evaluate host 4 globals [] iterable .start =
        .done (.range 9007199254740989 9007199254740991) .start ∧
      (Value.range 9007199254740989 9007199254740991).Countable ∧
      ∃ x, Number.ofInt? 9007199254740989 = some x ∧ x.Denotes 9007199254740989 := by
  have hvalue (held : List Value) : evaluate ⟨fun _ => .zero, true⟩ 4 globals held
      (.call 1 (.var 1 "range" .toplevel) [.literal 1 (.number ⟨0x433ffffffffffffd⟩),
        .literal 1 (.number ⟨0x433fffffffffffff⟩)]) .start =
      .done (.range 9007199254740989 9007199254740991) .start := by
    have hcallee : State.start.arena.get? globals "range" = some (.builtin .range) := rfl
    have hrange : makeRange [Value.number ⟨0x433ffffffffffffd⟩,
      Value.number ⟨0x433fffffffffffff⟩] =
        .ok (.range 9007199254740989 9007199254740991) := rfl
    simp [evaluate, evaluateAll, call, readVariable, hcallee, hrange, bind, Eval.andThen,
      Eval.value, Eval.ofExcept, Arity.check, Arity.accepts, Builtin.arity, Builtin.run,
      Value.ofLiteral]
  intro host iterable
  obtain ⟨hstates, -, hindices⟩ := ranges_countable host
  obtain ⟨-, -, hevaluate, -⟩ := hstates [] .start (.between .start)
  have hmoment : Within host 5 [.forLoop 1 "i" iterable (.block 1 [])] .start
      ⟨4, .iterate globals [.null] 1 "i" (.block 1 []) 9007199254740989 9007199254740991,
        .start⟩ :=
    ⟨_, .first, .single (.range (hvalue [.null]))⟩
  exact ⟨hvalue [], (hevaluate _ _ _ _ _ (hvalue [])).1,
    hindices _ _ _ _ _ _ _ _ _ _ _ _ .start hmoment (by decide)⟩

end Scriptlet
