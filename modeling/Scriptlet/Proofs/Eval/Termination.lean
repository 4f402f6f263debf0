import Scriptlet.Proofs.Arena.Bindings
import Scriptlet.Proofs.Eval.Balance
import Scriptlet.Proofs.Eval.Fuel

/-!
# Only `while` can loop forever

A program without `while` ends, whatever its functions call. The body of a function is no part of
the call, but it runs with one more call open, and there is room for so many open calls only; a
`for` loop goes through its range once. So the calls that can still be opened, the size of the tree
and the rest of the range bound an evaluation, in this order.

* `Stmt.whileFree`: no `while` is in a statement, nor in the functions it declares.
* `Ends`: **a computation ends**, in one way from some fuel on; `Ends.bind` composes computations.
* `ends_evaluate`, `ends_execute`, `ends_iterate`: evaluation ends if calls do, by induction on
  trees and ranges; `callsEnd`: calls end, by induction on the calls that can still be opened.
* `Moment.WhileFree`: what the moments of a session without `while` have in common.
* `runAll_ends`: **every session without `while` ends**, and so does every evaluation at any of its
  moments.
-/

namespace Scriptlet

open Arena (globals)
open Relation (ReflTransGen)

/-! ## Programs without `while` -/

mutual

/-- No `while` is in a statement, nor in the functions it declares. -/
def Stmt.whileFree : Stmt → Bool
  | .whileLoop .. => false
  | .block _ body | .function _ _ _ body => Stmt.allWhileFree body
  | .ifThen _ _ s | .forLoop _ _ _ s => s.whileFree
  | .ifElse _ _ yes no => yes.whileFree && no.whileFree
  | .expression .. | .giveBack .. | .declare .. => true

def Stmt.allWhileFree : List Stmt → Bool
  | [] => true
  | s :: ss => s.whileFree && Stmt.allWhileFree ss

end

/-- A value is no function with a `while` in its body. -/
def Value.whileFree : Value → Bool
  | .function f => Stmt.allWhileFree f.body
  | _ => true

theorem Value.whileFree_of_closure? {v : Value} (h : v.closure? = none) : v.whileFree := by
  cases v with
  | function f => cases h
  | _ => rfl

theorem Value.forall_values {v : Value} :
    (∀ u ∈ Carries.values v, u.whileFree) ↔ v.whileFree := by
  simp [Carries.values]

/-! ## Computations that end -/

/-- **No function with a `while` is bound**, and at most `d` more calls can be opened. -/
structure State.Bounded (d : Nat) (σ : State) : Prop where
  binds : σ.arena.Binds fun v => v.whileFree
  calls : maxCallDepth ≤ σ.depth + d

/-- **A computation ends**: from some fuel on it ends in one way, and no function with a `while`
comes of it. -/
inductive Ends {α : Type} [Carries α] (d : Nat) (x : Nat → Eval α) (σ : State) : Prop
  | done {n : Nat} {a : α} {σ' : State} (run : ∀ fuel ≥ n, x fuel σ = .done a σ')
      (values : ∀ v ∈ Carries.values a, v.whileFree) (after : σ'.Bounded d)
  | failed {n : Nat} {e : EvalError} {σ' : State} (run : ∀ fuel ≥ n, x fuel σ = .failed e σ')
      (after : σ'.Bounded d)

namespace State.Bounded

variable {d : Nat} {σ : State} (h : σ.Bounded d)
include h

theorem define {v : Value} (hv : v.whileFree) (s : Slot) (name : String) :
    (σ.define s name v).Bounded d :=
  ⟨h.binds.define (P := fun v => v.whileFree) hv s name, h.calls⟩

theorem push (host : Host) (env : Slot) (held : List Value) :
    (σ.push host env held).2.Bounded d :=
  ⟨h.binds.statePush host env held, h.calls⟩

theorem release (host : Host) (s : Slot) : (σ.release host s).Bounded d := by
  refine ⟨h.binds.stateRelease host s, ?_⟩
  unfold State.release
  split_ifs <;> exact h.calls

end State.Bounded

namespace Ends

variable {α β : Type} [Carries α] [Carries β] {d : Nat} {x : Nat → Eval α} {σ : State}

theorem of_succ (h : Ends d (fun n => x (n + 1)) σ) : Ends d x σ := by
  have hpred : ∀ {n : Nat} {o : Outcome α}, (∀ fuel ≥ n, x (fuel + 1) σ = o) →
      ∀ fuel ≥ n + 1, x fuel σ = o := by
    intro n o hrun fuel hfuel
    obtain ⟨m, rfl⟩ : ∃ m, fuel = m + 1 := ⟨fuel - 1, by omega⟩
    exact hrun m (Nat.le_of_succ_le_succ hfuel)
  cases h with
  | done run values after => exact .done (hpred run) values after
  | failed run after => exact .failed (hpred run) after

/-- **Computations compose.** -/
theorem bind {f : Nat → α → Eval β} (h : Ends d x σ)
    (hf : ∀ a σ', (∀ v ∈ Carries.values a, v.whileFree) → σ'.Bounded d →
      Ends d (fun n => f n a) σ') : Ends d (fun n => x n >>= f n) σ := by
  cases h with
  | @done n a σ' run values after =>
    have hmore : ∀ {m : Nat} {o : Outcome β}, (∀ fuel ≥ m, f fuel a σ' = o) →
        ∀ fuel ≥ max n m, (x fuel >>= f fuel) σ = o := by
      intro m o hrun fuel hfuel
      rw [Eval.bind_of_done (run fuel (le_of_max_le_left hfuel))]
      exact hrun fuel (le_of_max_le_right hfuel)
    cases hf a σ' values after with
    | done run' values' after' => exact .done (hmore run') values' after'
    | failed run' after' => exact .failed (hmore run') after'
  | failed run after =>
    exact .failed (fun fuel hfuel => Eval.bind_eq_failed.mpr (.inl (run fuel hfuel))) after

theorem value {a : α} (hσ : σ.Bounded d) (ha : ∀ v ∈ Carries.values a, v.whileFree) :
    Ends d (fun _ => Eval.value a) σ :=
  .done (n := 0) (fun _ _ => rfl) ha hσ

theorem fail (hσ : σ.Bounded d) (fault : EvalFault) (line : Nat) :
    Ends d (fun _ => (Eval.fail fault line : Eval α)) σ :=
  .failed (n := 0) (fun _ _ => rfl) hσ

theorem ofExcept (hσ : σ.Bounded d) (line : Nat) {r : Except EvalFault α}
    (hr : ∀ a, r = .ok a → ∀ v ∈ Carries.values a, v.whileFree) :
    Ends d (fun _ => Eval.ofExcept line r) σ := by
  cases r with
  | ok a => exact value hσ (hr a rfl)
  | error fault => exact fail hσ fault line

theorem check (hσ : σ.Bounded d) (line : Nat) (r : Except EvalFault Unit) :
    Ends d (fun _ => Eval.ofExcept line r) σ :=
  .ofExcept hσ line fun _ _ => by simp [Carries.values]

theorem closing {d' : Nat} {f : State → State} (h : Ends d x σ)
    (hf : ∀ σ', σ'.Bounded d → (f σ').Bounded d') :
    Ends d' (fun n => Eval.closing (x n) f) σ := by
  cases h with
  | @done n a σ' run values after =>
    refine .done (n := n) (fun fuel hfuel => ?_) values (hf σ' after)
    exact Eval.closing_eq_done.mpr ⟨σ', run fuel hfuel, rfl⟩
  | @failed n e σ' run after =>
    refine .failed (n := n) (e := e) (fun fuel hfuel => ?_) (hf σ' after)
    exact Eval.closing_eq_failed.mpr ⟨σ', run fuel hfuel, rfl⟩

theorem inFrame (host : Host) (env : Slot) (held : List Value) {body : Nat → Slot → Eval α}
    (hσ : σ.Bounded d)
    (hbody : ∀ s σ', σ'.Bounded d → Ends d (fun n => body n s) σ') :
    Ends d (fun n => Eval.inFrame host env held (body n)) σ := by
  have hclosed := (hbody (σ.push host env held).1 _ (hσ.push host env held)).closing fun σ' hσ' =>
    hσ'.release host (σ.push host env held).1
  cases hclosed with
  | done run values after => exact .done run values after
  | failed run after => exact .failed run after

theorem counted (h : Ends d x { σ with depth := σ.depth + 1 }) :
    Ends (d + 1) (fun n => Eval.counted (x n)) σ := by
  have hclosed : Ends (d + 1) (fun n => Eval.closing (x n) fun σ => { σ with depth := σ.depth - 1 })
      { σ with depth := σ.depth + 1 } := by
    refine h.closing fun σ' hσ' => ⟨hσ'.binds, ?_⟩
    have hcalls := hσ'.calls
    dsimp only
    omega
  cases hclosed with
  | done run values after => exact .done run values after
  | failed run after => exact .failed run after

/-- What has ended on some fuel is how the computation ends. -/
theorem of_state? (h : Ends d x σ) (hx : Eval.Grows x) {n : Nat} {σ' : State}
    (hend : (x n σ).state? = some σ') :
    σ'.Bounded d ∧ ∀ a, x n σ = .done a σ' → ∀ v ∈ Carries.values a, v.whileFree := by
  have hended : x n σ ≠ .outOfFuel := by
    intro hrun
    rw [hrun] at hend
    cases hend
  cases h with
  | @done m b σ₁ run values after =>
    have hrun := (run (max n m) (le_max_right n m)).symm.trans
      (hx.below (le_max_left n m) σ hended)
    rw [← hrun] at hend ⊢
    cases hend
    refine ⟨after, ?_⟩
    rintro a ⟨⟩
    exact values
  | @failed m e σ₁ run after =>
    have hrun := (run (max n m) (le_max_right n m)).symm.trans
      (hx.below (le_max_left n m) σ hended)
    rw [← hrun] at hend ⊢
    cases hend
    exact ⟨after, nofun⟩

end Ends

/-! ## Steps of evaluation -/

section Steps

variable {d : Nat} {σ : State} (hσ : σ.Bounded d) {env : Slot}
include hσ

theorem ends_plain {v : Value} (hv : v.whileFree) : Ends d (fun _ => Eval.value v) σ :=
  .value hσ (Value.forall_values.mpr hv)

theorem ends_readVariable (line : Nat) (name : String) (binding : Binding) :
    Ends d (fun _ => readVariable env line name binding) σ := by
  have hread := readVariable_eq env line name binding σ
  cases hv : σ.arena.valueAt? env name binding with
  | none =>
    rw [hv] at hread
    exact .failed (n := 0) (fun _ _ => hread) hσ
  | some v =>
    rw [hv] at hread
    obtain ⟨t, ht⟩ := Arena.get?_of_valueAt? hv
    exact .done (n := 0) (fun _ _ => hread) (Value.forall_values.mpr (hσ.binds.get? ht)) hσ

theorem ends_writeVariable (line : Nat) (name : String) (binding : Binding) {v : Value}
    (hv : v.whileFree) : Ends d (fun _ => writeVariable env line name binding v) σ := by
  have hwrite := writeVariable_eq env line name binding v σ
  cases ht : σ.arena.slotAt? env name binding with
  | none =>
    rw [ht] at hwrite
    exact .failed (n := 0) (fun _ _ => hwrite) hσ
  | some t =>
    rw [ht] at hwrite
    exact .done (n := 0) (fun _ _ => hwrite) nofun (hσ.define hv t name)

theorem ends_define {v : Value} (hv : v.whileFree) (s : Slot) (name : String) :
    Ends d (fun _ => Eval.update (State.define s name v)) σ :=
  .done (n := 0) (fun _ _ => rfl) nofun (hσ.define hv s name)

theorem ends_declareFunction (host : Host) (held : List Value) {name : String} {params : List String} {body : List Stmt}
    (hbody : Stmt.allWhileFree body) :
    Ends d (fun _ => declareFunction host env held name params body) σ := by
  refine .done (n := 0) (fun _ _ => rfl) nofun ⟨?_, hσ.calls⟩
  exact ((hσ.binds.capture env).track host _ held).define (P := fun v => v.whileFree)
    (v := .function ⟨σ.functions, name, params, body, env⟩) hbody env name

theorem ends_bindAll {s : Slot} (names : List String) {vs : List Value}
    (hvs : ∀ v ∈ vs, v.whileFree) : Ends d (fun _ => bindAll s names vs) σ := by
  induction names generalizing vs σ with
  | nil => exact .value hσ nofun
  | cons name names ih =>
    cases vs with
    | nil => exact .value hσ nofun
    | cons v vs =>
      obtain ⟨hv, hvs⟩ := List.forall_mem_cons.mp hvs
      exact (ends_define hσ hv s name).bind fun _ _ _ hσ₁ => ih hσ₁ hvs

theorem ends_builtin (host : Host) (line : Nat) (f : Builtin) {args : List Value}
    (hargs : ∀ v ∈ args, v.whileFree) : Ends d (fun _ => f.run host line args) σ := by
  cases f with
  | clock =>
    refine (Ends.check hσ line _).bind fun _ σ₁ _ hσ₁ => ?_
    exact .done (n := 0) (fun _ _ => rfl) (by simp [Carries.values, Value.whileFree])
      ⟨hσ₁.binds, hσ₁.calls⟩
  | range =>
    refine .ofExcept hσ line fun v hv => Value.forall_values.mpr ?_
    exact Value.whileFree_of_closure? (closure?_of_makeRange hv)
  | print =>
    match args with
    | [] | _ :: _ :: _ => exact .fail hσ _ line
    | [v] => exact .done (n := 0) (fun _ _ => rfl) hargs ⟨hσ.binds, hσ.calls⟩

end Steps

/-! ## Evaluation -/

/-- **Calls end** if at most `d` more can be opened. -/
def CallsEnd (host : Host) (d : Nat) : Prop :=
  ∀ {σ : State} (held : List Value) (line : Nat) {f : Value} {args : List Value}, σ.Bounded d →
    f.whileFree → (∀ v ∈ args, v.whileFree) → Ends d (fun n => call host n held line f args) σ

section Evaluation

variable {host : Host} {d : Nat}

mutual

theorem ends_evaluate (hcalls : CallsEnd host d) :
    ∀ (e : Expr) {env : Slot} {held : List Value} {σ : State},
    σ.Bounded d → Ends d (fun n => evaluate host n env held e) σ
  | .literal _ l, _, _, _, hσ => by
    refine .of_succ ?_
    simp only [evaluate]
    exact ends_plain hσ (Value.whileFree_of_closure? (closure?_ofLiteral l))
  | .var line name binding, _, _, _, hσ => by
    refine .of_succ ?_
    simp only [evaluate]
    exact ends_readVariable hσ line name binding
  | .assign line name binding rhs, _, _, _, hσ => by
    refine .of_succ ?_
    simp only [evaluate]
    refine (ends_evaluate hcalls rhs hσ).bind fun v σ₁ hv hσ₁ => ?_
    have hv := Value.forall_values.mp hv
    exact (ends_writeVariable hσ₁ line name binding hv).bind fun _ σ₂ _ hσ₂ => ends_plain hσ₂ hv
  | .group _ inner, _, _, _, hσ => by
    refine .of_succ ?_
    simp only [evaluate]
    exact ends_evaluate hcalls inner hσ
  | .unary line op operand, _, _, _, hσ => by
    refine .of_succ ?_
    simp only [evaluate]
    refine (ends_evaluate hcalls operand hσ).bind fun v σ₁ _ hσ₁ => ?_
    refine .ofExcept hσ₁ line fun u hu => Value.forall_values.mpr ?_
    exact Value.whileFree_of_closure? (UnaryOp.closure?_of_apply hu)
  | .binary line op left right, _, _, _, hσ => by
    refine .of_succ ?_
    simp only [evaluate]
    refine (ends_evaluate hcalls left hσ).bind fun l σ₁ _ hσ₁ => ?_
    refine (ends_evaluate hcalls right hσ₁).bind fun r σ₂ _ hσ₂ => ?_
    refine .ofExcept hσ₂ line fun u hu => Value.forall_values.mpr ?_
    exact Value.whileFree_of_closure? (BinaryOp.closure?_of_apply hu)
  | .logical _ op left right, _, _, _, hσ => by
    refine .of_succ ?_
    simp only [evaluate]
    refine (ends_evaluate hcalls left hσ).bind fun l σ₁ hl hσ₁ => ?_
    split_ifs
    · exact .value hσ₁ hl
    · exact ends_evaluate hcalls right hσ₁
  | .call line callee arguments, _, _, _, hσ => by
    refine .of_succ ?_
    simp only [evaluate]
    refine (ends_evaluate hcalls callee hσ).bind fun f σ₁ hf hσ₁ => ?_
    refine (ends_evaluateAll hcalls arguments hσ₁).bind fun args σ₂ hargs hσ₂ => ?_
    exact hcalls _ line hσ₂ (Value.forall_values.mp hf) hargs
  | .get line name object, _, _, _, hσ => by
    refine .of_succ ?_
    simp only [evaluate]
    exact (ends_evaluate hcalls object hσ).bind fun v σ₁ _ hσ₁ => .fail hσ₁ _ line
  | .set line name object rhs, _, _, _, hσ => by
    refine .of_succ ?_
    simp only [evaluate]
    refine (ends_evaluate hcalls object hσ).bind fun v σ₁ _ hσ₁ => ?_
    exact (ends_evaluate hcalls rhs hσ₁).bind fun u σ₂ _ hσ₂ => .fail hσ₂ _ line

theorem ends_evaluateAll (hcalls : CallsEnd host d) :
    ∀ (es : List Expr) {env : Slot} {held : List Value} {σ : State},
    σ.Bounded d → Ends d (fun n => evaluateAll host n env held es) σ
  | [], _, _, _, hσ => by
    refine .of_succ ?_
    simp only [evaluateAll]
    exact .value hσ nofun
  | e :: es, _, _, _, hσ => by
    refine .of_succ ?_
    simp only [evaluateAll]
    refine (ends_evaluate hcalls e hσ).bind fun v σ₁ hv hσ₁ => ?_
    refine (ends_evaluateAll hcalls es hσ₁).bind fun vs σ₂ hvs hσ₂ => .value hσ₂ ?_
    exact List.forall_mem_cons.mpr ⟨Value.forall_values.mp hv, hvs⟩

end

section Loops

variable {held : List Value} {body : Stmt} (hbody : ∀ {s : Slot} {σ : State}, σ.Bounded d →
  Ends d (fun n => execute host n s held body) σ) {env : Slot} {σ : State} (hσ : σ.Bounded d)
include hbody hσ

theorem ends_turn (name : String) (x : Number) :
    Ends d (fun n => Eval.inFrame host env held fun s => do
      Eval.update (State.define s name (.number x))
      execute host n s held body) σ :=
  .inFrame host env held hσ fun s _ hσ₁ =>
    (ends_define hσ₁ rfl s name).bind fun _ _ _ hσ₂ => hbody hσ₂

/-- **Loops over ranges end**: the rest of the range gets shorter with each turn. -/
theorem ends_iterate (line : Nat) (name : String) (i stop : Int) :
    Ends d (fun n => iterate host n env held line name body i stop) σ := by
  generalize hrest : (stop - i).toNat = rest
  induction rest generalizing i σ with
  | zero =>
    refine .of_succ ?_
    simp only [iterate, if_neg (show ¬ i < stop by omega)]
    exact .value hσ nofun
  | succ rest ih =>
    refine .of_succ ?_
    simp only [iterate, if_pos (show i < stop by omega)]
    cases Number.ofInt? i with
    | none => exact .fail hσ _ line
    | some x =>
      refine (ends_turn hbody hσ name x).bind fun flow σ₁ hflow hσ₁ => ?_
      cases flow with
      | next => exact ih hσ₁ (i + 1) (by omega)
      | giveBack v => exact .value hσ₁ hflow

end Loops

mutual

theorem ends_execute (hcalls : CallsEnd host d) :
    ∀ (s : Stmt) {env : Slot} {held : List Value} {σ : State}, s.whileFree → σ.Bounded d →
      Ends d (fun n => execute host n env held s) σ
  | .block _ body, _, _, _, hs, hσ => by
    refine .of_succ ?_
    simp only [execute]
    exact .inFrame host _ _ hσ fun s σ₁ hσ₁ => ends_executeAll hcalls body hs hσ₁
  | .expression _ e, _, _, _, _, hσ => by
    refine .of_succ ?_
    simp only [execute]
    exact (ends_evaluate hcalls e hσ).bind fun v σ₁ _ hσ₁ => .value hσ₁ nofun
  | .function _ name params body, _, _, _, hs, hσ => by
    refine .of_succ ?_
    simp only [execute]
    exact (ends_declareFunction hσ host _ hs).bind fun _ σ₁ _ hσ₁ => .value hσ₁ nofun
  | .ifThen _ condition yes, _, _, _, hs, hσ => by
    refine .of_succ ?_
    simp only [execute]
    refine (ends_evaluate hcalls condition hσ).bind fun c σ₁ _ hσ₁ => ?_
    split_ifs
    · exact ends_execute hcalls yes hs hσ₁
    · exact .value hσ₁ nofun
  | .ifElse _ condition yes no, _, _, _, hs, hσ => by
    obtain ⟨hyes, hno⟩ := Bool.and_eq_true_iff.mp hs
    refine .of_succ ?_
    simp only [execute]
    refine (ends_evaluate hcalls condition hσ).bind fun c σ₁ _ hσ₁ => ?_
    split_ifs
    · exact ends_execute hcalls yes hyes hσ₁
    · exact ends_execute hcalls no hno hσ₁
  | .giveBack _ none, _, _, _, _, hσ => by
    refine .of_succ ?_
    simp only [execute]
    exact .value hσ (Value.forall_values.mpr rfl)
  | .giveBack _ (some e), _, _, _, _, hσ => by
    refine .of_succ ?_
    simp only [execute]
    exact (ends_evaluate hcalls e hσ).bind fun v σ₁ hv hσ₁ => .value hσ₁ hv
  | .declare _ name none, _, _, _, _, hσ => by
    refine .of_succ ?_
    simp only [execute]
    exact (ends_define hσ rfl _ name).bind fun _ σ₁ _ hσ₁ => .value hσ₁ nofun
  | .declare _ name (some e), _, _, _, _, hσ => by
    refine .of_succ ?_
    simp only [execute]
    refine (ends_evaluate hcalls e hσ).bind fun v σ₁ hv hσ₁ => ?_
    exact (ends_define hσ₁ (Value.forall_values.mp hv) _ name).bind fun _ σ₂ _ hσ₂ =>
      .value hσ₂ nofun
  | .forLoop line name iterable body, _, _, _, hs, hσ => by
    refine .of_succ ?_
    simp only [execute]
    refine (ends_evaluate hcalls iterable hσ).bind fun v σ₁ _ hσ₁ => ?_
    cases v with
    | range start stop =>
      exact ends_iterate (fun hσ₂ => ends_execute hcalls body hs hσ₂) hσ₁ line name start stop
    | _ => exact .fail hσ₁ _ line

theorem ends_executeAll (hcalls : CallsEnd host d) :
    ∀ (ss : List Stmt) {env : Slot} {held : List Value} {σ : State}, Stmt.allWhileFree ss →
      σ.Bounded d → Ends d (fun n => executeAll host n env held ss) σ
  | [], _, _, _, _, hσ => by
    refine .of_succ ?_
    simp only [executeAll]
    exact .value hσ nofun
  | s :: ss, _, _, _, hs, hσ => by
    obtain ⟨hs, hss⟩ := Bool.and_eq_true_iff.mp hs
    refine .of_succ ?_
    simp only [executeAll]
    refine (ends_execute hcalls s hs hσ).bind fun flow σ₁ hflow hσ₁ => ?_
    cases flow with
    | next => exact ends_executeAll hcalls ss hss hσ₁
    | giveBack v => exact .value hσ₁ hflow

end

theorem ends_body (hcalls : CallsEnd host d) {f : Closure} {args : List Value}
    (held : List Value) (s : Slot) {σ : State} (hσ : σ.Bounded (d + 1))
    (hf : Stmt.allWhileFree f.body) (hargs : ∀ v ∈ args, v.whileFree) :
    Ends (d + 1) (fun n => do
      bindAll s f.params args
      let flow ← Eval.counted (executeAll host n s held f.body)
      match flow with
      | .next => Eval.value .null
      | .giveBack v => Eval.value v) σ := by
  refine (ends_bindAll hσ f.params hargs).bind fun _ σ₁ _ hσ₁ => ?_
  have hinside : State.Bounded d { σ₁ with depth := σ₁.depth + 1 } := by
    have hcalls := hσ₁.calls
    exact ⟨hσ₁.binds, by dsimp only; omega⟩
  refine (ends_executeAll hcalls f.body hf hinside).counted.bind fun flow σ₂ hflow hσ₂ => ?_
  cases flow with
  | next => exact ends_plain hσ₂ rfl
  | giveBack v => exact .value hσ₂ hflow

theorem ends_call (hinside : ∀ k, d = k + 1 → CallsEnd host k) : CallsEnd host d := by
  intro σ held line f args hσ hf hargs
  refine .of_succ ?_
  cases f with
  | builtin f =>
    simp only [call]
    exact (Ends.check hσ line _).bind fun _ σ₁ _ hσ₁ => ends_builtin hσ₁ host line f hargs
  | function f =>
    simp only [call]
    refine (Ends.check hσ line _).bind fun _ σ₁ _ hσ₁ => ?_
    by_cases hdepth : maxCallDepth ≤ σ₁.depth
    · exact .failed (n := 0) (fun _ _ => if_pos hdepth) hσ₁
    · obtain ⟨k, rfl⟩ : ∃ k, d = k + 1 := by
        have hcalls := hσ₁.calls
        exact ⟨d - 1, by omega⟩
      have hframe := Ends.inFrame host f.env held hσ₁ fun s σ₂ hσ₂ =>
        ends_body (hinside k rfl) held s hσ₂ hf hargs
      cases hframe with
      | done run values after =>
        exact .done (fun fuel hfuel => (if_neg hdepth).trans (run fuel hfuel)) values after
      | failed run after =>
        exact .failed (fun fuel hfuel => (if_neg hdepth).trans (run fuel hfuel)) after
  | _ =>
    simp only [call]
    exact .fail hσ _ line

/-- **Calls end**, by induction on how many more can be opened. -/
theorem callsEnd (host : Host) (d : Nat) : CallsEnd host d := by
  induction d with
  | zero => exact ends_call fun k hk => absurd hk (Nat.succ_ne_zero k).symm
  | succ d ih =>
    refine ends_call fun k hk => ?_
    cases hk
    exact ih

end Evaluation

/-! ## Moments -/

/-- **No function with a `while` is bound.** -/
def State.WhileFree (σ : State) : Prop := σ.arena.Binds fun v => v.whileFree

/-- There never are more calls to open than are allowed. -/
theorem State.WhileFree.bounded {σ : State} (h : σ.WhileFree) : σ.Bounded maxCallDepth :=
  ⟨h, Nat.le_add_left _ _⟩

/-- No `while` is in what evaluation is asked to do. -/
def Task.whileFree : Task → Bool
  | .evaluate .. | .evaluateAll .. => true
  | .call _ _ callee args => callee.whileFree && args.all Value.whileFree
  | .execute _ _ s => s.whileFree
  | .executeAll _ _ ss => Stmt.allWhileFree ss
  | .iterate _ _ _ _ body _ _ => body.whileFree

/-- A moment of a session without `while`. -/
structure Moment.WhileFree (m : Moment) : Prop where
  task : m.task.whileFree
  state : m.state.WhileFree

namespace State.WhileFree

variable {host : Host} {n : Nat} {env : Slot} {held : List Value} {σ σ' : State}
  (h : σ.WhileFree)
include h

theorem evaluate {e : Expr} {v : Value} (hrun : evaluate host n env held e σ = .done v σ') :
    σ'.WhileFree ∧ v.whileFree := by
  obtain ⟨hσ', hv⟩ := (ends_evaluate (callsEnd host _) e h.bounded).of_state?
    (grows_evaluate host env held e) (Outcome.state?_of_done hrun)
  exact ⟨hσ'.binds, Value.forall_values.mp (hv v hrun)⟩

theorem evaluateAll {es : List Expr} {vs : List Value}
    (hrun : evaluateAll host n env held es σ = .done vs σ') :
    σ'.WhileFree ∧ ∀ v ∈ vs, v.whileFree := by
  obtain ⟨hσ', hvs⟩ := (ends_evaluateAll (callsEnd host _) es h.bounded).of_state?
    (grows_evaluateAll host env held es) (Outcome.state?_of_done hrun)
  exact ⟨hσ'.binds, hvs vs hrun⟩

theorem execute {s : Stmt} (hs : s.whileFree)
    (hrun : (execute host n env held s σ).state? = some σ') : σ'.WhileFree :=
  ((ends_execute (callsEnd host _) s hs h.bounded).of_state?
    (grows_execute host env held s) hrun).1.binds

end State.WhileFree

/-- **What a moment without `while` starts is one.** -/
theorem Moment.WhileFree.starts {host : Host} {m m' : Moment} (h : m.WhileFree)
    (hstarts : m.Starts host m') : m'.WhileFree := by
  obtain ⟨htask, hstate⟩ := h
  cases hstarts with
  | part hpart =>
    cases hpart with
    | first _ | head => exact ⟨rfl, hstate⟩
    | right ended | undecided ended _ | arguments ended | assigned ended | tail ended =>
      exact ⟨rfl, (hstate.evaluate ended).1⟩
  | call ended ended' =>
    obtain ⟨hstate₁, hf⟩ := hstate.evaluate ended
    obtain ⟨hstate₂, hargs⟩ := hstate₁.evaluateAll ended'
    exact ⟨Bool.and_eq_true_iff.mpr ⟨hf, List.all_eq_true.mpr hargs⟩, hstate₂⟩
  | @body n held line args s σ σ₁ σ₂ f enters opened bound =>
    obtain ⟨hf, hargs⟩ := Bool.and_eq_true_iff.mp htask
    have hopened := hstate.bounded.push host f.env held
    rw [opened] at hopened
    have hbound := (ends_bindAll (s := s) hopened f.params (List.all_eq_true.mp hargs)).of_state?
      (n := 0) (fun _ => .refl _) (Outcome.state?_of_done bound)
    exact ⟨hf, hbound.1.binds⟩
  | first _ => exact ⟨rfl, hstate⟩
  | @block n env held line body s σ σ₁ opened =>
    have hopened := hstate.bounded.push host env held
    rw [opened] at hopened
    exact ⟨htask, hopened.binds⟩
  | yes ended _ => exact ⟨htask, (hstate.evaluate ended).1⟩
  | branch ended =>
    obtain ⟨hyes, hno⟩ := Bool.and_eq_true_iff.mp htask
    refine ⟨?_, (hstate.evaluate ended).1⟩
    dsimp only
    split_ifs
    · exact hyes
    · exact hno
  | loop | again => cases htask
  | range ended => exact ⟨htask, (hstate.evaluate ended).1⟩
  | head => exact ⟨(Bool.and_eq_true_iff.mp htask).1, hstate⟩
  | tail ended =>
    obtain ⟨hs, hss⟩ := Bool.and_eq_true_iff.mp htask
    exact ⟨hss, hstate.execute hs (Outcome.state?_of_done ended)⟩
  | @turn n env held line name body i stop x s σ σ₁ below index opened =>
    have hopened := hstate.bounded.push host env held
    rw [opened] at hopened
    exact ⟨htask, (hopened.define rfl s name).binds⟩
  | @next n env held line name body i stop x σ σ₁ below index ended =>
    have hturn := (ends_turn (fun hσ => ends_execute (callsEnd host _) body htask hσ)
      hstate.bounded name x).of_state? (grows_turn host env held name x body)
      (Outcome.state?_of_done ended)
    exact ⟨htask, hturn.1.binds⟩

theorem Moment.WhileFree.reaches {host : Host} {m m' : Moment} (h : m.WhileFree)
    (hpath : ReflTransGen (Moment.Starts host) m m') : m'.WhileFree := by
  induction hpath with
  | refl => exact h
  | tail _ hstarts ih => exact ih.starts hstarts

/-! ## Sessions -/

section TopLevel

variable {host : Host} {held : List Value} {s : Stmt} {ss : List Stmt} {σ : State}

theorem ends_topLevel (host : Host) (held : List Value) (hs : s.whileFree) (hσ : σ.WhileFree) :
    Ends maxCallDepth (fun n => topLevel host n held s) σ := by
  have hexecute : Ends maxCallDepth (fun n => (do
      let _ ← execute host n globals held s
      return .null : Eval Value)) σ :=
    (ends_execute (callsEnd host _) s hs hσ.bounded).bind fun _ σ₁ _ hσ₁ => ends_plain hσ₁ rfl
  cases s with
  | expression line e => exact ends_evaluate (callsEnd host _) e hσ.bounded
  | _ => exact hexecute

theorem grows_topLevel (host : Host) (held : List Value) (s : Stmt) :
    Eval.Grows fun n => topLevel host n held s := by
  have hexecute : Eval.Grows fun n => (do
      let _ ← execute host n globals held s
      return .null : Eval Value) := fun n =>
    (grows_execute host globals held s n).bind fun _ => .refl _
  cases s with
  | expression line e => exact grows_evaluate host globals held e
  | _ => exact hexecute

/-- **Statements at top level end.** -/
theorem exists_topLevelFrom (host : Host) (hss : Stmt.allWhileFree ss) (hσ : σ.WhileFree)
    (last : Value) : ∃ n ending, ∀ fuel ≥ n, topLevelFrom host fuel last ss σ = some ending := by
  induction ss generalizing last σ with
  | nil => exact ⟨0, _, fun _ _ => rfl⟩
  | cons s ss ih =>
    obtain ⟨hs, hss⟩ := Bool.and_eq_true_iff.mp hss
    cases ends_topLevel host [last] hs hσ with
    | @done n v σ₁ run _ after =>
      obtain ⟨m, ending, hmore⟩ := ih hss after.binds v
      refine ⟨max n m, ending, fun fuel hfuel => ?_⟩
      simp only [topLevelFrom, run fuel (le_of_max_le_left hfuel)]
      exact hmore fuel (le_of_max_le_right hfuel)
    | @failed n e σ₁ run after =>
      refine ⟨n, ⟨last, some e, σ₁⟩, fun fuel hfuel => ?_⟩
      simp only [topLevelFrom, run fuel hfuel]

theorem State.WhileFree.topLevel (h : σ.WhileFree) (hs : s.whileFree) {n : Nat} {σ' : State}
    (hend : (topLevel host n held s σ).state? = some σ') : σ'.WhileFree :=
  ((ends_topLevel host held hs h).of_state? (grows_topLevel host held s) hend).1.binds

theorem State.WhileFree.topLevelFrom (h : σ.WhileFree) (hss : Stmt.allWhileFree ss) {fuel : Nat}
    {last : Value} {ending : Ending}
    (hend : topLevelFrom host fuel last ss σ = some ending) : ending.state.WhileFree := by
  induction ss generalizing last σ with
  | nil =>
    cases hend
    exact h
  | cons s ss ih =>
    obtain ⟨hs, hss⟩ := Bool.and_eq_true_iff.mp hss
    simp only [Scriptlet.topLevelFrom] at hend
    cases hrun : Scriptlet.topLevel host fuel [last] s σ with
    | done v σ₁ =>
      rw [hrun] at hend
      exact ih (h.topLevel hs (Outcome.state?_of_done hrun)) hss hend
    | failed e σ₁ =>
      rw [hrun] at hend
      cases hend
      exact h.topLevel hs (Outcome.state?_of_failed hrun)
    | outOfFuel =>
      rw [hrun] at hend
      cases hend

theorem Begun.whileFree {fuel : Nat} {last : Value} {m : Moment}
    (h : Begun host fuel last ss σ m) (hss : Stmt.allWhileFree ss) (hσ : σ.WhileFree) :
    m.WhileFree := by
  induction h with
  | @first last s ss σ =>
    obtain ⟨hs, -⟩ := Bool.and_eq_true_iff.mp hss
    cases s <;> exact ⟨hs, hσ⟩
  | later ended _ ih =>
    obtain ⟨hs, hss⟩ := Bool.and_eq_true_iff.mp hss
    exact ih hss (hσ.topLevel hs (Outcome.state?_of_done ended))

end TopLevel

/-- No `while` is in the statements of what a session is given. -/
def Input.WhileFree (u : Input) : Prop := ∀ ss, u.checked = .ok ss → Stmt.allWhileFree ss

/-- **The states of a session** that is given these inputs, between units and at the moments of a
unit. -/
inductive Reaches (host : Host) (inputs : List Input) : State → Prop
  | between {fuel : Nat} {earlier later : List Input} {reports : List Report} {σ : State}
      (units : inputs = earlier ++ later)
      (ran : runAll (Input.run host fuel) earlier .start = some (reports, σ)) :
    Reaches host inputs σ
  | during {fuel : Nat} {earlier later : List Input} {u : Input} {reports : List Report}
      {σ : State} {ss : List Stmt} {m : Moment} (units : inputs = earlier ++ u :: later)
      (ran : runAll (Input.run host fuel) earlier .start = some (reports, σ))
      (text : u.checked = .ok ss) (moment : Within host fuel ss σ m) :
    Reaches host inputs m.state

section Sessions

variable {host : Host} {u : Input} {us : List Input} {σ σ' : State}

theorem State.whileFree_start : State.start.WhileFree := Arena.binds_withBuiltins fun _ => rfl

theorem State.WhileFree.run (h : σ.WhileFree) (hu : u.WhileFree) {fuel : Nat} {r : Report}
    (hran : u.run host fuel σ = some (r, σ')) : σ'.WhileFree := by
  obtain rfl | ⟨ss, ending, hchecked, hending, rfl⟩ := exists_ending_of_run hran
  · exact h
  · exact State.WhileFree.topLevelFrom (σ := { σ with output := "" }) h (hu ss hchecked) hending

/-- **A unit ends.** -/
theorem exists_run (host : Host) (hu : u.WhileFree) (hσ : σ.WhileFree) :
    ∃ n r σ', ∀ fuel ≥ n, u.run host fuel σ = some (r, σ') := by
  simp only [u.run_eq]
  cases hchecked : u.checked with
  | error es => exact ⟨0, _, _, fun _ _ => rfl⟩
  | ok ss =>
    obtain ⟨n, ending, hending⟩ := exists_topLevelFrom host
      (σ := { σ with output := "" }) (hu ss hchecked) hσ .null
    refine ⟨n, ⟨some ending.last.text, ending.error?.toList.map .eval, ending.state.output⟩,
      ending.state, fun fuel hfuel => ?_⟩
    rw [interpretChecked, interpret, hending fuel hfuel]
    rfl

theorem State.WhileFree.runAll (h : σ.WhileFree) (hus : ∀ u ∈ us, u.WhileFree) {fuel : Nat}
    {reports : List Report} (hran : runAll (Input.run host fuel) us σ = some (reports, σ')) :
    σ'.WhileFree := by
  induction us generalizing σ reports with
  | nil =>
    cases hran
    exact h
  | cons u us ih =>
    obtain ⟨hu, hus⟩ := List.forall_mem_cons.mp hus
    obtain ⟨r, σ₁, rs, hone, hmore, -⟩ := runAll_cons hran
    exact ih (h.run hu hone) hus hmore

/-- **A session ends.** -/
theorem exists_runAll (host : Host) (hus : ∀ u ∈ us, u.WhileFree) (hσ : σ.WhileFree) :
    ∃ n reports σ', ∀ fuel ≥ n, runAll (Input.run host fuel) us σ = some (reports, σ') := by
  induction us generalizing σ with
  | nil => exact ⟨0, _, _, fun _ _ => rfl⟩
  | cons u us ih =>
    obtain ⟨hu, hus⟩ := List.forall_mem_cons.mp hus
    obtain ⟨n, r, σ₁, hone⟩ := exists_run host hu hσ
    obtain ⟨m, reports, σ₂, hmore⟩ := ih hus (hσ.run hu (hone n (Nat.le_refl n)))
    refine ⟨max n m, r :: reports, σ₂, fun fuel hfuel => ?_⟩
    simp only [runAll, hone fuel (le_of_max_le_left hfuel), hmore fuel (le_of_max_le_right hfuel)]
    rfl

theorem Reaches.whileFree (h : Reaches host us σ) (hus : ∀ u ∈ us, u.WhileFree) :
    σ.WhileFree := by
  cases h with
  | between units ran =>
    exact State.whileFree_start.runAll (fun u hu => hus u (by simp [units, hu])) ran
  | during units ran text moment =>
    obtain ⟨m₀, hbegun, hpath⟩ := moment
    have hbefore := State.whileFree_start.runAll (fun u hu => hus u (by simp [units, hu])) ran
    have hunit := hus _ (by simp [units]) _ text
    exact ((hbegun.whileFree hunit hbefore).reaches hpath).state

end Sessions

/-- A computation is total on a state: from some fuel on it ends, and always in one way. -/
def Total {α : Type} (x : Nat → Eval α) (σ : State) : Prop :=
  ∃ n o, o ≠ .outOfFuel ∧ ∀ fuel ≥ n, x fuel σ = o

theorem Ends.total {α : Type} [Carries α] {d : Nat} {x : Nat → Eval α} {σ : State}
    (h : Ends d x σ) : Total x σ := by
  cases h with
  | @done n a σ' run _ _ => exact ⟨n, .done a σ', nofun, run⟩
  | @failed n e σ' run _ => exact ⟨n, .failed e σ', nofun, run⟩

/-- **Only `while` can loop forever.** A session whose inputs have no `while` ends, each unit with a
report; and in each of its states, in whatever environment, all expressions and all statements
without `while` are evaluated to an end, with a value or with an error. -/
theorem runAll_ends (host : Host) {inputs : List Input} (h : ∀ u ∈ inputs, u.WhileFree) :
    (∃ n reports σ, ∀ fuel ≥ n, runAll (Input.run host fuel) inputs .start = some (reports, σ)) ∧
    ∀ σ, Reaches host inputs σ →
      (∀ u ∈ inputs, ∃ n r σ', ∀ fuel ≥ n, u.run host fuel σ = some (r, σ')) ∧
      (∀ env held e, Total (fun n => evaluate host n env held e) σ) ∧
      ∀ env held s, s.whileFree → Total (fun n => execute host n env held s) σ := by
  refine ⟨exists_runAll host h State.whileFree_start, fun σ hreaches => ?_⟩
  have hσ := hreaches.whileFree h
  refine ⟨fun u hu => exists_run host (h u hu) hσ, fun env held e => ?_, fun env held s hs => ?_⟩
  · exact (ends_evaluate (callsEnd host _) e hσ.bounded).total
  · exact (ends_execute (callsEnd host _) s hs hσ.bounded).total

/-- A function that calls itself twice in a loop, and a call of it. -/
def selfCalls : List Stmt :=
  [.function 1 "f" [] [.forLoop 1 "i"
      (.call 1 (.var 1 "range" .toplevel) [.literal 1 (.number ⟨0x4000000000000000⟩)])
      (.expression 1 (.call 1 (.var 1 "f" .toplevel) []))],
    .expression 2 (.call 2 (.var 2 "f" .toplevel) [])]

/-- A function that calls itself without end fails, at some fuel. -/
theorem runAll_ends_selfCalls :
    (∀ u ∈ [Input.statements selfCalls], u.WhileFree) ∧
    Reaches (.recycling fun _ => ⟨0⟩) [.statements selfCalls] .start ∧
    (∃ n reports σ, ∀ fuel ≥ n, runAll (Input.run (.recycling fun _ => ⟨0⟩) fuel)
      [.statements selfCalls] .start = some (reports, σ)) ∧
    Total (fun n => execute (.recycling fun _ => ⟨0⟩) n globals [] (.block 1 selfCalls))
      .start := by
  have hfree : ∀ u ∈ [Input.statements selfCalls], u.WhileFree := by
    rw [List.forall_mem_singleton]
    rintro _ ⟨⟩
    rfl
  have hstart : Reaches (.recycling fun _ => ⟨0⟩) [.statements selfCalls] .start :=
    @Reaches.between _ _ 0 [] _ [] _ rfl rfl
  obtain ⟨hsession, hstates⟩ := runAll_ends (.recycling fun _ => ⟨0⟩) hfree
  exact ⟨hfree, hstart, hsession, (hstates .start hstart).2.2 globals [] _ rfl⟩

end Scriptlet
