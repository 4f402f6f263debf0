import Scriptlet.Session
import Scriptlet.Proofs.Arena.Reachable
import Scriptlet.Proofs.Eval.Agreement

/-!
# Recycling is unobservable

A host that frees frames and uses their slots again runs every session like a host that keeps them
all. The values held by pending evaluations make this true: a collection in the middle of an
expression keeps the frames of a callee, of its arguments and of a left operand.

* `BinaryOp.apply_rename` and so on: operators do not see the slots of functions.
* `Simulated`: **evaluation with a given fuel agrees on both hosts**, for expressions, calls and
  statements; `simulated` proves it by induction on the fuel.
* `Paired.interpret`: so do the statements of a unit at top level.
* `runAll_recycling`: **both hosts report the same**, for all sessions.
-/

namespace Scriptlet

open Arena (globals)

/-! ## Operators -/

section Operators

variable (φ ψ : Slot → Slot)

theorem numberOperands_rename (op : BinaryOp) (l r : Value) :
    numberOperands op (l.rename φ) (r.rename ψ) = numberOperands op l r := by
  cases l <;> cases r <;> rfl

theorem addValues_rename (l r : Value) :
    addValues (l.rename φ) (r.rename ψ) = addValues l r := by
  cases l <;> cases r <;> rfl

theorem BinaryOp.apply_rename (op : BinaryOp) (l r : Value) :
    op.apply (l.rename φ) (r.rename ψ) = op.apply l r := by
  cases op <;>
    simp only [apply, addValues_rename, arithmetic, comparison, numberOperands_rename,
      compareEqual, Value.equals_rename]

theorem UnaryOp.apply_rename (op : UnaryOp) (v : Value) : op.apply (v.rename φ) = op.apply v := by
  cases op <;> cases v <;> rfl

theorem LogicalOp.decidedBy_rename (op : LogicalOp) (v : Value) :
    op.decidedBy (v.rename φ) = op.decidedBy v := by
  cases op <;> simp only [decidedBy, Value.truthy_rename]

theorem rangeBound_rename (v : Value) : rangeBound (v.rename φ) = rangeBound v := by
  cases v <;> rfl

theorem makeRange_rename (args : List Value) :
    makeRange (args.map (Value.rename φ)) = makeRange args := by
  match args with
  | [] => rfl
  | [stop] => simp only [List.map, makeRange, rangeBound_rename]
  | [start, stop] => simp only [List.map, makeRange, rangeBound_rename]
  | _ :: _ :: _ :: _ => simp only [List.map, makeRange, List.length_cons, List.length_map]

end Operators

/-! ### Results are no functions -/

/-- A number, a string, a truth value or null. -/
def Value.Atomic : Value → Prop
  | .number _ | .string _ | .bool _ | .null => True
  | _ => False

theorem Value.Atomic.closure?_eq_none {v : Value} (h : v.Atomic) : v.closure? = none := by
  cases v with
  | function f => cases h
  | _ => rfl

theorem Value.atomic_ofLiteral (l : Literal) : (Value.ofLiteral l).Atomic := by
  cases l <;> trivial

theorem BinaryOp.atomic_of_apply {op : BinaryOp} {l r v : Value} (h : op.apply l r = .ok v) :
    v.Atomic := by
  have hadd : addValues l r = .ok v → v.Atomic := by
    intro h
    unfold addValues at h
    split at h <;> cases h <;> trivial
  have hnumber : ∀ {f : Number × Number → Value}, (∀ p, (f p).Atomic) →
      (numberOperands op l r).map f = .ok v → v.Atomic := by
    intro f hf h
    cases hn : numberOperands op l r with
    | error e =>
      rw [hn] at h
      cases h
    | ok p =>
      rw [hn] at h
      cases h
      exact hf p
  cases op with
  | add => exact hadd h
  | equal | notEqual => cases h; trivial
  | _ => exact hnumber (fun _ => by trivial) h

theorem UnaryOp.atomic_of_apply {op : UnaryOp} {u v : Value} (h : op.apply u = .ok v) :
    v.Atomic := by
  unfold UnaryOp.apply at h
  split at h <;> cases h <;> trivial

theorem BinaryOp.closure?_of_apply {op : BinaryOp} {l r v : Value} (h : op.apply l r = .ok v) :
    v.closure? = none :=
  (atomic_of_apply h).closure?_eq_none

theorem UnaryOp.closure?_of_apply {op : UnaryOp} {u v : Value} (h : op.apply u = .ok v) :
    v.closure? = none :=
  (atomic_of_apply h).closure?_eq_none

theorem closure?_of_makeRange {args : List Value} {v : Value} (h : makeRange args = .ok v) :
    v.closure? = none := by
  match args with
  | [] => cases h
  | [stop] =>
    cases hstop : rangeBound stop <;> simp only [makeRange, hstop] at h <;> cases h
    rfl
  | [start, stop] =>
    cases hstart : rangeBound start <;> cases hstop : rangeBound stop <;>
      simp only [makeRange, hstart, hstop] at h <;> cases h
    rfl
  | _ :: _ :: _ :: _ => cases h

theorem closure?_ofLiteral (l : Literal) : (Value.ofLiteral l).closure? = none :=
  (Value.atomic_ofLiteral l).closure?_eq_none

/-! ## Native functions -/

section Native

variable {φ : Slot → Slot} {held : List Value} {σ τ : State}

/-- What is neither the arena nor a function changes alike on both hosts. -/
theorem Paired.outside (h : Paired φ held σ τ) (f : State → State)
    (harena : ∀ ρ, (f ρ).arena = ρ.arena) (hfunctions : ∀ ρ, (f ρ).functions = ρ.functions)
    (hf : ∀ ρ b, f { ρ with arena := b } = { f ρ with arena := b }) :
    Paired φ held (f σ) (f τ) where
  valid := by
    rw [State.world, harena, hfunctions]
    exact h.valid
  arena := by
    rw [harena, harena]
    exact h.arena
  rest := by
    rw [harena, ← hf, ← h.rest]

theorem Paired.builtin (h : Paired φ held σ τ) (clock : Nat → Number) (line : Nat) (f : Builtin)
    {args : List Value} (hargs : args ⊆ held) :
    Agree φ held σ (f.run (.recycling clock) line args σ)
      (f.run (.keeping clock) line (args.map (Value.rename φ)) τ) := by
  cases f with
  | clock =>
    simp only [Builtin.run, List.length_map]
    refine (agree_check h line _).bind fun _ ψ σ₁ τ₁ _ hp => ?_
    have hread := hp.outside (fun ρ => { ρ with readings := ρ.readings + 1 }) (fun _ => rfl)
      (fun _ => rfl) fun _ _ => rfl
    have hreadings : τ₁.readings = σ₁.readings := by rw [hp.rest]
    refine .done ψ (Keeps.refl _ _ _) (hread.hold_plain rfl) ?_
    exact congrArg (fun n => Value.number (clock n)) hreadings
  | range =>
    simp only [Builtin.run, makeRange_rename]
    exact agree_ofExcept h line fun v hv => closure?_of_makeRange hv
  | print =>
    match args, hargs with
    | [], _ => exact agree_fail h _ _
    | [v], hargs =>
      have hv : v ∈ held := hargs (List.mem_singleton_self v)
      have hprint := h.outside (fun ρ => { ρ with output := ρ.output ++ v.text ++ "\n" })
        (fun _ => rfl) (fun _ => rfl) fun _ _ => rfl
      simp only [List.map, Builtin.run]
      rw [Value.text_rename]
      exact .done φ (Keeps.refl _ _ _) (hprint.hold (State.storable_of_mem hv)) rfl
    | _ :: _ :: _, _ =>
      simp only [Builtin.run, List.map, List.length_cons, List.length_map]
      exact agree_fail h _ _

theorem Paired.counted {α : Type} [Carries α] (h : Paired φ held σ τ) {x y : Eval α}
    (hxy : ∀ σ₁ τ₁, σ₁.arena = σ.arena → Paired φ held σ₁ τ₁ →
      Agree φ held σ₁ (x σ₁) (y τ₁)) :
    Agree φ held σ (Eval.counted x σ) (Eval.counted y τ) := by
  have hrun := hxy { σ with depth := σ.depth + 1 } { τ with depth := τ.depth + 1 } rfl
    (h.outside (fun ρ => { ρ with depth := ρ.depth + 1 }) (fun _ => rfl) (fun _ => rfl)
      fun _ _ => rfl)
  have hleave : ∀ {χ held₂ σ₂ τ₂}, Paired χ held₂ σ₂ τ₂ →
      Paired χ held₂ { σ₂ with depth := σ₂.depth - 1 } { τ₂ with depth := τ₂.depth - 1 } :=
    fun hp => hp.outside (fun ρ => { ρ with depth := ρ.depth - 1 }) (fun _ => rfl) (fun _ => rfl)
      fun _ _ => rfl
  unfold Eval.counted Eval.closing
  generalize x _ = o, y _ = o' at hrun ⊢
  cases hrun with
  | done χ hk hp he => exact .done χ hk (hleave hp) he
  | failed χ hk hp => exact .failed χ hk (hleave hp)
  | outOfFuel => exact .outOfFuel

end Native

/-! ## Evaluation -/

/-- **Evaluation with fuel `n` agrees on both hosts**, in an active environment. The host that keeps
all frames may hold anything. -/
structure Simulated (clock : Nat → Number) (n : Nat) : Prop where
  evaluate {φ : Slot → Slot} {held : List Value} {σ τ : State} {env env' : Slot}
    (h : Paired φ held σ τ) (henv : (σ.arena.frame env).active) (he : φ env = env')
    (held' : List Value) (e : Expr) :
    Agree φ held σ (evaluate (.recycling clock) n env held e σ)
      (Scriptlet.evaluate (.keeping clock) n env' held' e τ)
  evaluateAll {φ : Slot → Slot} {held : List Value} {σ τ : State} {env env' : Slot}
    (h : Paired φ held σ τ) (henv : (σ.arena.frame env).active) (he : φ env = env')
    (held' : List Value) (es : List Expr) :
    Agree φ held σ (evaluateAll (.recycling clock) n env held es σ)
      (Scriptlet.evaluateAll (.keeping clock) n env' held' es τ)
  call {φ : Slot → Slot} {held : List Value} {σ τ : State} (h : Paired φ held σ τ)
    (held' : List Value) (line : Nat) {callee : Value} {args : List Value}
    (hcallee : callee ∈ held) (hargs : args ⊆ held) :
    Agree φ held σ (call (.recycling clock) n held line callee args σ)
      (Scriptlet.call (.keeping clock) n held' line (callee.rename φ)
        (args.map (Value.rename φ)) τ)
  execute {φ : Slot → Slot} {held : List Value} {σ τ : State} {env env' : Slot}
    (h : Paired φ held σ τ) (henv : (σ.arena.frame env).active) (he : φ env = env')
    (held' : List Value) (s : Stmt) :
    Agree φ held σ (execute (.recycling clock) n env held s σ)
      (Scriptlet.execute (.keeping clock) n env' held' s τ)
  executeAll {φ : Slot → Slot} {held : List Value} {σ τ : State} {env env' : Slot}
    (h : Paired φ held σ τ) (henv : (σ.arena.frame env).active) (he : φ env = env')
    (held' : List Value) (ss : List Stmt) :
    Agree φ held σ (executeAll (.recycling clock) n env held ss σ)
      (Scriptlet.executeAll (.keeping clock) n env' held' ss τ)
  iterate {φ : Slot → Slot} {held : List Value} {σ τ : State} {env env' : Slot}
    (h : Paired φ held σ τ) (henv : (σ.arena.frame env).active) (he : φ env = env')
    (held' : List Value) (line : Nat) (name : String) (body : Stmt) (i stop : Int) :
    Agree φ held σ (iterate (.recycling clock) n env held line name body i stop σ)
      (Scriptlet.iterate (.keeping clock) n env' held' line name body i stop τ)

namespace Simulated

variable {clock : Nat → Number} {n : Nat} (ih : Simulated clock n) {φ : Slot → Slot}
  {held : List Value} {σ τ : State} {env env' : Slot}
include ih

theorem evaluate_succ (h : Paired φ held σ τ) (henv : (σ.arena.frame env).active)
    (he : φ env = env') (held' : List Value) (e : Expr) :
    Agree φ held σ (Scriptlet.evaluate (.recycling clock) (n + 1) env held e σ)
      (Scriptlet.evaluate (.keeping clock) (n + 1) env' held' e τ) := by
  have hl := h.live_of_active henv
  cases e with
  | literal line l =>
    simp only [Scriptlet.evaluate]
    exact agree_plain h (closure?_ofLiteral l)
  | var line name binding =>
    simp only [Scriptlet.evaluate]
    exact he ▸ h.readVariable hl line name binding
  | assign line name binding rhs =>
    simp only [Scriptlet.evaluate]
    refine (ih.evaluate h henv he held' rhs).bindHolding fun v ψ σ₁ τ₁ hk hp => ?_
    rw [← he, ← hk.slot henv]
    have hv : v ∈ v :: held := List.mem_cons_self
    refine (hp.writeVariable (hp.live_of_active (hk.isActive henv)) line name binding
      (State.storable_of_mem hv)).bind fun _ χ σ₂ τ₂ hk₂ hp₂ => ?_
    change Agree χ _ σ₂ (Eval.value v σ₂) (Eval.value (v.rename ψ) τ₂)
    rw [← hk₂.rename hv]
    exact agree_value (hp₂.hold (State.storable_of_mem hv))
  | group line inner =>
    simp only [Scriptlet.evaluate]
    exact ih.evaluate h henv he held' inner
  | unary line op operand =>
    simp only [Scriptlet.evaluate]
    refine (ih.evaluate h henv he held' operand).bind fun v ψ σ₁ τ₁ hk hp => ?_
    simp only [Carries.rename, UnaryOp.apply_rename]
    exact agree_ofExcept hp.letGo line fun _ =>
      UnaryOp.closure?_of_apply
  | binary line op left right =>
    simp only [Scriptlet.evaluate]
    refine (ih.evaluate h henv he held' left).bindHolding fun l ψ σ₁ τ₁ hk hp => ?_
    refine (ih.evaluate hp (hk.isActive henv) ((hk.slot henv).trans he) _ right).bind
      fun r χ σ₂ τ₂ hk₂ hp₂ => ?_
    simp only [Carries.rename, BinaryOp.apply_rename]
    exact agree_ofExcept hp₂.letGo line fun _ =>
      BinaryOp.closure?_of_apply
  | logical line op left right =>
    simp only [Scriptlet.evaluate]
    refine (ih.evaluate h henv he held' left).bind fun l ψ σ₁ τ₁ hk hp => ?_
    simp only [Carries.rename, LogicalOp.decidedBy_rename]
    split_ifs
    · exact agree_value hp
    · exact (ih.evaluate hp (hk.isActive henv) ((hk.slot henv).trans he) _ right).mono
        (List.subset_cons_self _ _)
  | call line callee arguments =>
    simp only [Scriptlet.evaluate]
    refine (ih.evaluate h henv he held' callee).bindHolding fun f ψ σ₁ τ₁ hk hp => ?_
    refine (ih.evaluateAll hp (hk.isActive henv) ((hk.slot henv).trans he) _ arguments).bind
      fun args χ σ₂ τ₂ hk₂ hp₂ => ?_
    have hf : f ∈ f :: args ++ held := List.mem_cons_self
    have hargs : args ⊆ f :: args ++ held :=
      List.Subset.trans (List.subset_append_left _ _) (List.subset_cons_self _ _)
    have hheld : f :: held ⊆ f :: args ++ held :=
      List.cons_subset_cons _ (List.subset_append_right _ _)
    have hall : f :: args ++ held ⊆ args ++ f :: held := by
      intro v hv
      simp only [List.cons_append, List.mem_cons, List.mem_append] at hv ⊢
      tauto
    have hcall := ih.call (hp₂.mono hall) (f.rename ψ :: args.map (Value.rename χ) ++ held') line
      hf hargs
    rw [hk₂.rename List.mem_cons_self] at hcall
    exact hcall.mono hheld
  | get line name object =>
    simp only [Scriptlet.evaluate]
    refine (ih.evaluate h henv he held' object).bind fun v ψ σ₁ τ₁ hk hp => ?_
    exact agree_fail hp.letGo _ _
  | set line name object rhs =>
    simp only [Scriptlet.evaluate]
    refine (ih.evaluate h henv he held' object).bind fun v ψ σ₁ τ₁ hk hp => ?_
    refine (ih.evaluate hp.letGo (hk.isActive henv)
      ((hk.slot henv).trans he) held' rhs).bind fun u χ σ₂ τ₂ hk₂ hp₂ => ?_
    exact agree_fail hp₂.letGo _ _

theorem evaluateAll_succ (h : Paired φ held σ τ) (henv : (σ.arena.frame env).active)
    (he : φ env = env') (held' : List Value) (es : List Expr) :
    Agree φ held σ (Scriptlet.evaluateAll (.recycling clock) (n + 1) env held es σ)
      (Scriptlet.evaluateAll (.keeping clock) (n + 1) env' held' es τ) := by
  cases es with
  | nil =>
    simp only [Scriptlet.evaluateAll]
    exact agree_value (a := ([] : List Value)) h
  | cons e es =>
    simp only [Scriptlet.evaluateAll]
    refine (ih.evaluate h henv he held' e).bindHolding fun v ψ σ₁ τ₁ hk hp => ?_
    refine (ih.evaluateAll hp (hk.isActive henv) ((hk.slot henv).trans he) _ es).bind
      fun vs χ σ₂ τ₂ hk₂ hp₂ => ?_
    change Agree χ _ σ₂ (Eval.value (v :: vs) σ₂)
      (Eval.value (v.rename ψ :: vs.map (Value.rename χ)) τ₂)
    rw [← hk₂.rename List.mem_cons_self]
    have hv : v ∈ vs ++ v :: held := List.mem_append_right _ List.mem_cons_self
    exact agree_value (a := v :: vs) (hp₂.hold (State.storable_of_mem hv))

theorem function_body (h : Paired φ held σ τ) (held' : List Value) {s : Slot}
    (hs : (σ.arena.frame s).active) (params : List String) (body : List Stmt) {args : List Value}
    (hargs : args ⊆ held) :
    Agree φ held σ
      ((do
        bindAll s params args
        let flow ← Eval.counted (Scriptlet.executeAll (.recycling clock) n s held body)
        match flow with
        | .next => Eval.value .null
        | .giveBack v => Eval.value v : Eval Value) σ)
      ((do
        bindAll (φ s) params (args.map (Value.rename φ))
        let flow ← Eval.counted (Scriptlet.executeAll (.keeping clock) n (φ s) held' body)
        match flow with
        | .next => Eval.value .null
        | .giveBack v => Eval.value v : Eval Value) τ) := by
  refine (h.bindAll hs params hargs).bind fun _ ψ σ₁ τ₁ hk hp => ?_
  refine (hp.counted fun σ₂ τ₂ ha hp₂ => ?_).bind fun flow χ σ₃ τ₃ _ hp₃ => ?_
  · refine ih.executeAll hp₂ ?_ (hk.slot hs) held' body
    rw [ha]
    exact hk.isActive hs
  · cases flow with
    | next => exact agree_plain hp₃ rfl
    | giveBack v => exact agree_value hp₃

theorem call_succ (h : Paired φ held σ τ) (held' : List Value) (line : Nat) {callee : Value}
    {args : List Value} (hcallee : callee ∈ held) (hargs : args ⊆ held) :
    Agree φ held σ (Scriptlet.call (.recycling clock) (n + 1) held line callee args σ)
      (Scriptlet.call (.keeping clock) (n + 1) held' line (callee.rename φ)
        (args.map (Value.rename φ)) τ) := by
  have hrename : ∀ {ψ : Slot → Slot}, (∀ f, .function f ∈ held → ψ f.env = φ f.env) →
      args.map (Value.rename φ) = args.map (Value.rename ψ) := fun hψ =>
    List.map_congr_left fun v hv => Value.rename_congr fun f hf => (hψ f (hf ▸ hargs hv)).symm
  cases callee with
  | builtin f =>
    simp only [Value.rename, Scriptlet.call, List.length_map]
    refine (agree_check h line _).bind fun _ ψ σ₁ τ₁ hk hp => ?_
    rw [hrename fun _ hf => hk.held hf]
    exact hp.builtin clock line f hargs
  | function f =>
    simp only [Value.rename, Closure.rename, Scriptlet.call, List.length_map]
    refine (agree_check h line _).bind fun _ ψ σ₁ τ₁ hk hp => ?_
    have hdepth : τ₁.depth = σ₁.depth := by rw [hp.rest]
    rw [hdepth]
    split_ifs
    · exact agree_fail hp _ _
    · -- the callee is held, so that its environment survives
      rw [← hk.held hcallee]
      refine hp.inFrame (.inr ⟨f, hcallee, hp.valid.tracked (.inl hcallee), rfl⟩) clock _
        fun s χ σ₂ τ₂ hp₂ hs hheld => ?_
      rw [hrename fun g hg => (hheld g hg).trans (hk.held hg)]
      exact ih.function_body hp₂ held' hs f.params f.body hargs
  | _ =>
    simp only [Value.rename, Scriptlet.call]
    exact agree_fail h _ _

theorem execute_succ (h : Paired φ held σ τ) (henv : (σ.arena.frame env).active)
    (he : φ env = env') (held' : List Value) (s : Stmt) :
    Agree φ held σ (Scriptlet.execute (.recycling clock) (n + 1) env held s σ)
      (Scriptlet.execute (.keeping clock) (n + 1) env' held' s τ) := by
  cases s with
  | block line body =>
    simp only [Scriptlet.execute]
    rw [← he]
    exact h.inFrame (.inl henv) clock _ fun s ψ σ₁ τ₁ hp hs _ =>
      ih.executeAll hp hs rfl held' body
  | expression line e =>
    simp only [Scriptlet.execute]
    refine (ih.evaluate h henv he held' e).bind fun v ψ σ₁ τ₁ hk hp => ?_
    exact agree_value (a := Flow.next) hp.letGo
  | function line name params body =>
    simp only [Scriptlet.execute]
    rw [← he]
    refine (h.declareFunction henv clock held' name params body).bind fun _ ψ σ₁ τ₁ hk hp => ?_
    exact agree_value (a := Flow.next) hp
  | ifThen line condition yes =>
    simp only [Scriptlet.execute]
    refine (ih.evaluate h henv he held' condition).bind fun c ψ σ₁ τ₁ hk hp => ?_
    simp only [Carries.rename, Value.truthy_rename]
    split_ifs
    · exact ih.execute hp.letGo (hk.isActive henv) ((hk.slot henv).trans he) held' yes
    · exact agree_value (a := Flow.next) hp.letGo
  | ifElse line condition yes no =>
    simp only [Scriptlet.execute]
    refine (ih.evaluate h henv he held' condition).bind fun c ψ σ₁ τ₁ hk hp => ?_
    simp only [Carries.rename, Value.truthy_rename]
    exact ih.execute hp.letGo (hk.isActive henv)
      ((hk.slot henv).trans he) held' _
  | giveBack line e =>
    cases e with
    | none =>
      simp only [Scriptlet.execute]
      exact agree_value (a := Flow.giveBack .null) (h.hold_plain rfl)
    | some e =>
      simp only [Scriptlet.execute]
      refine (ih.evaluate h henv he held' e).bind fun v ψ σ₁ τ₁ hk hp => ?_
      exact agree_value (a := Flow.giveBack v) hp
  | declare line name e =>
    cases e with
    | none =>
      simp only [Scriptlet.execute]
      rw [← he]
      refine (h.agree_define (h.live_of_active henv) name (World.storable_plain rfl)).bind
        fun _ ψ σ₁ τ₁ hk hp => ?_
      exact agree_value (a := Flow.next) hp
    | some e =>
      simp only [Scriptlet.execute]
      refine (ih.evaluate h henv he held' e).bindHolding fun v ψ σ₁ τ₁ hk hp => ?_
      rw [← he, ← hk.slot henv]
      refine (hp.agree_define (hp.live_of_active (hk.isActive henv)) name
        (State.storable_of_mem List.mem_cons_self)).bind fun _ χ σ₂ τ₂ hk₂ hp₂ => ?_
      exact agree_value (a := Flow.next) hp₂
  | whileLoop line condition body =>
    simp only [Scriptlet.execute]
    refine (ih.evaluate h henv he held' condition).bind fun c ψ σ₁ τ₁ hk hp => ?_
    have henv₁ := hk.isActive henv
    have he₁ := (hk.slot henv).trans he
    simp only [Carries.rename, Value.truthy_rename]
    split_ifs
    · refine (ih.execute hp.letGo henv₁ he₁ held' body).bind fun flow χ σ₂ τ₂ hk₂ hp₂ => ?_
      cases flow with
      | next => exact ih.execute hp₂ (hk₂.isActive henv₁) ((hk₂.slot henv₁).trans he₁) held' _
      | giveBack v => exact agree_value (a := Flow.giveBack v) hp₂
    · exact agree_value (a := Flow.next) hp.letGo
  | forLoop line name iterable body =>
    simp only [Scriptlet.execute]
    refine (ih.evaluate h henv he held' iterable).bind fun v ψ σ₁ τ₁ hk hp => ?_
    cases v with
    | range start stop =>
      exact ih.iterate hp.letGo (hk.isActive henv) ((hk.slot henv).trans he) held' line name body
        start stop
    | _ => exact agree_fail hp.letGo _ _

theorem executeAll_succ (h : Paired φ held σ τ) (henv : (σ.arena.frame env).active)
    (he : φ env = env') (held' : List Value) (ss : List Stmt) :
    Agree φ held σ (Scriptlet.executeAll (.recycling clock) (n + 1) env held ss σ)
      (Scriptlet.executeAll (.keeping clock) (n + 1) env' held' ss τ) := by
  cases ss with
  | nil =>
    simp only [Scriptlet.executeAll]
    exact agree_value (a := Flow.next) h
  | cons s ss =>
    simp only [Scriptlet.executeAll]
    refine (ih.execute h henv he held' s).bind fun flow ψ σ₁ τ₁ hk hp => ?_
    cases flow with
    | next => exact ih.executeAll hp (hk.isActive henv) ((hk.slot henv).trans he) held' ss
    | giveBack v => exact agree_value (a := Flow.giveBack v) hp

theorem turn (h : Paired φ held σ τ) (henv : (σ.arena.frame env).active) (he : φ env = env')
    (held' : List Value) (name : String) (body : Stmt) (x : Number) :
    Agree φ held σ
      (Eval.inFrame (.recycling clock) env held (fun s => do
        Eval.update (State.define s name (.number x))
        Scriptlet.execute (.recycling clock) n s held body) σ)
      (Eval.inFrame (.keeping clock) env' held' (fun s => do
        Eval.update (State.define s name (.number x))
        Scriptlet.execute (.keeping clock) n s held' body) τ) := by
  rw [← he]
  refine h.inFrame (.inl henv) clock _ fun s ψ σ₁ τ₁ hp hs _ => ?_
  refine (hp.agree_define (hp.live_of_active hs) name (World.storable_plain rfl)).bind
    fun _ χ σ₂ τ₂ hk₂ hp₂ => ?_
  exact ih.execute hp₂ (hk₂.isActive hs) (hk₂.slot hs) held' body

theorem iterate_succ (h : Paired φ held σ τ) (henv : (σ.arena.frame env).active)
    (he : φ env = env') (held' : List Value) (line : Nat) (name : String) (body : Stmt)
    (i stop : Int) :
    Agree φ held σ (Scriptlet.iterate (.recycling clock) (n + 1) env held line name body i stop σ)
      (Scriptlet.iterate (.keeping clock) (n + 1) env' held' line name body i stop τ) := by
  simp only [Scriptlet.iterate]
  split_ifs
  · cases Number.ofInt? i with
    | none => exact agree_fail h _ _
    | some x =>
      refine (ih.turn h henv he held' name body x).bind fun flow ψ σ₁ τ₁ hk hp => ?_
      cases flow with
      | next =>
        exact ih.iterate hp (hk.isActive henv) ((hk.slot henv).trans he) held' line name body _ stop
      | giveBack v => exact agree_value (a := Flow.giveBack v) hp
  · exact agree_value (a := Flow.next) h

end Simulated

/-- **Evaluation agrees on both hosts, whatever the fuel.** -/
theorem simulated (clock : Nat → Number) (n : Nat) : Simulated clock n := by
  induction n with
  | zero =>
    constructor <;> intros <;>
      simp only [evaluate, evaluateAll, call, execute, executeAll, iterate] <;> exact .outOfFuel
  | succ n ih =>
    exact ⟨ih.evaluate_succ, ih.evaluateAll_succ, ih.call_succ, ih.execute_succ,
      ih.executeAll_succ, ih.iterate_succ⟩

/-! ## Sessions -/

section Sessions

variable {φ : Slot → Slot} {held : List Value} {σ τ : State} (clock : Nat → Number) (fuel : Nat)

theorem Paired.topLevel (h : Paired φ held σ τ) (held' : List Value) (s : Stmt) :
    Agree φ held σ (topLevel (.recycling clock) fuel held s σ)
      (Scriptlet.topLevel (.keeping clock) fuel held' s τ) := by
  have hexecute : Agree φ held σ
      ((do
        let _ ← execute (.recycling clock) fuel globals held s
        return .null : Eval Value) σ)
      ((do
        let _ ← execute (.keeping clock) fuel globals held' s
        return .null : Eval Value) τ) := by
    refine ((simulated clock fuel).execute h h.valid.globals_active h.arena.globals held' s).bind
      fun _ ψ σ₁ τ₁ _ hp => ?_
    exact agree_plain hp.letGo rfl
  cases s with
  | expression line e =>
    exact (simulated clock fuel).evaluate h h.valid.globals_active h.arena.globals held' e
  | _ => exact hexecute

/-- Two endings of a unit with the same text and error, from which a session goes on. -/
inductive EndsAlike : Option Ending → Option Ending → Prop
  | ended {e e' : Ending} (ψ : Slot → Slot) (text : e'.last.text = e.last.text)
      (error : e'.error? = e.error?) (paired : Paired ψ [] e.state e'.state) :
    EndsAlike (some e) (some e')
  | outOfFuel : EndsAlike none none

theorem Paired.topLevelFrom {last : Value} (h : Paired φ [last] σ τ) (ss : List Stmt) :
    EndsAlike (topLevelFrom (.recycling clock) fuel last ss σ)
      (Scriptlet.topLevelFrom (.keeping clock) fuel (last.rename φ) ss τ) := by
  induction ss generalizing φ last σ τ with
  | nil => exact .ended φ (Value.text_rename φ last) rfl (h.mono (List.nil_subset _))
  | cons s ss ih =>
    have hs := h.topLevel clock fuel [last.rename φ] s
    simp only [Scriptlet.topLevelFrom]
    generalize Scriptlet.topLevel _ _ _ s σ = o, Scriptlet.topLevel _ _ _ s τ = o' at hs ⊢
    cases hs with
    | done ψ _ hp he =>
      subst he
      exact ih (hp.mono (List.subset_append_left _ _))
    | failed ψ _ hp =>
      exact .ended ψ (Value.text_rename φ last) rfl (hp.mono (List.nil_subset _))
    | outOfFuel => exact .outOfFuel

/-- Two runs of a unit with the same report, from which a session goes on. -/
inductive ReportsAlike : Option (Report × State) → Option (Report × State) → Prop
  | reported {r : Report} {σ τ : State} (ψ : Slot → Slot) (paired : Paired ψ [] σ τ) :
    ReportsAlike (some (r, σ)) (some (r, τ))
  | outOfFuel : ReportsAlike none none

theorem Paired.interpret (h : Paired φ [] σ τ) (ss : List Stmt) :
    ReportsAlike (interpret (.recycling clock) fuel ss σ)
      (Scriptlet.interpret (.keeping clock) fuel ss τ) := by
  have hstart := h.outside (fun ρ => { ρ with output := "" }) (fun _ => rfl) (fun _ => rfl)
    fun _ _ => rfl
  have hrun := (hstart.hold_plain (v := .null) rfl).topLevelFrom clock fuel ss
  change EndsAlike _ (Scriptlet.topLevelFrom _ _ .null _ _) at hrun
  unfold Scriptlet.interpret
  generalize Scriptlet.topLevelFrom _ _ _ _ { σ with output := "" } = e,
    Scriptlet.topLevelFrom _ _ _ _ { τ with output := "" } = e' at hrun ⊢
  cases hrun with
  | ended ψ htext herror hp =>
    simp only [Option.map_some, htext, herror]
    rw [hp.rest]
    exact .reported ψ (hp.rest ▸ hp)
  | outOfFuel => exact .outOfFuel

end Sessions

/-- What a session is given: a source text, or a tree with any bindings. -/
inductive Input where
  | source (text : String)
  | statements (ss : List Stmt)

/-- Runs what a session is given. -/
def Input.run (host : Host) (fuel : Nat) : Input → State → Option (Report × State)
  | .source text => Scriptlet.run host fuel text
  | .statements ss => interpret host fuel ss

theorem Paired.input {φ : Slot → Slot} {σ τ : State} (h : Paired φ [] σ τ)
    (clock : Nat → Number) (fuel : Nat) (u : Input) :
    ReportsAlike (u.run (.recycling clock) fuel σ) (u.run (.keeping clock) fuel τ) := by
  cases u with
  | statements ss => exact h.interpret clock fuel ss
  | source text =>
    simp only [Input.run, Scriptlet.run, interpretChecked]
    cases program text with
    | error es => exact .reported φ h
    | ok ss => exact h.interpret clock fuel ss

theorem Paired.start : Paired id [] .start .start where
  valid := by
    have hdefine : ∀ (fs : List Builtin) (a : Arena), World.Valid ⟨a, [], 0⟩ →
        World.Valid ⟨fs.foldl (fun a f => a.define globals f.name (.builtin f)) a, [], 0⟩ := by
      intro fs
      induction fs with
      | nil => exact fun _ ha => ha
      | cons f fs ih =>
        exact fun a ha => ih _ (ha.define ha.globals_live f.name (World.storable_plain rfl))
    exact hdefine Builtin.all .empty World.start_valid
  arena := Arena.Mirrors.refl _
  rest := rfl

/-- **Recycling frames is unobservable**: with the same readings of the clock, every session that
frees frames and uses their slots again has the results, errors and output of the session that keeps
all frames. -/
theorem runAll_recycling (clock : Nat → Number) (fuel : Nat) (inputs : List Input) :
    (runAll (Input.run (.recycling clock) fuel) inputs .start).map Prod.fst =
      (runAll (Input.run (.keeping clock) fuel) inputs .start).map Prod.fst := by
  have hrun : ∀ {φ σ τ}, Paired φ [] σ τ →
      (runAll (Input.run (.recycling clock) fuel) inputs σ).map Prod.fst =
        (runAll (Input.run (.keeping clock) fuel) inputs τ).map Prod.fst := by
    induction inputs with
    | nil => exact fun _ => rfl
    | cons u us ih =>
      intro φ σ τ h
      have hu := h.input clock fuel u
      simp only [runAll]
      generalize u.run (.recycling clock) fuel σ = o, u.run (.keeping clock) fuel τ = o' at hu ⊢
      cases hu with
      | @reported r _ _ ψ hp =>
        simpa [Function.comp_def] using congrArg (Option.map (List.cons r)) (ih hp)
      | outOfFuel => rfl
  exact hrun Paired.start

end Scriptlet
