import Scriptlet.Proofs.Eval.Recycling
import Scriptlet.Proofs.Eval.Running

/-!
# Evaluation follows scopes

Evaluation of scoped trees keeps the frames laid out as the scopes are: blocks, calls and turns of
loops open a frame where scope analysis opened a scope, and statements declare in their frame what
they declare in their scope. In ordered programs the same evaluation without bindings goes the same
way.

* `Followed`: **evaluation with a given fuel follows scopes**: expressions, calls and statements.
* `followed`: it does whatever the fuel, by induction on it.
-/

namespace Scriptlet

open Arena (globals Lays Layered Grows withLabel)

/-! ## Native functions -/

theorem runs_builtin {ordered : Prop} {labels : Slot → List String} {τ : State} {s : Slot}
    {xs : List String} (h : Layered ordered labels τ.arena) (clock : Nat → Number) (line : Nat)
    (f : Builtin) {args : List Value} (hargs : AllSoundIn ordered labels τ args) :
    Runs ordered labels τ s xs (SoundIn ordered) (f.run (.keeping clock) line args τ)
      (f.run (.keeping clock) line (args.map Value.unbound) τ.unbound) := by
  cases f with
  | clock =>
    simp only [Builtin.run, List.length_map]
    refine (runs_check h line _).bind fun labels' τ' _ after _ => ?_
    exact ⟨.done ⟨after.layered, .refl ..⟩ (Value.sound_of_closure? rfl), fun _ => rfl⟩
  | range =>
    simp only [Builtin.run, makeRange_unbound]
    exact runs_ofExcept h line fun v hv => closure?_of_makeRange hv
  | print =>
    rcases args with _ | ⟨v, _ | ⟨w, args⟩⟩
    · exact runs_fail h _ _
    · simp only [List.map, Builtin.run, Value.text_unbound]
      exact ⟨.done ⟨h, .refl ..⟩ (hargs v List.mem_cons_self), fun _ => rfl⟩
    · simp only [Builtin.run, List.map, List.length_cons, List.length_map]
      exact runs_fail h _ _

/-! ## Evaluation -/

/-- **Evaluation with fuel `n` follows scopes.** -/
structure Followed (ordered : Prop) (clock : Nat → Number) (n : Nat) : Prop where
  evaluate {labels : Slot → List String} {τ : State} {env : Slot} {Γ : Layers}
    {pending : Option String} {e : Expr} {t : Slot} {xs : List String}
    (h : Layered ordered labels τ.arena) (henv : Lays labels τ.arena env Γ)
    (he : e.Scoped ordered Γ pending) (held held' : List Value) :
    Runs ordered labels τ t xs (SoundIn ordered)
      (evaluate (.keeping clock) n env held e τ)
      (Scriptlet.evaluate (.keeping clock) n env held' e.unbound τ.unbound)
  evaluateAll {labels : Slot → List String} {τ : State} {env : Slot} {Γ : Layers}
    {pending : Option String} {es : List Expr} {t : Slot} {xs : List String}
    (h : Layered ordered labels τ.arena) (henv : Lays labels τ.arena env Γ)
    (hes : Expr.AllScoped ordered Γ pending es) (held held' : List Value) :
    Runs ordered labels τ t xs (AllSoundIn ordered)
      (evaluateAll (.keeping clock) n env held es τ)
      (Scriptlet.evaluateAll (.keeping clock) n env held' (Expr.allUnbound es) τ.unbound)
  call {labels : Slot → List String} {τ : State} {callee : Value} {args : List Value} {t : Slot}
    {xs : List String} (h : Layered ordered labels τ.arena)
    (hcallee : callee.Sound ordered labels τ.arena) (hargs : AllSoundIn ordered labels τ args)
    (held held' : List Value) (line : Nat) :
    Runs ordered labels τ t xs (SoundIn ordered)
      (call (.keeping clock) n held line callee args τ)
      (Scriptlet.call (.keeping clock) n held' line callee.unbound (args.map Value.unbound)
        τ.unbound)
  execute {labels : Slot → List String} {τ : State} {env : Slot} {Γ : Layers} {s : Stmt}
    (h : Layered ordered labels τ.arena) (henv : Lays labels τ.arena env Γ)
    (hs : s.Scoped ordered Γ) (held held' : List Value) :
    Runs ordered labels τ env s.declared (FlowsIn ordered env s.declared)
      (execute (.keeping clock) n env held s τ)
      (Scriptlet.execute (.keeping clock) n env held' s.unbound τ.unbound)
  executeAll {labels : Slot → List String} {τ : State} {env : Slot} {Γ : Layers} {ss : List Stmt}
    (h : Layered ordered labels τ.arena) (henv : Lays labels τ.arena env Γ)
    (hss : Stmt.AllScoped ordered Γ ss) (held held' : List Value) :
    Runs ordered labels τ env (Stmt.allDeclared ss) (FlowsIn ordered env (Stmt.allDeclared ss))
      (executeAll (.keeping clock) n env held ss τ)
      (Scriptlet.executeAll (.keeping clock) n env held' (Stmt.allUnbound ss) τ.unbound)
  iterate {labels : Slot → List String} {τ : State} {env : Slot} {Γ : Layers} {name : String}
    {body : Stmt} (h : Layered ordered labels τ.arena) (henv : Lays labels τ.arena env Γ)
    (hplain : body.isDeclaration = false) (hbody : body.Scoped ordered (.ofLoop name :: Γ))
    (held held' : List Value) (line : Nat) (i stop : Int) :
    Runs ordered labels τ env [] (FlowsIn ordered env [])
      (iterate (.keeping clock) n env held line name body i stop τ)
      (Scriptlet.iterate (.keeping clock) n env held' line name body.unbound i stop τ.unbound)

namespace Followed

variable {ordered : Prop} {clock : Nat → Number} {n : Nat} (ih : Followed ordered clock n)
  {labels : Slot → List String} {τ : State} {env : Slot} {Γ : Layers}
include ih

theorem evaluate_succ {pending : Option String} {e : Expr} {t : Slot} {xs : List String}
    (h : Layered ordered labels τ.arena) (henv : Lays labels τ.arena env Γ)
    (he : e.Scoped ordered Γ pending) (held held' : List Value) :
    Runs ordered labels τ t xs (SoundIn ordered)
      (Scriptlet.evaluate (.keeping clock) (n + 1) env held e τ)
      (Scriptlet.evaluate (.keeping clock) (n + 1) env held' e.unbound τ.unbound) := by
  cases e with
  | literal line l =>
    simp only [Scriptlet.evaluate, Expr.unbound]
    have hplain := closure?_ofLiteral l
    refine ⟨.done (.refl h t xs) (Value.sound_of_closure? hplain), fun _ => ?_⟩
    exact congrArg (Outcome.done · τ.unbound) (Value.unbound_of_closure? hplain).symm
  | var line name binding =>
    simp only [Scriptlet.evaluate, Expr.unbound]
    obtain ⟨-, rfl, hsettled⟩ := he
    exact runs_readVariable h henv line hsettled
  | assign line name binding rhs =>
    simp only [Scriptlet.evaluate, Expr.unbound]
    obtain ⟨hrhs, rfl, hsettled⟩ := he
    refine (ih.evaluate h henv hrhs held held').bind fun labels₁ τ₁ v after hv => ?_
    refine (runs_writeVariable after.layered (henv.grow after.grows) line hsettled hv).bind
      fun labels₂ τ₂ _ after₂ _ => ?_
    exact runs_value after₂.layered (hv.grow after₂.grows)
  | group line inner =>
    simp only [Scriptlet.evaluate, Expr.unbound]
    exact ih.evaluate (e := inner) h henv he held held'
  | unary line op operand =>
    simp only [Scriptlet.evaluate, Expr.unbound]
    refine (ih.evaluate (e := operand) h henv he held held').bind fun labels₁ τ₁ v after hv => ?_
    simp only [Erasable.erase, UnaryOp.apply_unbound]
    exact runs_ofExcept after.layered line fun _ => UnaryOp.closure?_of_apply
  | binary line op left right =>
    simp only [Scriptlet.evaluate, Expr.unbound]
    refine (ih.evaluate h henv he.1 held held').bind fun labels₁ τ₁ l after hl => ?_
    refine (ih.evaluate after.layered (henv.grow after.grows) he.2 _ _).bind
      fun labels₂ τ₂ r after₂ hr => ?_
    simp only [Erasable.erase, BinaryOp.apply_unbound]
    exact runs_ofExcept after₂.layered line fun _ => BinaryOp.closure?_of_apply
  | logical line op left right =>
    simp only [Scriptlet.evaluate, Expr.unbound]
    refine (ih.evaluate h henv he.1 held held').bind fun labels₁ τ₁ l after hl => ?_
    simp only [Erasable.erase, LogicalOp.decidedBy_unbound]
    split_ifs
    · exact runs_value after.layered hl
    · exact ih.evaluate after.layered (henv.grow after.grows) he.2 _ _
  | call line callee arguments =>
    simp only [Scriptlet.evaluate, Expr.unbound]
    refine (ih.evaluate h henv he.1 held held').bind fun labels₁ τ₁ f after hf => ?_
    refine (ih.evaluateAll after.layered (henv.grow after.grows) he.2 _ _).bind
      fun labels₂ τ₂ args after₂ hargs => ?_
    exact ih.call after₂.layered (hf.grow after₂.grows) hargs _ _ line
  | get line name object =>
    simp only [Scriptlet.evaluate, Expr.unbound]
    refine (ih.evaluate (e := object) h henv he held held').bind fun labels₁ τ₁ v after hv => ?_
    exact runs_fail after.layered _ _
  | set line name object rhs =>
    simp only [Scriptlet.evaluate, Expr.unbound]
    refine (ih.evaluate h henv he.1 held held').bind fun labels₁ τ₁ v after hv => ?_
    refine (ih.evaluate after.layered (henv.grow after.grows) he.2 held held').bind
      fun labels₂ τ₂ u after₂ hu => ?_
    exact runs_fail after₂.layered _ _

theorem evaluateAll_succ {pending : Option String} {es : List Expr} {t : Slot} {xs : List String}
    (h : Layered ordered labels τ.arena) (henv : Lays labels τ.arena env Γ)
    (hes : Expr.AllScoped ordered Γ pending es) (held held' : List Value) :
    Runs ordered labels τ t xs (AllSoundIn ordered)
      (Scriptlet.evaluateAll (.keeping clock) (n + 1) env held es τ)
      (Scriptlet.evaluateAll (.keeping clock) (n + 1) env held' (Expr.allUnbound es)
        τ.unbound) := by
  cases es with
  | nil =>
    simp only [Scriptlet.evaluateAll, Expr.allUnbound]
    exact runs_value (a := ([] : List Value)) h (List.forall_mem_nil _)
  | cons e es =>
    simp only [Scriptlet.evaluateAll, Expr.allUnbound]
    refine (ih.evaluate h henv hes.1 held held').bind fun labels₁ τ₁ v after hv => ?_
    refine (ih.evaluateAll after.layered (henv.grow after.grows) hes.2 _ _).bind
      fun labels₂ τ₂ vs after₂ hvs => ?_
    exact runs_value (a := v :: vs) after₂.layered
      (List.forall_mem_cons.mpr ⟨hv.grow after₂.grows, hvs⟩)

theorem function_body (h : Layered ordered labels τ.arena) {f : Closure}
    (hf : f.Sound ordered labels τ.arena) {args : List Value}
    (hargs : AllSoundIn ordered labels τ args) (hlength : f.params.length = args.length)
    (held held' : List Value) {t : Slot} {xs : List String} :
    Runs ordered labels τ t xs (SoundIn ordered)
      (Eval.inFrame (.keeping clock) f.env held (fun s => do
        bindAll s f.params args
        let flow ← Eval.counted (Scriptlet.executeAll (.keeping clock) n s held f.body)
        match flow with
        | .next => Eval.value .null
        | .giveBack v => Eval.value v) τ)
      (Eval.inFrame (.keeping clock) f.env held' (fun s => do
        bindAll s f.params (args.map Value.unbound)
        let flow ← Eval.counted
          (Scriptlet.executeAll (.keeping clock) n s held' (Stmt.allUnbound f.body))
        match flow with
        | .next => Eval.value .null
        | .giveBack v => Eval.value v) τ.unbound) := by
  obtain ⟨-, Γ, henv, hbody⟩ := hf
  let names := f.params ++ Stmt.allDeclared f.body
  have hopened : Layered ordered (withLabel labels τ.arena names) (τ.opened f.env).arena :=
    h.append f.env names
  have hlays := henv.append h.nonempty names
  refine Runs.inFrame clock held held' names rfl ?_ fun _ _ _ hv => hv
  -- all parameters are bound, and then the body runs in their scope
  refine ((runs_bindAll hopened (hlays.lt_size hopened.nonempty) hlength ?_ ?_).imp
    (List.subset_append_left _ _) fun _ _ _ _ hbound => hbound).bind
    fun labels₁ τ₁ _ after hbound => ?_
  · rw [Arena.withLabel_self]
    exact fun x hx => List.mem_append_left _ hx
  · exact fun v hv => (hargs v hv).grow (Arena.grows_append labels τ.arena f.env names t)
  have hlays₁ := (hlays.grow after.grows).bind f.params.reverse
    fun x hx => hbound x (List.mem_reverse.mp hx)
  rw [Layers.bind, List.append_nil] at hlays₁
  have hexecute := (ih.executeAll (τ := { τ₁ with depth := τ₁.depth + 1 }) after.layered hlays₁
    hbody held held').imp (List.subset_append_right f.params _) fun _ _ _ _ hflow => hflow
  refine (hexecute.counted fun _ _ _ flow hflow => ?_).bind fun labels₂ τ₂ flow after₂ hflow => ?_
  · cases flow <;> exact hflow
  cases flow with
  | next => exact runs_value after₂.layered (Value.sound_of_closure? rfl)
  | giveBack v => exact runs_value after₂.layered hflow

theorem call_succ {callee : Value} {args : List Value} {t : Slot} {xs : List String}
    (h : Layered ordered labels τ.arena) (hcallee : callee.Sound ordered labels τ.arena)
    (hargs : AllSoundIn ordered labels τ args) (held held' : List Value) (line : Nat) :
    Runs ordered labels τ t xs (SoundIn ordered)
      (Scriptlet.call (.keeping clock) (n + 1) held line callee args τ)
      (Scriptlet.call (.keeping clock) (n + 1) held' line callee.unbound (args.map Value.unbound)
        τ.unbound) := by
  cases callee with
  | builtin f =>
    simp only [Scriptlet.call, Value.unbound, List.length_map]
    refine (runs_check h line _).bind fun labels₁ τ₁ _ after _ => ?_
    exact runs_builtin after.layered clock line f fun v hv => (hargs v hv).grow after.grows
  | function f =>
    simp only [Scriptlet.call, Value.unbound, Closure.unbound, List.length_map]
    refine (runs_check h line _).bind fun labels₁ τ₁ _ after hcheck => ?_
    have hlength : f.params.length = args.length := Arity.eq_of_check hcheck.2
    have hdepth : τ₁.unbound.depth = τ₁.depth := rfl
    simp only [hdepth]
    split_ifs
    · exact runs_fail after.layered _ _
    · exact ih.function_body after.layered ((hcallee f rfl).grow after.grows)
        (fun v hv => (hargs v hv).grow after.grows) hlength held held'
  | _ =>
    simp only [Scriptlet.call, Value.unbound]
    exact runs_fail h _ _

theorem execute_plain {s : Stmt} (h : Layered ordered labels τ.arena)
    (henv : Lays labels τ.arena env Γ) (hplain : s.isDeclaration = false) (hs : s.Scoped ordered Γ)
    (held held' : List Value) :
    Runs ordered labels τ env [] (FlowsIn ordered env [])
      (Scriptlet.execute (.keeping clock) n env held s τ)
      (Scriptlet.execute (.keeping clock) n env held' s.unbound τ.unbound) := by
  have hrun := ih.execute h henv hs held held'
  rwa [Stmt.declared_of_isDeclaration hplain] at hrun

theorem execute_succ {s : Stmt} (h : Layered ordered labels τ.arena)
    (henv : Lays labels τ.arena env Γ) (hs : s.Scoped ordered Γ) (held held' : List Value) :
    Runs ordered labels τ env s.declared (FlowsIn ordered env s.declared)
      (Scriptlet.execute (.keeping clock) (n + 1) env held s τ)
      (Scriptlet.execute (.keeping clock) (n + 1) env held' s.unbound τ.unbound) := by
  cases s with
  | block line body =>
    simp only [Scriptlet.execute, Stmt.unbound, Stmt.declared]
    refine Runs.inFrame clock held held' (Stmt.allDeclared body) rfl
      (ih.executeAll (h.append env _) (henv.append h.nonempty _) hs held held')
      fun _ _ flow hflow => ?_
    cases flow with
    | next => exact List.forall_mem_nil _
    | giveBack v => exact hflow
  | expression line e =>
    simp only [Scriptlet.execute, Stmt.unbound]
    refine (ih.evaluate (e := e) h henv hs held held').bind fun labels₁ τ₁ v after _ => ?_
    exact runs_value (a := Flow.next) after.layered (List.forall_mem_nil _)
  | function line name params body =>
    simp only [Scriptlet.execute, Stmt.unbound]
    obtain ⟨hfresh, hparams, hbody⟩ := hs
    refine (runs_declareFunction h clock held held' henv hfresh hparams hbody).bind
      fun labels₁ τ₁ _ after hbound => ?_
    exact runs_value (a := Flow.next) after.layered (List.forall_mem_singleton.mpr hbound)
  | ifThen line condition yes =>
    simp only [Scriptlet.execute, Stmt.unbound]
    obtain ⟨hcondition, hplain, hyes⟩ := hs
    refine (ih.evaluate h henv hcondition held held').bind fun labels₁ τ₁ c after _ => ?_
    simp only [Erasable.erase, Value.truthy_unbound]
    split_ifs
    · exact ih.execute_plain after.layered (henv.grow after.grows) hplain hyes held held'
    · exact runs_value (a := Flow.next) after.layered (List.forall_mem_nil _)
  | ifElse line condition yes no =>
    simp only [Scriptlet.execute, Stmt.unbound]
    obtain ⟨hcondition, hyes, hno⟩ := hs
    refine (ih.evaluate h henv hcondition held held').bind fun labels₁ τ₁ c after _ => ?_
    simp only [Erasable.erase, Value.truthy_unbound]
    split_ifs
    · exact ih.execute_plain after.layered (henv.grow after.grows) hyes.1 hyes.2 held held'
    · exact ih.execute_plain after.layered (henv.grow after.grows) hno.1 hno.2 held held'
  | giveBack line e =>
    cases e with
    | none =>
      simp only [Scriptlet.execute, Stmt.unbound, Option.map_none]
      exact runs_value (a := Flow.giveBack .null) h (Value.sound_of_closure? rfl)
    | some e =>
      simp only [Scriptlet.execute, Stmt.unbound, Option.map_some]
      refine (ih.evaluate (e := e) h henv hs held held').bind fun labels₁ τ₁ v after hv => ?_
      exact runs_value (a := Flow.giveBack v) after.layered hv
  | declare line name e =>
    cases e with
    | none =>
      simp only [Scriptlet.execute, Stmt.unbound, Option.map_none]
      refine (runs_define (v := .null) h (henv.lt_size h.nonempty) (henv.label_of_fresh hs)
        (Value.sound_of_closure? rfl)).bind fun labels₁ τ₁ _ after hbound => ?_
      exact runs_value (a := Flow.next) after.layered (List.forall_mem_singleton.mpr hbound)
    | some e =>
      simp only [Scriptlet.execute, Stmt.unbound, Option.map_some]
      obtain ⟨hfresh, he⟩ := hs
      refine (ih.evaluate h henv he held held').bind fun labels₁ τ₁ v after hv => ?_
      have henv₁ := henv.grow after.grows
      refine (runs_define after.layered (henv₁.lt_size after.layered.nonempty)
        (henv₁.label_of_fresh hfresh) hv).bind fun labels₂ τ₂ _ after₂ hbound => ?_
      exact runs_value (a := Flow.next) after₂.layered (List.forall_mem_singleton.mpr hbound)
  | whileLoop line condition body =>
    simp only [Scriptlet.execute, Stmt.unbound]
    obtain ⟨hcondition, hplain, hbody⟩ := hs
    refine (ih.evaluate h henv hcondition held held').bind fun labels₁ τ₁ c after _ => ?_
    have henv₁ := henv.grow after.grows
    simp only [Erasable.erase, Value.truthy_unbound]
    split_ifs
    · refine (ih.execute_plain after.layered henv₁ hplain hbody held held').bind
        fun labels₂ τ₂ flow after₂ hflow => ?_
      cases flow with
      | next =>
        exact ih.execute (s := .whileLoop line condition body) after₂.layered
          (henv₁.grow after₂.grows) ⟨hcondition, hplain, hbody⟩ held held'
      | giveBack v => exact runs_value (a := Flow.giveBack v) after₂.layered hflow
    · exact runs_value (a := Flow.next) after.layered (List.forall_mem_nil _)
  | forLoop line name iterable body =>
    simp only [Scriptlet.execute, Stmt.unbound]
    obtain ⟨hiterable, hplain, hbody⟩ := hs
    refine (ih.evaluate h henv hiterable held held').bind fun labels₁ τ₁ v after _ => ?_
    cases v with
    | range start stop =>
      exact ih.iterate after.layered (henv.grow after.grows) hplain hbody held held' line start stop
    | _ => exact runs_fail after.layered _ _

theorem executeAll_succ {ss : List Stmt} (h : Layered ordered labels τ.arena)
    (henv : Lays labels τ.arena env Γ) (hss : Stmt.AllScoped ordered Γ ss)
    (held held' : List Value) :
    Runs ordered labels τ env (Stmt.allDeclared ss) (FlowsIn ordered env (Stmt.allDeclared ss))
      (Scriptlet.executeAll (.keeping clock) (n + 1) env held ss τ)
      (Scriptlet.executeAll (.keeping clock) (n + 1) env held' (Stmt.allUnbound ss) τ.unbound) := by
  cases ss with
  | nil =>
    simp only [Scriptlet.executeAll, Stmt.allUnbound]
    exact runs_value (a := Flow.next) h (List.forall_mem_nil _)
  | cons s ss =>
    simp only [Scriptlet.executeAll, Stmt.allUnbound, Stmt.allDeclared_cons]
    refine ((ih.execute h henv hss.1 held held').imp (List.subset_append_left _ _)
      fun _ _ _ _ hflow => hflow).bind fun labels₁ τ₁ flow after hflow => ?_
    cases flow with
    | next =>
      -- what the first statement has declared stays bound during the others
      have henv₁ := (henv.grow after.grows).bind _ hflow
      refine (ih.executeAll after.layered henv₁ hss.2 held held').imp
        (List.subset_append_right _ _) fun labels₂ τ₂ flow after₂ hflow₂ => ?_
      cases flow with
      | next =>
        exact List.forall_mem_append.mpr ⟨fun x hx => after₂.grows.kept (hflow x hx), hflow₂⟩
      | giveBack v => exact hflow₂
    | giveBack v => exact runs_value (a := Flow.giveBack v) after.layered hflow

theorem turn (h : Layered ordered labels τ.arena) (henv : Lays labels τ.arena env Γ) {name : String}
    {body : Stmt} (hplain : body.isDeclaration = false)
    (hbody : body.Scoped ordered (.ofLoop name :: Γ)) (held held' : List Value) (x : Number) :
    Runs ordered labels τ env [] (FlowsIn ordered env [])
      (Eval.inFrame (.keeping clock) env held (fun s => do
        Eval.update (State.define s name (.number x))
        Scriptlet.execute (.keeping clock) n s held body) τ)
      (Eval.inFrame (.keeping clock) env held' (fun s => do
        Eval.update (State.define s name (.number x))
        Scriptlet.execute (.keeping clock) n s held' body.unbound) τ.unbound) := by
  have hopened := h.append env [name]
  have hlays := henv.append h.nonempty [name]
  refine Runs.inFrame clock held held' [name] (Q := FlowsIn ordered τ.arena.frames.size []) rfl ?_
    fun _ _ flow hflow => ?_
  · refine (runs_define (v := .number x) hopened (hlays.lt_size hopened.nonempty) (fun _ => ?_)
      (Value.sound_of_closure? rfl)).bind fun labels₁ τ₁ _ after hbound => ?_
    · rw [Arena.withLabel_self]
      exact List.mem_singleton_self name
    have hlays₁ := (hlays.grow after.grows).bind [name] (List.forall_mem_singleton.mpr hbound)
    exact (ih.execute_plain after.layered hlays₁ hplain hbody held held').imp (List.nil_subset _)
      fun _ _ _ _ hflow => hflow
  · cases flow with
    | next => exact List.forall_mem_nil _
    | giveBack v => exact hflow

theorem iterate_succ {name : String} {body : Stmt} (h : Layered ordered labels τ.arena)
    (henv : Lays labels τ.arena env Γ) (hplain : body.isDeclaration = false)
    (hbody : body.Scoped ordered (.ofLoop name :: Γ)) (held held' : List Value) (line : Nat)
    (i stop : Int) :
    Runs ordered labels τ env [] (FlowsIn ordered env [])
      (Scriptlet.iterate (.keeping clock) (n + 1) env held line name body i stop τ)
      (Scriptlet.iterate (.keeping clock) (n + 1) env held' line name body.unbound i stop
        τ.unbound) := by
  simp only [Scriptlet.iterate]
  split_ifs
  · cases Number.ofInt? i with
    | none => exact runs_fail h _ _
    | some x =>
      refine (ih.turn h henv hplain hbody held held' x).bind fun labels₁ τ₁ flow after hflow => ?_
      cases flow with
      | next =>
        exact ih.iterate after.layered (henv.grow after.grows) hplain hbody held held' line _ stop
      | giveBack v => exact runs_value (a := Flow.giveBack v) after.layered hflow
  · exact runs_value (a := Flow.next) h (List.forall_mem_nil _)

end Followed

/-- **Evaluation follows scopes, whatever the fuel.** -/
theorem followed (ordered : Prop) (clock : Nat → Number) (n : Nat) : Followed ordered clock n := by
  induction n with
  | zero =>
    constructor <;> intros <;>
      simp only [evaluate, evaluateAll, call, execute, executeAll, iterate] <;>
      exact ⟨.outOfFuel, fun _ => rfl⟩
  | succ n ih =>
    exact ⟨ih.evaluate_succ, ih.evaluateAll_succ, ih.call_succ, ih.execute_succ,
      ih.executeAll_succ, ih.iterate_succ⟩

end Scriptlet
