import Scriptlet.Proofs.Eval.Agreement
import Scriptlet.Proofs.Eval.Erasure
import Scriptlet.Proofs.Eval.Layered

/-!
# Computations over layered frames

What the steps of evaluation do where all frames are kept: the frames go on following the scopes,
results are sound, and, in an ordered program, the same computation without bindings goes the same
way.

* `After`: what a computation leaves.
* `Runs`: **the two sides of a computation**, with what is known of its result; `Runs.bind`
  composes computations.
* `runs_readVariable`, `runs_writeVariable`: variables are found by distance and by name alike.
* `Runs.inFrame`: a computation in a frame of its own.
-/

namespace Scriptlet

open Arena (globals Lays Layered Grows withLabel)

/-- **What a computation leaves**: layered frames, of which only `s` has come to bind new names, all
of them among `xs`. -/
structure After (ordered : Prop) (labels : Slot → List String) (τ : State) (s : Slot)
    (xs : List String) (labels' : Slot → List String) (τ' : State) : Prop where
  layered : Layered ordered labels' τ'.arena
  grows : Grows labels labels' τ.arena τ'.arena s xs

/-- Whichever way a computation ends, it leaves layered frames; if it succeeds, then with `Q`. -/
inductive Yields {α : Type} (ordered : Prop) (labels : Slot → List String) (τ : State) (s : Slot)
    (xs : List String) (Q : (Slot → List String) → State → α → Prop) : Outcome α → Prop
  | done {labels' : Slot → List String} {x : α} {τ' : State}
      (after : After ordered labels τ s xs labels' τ') (result : Q labels' τ' x) :
    Yields ordered labels τ s xs Q (.done x τ')
  | failed {labels' : Slot → List String} {e : EvalError} {τ' : State}
      (after : After ordered labels τ s xs labels' τ') :
    Yields ordered labels τ s xs Q (.failed e τ')
  | outOfFuel : Yields ordered labels τ s xs Q .outOfFuel

/-- **A computation and the same computation without bindings**: the first leaves layered frames,
and in an ordered program the second does what the first does. -/
structure Runs {α : Type} [Erasable α] (ordered : Prop) (labels : Slot → List String) (τ : State)
    (s : Slot) (xs : List String) (Q : (Slot → List String) → State → α → Prop)
    (o o' : Outcome α) : Prop where
  yields : Yields ordered labels τ s xs Q o
  byName : ordered → o' = o.unbound

/-- A sound value. -/
def SoundIn (ordered : Prop) (labels : Slot → List String) (τ : State) (v : Value) : Prop :=
  v.Sound ordered labels τ.arena

/-- Sound values. -/
def AllSoundIn (ordered : Prop) (labels : Slot → List String) (τ : State) (vs : List Value) :
    Prop :=
  ∀ v ∈ vs, v.Sound ordered labels τ.arena

/-- A statement that goes on with the next one has declared `xs`; a value given back is sound. -/
def FlowsIn (ordered : Prop) (env : Slot) (xs : List String) (labels : Slot → List String)
    (τ : State) : Flow → Prop
  | .next => ∀ x ∈ xs, (τ.arena.get? env x).isSome
  | .giveBack v => v.Sound ordered labels τ.arena

variable {α β : Type} {ordered : Prop}
  {labels labels' : Slot → List String} {τ τ' : State} {s env : Slot} {xs ys : List String}
  {Γ : Layers} {Q Q' : (Slot → List String) → State → α → Prop}
  {R : (Slot → List String) → State → β → Prop}

/-! ## Variables by distance and by name -/

namespace Arena

variable {a : Arena} {x : String} {b : Binding} {t : Slot}

/-- The value that a reference finds. -/
def valueAt? (a : Arena) (env : Slot) (x : String) : Binding → Option Value
  | .enclosing d => a.getAt? env d x
  | .toplevel => a.get? globals x
  | .unresolved => a.lookup? env x

/-- The frame that an assignment finds. -/
def slotAt? (a : Arena) (env : Slot) (x : String) : Binding → Option Slot
  | .enclosing d => (a.ancestor? env d).filter fun t => (a.get? t x).isSome
  | .toplevel | .unresolved => a.find? env x

theorem get?_of_valueAt? {v : Value} (h : a.valueAt? env x b = some v) :
    ∃ t, a.get? t x = some v := by
  cases b with
  | toplevel => exact ⟨globals, h⟩
  | enclosing | unresolved =>
    obtain ⟨t, -, ht⟩ := Option.bind_eq_some_iff.mp h
    exact ⟨t, ht⟩

theorem isSome_get?_of_slotAt? (h : a.slotAt? env x b = some t) : (a.get? t x).isSome := by
  cases b with
  | enclosing d => exact (Option.filter_eq_some_iff.mp h).2
  | toplevel | unresolved => exact isSome_get?_of_findFrom h

theorem valueAt?_unbound (a : Arena) (env : Slot) (x : String) :
    a.unbound.valueAt? env x .unresolved =
      (a.valueAt? env x .unresolved).map Value.unbound := by
  rw [valueAt?, lookup?, find?_unbound, valueAt?, lookup?, Option.map_bind]
  congr 1
  funext t
  exact a.get?_unbound t x

theorem slotAt?_unbound (a : Arena) (env : Slot) (x : String) :
    a.unbound.slotAt? env x .unresolved = a.slotAt? env x .unresolved :=
  a.find?_unbound env x

section Search

variable (h : Lays labels a env Γ) (hlabels : a.Labelled labels)
  (houter : (a.frame Arena.globals).enclosing = none) (h0 : 0 < a.frames.size)
  (hx : Layers.Settled Γ x)
include h hlabels houter h0 hx

theorem Lays.slotAt?_unresolved :
    a.slotAt? env x .unresolved = a.slotAt? env x (Layers.find Γ x) := by
  rw [slotAt?, h.find?_eq hlabels houter h0 hx]
  cases hd : Layers.find Γ x with
  | enclosing d =>
    obtain ⟨t, ht, hbound⟩ := h.ancestor?_find hd
    simp [slotAt?, ht, Option.filter, hbound]
  | toplevel | unresolved =>
    rw [slotAt?, h.find?_eq hlabels houter h0 hx, hd]

theorem Lays.valueAt?_unresolved :
    a.valueAt? env x .unresolved = a.valueAt? env x (Layers.find Γ x) := by
  rw [valueAt?, lookup?, h.find?_eq hlabels houter h0 hx]
  cases hd : Layers.find Γ x with
  | enclosing d => rfl
  | toplevel =>
    dsimp only [valueAt?]
    split_ifs with hglobal
    · rfl
    · exact (Option.not_isSome_iff_eq_none.mp hglobal).symm
  | unresolved => rw [valueAt?, lookup?, h.find?_eq hlabels houter h0 hx, hd]

end Search

end Arena

theorem readVariable_eq (env : Slot) (line : Nat) (x : String) (b : Binding) (σ : State) :
    readVariable env line x b σ =
      match σ.arena.valueAt? env x b with
      | some v => .done v σ
      | none => .failed ⟨.undefinedVariable x, line⟩ σ := by
  cases b <;> rfl

theorem writeVariable_eq (env : Slot) (line : Nat) (x : String) (b : Binding) (v : Value)
    (σ : State) :
    writeVariable env line x b v σ =
      match σ.arena.slotAt? env x b with
      | some t => .done () (σ.define t x v)
      | none => .failed ⟨.undefinedVariable x, line⟩ σ := by
  cases b with
  | enclosing d =>
    simp only [writeVariable, Arena.assignAt?_eq, Arena.slotAt?]
    cases Option.filter _ _ <;> rfl
  | toplevel | unresolved =>
    simp only [writeVariable, Arena.assign?, Arena.slotAt?]
    cases σ.arena.find? env x <;> rfl

/-! ## Composition -/

theorem After.refl (h : Layered ordered labels τ.arena) (s : Slot) (xs : List String) :
    After ordered labels τ s xs labels τ :=
  ⟨h, .refl ..⟩

theorem After.trans {labels'' : Slot → List String} {τ'' : State}
    (h : After ordered labels τ s xs labels' τ')
    (h' : After ordered labels' τ' s xs labels'' τ'') : After ordered labels τ s xs labels'' τ'' :=
  ⟨h'.layered, h.grows.trans h'.grows⟩

theorem After.yields (h : After ordered labels τ s xs labels' τ') {o : Outcome α}
    (ho : Yields ordered labels' τ' s xs Q o) : Yields ordered labels τ s xs Q o := by
  cases ho with
  | done after result => exact .done (h.trans after) result
  | failed after => exact .failed (h.trans after)
  | outOfFuel => exact .outOfFuel

theorem Yields.imp {t : Slot} {o : Outcome α} (h : Yields ordered labels τ s xs Q o)
    (hgrows : ∀ labels' b, Grows labels labels' τ.arena b s xs →
      Grows labels labels' τ.arena b t ys)
    (hQ : ∀ labels' τ' x, After ordered labels τ s xs labels' τ' → Q labels' τ' x →
      Q' labels' τ' x) : Yields ordered labels τ t ys Q' o := by
  cases h with
  | done after result =>
    exact .done ⟨after.layered, hgrows _ _ after.grows⟩ (hQ _ _ _ after result)
  | failed after => exact .failed ⟨after.layered, hgrows _ _ after.grows⟩
  | outOfFuel => exact .outOfFuel

variable [Erasable α] [Erasable β]

namespace Runs

variable {o o' : Outcome α}

theorem imp (h : Runs ordered labels τ s xs Q o o') (hsub : xs ⊆ ys)
    (hQ : ∀ labels' τ' x, After ordered labels τ s xs labels' τ' → Q labels' τ' x →
      Q' labels' τ' x) : Runs ordered labels τ s ys Q' o o' :=
  ⟨h.yields.imp (fun _ _ hg => hg.mono hsub) hQ, h.byName⟩

/-- **Computations compose.** -/
theorem bind {x y : Eval α} {f g : α → Eval β}
    (h : Runs ordered labels τ s xs Q (x τ) (y τ.unbound))
    (hf : ∀ labels' τ' a, After ordered labels τ s xs labels' τ' → Q labels' τ' a →
      Runs ordered labels' τ' s xs R (f a τ') (g (Erasable.erase a) τ'.unbound)) :
    Runs ordered labels τ s xs R ((x >>= f) τ) ((y >>= g) τ.unbound) := by
  change Runs ordered labels τ s xs R (x.andThen f τ) (y.andThen g τ.unbound)
  obtain ⟨hyields, hname⟩ := h
  unfold Eval.andThen
  generalize x τ = o, y τ.unbound = o' at hyields hname ⊢
  cases hyields with
  | done after result =>
    obtain ⟨hmore, hname'⟩ := hf _ _ _ after result
    refine ⟨after.yields hmore, fun ho => ?_⟩
    rw [hname ho]
    exact hname' ho
  | failed after =>
    refine ⟨.failed after, fun ho => ?_⟩
    rw [hname ho]
    rfl
  | outOfFuel =>
    refine ⟨.outOfFuel, fun ho => ?_⟩
    rw [hname ho]
    rfl

end Runs

section Steps

variable (h : Layered ordered labels τ.arena)
include h

theorem runs_value {a : α} (ha : Q labels τ a) :
    Runs ordered labels τ s xs Q (Eval.value a τ) (Eval.value (Erasable.erase a) τ.unbound) :=
  ⟨.done (.refl h s xs) ha, fun _ => rfl⟩

theorem runs_fail (fault : EvalFault) (line : Nat) :
    Runs ordered labels τ s xs Q (Eval.fail fault line τ) (Eval.fail fault line τ.unbound) :=
  ⟨.failed (.refl h s xs), fun _ => rfl⟩

theorem runs_ofExcept (line : Nat) {r : Except EvalFault Value}
    (hr : ∀ v, r = .ok v → v.closure? = none) :
    Runs ordered labels τ s xs (SoundIn ordered) (Eval.ofExcept line r τ)
      (Eval.ofExcept line r τ.unbound) := by
  refine ⟨?_, fun _ => ofExcept_unbound τ line hr⟩
  cases r with
  | error fault => exact .failed (.refl h s xs)
  | ok v => exact .done (.refl h s xs) (Value.sound_of_closure? (hr v rfl))

theorem runs_check (line : Nat) (r : Except EvalFault Unit) :
    Runs ordered labels τ s xs (fun _ τ' _ => τ' = τ ∧ r = .ok ()) (Eval.ofExcept line r τ)
      (Eval.ofExcept line r τ.unbound) := by
  cases r with
  | error fault => exact runs_fail h fault line
  | ok u => exact runs_value h ⟨rfl, rfl⟩

/-! ## Variables -/

/-- **A variable is read** alike by its distance and by its name. -/
theorem runs_readVariable (henv : Lays labels τ.arena env Γ) (line : Nat) {x : String}
    (hx : ordered → Layers.Settled Γ x) :
    Runs ordered labels τ s xs (SoundIn ordered)
      (readVariable env line x (Layers.find Γ x) τ)
      (readVariable env line x .unresolved τ.unbound) := by
  rw [readVariable_eq, readVariable_eq]
  constructor
  · cases hv : τ.arena.valueAt? env x (Layers.find Γ x) with
    | none => exact .failed (.refl h s xs)
    | some v =>
      obtain ⟨t, ht⟩ := Arena.get?_of_valueAt? hv
      exact .done (.refl h s xs) (h.sound ht)
  · intro ho
    rw [State.unbound, Arena.valueAt?_unbound, henv.valueAt?_unresolved h.labelled h.outermost
      h.nonempty (hx ho)]
    cases τ.arena.valueAt? env x (Layers.find Γ x) <;> rfl

/-- **A variable is written** alike by its distance and by its name. -/
theorem runs_writeVariable (henv : Lays labels τ.arena env Γ) {pending : Option String} (line : Nat)
    {x : String} (hx : ordered → pending ≠ some x ∧ Layers.Settled Γ x) {v : Value}
    (hv : v.Sound ordered labels τ.arena) :
    Runs ordered labels τ s xs (fun _ _ _ => True)
      (writeVariable env line x (Layers.target Γ pending x) v τ)
      (writeVariable env line x .unresolved v.unbound τ.unbound) := by
  rw [writeVariable_eq, writeVariable_eq]
  constructor
  · cases ht : τ.arena.slotAt? env x (Layers.target Γ pending x) with
    | none => exact .failed (.refl h s xs)
    | some t =>
      have hbound := Arena.isSome_get?_of_slotAt? ht
      exact .done ⟨h.assign hbound hv, (Arena.grows_assign labels v hbound s).of_nil s xs⟩ trivial
  · intro ho
    obtain ⟨hpending, hsettled⟩ := hx ho
    rw [Layers.target, if_neg hpending, State.unbound, Arena.slotAt?_unbound,
      henv.slotAt?_unresolved h.labelled h.outermost h.nonempty hsettled]
    cases τ.arena.slotAt? env x (Layers.find Γ x) with
    | none => rfl
    | some t => exact congrArg (Outcome.done ()) (State.define_unbound t x v τ).symm

theorem runs_define {t : Slot} {x : String} {v : Value} (ht : t < τ.arena.frames.size)
    (hlabel : t ≠ globals → x ∈ labels t) (hv : v.Sound ordered labels τ.arena) :
    Runs ordered labels τ t [x] (fun _ τ' _ => (τ'.arena.get? t x).isSome)
      (Eval.update (State.define t x v) τ)
      (Eval.update (State.define t x v.unbound) τ.unbound) := by
  have hgrows := Arena.grows_define labels τ.arena t x v
  refine ⟨.done ⟨h.define hlabel (hv.grow hgrows), hgrows⟩ ?_, fun _ => ?_⟩
  · rw [State.define, Arena.get?_define_self ht]
    rfl
  · exact congrArg (Outcome.done ()) (State.define_unbound t x v τ).symm

/-- **A function is declared** over the frames of its place. -/
theorem runs_declareFunction (clock : Nat → Number) (held held' : List Value)
    (henv : Lays labels τ.arena env Γ) {name : String}
    (hfresh : Layers.Fresh Γ name) {params : List String} (hparams : params.Nodup)
    {body : List Stmt}
    (hbody : Stmt.AllScoped ordered (.ofFunction params body :: Layers.bind [name] Γ) body) :
    Runs ordered labels τ env [name] (fun _ τ' _ => (τ'.arena.get? env name).isSome)
      (declareFunction (.keeping clock) env held name params body τ)
      (declareFunction (.keeping clock) env held' name params (Stmt.allUnbound body)
        τ.unbound) := by
  refine ⟨?_, fun _ => declareFunction_unbound τ rfl env held held' name params body⟩
  let f : Closure := ⟨τ.functions, name, params, body, env⟩
  let a : Arena := (τ.arena.capture env).note f
  have hmarks : ∀ t, (a.frame t).bindings = (τ.arena.frame t).bindings ∧
      (a.frame t).enclosing = (τ.arena.frame t).enclosing := fun t => by simp [a]
  have hsize : a.frames.size = τ.arena.frames.size := Arena.size_capture ..
  have ha : Layered ordered labels a := h.of_eq hsize hmarks
  have hgrows : Grows labels labels τ.arena a env [name] := .of_eq hsize hmarks
  have hgrows' := Arena.grows_define labels a env name (.function f)
  have henv' := (henv.grow hgrows).grow hgrows'
  have hget : (a.define env name (.function f)).get? env name = some (.function f) :=
    Arena.get?_define_self ((henv.grow hgrows).lt_size ha.nonempty) name _
  -- the function is sound once its own name is bound
  have hf : f.Sound ordered labels (a.define env name (.function f)) := by
    refine ⟨hparams, _, henv'.bind [name] ?_, hbody⟩
    rw [List.forall_mem_singleton, hget]
    rfl
  have hlayered : Layered ordered labels (a.define env name (.function f)) := by
    refine ha.define (henv.label_of_fresh hfresh) ?_
    rintro g ⟨⟩
    exact hf
  exact .done ⟨hlayered, hgrows.trans hgrows'⟩ (Option.isSome_iff_exists.mpr ⟨_, hget⟩)

theorem runs_bindAll {t : Slot} (ht : t < τ.arena.frames.size) {names : List String}
    {vs : List Value} (hlength : names.length = vs.length) (hlabel : ∀ x ∈ names, x ∈ labels t)
    (hvs : ∀ v ∈ vs, v.Sound ordered labels τ.arena) :
    Runs ordered labels τ t names (fun _ τ' _ => ∀ x ∈ names, (τ'.arena.get? t x).isSome)
      (bindAll t names vs τ) (bindAll t names (vs.map Value.unbound) τ.unbound) := by
  induction names generalizing vs labels τ with
  | nil => exact runs_value (a := ()) h nofun
  | cons name names ih =>
    cases vs with
    | nil => cases hlength
    | cons v vs =>
      obtain ⟨hname, hlabel⟩ := List.forall_mem_cons.mp hlabel
      obtain ⟨hv, hvs⟩ := List.forall_mem_cons.mp hvs
      refine ((runs_define h ht (fun _ => hname) hv).imp
        (List.cons_subset_cons _ (List.nil_subset names)) fun _ _ _ _ hbound => hbound).bind
        fun labels' τ' _ after hbound => ?_
      have ht' := Nat.lt_of_lt_of_le ht after.grows.size
      refine (ih after.layered ht' (Nat.succ.inj hlength) ?_ ?_).imp (List.subset_cons_self _ _)
        fun _ τ'' _ after' hnames => List.forall_mem_cons.mpr ⟨after'.grows.kept hbound, hnames⟩
      · exact fun x hx => after.grows.labels ht ▸ hlabel x hx
      · exact fun u hu => (hvs u hu).grow after.grows

end Steps

/-! ## Frames -/

/-- A frame is opened where all frames are kept. -/
def State.opened (env : Slot) (τ : State) : State :=
  { τ with arena := (τ.arena.append (Arena.fresh env)).2 }

theorem State.opened_unbound (env : Slot) (τ : State) :
    (τ.opened env).unbound = τ.unbound.opened env :=
  congrArg (fun a => { τ with arena := a }) (τ.arena.append_unbound env)

omit [Erasable α] in
/-- A frame that is kept is never closed. -/
theorem inFrame_keeping (clock : Nat → Number) (env : Slot) (held : List Value)
    (body : Slot → Eval α) (τ : State) :
    Eval.inFrame (.keeping clock) env held body τ =
      body τ.arena.frames.size (τ.opened env) := by
  change Eval.closing (body τ.arena.frames.size) id (τ.opened env) = _
  unfold Eval.closing
  cases body τ.arena.frames.size (τ.opened env) <;> rfl

/-- What happens in a new frame happens in none of those that were there. -/
theorem Arena.Grows.of_append {a b : Arena} {names : List String}
    (h : Grows (withLabel labels a names) labels' (a.append (Arena.fresh env)).2 b a.frames.size ys)
    (s : Slot) (xs : List String) : Grows labels labels' a b s xs := by
  have ha := Arena.grows_append labels a env names s
  exact {
    labels := fun ht => (h.labels (Nat.lt_of_lt_of_le ht ha.size)).trans (ha.labels ht)
    size := Nat.le_trans ha.size h.size
    enclosing := fun ht =>
      (h.enclosing (Nat.lt_of_lt_of_le ht ha.size)).trans (ha.enclosing ht)
    kept := fun hx => h.kept (ha.kept hx)
    only := fun {t x} ht hx => by
      rcases h.only (Nat.lt_of_lt_of_le ht ha.size) hx with hx | ⟨rfl, -⟩
      · rw [Arena.get?_append] at hx
        exact .inl hx
      · exact absurd ht (Nat.lt_irrefl _) }

/-- **A computation in a frame of its own**, for a scope that declares `names`. -/
theorem Runs.inFrame (clock : Nat → Number) (held held' : List Value) (names : List String)
    {body body' : Slot → Eval α} {s' : Slot} (hs' : s' = τ.arena.frames.size)
    (hbody : Runs ordered (withLabel labels τ.arena names) (τ.opened env) s' names Q
      (body s' (τ.opened env)) (body' s' (τ.opened env).unbound))
    (hQ : ∀ labels' τ' x, Q labels' τ' x → Q' labels' τ' x) :
    Runs ordered labels τ s xs Q' (Eval.inFrame (.keeping clock) env held body τ)
      (Eval.inFrame (.keeping clock) env held' body' τ.unbound) := by
  subst hs'
  have hsize : τ.unbound.arena.frames.size = τ.arena.frames.size := τ.arena.size_unbound
  rw [inFrame_keeping, inFrame_keeping, hsize, ← State.opened_unbound]
  refine ⟨?_, hbody.byName⟩
  obtain ⟨hyields, -⟩ := hbody
  generalize body _ _ = o at hyields ⊢
  cases hyields with
  | done after result => exact .done ⟨after.layered, after.grows.of_append s xs⟩ (hQ _ _ _ result)
  | failed after => exact .failed ⟨after.layered, after.grows.of_append s xs⟩
  | outOfFuel => exact .outOfFuel

theorem Runs.counted {x y : Eval α}
    (h : Runs ordered labels { τ with depth := τ.depth + 1 } s xs Q
      (x { τ with depth := τ.depth + 1 }) (y (State.unbound { τ with depth := τ.depth + 1 })))
    (hQ : ∀ labels' τ' n a, Q labels' τ' a → Q labels' { τ' with depth := n } a) :
    Runs ordered labels τ s xs Q (Eval.counted x τ) (Eval.counted y τ.unbound) := by
  obtain ⟨hyields, hname⟩ := h
  have hrun : Eval.counted y τ.unbound =
      Eval.closing (fun _ => y (State.unbound { τ with depth := τ.depth + 1 }))
        (fun σ => { σ with depth := σ.depth - 1 }) τ := rfl
  rw [hrun]
  unfold Eval.counted Eval.closing
  generalize x _ = o, y _ = o' at hyields hname ⊢
  cases hyields with
  | done after result =>
    refine ⟨.done ⟨after.layered, after.grows⟩ (hQ _ _ _ _ result), fun ho => ?_⟩
    rw [hname ho]
    rfl
  | failed after =>
    refine ⟨.failed ⟨after.layered, after.grows⟩, fun ho => ?_⟩
    rw [hname ho]
    rfl
  | outOfFuel =>
    refine ⟨.outOfFuel, fun ho => ?_⟩
    rw [hname ho]
    rfl

end Scriptlet
