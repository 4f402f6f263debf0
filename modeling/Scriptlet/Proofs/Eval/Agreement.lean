import Scriptlet.Eval.Evaluate
import Scriptlet.Proofs.Eval.Mirror

/-!
# Evaluation with and without recycling

Two computations **agree** if they run side by side, one on an arena that frees frames and one on an
arena that keeps them all: both fail alike, or both succeed with the same value, and the arenas stay
mirrored. The renaming changes on the way, since slots are used again; what the computations around
still need, active frames and held functions, stays where it was.

* `Paired`: the two states.
* `Keeps`: what a computation leaves as it was.
* `Agree`: **the relation between two outcomes**; `Agree.bind` composes computations.
* `Paired.inFrame`: a computation in a frame of its own.
-/

namespace Scriptlet

open Arena (globals Mirrors)

/-- A host that recycles frames. -/
def Host.recycling (clock : Nat → Number) : Host := ⟨clock, true⟩

/-- A host that keeps all frames. -/
def Host.keeping (clock : Nat → Number) : Host := ⟨clock, false⟩

/-- The arena of a state with the values held by its surroundings. -/
abbrev State.world (σ : State) (held : List Value) : World := ⟨σ.arena, held, σ.functions⟩

/-- **Two states side by side.** The arena of the first recycles frames, the second keeps them. -/
structure Paired (φ : Slot → Slot) (held : List Value) (σ τ : State) : Prop where
  valid : (σ.world held).Valid
  arena : Mirrors φ σ.arena τ.arena
  rest : τ = { σ with arena := τ.arena }

/-- Active frames and held functions are where they were. -/
structure Keeps (φ ψ : Slot → Slot) (held : List Value) (a b : Arena) : Prop where
  active (s : Slot) : (b.frame s).active = (a.frame s).active
  enclosing {s : Slot} (h : (a.frame s).active) : (b.frame s).enclosing = (a.frame s).enclosing
  slot {s : Slot} (h : (a.frame s).active) : ψ s = φ s
  held {f : Closure} (h : .function f ∈ held) : ψ f.env = φ f.env

namespace Keeps

variable {φ ψ χ : Slot → Slot} {held held' : List Value} {a b c : Arena}

theorem refl (φ : Slot → Slot) (held : List Value) (a : Arena) : Keeps φ φ held a a :=
  ⟨fun _ => rfl, fun _ => rfl, fun _ => rfl, fun _ => rfl⟩

theorem trans (h : Keeps φ ψ held a b) (h' : Keeps ψ χ held b c) : Keeps φ χ held a c where
  active s := (h'.active s).trans (h.active s)
  enclosing hs := (h'.enclosing (by rw [h.active]; exact hs)).trans (h.enclosing hs)
  slot hs := (h'.slot (by rw [h.active]; exact hs)).trans (h.slot hs)
  held hf := (h'.held hf).trans (h.held hf)

theorem mono (h : Keeps φ ψ held a b) (hsub : held' ⊆ held) : Keeps φ ψ held' a b :=
  ⟨h.active, h.enclosing, h.slot, fun hf => h.held (hsub hf)⟩

theorem of_eq (φ : Slot → Slot) (held : List Value)
    (h : ∀ s, (b.frame s).active = (a.frame s).active ∧
      (b.frame s).enclosing = (a.frame s).enclosing) : Keeps φ φ held a b :=
  ⟨fun s => (h s).1, fun _ => (h _).2, fun _ => rfl, fun _ => rfl⟩

theorem rename (h : Keeps φ ψ held a b) {v : Value} (hv : v ∈ held) :
    v.rename ψ = v.rename φ :=
  Value.rename_congr fun _ hf => h.held (hf ▸ hv)

theorem isActive (h : Keeps φ ψ held a b) {s : Slot} (hs : (a.frame s).active) :
    (b.frame s).active := by
  rw [h.active]; exact hs

end Keeps

theorem State.storable_of_mem {σ : State} {held : List Value} {v : Value} (hv : v ∈ held) :
    (σ.world held).Storable v :=
  fun _ hf => .inl (hf ▸ hv)

namespace Paired

theorem letGo {φ : Slot → Slot} {vs held : List Value} {σ τ : State}
    (h : Paired φ (vs ++ held) σ τ) : Paired φ held σ τ :=
  ⟨h.valid.drop (List.subset_append_right _ _), h.arena, h.rest⟩

variable {φ : Slot → Slot} {held held' : List Value} {σ τ : State} (h : Paired φ held σ τ)
include h

theorem mono (hsub : held' ⊆ held) : Paired φ held' σ τ :=
  ⟨h.valid.drop hsub, h.arena, h.rest⟩

theorem hold {v : Value} (hv : (σ.world held).Storable v) : Paired φ (v :: held) σ τ :=
  ⟨h.valid.hold hv, h.arena, h.rest⟩

theorem hold_plain {v : Value} (hv : v.closure? = none) : Paired φ (v :: held) σ τ :=
  h.hold (World.storable_plain hv)

theorem live_of_active {s : Slot} (hs : (σ.arena.frame s).active) : (σ.arena.frame s).live :=
  h.valid.live_of_active hs

theorem define {s : Slot} (hs : (σ.arena.frame s).live) (name : String) {v : Value}
    (hv : (σ.world held).Storable v) :
    Paired φ held (σ.define s name v) (τ.define (φ s) name (v.rename φ)) where
  valid := h.valid.define hs name hv
  arena := h.arena.define hs name v
  rest := by
    rw [h.rest]
    rfl

end Paired

/-! ## Agreement -/

/-- Results of computations: what they are in the other arena, and the values in them. -/
class Carries (α : Type) where
  rename : (Slot → Slot) → α → α
  values : α → List Value

instance : Carries Value := ⟨Value.rename, fun v => [v]⟩

instance : Carries (List Value) := ⟨fun φ => List.map (Value.rename φ), id⟩

instance : Carries Unit := ⟨fun _ u => u, fun _ => []⟩

/-- The same ending, with its value renamed. -/
def Flow.rename (φ : Slot → Slot) : Flow → Flow
  | .next => .next
  | .giveBack v => .giveBack (v.rename φ)

/-- The value that is given back, if any. -/
def Flow.values : Flow → List Value
  | .next => []
  | .giveBack v => [v]

instance : Carries Flow := ⟨Flow.rename, Flow.values⟩

variable {α β : Type} [Carries α] [Carries β]

/-- **Two outcomes agree**: that of a computation from `σ`, and that of the same computation where
frames are kept. -/
inductive Agree (φ : Slot → Slot) (held : List Value) (σ : State) :
    Outcome α → Outcome α → Prop
  | done {x y : α} {σ' τ' : State} (ψ : Slot → Slot) (keeps : Keeps φ ψ held σ.arena σ'.arena)
      (paired : Paired ψ (Carries.values x ++ held) σ' τ') (value : y = Carries.rename ψ x) :
    Agree φ held σ (.done x σ') (.done y τ')
  | failed {e : EvalError} {σ' τ' : State} (ψ : Slot → Slot)
      (keeps : Keeps φ ψ held σ.arena σ'.arena) (paired : Paired ψ held σ' τ') :
    Agree φ held σ (.failed e σ') (.failed e τ')
  | outOfFuel : Agree φ held σ .outOfFuel .outOfFuel

section Agree

variable {φ : Slot → Slot} {held held' : List Value} {σ τ : State}

theorem Agree.mono {o o' : Outcome α} (h : Agree φ held σ o o') (hsub : held' ⊆ held) :
    Agree φ held' σ o o' := by
  cases h with
  | done ψ hk hp he =>
    refine .done ψ (hk.mono hsub) (hp.mono ?_) he
    exact List.append_subset.mpr
      ⟨List.subset_append_left _ _, List.Subset.trans hsub (List.subset_append_right _ _)⟩
  | failed ψ hk hp => exact .failed ψ (hk.mono hsub) (hp.mono hsub)
  | outOfFuel => exact .outOfFuel

theorem Keeps.agree {ψ : Slot → Slot} {σ₁ : State} (hk : Keeps φ ψ held σ.arena σ₁.arena)
    {o o' : Outcome α} (h : Agree ψ held σ₁ o o') : Agree φ held σ o o' := by
  cases h with
  | done χ hk' hp he => exact .done χ (hk.trans hk') hp he
  | failed χ hk' hp => exact .failed χ (hk.trans hk') hp
  | outOfFuel => exact .outOfFuel

/-- **Computations compose.** The second is run with what the first has given in hand. -/
theorem Agree.bind {x y : Eval α} {f g : α → Eval β} (h : Agree φ held σ (x σ) (y τ))
    (hf : ∀ a ψ σ' τ', Keeps φ ψ held σ.arena σ'.arena →
      Paired ψ (Carries.values a ++ held) σ' τ' →
      Agree ψ held σ' (f a σ') (g (Carries.rename ψ a) τ')) :
    Agree φ held σ ((x >>= f) σ) ((y >>= g) τ) := by
  change Agree φ held σ (x.andThen f σ) (y.andThen g τ)
  unfold Eval.andThen
  generalize x σ = o, y τ = o' at h ⊢
  cases h with
  | done ψ hk hp he =>
    subst he
    exact hk.agree (hf _ ψ _ _ hk hp)
  | failed ψ hk hp => exact .failed ψ hk hp
  | outOfFuel => exact .outOfFuel

/-- The value of the first computation stays in hand while the second is run. -/
theorem Agree.bindHolding {x y : Eval α} {f g : α → Eval β} (h : Agree φ held σ (x σ) (y τ))
    (hf : ∀ a ψ σ' τ', Keeps φ ψ held σ.arena σ'.arena →
      Paired ψ (Carries.values a ++ held) σ' τ' →
      Agree ψ (Carries.values a ++ held) σ' (f a σ') (g (Carries.rename ψ a) τ')) :
    Agree φ held σ ((x >>= f) σ) ((y >>= g) τ) :=
  h.bind fun a ψ σ' τ' hk hp => (hf a ψ σ' τ' hk hp).mono (List.subset_append_right _ _)

theorem agree_value {a : α} (h : Paired φ (Carries.values a ++ held) σ τ) :
    Agree φ held σ (Eval.value a σ) (Eval.value (Carries.rename φ a) τ) :=
  .done φ (Keeps.refl _ _ _) h rfl

theorem agree_fail (h : Paired φ held σ τ) (fault : EvalFault) (line : Nat) :
    Agree φ held σ (Eval.fail fault line σ : Outcome α) (Eval.fail fault line τ) :=
  .failed φ (Keeps.refl _ _ _) h

theorem agree_plain (h : Paired φ held σ τ) {v : Value} (hv : v.closure? = none) :
    Agree φ held σ (Eval.value v σ) (Eval.value v τ) :=
  .done φ (Keeps.refl _ _ _) (h.hold_plain hv) (Value.rename_of_closure?_eq_none φ hv).symm

theorem agree_ofExcept (h : Paired φ held σ τ) (line : Nat) {r : Except EvalFault Value}
    (hr : ∀ v, r = .ok v → v.closure? = none) :
    Agree φ held σ (Eval.ofExcept line r σ) (Eval.ofExcept line r τ) := by
  cases r with
  | error fault => exact agree_fail h fault line
  | ok v => exact agree_plain h (hr v rfl)

theorem agree_check (h : Paired φ held σ τ) (line : Nat) (r : Except EvalFault Unit) :
    Agree φ held σ (Eval.ofExcept line r σ) (Eval.ofExcept line r τ) := by
  cases r with
  | error fault => exact agree_fail h fault line
  | ok u => exact agree_value h

end Agree

/-! ## Variables -/

section Variables

variable {φ : Slot → Slot} {held : List Value} {σ τ : State} (h : Paired φ held σ τ) {env : Slot}
include h

theorem Paired.storable_of_get? {s : Slot} {name : String} {v : Value}
    (hv : σ.arena.get? s name = some v) : (σ.world held).Storable v := by
  rintro f rfl
  have hl : (σ.arena.frame s).live := h.valid.live_of_get? (by rw [State.world, hv]; rfl)
  exact .inr ⟨s, hl, Frame.mem_closures.mpr ⟨name, Bindings.mem_of_lookup hv⟩⟩

theorem Paired.readVariable (henv : (σ.arena.frame env).live) (line : Nat) (name : String)
    (binding : Binding) :
    Agree φ held σ (Scriptlet.readVariable env line name binding σ)
      (Scriptlet.readVariable (φ env) line name binding τ) := by
  -- both arenas find the same value, which is bound in some frame of the first
  cases binding with
  | enclosing d =>
    simp only [Scriptlet.readVariable]
    rw [h.arena.getAt? h.valid.toShaped henv d]
    cases hv : σ.arena.getAt? env d name with
    | none => exact agree_fail h _ _
    | some v =>
      obtain ⟨s, -, hs⟩ := Option.bind_eq_some_iff.mp hv
      exact agree_value (h.hold (h.storable_of_get? hs))
  | toplevel =>
    have hsame : τ.arena.get? Arena.globals name =
        (σ.arena.get? Arena.globals name).map (Value.rename φ) := by
      conv_lhs => rw [← h.arena.globals]
      exact h.arena.get? h.valid.globals_live
    simp only [Scriptlet.readVariable]
    rw [hsame]
    cases hv : σ.arena.get? Arena.globals name with
    | none => exact agree_fail h _ _
    | some v => exact agree_value (h.hold (h.storable_of_get? hv))
  | unresolved =>
    simp only [Scriptlet.readVariable]
    rw [h.arena.lookup? h.valid.toShaped henv]
    cases hv : σ.arena.lookup? env name with
    | none => exact agree_fail h _ _
    | some v =>
      obtain ⟨s, -, hs⟩ := Option.bind_eq_some_iff.mp hv
      exact agree_value (h.hold (h.storable_of_get? hs))

theorem Paired.agree_define {s : Slot} (hs : (σ.arena.frame s).live) (name : String) {v : Value}
    (hv : (σ.world held).Storable v) :
    Agree φ held σ (.done () (σ.define s name v))
      (.done () (τ.define (φ s) name (v.rename φ))) :=
  .done φ (Keeps.of_eq _ _ fun t => by simp [State.define]) (h.define hs name hv) rfl

theorem Paired.writeVariable (henv : (σ.arena.frame env).live) (line : Nat) (name : String)
    (binding : Binding) {v : Value} (hv : (σ.world held).Storable v) :
    Agree φ held σ (Scriptlet.writeVariable env line name binding v σ)
      (Scriptlet.writeVariable (φ env) line name binding (v.rename φ) τ) := by
  -- both arenas find the same frame, which binds the name in the first
  cases binding with
  | toplevel | unresolved =>
    simp only [Scriptlet.writeVariable, Arena.assign?]
    rw [h.arena.find? h.valid.toShaped henv]
    cases hs : σ.arena.find? env name with
    | none => exact agree_fail h _ _
    | some s =>
      have hbound := Arena.isSome_get?_of_findFrom hs
      exact h.agree_define (h.valid.live_of_get? hbound) name hv
  | enclosing d =>
    simp only [Scriptlet.writeVariable, Arena.assignAt?_eq]
    rw [h.arena.ancestor? h.valid.toShaped henv]
    cases hs : σ.arena.ancestor? env d with
    | none => exact agree_fail h _ _
    | some s =>
      have hl := h.valid.live_ancestor? henv hs
      simp only [Option.map_some, Option.filter, h.arena.isSome_get? hl]
      split_ifs
      · exact h.agree_define hl name hv
      · exact agree_fail h _ _

/-- **A function is declared** in both arenas. -/
theorem Paired.declareFunction (henv : (σ.arena.frame env).active) (clock : Nat → Number)
    (held' : List Value) (name : String) (params : List String) (body : List Stmt) :
    Agree φ held σ (declareFunction (.recycling clock) env held name params body σ)
      (declareFunction (.keeping clock) (φ env) held' name params body τ) := by
  have hl := h.live_of_active henv
  have hl' : ((σ.arena.capture env).frame env).live := by rwa [Arena.live_capture]
  obtain ⟨path, hp⟩ := h.valid.outward hl
  have hcaptured : ((σ.arena.capture env).frame env).captured := by
    rw [h.valid.toShaped.frame_capture h.valid.toMarked hp]
    simp [hp.head_mem]
  have hactive : ((σ.arena.capture env).frame env).active := by rwa [Arena.active_capture]
  have hfunction := (h.valid.capture hl).function hactive hcaptured name params body
  -- the function is held while it is bound, and let go afterwards
  have hbound := hfunction.define (s := env) (by rwa [Arena.frame_track]) name
    fun f hf => .inl (hf ▸ List.mem_cons_self)
  refine .done φ (Keeps.of_eq _ _ fun t => by simp) ⟨?_, ?_, ?_⟩ rfl
  · exact hbound.drop (List.subset_cons_self _ _)
  · rw [h.rest]
    refine ((h.arena.capture env (φ env)).track _ _ _ _ _ _).define ?_ name _
    rwa [Host.frame_track]
  · rw [h.rest]

theorem Paired.bindAll {s : Slot} (hs : (σ.arena.frame s).active) (names : List String)
    {vs : List Value} (hvs : vs ⊆ held) :
    Agree φ held σ (bindAll s names vs σ)
      (bindAll (φ s) names (vs.map (Value.rename φ)) τ) := by
  induction names generalizing vs φ σ τ with
  | nil => exact agree_value h
  | cons name names ih =>
    cases vs with
    | nil => exact agree_value h
    | cons v vs =>
      obtain ⟨hv, hvs⟩ := List.cons_subset.mp hvs
      refine (h.agree_define (h.live_of_active hs) name (State.storable_of_mem hv)).bind
        fun _ ψ σ' τ' hk hp => ?_
      have hmap : vs.map (Value.rename φ) = vs.map (Value.rename ψ) :=
        List.map_congr_left fun u hu => (hk.rename (hvs hu)).symm
      rw [hmap, ← hk.slot hs]
      exact ih hp (hk.isActive hs) hvs

end Variables

/-! ## Frames -/

section Frames

variable {φ : Slot → Slot} {held : List Value} {σ τ : State}

theorem Paired.push (h : Paired φ held σ τ) {env : Slot} (henv : (σ.world held).Opens env)
    (clock : Nat → Number) (held' : List Value) :
    ∃ ψ, Paired ψ held (σ.push (.recycling clock) env held).2
        (τ.push (.keeping clock) (φ env) held').2 ∧
      ψ (σ.push (.recycling clock) env held).1 = (τ.push (.keeping clock) (φ env) held').1 ∧
      (∀ t, (σ.arena.frame t).active → ψ t = φ t) ∧
      ∀ f, .function f ∈ held → ψ f.env = φ f.env := by
  have hroom := h.valid.makeRoom
  have henv' : ((σ.arena.makeRoom held).frame env).live := by
    rw [h.valid.frame_makeRoom (h.valid.reached_of_opens henv)]
    exact h.valid.live_of_opens henv
  have hmirror : Mirrors φ (σ.arena.makeRoom held) τ.arena := h.arena.of_live fun s hs => by
    have e := Arena.frame_makeRoom_of_live hs
    rw [e] at hs ⊢
    exact ⟨hs, rfl, rfl⟩
  refine ⟨_, ⟨h.valid.push henv, hmirror.place hroom.toShaped ?_ henv', ?_⟩,
    Function.update_self _ _ _, fun t ht => ?_, fun f hf => ?_⟩
  · exact fun s f hl hf => hroom.env_live (.inr ⟨s, hl, hf⟩)
  · rw [h.rest]
    rfl
  · refine Function.update_of_ne (hroom.ne_place _ (hroom.live_of_active ?_)) _ _
    rw [h.valid.active_makeRoom]
    exact ht
  · exact Function.update_of_ne (hroom.ne_place _ (hroom.env_live (.inl hf))) _ _

theorem Paired.release (h : Paired φ held σ τ) {s : Slot} (hs : (σ.world held).Closes s)
    (clock : Nat → Number) (t : Slot) :
    Paired φ held (σ.release (.recycling clock) s) (τ.release (.keeping clock) t) where
  valid := h.valid.release hs
  arena := h.arena.of_live fun _ hu => Arena.frame_release_of_live (h.live_of_active hs.1) hu
  rest := h.rest

theorem Keeps.closes {ψ : Slot → Slot} {held₁ held₂ : List Value} {a b : Arena} {m n : Nat}
    {s : Slot} (h : Keeps φ ψ held a b) (hs : World.Closes ⟨a, held₁, m⟩ s) :
    World.Closes ⟨b, held₂, n⟩ s := by
  obtain ⟨hactive, hne, hinner⟩ := hs
  refine ⟨h.isActive hactive, hne, fun t ht he => ?_⟩
  have ht' : (a.frame t).active := by rwa [← h.active]
  exact hinner t ht' (by rw [← h.enclosing ht']; exact he)

/-- A frame that is opened and closed again leaves no trace in the frames around it. -/
theorem Keeps.inFrame {ψ χ : Slot → Slot} {w : World} (hw : w.Valid) {env : Slot} {b : Arena}
    (hslot : ∀ t, (w.arena.frame t).active → ψ t = φ t)
    (hheld : ∀ f, .function f ∈ w.held → ψ f.env = φ f.env)
    (hk : Keeps ψ χ w.held (w.arena.push env w.held).2 b)
    (hb : (b.frame (w.arena.push env w.held).1).live) :
    Keeps φ χ w.held w.arena (b.release (w.arena.push env w.held).1) := by
  have hne : ∀ {t}, (w.arena.frame t).active → t ≠ (w.arena.push env w.held).1 := by
    rintro t ht rfl
    exact hw.not_active_push env ht
  have hpush : ∀ {t}, (w.arena.frame t).active →
      ((w.arena.push env w.held).2.frame t).active := fun ht => by
    rw [hw.active_push, ht, Bool.true_or]
  exact {
    active := fun t => by
      rw [Arena.active_release hb, hk.active, hw.active_push]
      by_cases ht : t = (w.arena.push env w.held).1
      · simp [ht, hw.not_active_push env]
      · simp [ht]
    enclosing := fun ht => by
      rw [Arena.frame_release_of_ne (hne ht), hk.enclosing (hpush ht),
        hw.frame_push_of_active env ht]
    slot := fun ht => (hk.slot (hpush ht)).trans (hslot _ ht)
    held := fun hf => (hk.held hf).trans (hheld _ hf) }

/-- **A computation in a frame of its own.** -/
theorem Paired.inFrame (h : Paired φ held σ τ) {env : Slot} (henv : (σ.world held).Opens env)
    (clock : Nat → Number) (held' : List Value) {body body' : Slot → Eval α}
    (hbody : ∀ s ψ σ₁ τ₁, Paired ψ held σ₁ τ₁ → (σ₁.arena.frame s).active →
      (∀ f, .function f ∈ held → ψ f.env = φ f.env) →
      Agree ψ held σ₁ (body s σ₁) (body' (ψ s) τ₁)) :
    Agree φ held σ (Eval.inFrame (.recycling clock) env held body σ)
      (Eval.inFrame (.keeping clock) (φ env) held' body' τ) := by
  obtain ⟨ψ, hp, hs, hslot, hheld⟩ := h.push henv clock held'
  have hcloses := h.valid.closes_push henv
  have hrun := hbody (σ.push (.recycling clock) env held).1 ψ _ _ hp hcloses.1 hheld
  rw [hs] at hrun
  -- however the computation ends, the frame is closed
  have hclose : ∀ {χ held₂ σ₂ τ₂}, Keeps ψ χ held (σ.arena.push env held).2 σ₂.arena →
      Paired χ held₂ σ₂ τ₂ →
      Keeps φ χ held σ.arena (σ₂.arena.release (σ.arena.push env held).1) ∧
        Paired χ held₂ (σ₂.release (.recycling clock) (σ.arena.push env held).1)
          (τ₂.release (.keeping clock) (τ.push (.keeping clock) (φ env) held').1) := by
    intro χ held₂ σ₂ τ₂ hk hp₂
    have hc : (σ₂.world held₂).Closes (σ.arena.push env held).1 := hk.closes hcloses
    exact ⟨Keeps.inFrame h.valid hslot hheld hk (hp₂.live_of_active hc.1), hp₂.release hc clock _⟩
  unfold Eval.inFrame Eval.closing
  dsimp only
  generalize body _ _ = o, body' _ _ = o' at hrun ⊢
  cases hrun with
  | done χ hk hp₂ he => exact .done χ (hclose hk hp₂).1 (hclose hk hp₂).2 he
  | failed χ hk hp₂ => exact .failed χ (hclose hk hp₂).1 (hclose hk hp₂).2
  | outOfFuel => exact .outOfFuel

end Frames

end Scriptlet
