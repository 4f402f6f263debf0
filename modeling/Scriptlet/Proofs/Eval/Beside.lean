import Scriptlet.Proofs.Eval.ByName
import Scriptlet.Proofs.Eval.Moments

/-!
# A session beside one that keeps all frames

Where frames are recycled a slot may hold one scope now and another later. So what the frames of a
session have to do with the scopes of its program is said in a session that keeps all frames and
runs beside it.

* `Beside`: **a state of the session that keeps all frames**, with the slots and labels there.
* `Beside.Placed`, `Beside.Exact`: an environment binds all names that its scopes have declared so
  far, and in its own frame no others.
* `Beside.Holds.evaluate`, `Beside.Holds.execute`, `Beside.Holds.push`, `Beside.Holds.bindAll`: what
  has ended in the session has ended in the one beside it, and its frames follow the scopes.
-/

namespace Scriptlet

open Arena (globals Lays Layered Grows withLabel)

/-- **A state in which all frames are kept**, with the slots of the frames of `σ` there, and the
labels of its frames. -/
structure Beside (σ : State) where
  slots : Slot → Slot
  labels : Slot → List String
  kept : State

namespace Beside

variable {σ σ' : State}

/-- Both states have come from the same program, and the frames that are kept follow scopes. -/
structure Holds (ordered : Prop) (w : Beside σ) (held : List Value) : Prop where
  paired : Paired w.slots held σ w.kept
  layered : Layered ordered w.labels w.kept.arena

/-- An active environment inside the given scopes. -/
structure Placed (w : Beside σ) (env : Slot) (Γ : Layers) : Prop where
  active : (σ.arena.frame env).active
  lays : Lays w.labels w.kept.arena (w.slots env) Γ

/-- The frame of the innermost scope binds only what has been declared so far. -/
def Exact (w : Beside σ) (env : Slot) (Γ : Layers) : Prop :=
  ∀ l ∈ Γ.head?, ∀ x, (w.kept.arena.get? (w.slots env) x).isSome → x ∈ l.bound

/-- A value that is a sound function or none. -/
def Sound (ordered : Prop) (w : Beside σ) (v : Value) : Prop :=
  (v.rename w.slots).Sound ordered w.labels w.kept.arena

/-- **How both states go on**: what is active or held stays where it is, and of the frames that were
there only that of `env` comes to bind new names, all of them among `xs`. -/
structure Leads (w : Beside σ) (w' : Beside σ') (held : List Value) (env : Slot)
    (xs : List String) : Prop where
  keeps : Keeps w.slots w'.slots held σ.arena σ'.arena
  grows : Grows w.labels w'.labels w.kept.arena w'.kept.arena (w.slots env) xs

variable {ordered : Prop} {w : Beside σ} {w' : Beside σ'} {held held' : List Value} {env t : Slot}
  {xs : List String} {Γ : Layers} {v : Value}

theorem Holds.mono (h : w.Holds ordered held) (hsub : held' ⊆ held) : w.Holds ordered held' :=
  ⟨h.paired.mono hsub, h.layered⟩

theorem Placed.leads (h : w.Placed env Γ) (hl : w.Leads w' held t xs) : w'.Placed env Γ where
  active := hl.keeps.isActive h.active
  lays := by
    rw [hl.keeps.slot h.active]
    exact h.lays.grow hl.grows

theorem Sound.leads (h : w.Sound ordered v) (hv : v ∈ held) (hl : w.Leads w' held t xs) :
    w'.Sound ordered v := by
  rw [Sound, hl.keeps.rename hv]
  exact h.grow hl.grows

/-- What is declared is bound in the frame of the innermost scope, and nothing else is. -/
theorem Exact.bind (h : w.Exact env Γ) (hw : w.Holds ordered held) (hp : w.Placed env Γ)
    (hl : w.Leads w' held env xs) : w'.Exact env (Layers.bind xs Γ) := by
  intro l' hl' x hx
  cases Γ with
  | nil => cases hl'
  | cons l Γ =>
    cases hl'
    rw [hl.keeps.slot hp.active] at hx
    rcases hl.grows.only (hp.lays.lt_size hw.layered.nonempty) hx with hx | ⟨-, hx⟩
    · exact List.mem_append_right _ (h l rfl x hx)
    · exact List.mem_append_left _ hx

theorem Exact.leads (h : w.Exact env Γ) (hw : w.Holds ordered held) (hp : w.Placed env Γ)
    (hl : w.Leads w' held env []) : w'.Exact env Γ := by
  have hexact := h.bind hw hp hl
  rwa [Layers.bind_nil] at hexact

/-- **A name that is not declared yet is not bound** in the frame of its scope. -/
theorem Exact.get?_eq_none (h : w.Exact env Γ) (hw : w.Holds ordered held) (hp : w.Placed env Γ)
    {x : String} (hx : Layers.Fresh Γ x) (hne : env ≠ globals) : σ.arena.get? env x = none := by
  have hlive := hw.paired.live_of_active hp.active
  rw [← Option.not_isSome_iff_eq_none, ← hw.paired.arena.isSome_get? hlive]
  cases Γ with
  | nil =>
    have hslot := hp.lays.eq_globals.trans hw.paired.arena.globals.symm
    exact absurd (hw.paired.arena.inj hlive hw.paired.valid.globals_live hslot) hne
  | cons l Γ => exact fun hbound => (hx l rfl).1 (h l rfl x hbound)

/-- **What scope analysis has found is bound there.** -/
theorem Placed.ancestor?_find (hp : w.Placed env Γ) (hw : w.Holds ordered held) {d : Nat}
    {x : String} (hd : Layers.find Γ x = .enclosing d) :
    ∃ t, σ.arena.ancestor? env d = some t ∧ (σ.arena.get? t x).isSome := by
  obtain ⟨u, hu, hbound⟩ := hp.lays.ancestor?_find hd
  have hlive := hw.paired.live_of_active hp.active
  rw [hw.paired.arena.ancestor? hw.paired.valid.toShaped hlive] at hu
  obtain ⟨t, ht, rfl⟩ := Option.map_eq_some_iff.mp hu
  rw [hw.paired.arena.isSome_get? (hw.paired.valid.live_ancestor? hlive ht)] at hbound
  exact ⟨t, ht, hbound⟩

/-! ## What has ended -/

theorem bindAll_take (s : Slot) (names : List String) (vs : List Value) :
    bindAll s names vs = bindAll s names (vs.take names.length) := by
  induction names generalizing vs with
  | nil => rfl
  | cons name names ih =>
    cases vs with
    | nil => rfl
    | cons v vs =>
      simp only [bindAll, List.length_cons, List.take_succ_cons]
      rw [ih vs]

section Ended

variable {clock : Nat → Number} {n : Nat} (h : w.Holds ordered held) (hp : w.Placed env Γ)

theorem of_done {α : Type} [Carries α] {a : α} {o : Outcome α}
    {Q : (Slot → List String) → State → α → Prop} (ha : Agree w.slots held σ (.done a σ') o)
    (hy : Yields ordered w.labels w.kept (w.slots env) xs Q o) :
    ∃ w' : Beside σ', w'.Holds ordered (Carries.values a ++ held) ∧ w.Leads w' held env xs ∧
      Q w'.labels w'.kept (Carries.rename w'.slots a) := by
  cases ha with
  | @done _ _ _ τ' ψ hk hp he =>
    subst he
    cases hy with
    | @done labels' _ _ after hQ =>
      exact ⟨⟨ψ, labels', τ'⟩, ⟨hp, after.layered⟩, ⟨hk, after.grows⟩, hQ⟩

include h

section Placed

include hp

theorem Holds.evaluate {e : Expr} {pending : Option String} (he : e.Scoped ordered Γ pending)
    (hrun : evaluate (.recycling clock) n env held e σ = .done v σ') :
    ∃ w' : Beside σ', w'.Holds ordered (v :: held) ∧ w.Leads w' held env [] ∧
      w'.Sound ordered v := by
  have hagree := (simulated clock n).evaluate h.paired hp.active rfl [] e
  rw [hrun] at hagree
  exact of_done hagree ((followed ordered clock n).evaluate h.layered hp.lays he [] []).yields

theorem Holds.evaluateAll {es : List Expr} {pending : Option String}
    (hes : Expr.AllScoped ordered Γ pending es) {vs : List Value}
    (hrun : evaluateAll (.recycling clock) n env held es σ = .done vs σ') :
    ∃ w' : Beside σ', w'.Holds ordered (vs ++ held) ∧ w.Leads w' held env [] ∧
      ∀ v ∈ vs, w'.Sound ordered v := by
  have hagree := (simulated clock n).evaluateAll h.paired hp.active rfl [] es
  rw [hrun] at hagree
  obtain ⟨w', hw', hl, hsound⟩ :=
    of_done hagree ((followed ordered clock n).evaluateAll h.layered hp.lays hes [] []).yields
  exact ⟨w', hw', hl, fun v hv => hsound _ (List.mem_map_of_mem hv)⟩

theorem Holds.execute {s : Stmt} (hs : s.Scoped ordered Γ)
    (hrun : execute (.recycling clock) n env held s σ = .done .next σ') :
    ∃ w' : Beside σ', w'.Holds ordered held ∧ w.Leads w' held env s.declared ∧
      w'.Placed env (Layers.bind s.declared Γ) := by
  have hagree := (simulated clock n).execute h.paired hp.active rfl [] s
  rw [hrun] at hagree
  obtain ⟨w', hw', hl, hbound⟩ :=
    of_done hagree ((followed ordered clock n).execute h.layered hp.lays hs [] []).yields
  refine ⟨w', hw', hl, hl.keeps.isActive hp.active, (hp.leads hl).lays.bind _ ?_⟩
  rw [hl.keeps.slot hp.active]
  exact hbound

theorem Holds.turn {name : String} {body : Stmt} (hplain : body.isDeclaration = false)
    (hbody : body.Scoped ordered (.ofLoop name :: Γ)) {x : Number}
    (hrun : Eval.inFrame (.recycling clock) env held (fun s => do
      Eval.update (State.define s name (.number x))
      Scriptlet.execute (.recycling clock) n s held body) σ = .done .next σ') :
    ∃ w' : Beside σ', w'.Holds ordered held ∧ w.Leads w' held env [] := by
  have hagree := (simulated clock n).turn h.paired hp.active rfl [] name body x
  rw [hrun] at hagree
  obtain ⟨w', hw', hl, -⟩ :=
    of_done hagree ((followed ordered clock n).turn h.layered hp.lays hplain hbody [] [] x).yields
  exact ⟨w', hw', hl⟩

end Placed

/-- **A frame is opened** for a scope that declares `names`. -/
theorem Holds.push (hopens : (σ.world held).Opens env)
    (hlays : Lays w.labels w.kept.arena (w.slots env) Γ) (names : List String) {s : Slot}
    (hrun : σ.push (.recycling clock) env held = (s, σ')) :
    ∃ w' : Beside σ', w'.Holds ordered held ∧ w'.Placed s (⟨[], names⟩ :: Γ) ∧
      w'.Exact s (⟨[], names⟩ :: Γ) ∧ ∀ v ∈ held, w.Sound ordered v → w'.Sound ordered v := by
  obtain ⟨ψ, hpaired, hslot, -, hheld⟩ := h.paired.push hopens clock []
  have hactive := (h.paired.valid.closes_push hopens).1
  change ((σ.push (.recycling clock) env held).2.arena.frame
    (σ.push (.recycling clock) env held).1).active at hactive
  rw [hrun] at hpaired hslot hactive
  have hnew : ψ s = w.kept.arena.frames.size := hslot
  refine ⟨⟨ψ, withLabel w.labels w.kept.arena names, w.kept.opened (w.slots env)⟩,
    ⟨hpaired, h.layered.append _ names⟩, ⟨hactive, ?_⟩, ?_, ?_⟩
  · change Lays _ _ (ψ s) _
    rw [hnew]
    exact hlays.append h.layered.nonempty names
  · -- the new frame is empty
    intro l _ x hx
    have hx' : (w.kept.arena.get? (ψ s) x).isSome := by
      rw [← Arena.get?_append w.kept.arena (w.slots env)]
      exact hx
    exact absurd (hnew ▸ Arena.lt_size_of_get? hx') (Nat.lt_irrefl _)
  · intro v hv hsound
    have hrename : v.rename ψ = v.rename w.slots :=
      Value.rename_congr fun f hf => hheld f (hf ▸ hv)
    rw [Sound, hrename]
    exact hsound.grow (Arena.grows_append w.labels w.kept.arena (w.slots env) names (w.slots env))

theorem Holds.bindAll {s : Slot} {names before : List String}
    (hp : w.Placed s (⟨[], names⟩ :: Γ)) (hexact : w.Exact s (⟨[], names⟩ :: Γ))
    (hsub : before ⊆ names) {args : List Value} (hlength : before.length ≤ args.length)
    (hargs : args ⊆ held) (hsound : ∀ v ∈ args, w.Sound ordered v)
    (hrun : Scriptlet.bindAll s before args σ = .done () σ') :
    ∃ w' : Beside σ', w'.Holds ordered held ∧ w'.Placed s (⟨before.reverse, names⟩ :: Γ) ∧
      w'.Exact s (⟨before.reverse, names⟩ :: Γ) := by
  let vs := args.take before.length
  have hvs : vs ⊆ args := List.take_subset _ _
  have hlabel : ∀ x ∈ before, x ∈ w.labels (w.slots s) := by
    rw [hp.lays.label]
    exact hsub
  have hagree := h.paired.bindAll hp.active before (List.Subset.trans hvs hargs)
  rw [← bindAll_take, hrun] at hagree
  have hcount : before.length = (vs.map (Value.rename w.slots)).length := by simp [vs, hlength]
  have hruns := runs_bindAll h.layered (hp.lays.lt_size h.layered.nonempty) hcount hlabel
    (List.forall_mem_map.mpr fun v hv => hsound v (hvs hv))
  obtain ⟨w', hw', hl, hbound⟩ := of_done hagree hruns.yields
  have hlays := (hp.leads hl).lays.bind before.reverse fun x hx => by
    rw [hl.keeps.slot hp.active]
    exact hbound x (List.mem_reverse.mp hx)
  rw [Layers.bind, List.append_nil] at hlays
  refine ⟨w', hw', ⟨hl.keeps.isActive hp.active, hlays⟩, ?_⟩
  rintro _ ⟨⟩ x hx
  have hmem := hexact.bind h hp hl _ rfl x hx
  rw [List.append_nil] at hmem
  exact List.mem_reverse.mpr hmem

theorem Holds.index {s : Slot} {name : String} (hp : w.Placed s (⟨[], [name]⟩ :: Γ))
    (hexact : w.Exact s (⟨[], [name]⟩ :: Γ)) (x : Number) :
    ∃ w' : Beside (σ.define s name (.number x)), w'.Holds ordered held ∧
      w'.Placed s (.ofLoop name :: Γ) ∧ w'.Exact s (.ofLoop name :: Γ) := by
  have hheld : w.Holds ordered (.number x :: held) := ⟨h.paired.hold_plain rfl, h.layered⟩
  have hrun : Scriptlet.bindAll s [name] [.number x] σ =
      .done () (σ.define s name (.number x)) := rfl
  have hlength : [name].length ≤ [Value.number x].length := Nat.le_refl 1
  obtain ⟨w', hw', hp', hexact'⟩ := hheld.bindAll hp hexact (List.Subset.refl [name]) hlength
    (List.cons_subset_cons _ (List.nil_subset held))
    (List.forall_mem_singleton.mpr (Value.sound_of_closure? rfl)) hrun
  exact ⟨w', hw'.mono (List.subset_cons_self _ _), hp', hexact'⟩

theorem Holds.counted (hp : w.Placed env Γ) (hexact : w.Exact env Γ) :
    ∃ w' : Beside { σ with depth := σ.depth + 1 }, w'.Holds ordered held ∧ w'.Placed env Γ ∧
      w'.Exact env Γ := by
  have hpaired := h.paired.outside (fun ρ => { ρ with depth := ρ.depth + 1 }) (fun _ => rfl)
    (fun _ => rfl) fun _ _ => rfl
  exact ⟨⟨w.slots, w.labels, { w.kept with depth := w.kept.depth + 1 }⟩, ⟨hpaired, h.layered⟩,
    ⟨hp.active, hp.lays⟩, hexact⟩

end Ended

end Beside

end Scriptlet
