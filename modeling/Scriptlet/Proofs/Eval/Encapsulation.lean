import Mathlib.Data.Set.Basic
import Scriptlet.Proofs.Eval.Balance

/-!
# Closures are encapsulated

What an evaluation can get hold of is what its environment leads to, by the links to enclosing
frames and by the functions bound on the way, and the frames that it opens itself. All other frames
stand behind a wall: nothing on this side refers to them, and so nothing ever will. Only a
collection gets at them, and only at those that nobody reaches.

* `Arena.Leads`: what can be got hold of from a frame.
* `Arena.Walled`: **a set of live frames that no other frame refers to**.
* `Moment.Frees`: a collection frees a frame that was left alone until then.
* `Moment.Spares`: what is left of a wall after some steps of a moment; `Moment.Spares.trans` joins
  the steps of a moment and of those that it starts.
* `Confines`: the wall stands however a computation ends; `Confines.bind` composes computations.
* `Moment.Ready.confined`: **every moment leaves the frames behind a wall alone**.
* `closures_encapsulated`: so does every evaluation in a session.
-/

namespace Scriptlet

open Arena (globals)
open Relation (ReflTransGen)

/-! ## Walls -/

/-- A value that is no function over a frame of `W`. -/
def Value.Outside (W : Set Slot) (v : Value) : Prop := ∀ f, v = .function f → f.env ∉ W

theorem Value.Outside.mono {V W : Set Slot} {v : Value} (h : v.Outside W) (hsub : V ⊆ W) :
    v.Outside V :=
  fun f hf hmem => h f hf (hsub hmem)

theorem Value.outside_of_closure? {W : Set Slot} {v : Value} (h : v.closure? = none) :
    v.Outside W := by
  rintro f rfl
  cases h

theorem Value.outside_values {W : Set Slot} {v : Value} (h : v.closure? = none) :
    ∀ u ∈ Carries.values v, u.Outside W :=
  List.forall_mem_singleton.mpr (outside_of_closure? h)

namespace Arena

variable {a b : Arena} {W : Set Slot} {s t env : Slot}

/-- **A frame leads to another**, by enclosing frames and by the functions bound on the way. -/
def Leads (a : Arena) : Slot → Slot → Prop := ReflTransGen fun s t => t ∈ a.successors s

/-- **A set of live frames that no other frame refers to.** -/
structure Walled (W : Set Slot) (a : Arena) : Prop where
  live {s : Slot} (h : s ∈ W) : (a.frame s).live
  closed {s t : Slot} (hs : s ∉ W) (ht : t ∈ a.successors s) : t ∉ W

theorem Shaped.walled (h : a.Shaped) (env : Slot) :
    a.Walled {t | (a.frame t).live ∧ ¬ a.Leads env t} where
  live h := h.1
  closed {s t} hs ht hmem := by
    by_cases hl : (a.frame s).live
    · refine hs ⟨hl, fun hleads => hmem.2 ?_⟩
      exact hleads.tail ht
    · rw [successors, h.empty hl] at ht
      cases ht

namespace Walled

variable (h : a.Walled W)
include h

theorem enclosing {outer : Slot} (hs : s ∉ W) (he : (a.frame s).enclosing = some outer) :
    outer ∉ W :=
  h.closed hs (mem_successors.mpr (.inl he))

theorem get? {x : String} {v : Value} (hs : s ∉ W) (hv : a.get? s x = some v) : v.Outside W := by
  rintro f rfl
  have hf : f ∈ (a.frame s).closures := Frame.mem_closures.mpr ⟨x, Bindings.mem_of_lookup hv⟩
  exact h.closed hs (mem_successors.mpr (.inr ⟨f, hf, rfl⟩))

theorem ancestor? {d : Nat} (hs : s ∉ W) (ht : a.ancestor? s d = some t) : t ∉ W := by
  induction d generalizing s with
  | zero =>
    cases ht
    exact hs
  | succ d ih =>
    rw [Arena.ancestor?] at ht
    split at ht
    · cases ht
    · rename_i outer he
      exact ih (h.enclosing hs he) ht

theorem findFrom {x : String} {n : Nat} (hs : s ∉ W) (ht : a.findFrom x n s = some t) :
    t ∉ W := by
  induction n generalizing s with
  | zero => cases ht
  | succ n ih =>
    simp only [Arena.findFrom] at ht
    split_ifs at ht
    · cases ht
      exact hs
    · split at ht
      · cases ht
      · rename_i outer he
        exact ih (h.enclosing hs he) ht

theorem slotAt? {x : String} {binding : Binding} (henv : env ∉ W)
    (ht : a.slotAt? env x binding = some t) : t ∉ W := by
  cases binding with
  | enclosing d => exact h.ancestor? henv (Option.filter_eq_some_iff.mp ht).1
  | toplevel | unresolved => exact h.findFrom henv ht

theorem valueAt? {x : String} {binding : Binding} {v : Value} (henv : env ∉ W)
    (hglobals : globals ∉ W) (hv : a.valueAt? env x binding = some v) : v.Outside W := by
  cases binding with
  | toplevel => exact h.get? hglobals hv
  | enclosing d =>
    obtain ⟨s, hs, hv⟩ := Option.bind_eq_some_iff.mp hv
    exact h.get? (h.ancestor? henv hs) hv
  | unresolved =>
    obtain ⟨s, hs, hv⟩ := Option.bind_eq_some_iff.mp hv
    exact h.get? (h.findFrom henv hs) hv

theorem outward {path : List Slot} (henv : env ∉ W) (hp : a.Outward env path) :
    ∀ t ∈ path, t ∉ W :=
  hp.subset_of_closed henv fun _ _ => h.enclosing

theorem globals_not_mem (hshaped : a.Shaped) (henv : env ∉ W) (hl : (a.frame env).live) :
    globals ∉ W := by
  obtain ⟨path, hp⟩ := hshaped.outward hl
  exact h.outward henv hp globals (List.mem_of_getLast? hp.getLast?)

/-- A change on this side of the wall, where nothing comes to refer to what is behind it. -/
theorem of_frames (hW : ∀ t ∈ W, b.frame t = a.frame t)
    (hother : ∀ s ∉ W, ∀ t ∈ b.successors s, t ∈ a.successors s ∨ t ∉ W) : b.Walled W where
  live {s} hs := by
    rw [hW s hs]
    exact h.live hs
  closed {s t} hs ht := by
    rcases hother s hs t ht with ht | ht
    · exact h.closed hs ht
    · exact ht

end Walled

end Arena

/-! ## What a moment leaves alone -/

/-- **A collection frees a frame** at one of the moments that come from `m`. Until then the frame is
as it was, and neither an active frame nor a function that is held outside reaches it. -/
inductive Moment.Frees (host : Host) (m : Moment) (t : Slot) : Prop
  | intro {m' : Moment} {env : Slot} {held : List Value}
      (path : ReflTransGen (Moment.Starts host) m m') (opens : m'.Opens env held)
      (kept : m'.state.arena.frame t = m.state.arena.frame t)
      (unreached : ¬ m'.state.arena.Reached held t)
      (freed : ¬ ((m'.state.arena.makeRoom held).frame t).live)

/-- **What is left of the frames behind a wall**: those of `V` are as they were when the moment
began, and the others have been freed. -/
structure Moment.Spares (host : Host) (m : Moment) (W V : Set Slot) (a : Arena) : Prop where
  walled : a.Walled V
  frame {t : Slot} (h : t ∈ V) : a.frame t = m.state.arena.frame t
  lost {t : Slot} (h : t ∈ W) (gone : t ∉ V) : m.Frees host t

namespace Moment.Spares

variable {host : Host} {m m' : Moment} {U V W : Set Slot} {a b : Arena} {s : Slot}

theorem refl (host : Host) (h : m.state.arena.Walled W) : m.Spares host W W m.state.arena :=
  ⟨h, fun _ => rfl, fun hmem gone => absurd hmem gone⟩

/-- **One start after another.** -/
theorem trans (h : m.Spares host W V m'.state.arena) (starts : m.Starts host m')
    (h' : m'.Spares host V U a) (hsub : U ⊆ V) : m.Spares host W U a where
  walled := h'.walled
  frame {t} ht := (h'.frame ht).trans (h.frame (hsub ht))
  lost {t} ht gone := by
    by_cases hV : t ∈ V
    · obtain ⟨path, opens, kept, unreached, freed⟩ := h'.lost hV gone
      exact ⟨.head starts path, opens, kept.trans (h.frame hV), unreached, freed⟩
    · exact h.lost ht hV

/-- A change on this side of the wall. -/
theorem of_frames (h : m.Spares host W V a) (hV : ∀ t ∈ V, b.frame t = a.frame t)
    (hother : ∀ s ∉ V, ∀ t ∈ b.successors s, t ∈ a.successors s ∨ t ∉ V) :
    m.Spares host W V b where
  walled := h.walled.of_frames hV hother
  frame {t} ht := (hV t ht).trans (h.frame ht)
  lost := h.lost

/-- A function over a frame on the other side could not be bound here. -/
theorem define (h : m.Spares host W V a) (hs : s ∉ V) {v : Value} (hv : v.Outside V)
    (name : String) : m.Spares host W V (a.define s name v) := by
  refine h.of_frames (fun t ht => ?_) fun u _ t ht => ?_
  · exact Arena.frame_define_of_ne fun e => hs (e ▸ ht)
  · rw [Arena.mem_successors, Arena.enclosing_define] at ht
    obtain he | ⟨f, hf, rfl⟩ := ht
    · exact .inl (Arena.mem_successors.mpr (.inl he))
    rw [Arena.define, Arena.frame_modify] at hf
    split_ifs at hf with hu
    · rcases Frame.closures_insert hf with rfl | hf
      · exact .inr (hv f rfl)
      · exact .inl (Arena.mem_successors.mpr (.inr ⟨f, hu.1 ▸ hf, rfl⟩))
    · exact .inl (Arena.mem_successors.mpr (.inr ⟨f, hf, rfl⟩))

theorem release (h : m.Spares host W V a) (hs : s ∉ V) : m.Spares host W V (a.release s) := by
  refine h.of_frames (fun t ht => ?_) fun u _ t ht => .inl ?_
  · exact Arena.frame_release_of_ne fun e => hs (e ▸ ht)
  · by_cases hu : u = s
    · subst hu
      unfold Arena.release at ht
      split_ifs at ht
      · rw [Arena.mem_successors, Arena.frame_modify] at ht
        rw [Arena.mem_successors]
        split_ifs at ht <;> exact ht
      · rw [Arena.mem_successors, Arena.frame_freeSlot, if_pos rfl] at ht
        rcases ht with he | ⟨f, hf, -⟩
        · cases he
        · cases hf
    · rwa [Arena.mem_successors, Arena.frame_release_of_ne hu, ← Arena.mem_successors] at ht

theorem capture (h : m.Spares host W V a) (hshaped : a.Shaped) (hmarked : a.Marked)
    (hl : (a.frame s).live) (hs : s ∉ V) : m.Spares host W V (a.capture s) := by
  obtain ⟨path, hp⟩ := hshaped.outward hl
  refine h.of_frames (fun t ht => ?_) fun u _ t ht => .inl ?_
  · have hmem : t ∉ path := fun hmem => h.walled.outward hs hp t hmem ht
    simp [hshaped.frame_capture hmarked hp, hmem]
  · rw [Arena.mem_successors, hshaped.frame_capture hmarked hp] at ht
    exact Arena.mem_successors.mpr ht

end Moment.Spares

/-- **A frame is opened** on this side of the wall, where a collection may come first. -/
theorem Moment.Ready.spares_push {clock : Nat → Number} {m : Moment} {W : Set Slot} {env s : Slot}
    {held : List Value} {σ₁ : State} (ready : m.Ready) (opens : m.Opens env held)
    (hW : m.state.arena.Walled W) (henv : env ∉ W)
    (hopened : m.state.push (.recycling clock) env held = (s, σ₁)) :
    ∃ V ⊆ W, s ∉ V ∧ m.Spares (.recycling clock) W V σ₁.arena := by
  obtain ⟨hvalid, -⟩ := ready.opens opens
  obtain ⟨hself, hother, hnew⟩ := hvalid.frame_opened hopened
  have hframe {t : Slot} (ht : ((m.state.arena.makeRoom held).frame t).live) :
      σ₁.arena.frame t = m.state.arena.frame t := by
    rw [hother t fun e => hnew (e ▸ ht), Arena.frame_makeRoom_of_live ht]
  refine ⟨{t ∈ W | ((m.state.arena.makeRoom held).frame t).live}, fun _ ht => ht.1,
    fun hs => hnew hs.2, ⟨fun ht => ?_, fun {u t} hu ht hmem => ?_⟩, fun ht => hframe ht.2,
    fun {t} ht gone => ?_⟩
  · rw [hframe ht.2]
    exact hW.live ht.1
  · by_cases hus : u = s
    · -- the new frame refers to the one around it
      rw [Arena.mem_successors, hus, hself] at ht
      rcases ht with he | ⟨f, hf, -⟩
      · cases he
        exact henv hmem.1
      · cases hf
    by_cases hl : ((m.state.arena.makeRoom held).frame u).live
    · rw [Arena.mem_successors, hframe hl, ← Arena.mem_successors] at ht
      exact hW.closed (fun hmem' => hu ⟨hmem', hl⟩) ht hmem.1
    · rw [Arena.successors, hother u hus, hvalid.makeRoom.empty hl] at ht
      cases ht
  · have hfreed : ¬ ((m.state.arena.makeRoom held).frame t).live := fun hl => gone ⟨ht, hl⟩
    refine ⟨.refl, opens, rfl, fun hreached => hfreed ?_, hfreed⟩
    rw [show (m.state.arena.makeRoom held).frame t = _ from hvalid.frame_makeRoom hreached]
    exact hW.live ht

/-! ## Computations behind a wall -/

/-- **The wall stands however a computation ends**: of the frames of `V` some are left, and the
value is no function over them. -/
inductive Confines {α : Type} [Carries α] (host : Host) (m : Moment) (W V : Set Slot) :
    Outcome α → Prop
  | done {a : α} {σ : State} {U : Set Slot} (sub : U ⊆ V) (spares : m.Spares host W U σ.arena)
      (outside : ∀ v ∈ Carries.values a, v.Outside U) : Confines host m W V (.done a σ)
  | failed {e : EvalError} {σ : State} {U : Set Slot} (sub : U ⊆ V)
      (spares : m.Spares host W U σ.arena) : Confines host m W V (.failed e σ)
  | outOfFuel : Confines host m W V .outOfFuel

namespace Confines

variable {α β : Type} [Carries α] [Carries β] {host : Host} {m m' : Moment} {U V W : Set Slot}
  {o : Outcome α} {x : Eval α} {σ : State}

theorem mono (h : Confines host m W U o) (hsub : U ⊆ V) : Confines host m W V o := by
  cases h with
  | done sub spares outside => exact .done (sub.trans hsub) spares outside
  | failed sub spares => exact .failed (sub.trans hsub) spares
  | outOfFuel => exact .outOfFuel

theorem started (h : Confines host m' V V o) (starts : m.Starts host m')
    (spares : m.Spares host W V m'.state.arena) : Confines host m W V o := by
  cases h with
  | done sub spares' outside => exact .done sub (spares.trans starts spares' sub) outside
  | failed sub spares' => exact .failed sub (spares.trans starts spares' sub)
  | outOfFuel => exact .outOfFuel

/-- **Computations compose.** -/
theorem bind {f : α → Eval β} (h : Confines host m W V (x σ))
    (hf : ∀ a σ' U, x σ = .done a σ' → U ⊆ V → m.Spares host W U σ'.arena →
      (∀ v ∈ Carries.values a, v.Outside U) → Confines host m W U (f a σ')) :
    Confines host m W V ((x >>= f) σ) := by
  change Confines host m W V (x.andThen f σ)
  unfold Eval.andThen
  cases hx : x σ with
  | done a σ' =>
    rw [hx] at h
    cases h with
    | @done _ _ U sub spares outside => exact (hf a σ' U hx sub spares outside).mono sub
  | failed e σ' =>
    rw [hx] at h
    cases h with
    | failed sub spares => exact .failed sub spares
  | outOfFuel => exact .outOfFuel

theorem value {a : α} (spares : m.Spares host W V σ.arena)
    (ha : ∀ v ∈ Carries.values a, v.Outside V) : Confines host m W V (Eval.value a σ) :=
  .done subset_rfl spares ha

theorem fail (spares : m.Spares host W V σ.arena) (fault : EvalFault) (line : Nat) :
    Confines host m W V ((Eval.fail fault line : Eval α) σ) :=
  .failed subset_rfl spares

theorem plain (spares : m.Spares host W V σ.arena) (line : Nat) {r : Except EvalFault Value}
    (hr : ∀ v, r = .ok v → v.closure? = none) :
    Confines host m W V (Eval.ofExcept line r σ) := by
  cases r with
  | ok v => exact value spares (Value.outside_values (hr v rfl))
  | error fault => exact fail spares fault line

theorem checked (spares : m.Spares host W V σ.arena) (line : Nat) {r : Except EvalFault Unit}
    {f : Unit → Eval α} (hf : r = .ok () → Confines host m W V (f () σ)) :
    Confines host m W V ((Eval.ofExcept line r >>= f) σ) := by
  cases r with
  | ok => exact hf rfl
  | error fault => exact .failed subset_rfl spares

theorem define (spares : m.Spares host W V σ.arena) {s : Slot} (hs : s ∉ V) {v : Value}
    (hv : v.Outside V) (name : String) :
    Confines host m W V (Eval.update (State.define s name v) σ) :=
  .done subset_rfl (spares.define hs hv name) (List.forall_mem_nil _)

theorem closing {g : State → State} (h : Confines host m W V (x σ))
    (hg : ∀ σ' U, U ⊆ V → m.Spares host W U σ'.arena → m.Spares host W U (g σ').arena) :
    Confines host m W V (Eval.closing x g σ) := by
  unfold Eval.closing
  cases hx : x σ with
  | done a σ' =>
    rw [hx] at h
    cases h with
    | done sub spares outside => exact .done sub (hg σ' _ sub spares) outside
  | failed e σ' =>
    rw [hx] at h
    cases h with
    | failed sub spares => exact .failed sub (hg σ' _ sub spares)
  | outOfFuel => exact .outOfFuel

theorem counted (h : Confines host m W V (x { σ with depth := σ.depth + 1 })) :
    Confines host m W V (Eval.counted x σ) :=
  h.closing fun _ _ _ spares => spares

/-- **A computation in a frame of its own**, which is on this side of the wall. -/
theorem inFrame {clock : Nat → Number} {env : Slot} {held : List Value} {body : Slot → Eval α}
    (ready : m.Ready) (opens : m.Opens env held) (hW : m.state.arena.Walled W) (henv : env ∉ W)
    (hbody : ∀ s σ₁ V, m.state.push (.recycling clock) env held = (s, σ₁) → V ⊆ W → s ∉ V →
      m.Spares (.recycling clock) W V σ₁.arena →
        Confines (.recycling clock) m W V (body s σ₁)) :
    Confines (.recycling clock) m W W (Eval.inFrame (.recycling clock) env held body m.state) := by
  obtain ⟨V, hsub, hs, spares⟩ := ready.spares_push opens hW henv rfl
  refine mono ?_ hsub
  refine (hbody _ _ V rfl hsub hs spares).closing fun σ' U hU spares' => ?_
  exact spares'.release fun hmem => hs (hU hmem)

theorem readVariable (spares : m.Spares host W V σ.arena) (hshaped : σ.arena.Shaped) {env : Slot}
    (hl : (σ.arena.frame env).live) (henv : env ∉ V) (line : Nat) (name : String)
    (binding : Binding) :
    Confines host m W V (Scriptlet.readVariable env line name binding σ) := by
  rw [readVariable_eq]
  cases hv : σ.arena.valueAt? env name binding with
  | none => exact .failed subset_rfl spares
  | some v =>
    have hglobals := spares.walled.globals_not_mem hshaped henv hl
    exact .done subset_rfl spares
      (List.forall_mem_singleton.mpr (spares.walled.valueAt? henv hglobals hv))

theorem writeVariable (spares : m.Spares host W V σ.arena) {env : Slot} (henv : env ∉ V)
    (line : Nat) (name : String) (binding : Binding) {v : Value} (hv : v.Outside V) :
    Confines host m W V (Scriptlet.writeVariable env line name binding v σ) := by
  rw [writeVariable_eq]
  cases ht : σ.arena.slotAt? env name binding with
  | none => exact .failed subset_rfl spares
  | some t =>
    exact .done subset_rfl (spares.define (spares.walled.slotAt? henv ht) hv name)
      (List.forall_mem_nil _)

theorem bindAll (spares : m.Spares host W V σ.arena) {s : Slot} (hs : s ∉ V) (names : List String)
    {vs : List Value} (hvs : ∀ v ∈ vs, v.Outside V) :
    Confines host m W V (Scriptlet.bindAll s names vs σ) := by
  induction names generalizing vs σ V with
  | nil => exact .done subset_rfl spares (List.forall_mem_nil _)
  | cons name names ih =>
    cases vs with
    | nil => exact .done subset_rfl spares (List.forall_mem_nil _)
    | cons v vs =>
      obtain ⟨hv, hvs⟩ := List.forall_mem_cons.mp hvs
      refine (define spares hs hv name).bind fun _ σ₁ U _ hsub spares₁ _ => ?_
      exact ih spares₁ (fun hmem => hs (hsub hmem)) fun u hu => (hvs u hu).mono hsub

theorem builtin (spares : m.Spares host W V σ.arena) (line : Nat) (f : Builtin)
    {args : List Value} (hargs : ∀ v ∈ args, v.Outside V) :
    Confines host m W V (f.run host line args σ) := by
  cases f with
  | clock =>
    exact checked spares line fun _ => .done subset_rfl spares (Value.outside_values rfl)
  | range => exact plain spares line fun _ => closure?_of_makeRange
  | print =>
    match args with
    | [] | _ :: _ :: _ => exact .failed subset_rfl spares
    | [v] => exact .done subset_rfl spares hargs

theorem frame_of_state? (h : Confines host m W V o) (hend : o.state? = some σ) {t : Slot}
    (ht : t ∈ W) : σ.arena.frame t = m.state.arena.frame t ∨ m.Frees host t := by
  have hspares {U : Set Slot} (spares : m.Spares host W U σ.arena) :
      σ.arena.frame t = m.state.arena.frame t ∨ m.Frees host t := by
    by_cases hU : t ∈ U
    · exact .inl (spares.frame hU)
    · exact .inr (spares.lost ht hU)
  cases h with
  | done _ spares _ =>
    cases hend
    exact hspares spares
  | failed _ spares =>
    cases hend
    exact hspares spares
  | outOfFuel => cases hend

end Confines

/-! ## Moments -/

/-- What a task works with is on this side of the wall. The values that are held around it are not:
they keep frames from being freed, and are not looked at. -/
def Task.Outside (W : Set Slot) : Task → Prop
  | .evaluate env _ _ | .evaluateAll env _ _ | .execute env _ _ | .executeAll env _ _
  | .iterate env _ _ _ _ _ _ => env ∉ W
  | .call _ _ callee args => callee.Outside W ∧ ∀ v ∈ args, v.Outside W

/-- **A moment leaves the frames behind a wall alone.** -/
def Moment.Confined (host : Host) (W : Set Slot) : Moment → Prop
  | ⟨n, .evaluate env held e, σ⟩ =>
    Confines host ⟨n, .evaluate env held e, σ⟩ W W (evaluate host n env held e σ)
  | ⟨n, .evaluateAll env held es, σ⟩ =>
    Confines host ⟨n, .evaluateAll env held es, σ⟩ W W (evaluateAll host n env held es σ)
  | ⟨n, .call held line callee args, σ⟩ =>
    Confines host ⟨n, .call held line callee args, σ⟩ W W (call host n held line callee args σ)
  | ⟨n, .execute env held s, σ⟩ =>
    Confines host ⟨n, .execute env held s, σ⟩ W W (execute host n env held s σ)
  | ⟨n, .executeAll env held ss, σ⟩ =>
    Confines host ⟨n, .executeAll env held ss, σ⟩ W W (executeAll host n env held ss σ)
  | ⟨n, .iterate env held line name body i stop, σ⟩ =>
    Confines host ⟨n, .iterate env held line name body i stop, σ⟩ W W
      (iterate host n env held line name body i stop σ)

/-- All that a moment starts leaves the frames behind a wall alone. -/
def Moment.Hands (host : Host) (m : Moment) : Prop :=
  ∀ {m' V}, m.Starts host m' → m'.state.arena.Walled V → m'.task.Outside V → m'.Confined host V

namespace Moment.Hands

variable {host : Host} {m : Moment} {n : Nat} {V W : Set Slot} {env : Slot} {held : List Value}
  {σ : State} (hands : m.Hands host) (spares : m.Spares host W V σ.arena)
include hands spares

theorem evaluate {e : Expr} (henv : env ∉ V)
    (starts : m.Starts host ⟨n, .evaluate env held e, σ⟩) :
    Confines host m W V (evaluate host n env held e σ) :=
  Confines.started (hands starts spares.walled henv) starts spares

theorem evaluateAll {es : List Expr} (henv : env ∉ V)
    (starts : m.Starts host ⟨n, .evaluateAll env held es, σ⟩) :
    Confines host m W V (evaluateAll host n env held es σ) :=
  Confines.started (hands starts spares.walled henv) starts spares

theorem call {line : Nat} {callee : Value} {args : List Value} (hcallee : callee.Outside V)
    (hargs : ∀ v ∈ args, v.Outside V)
    (starts : m.Starts host ⟨n, .call held line callee args, σ⟩) :
    Confines host m W V (call host n held line callee args σ) :=
  Confines.started (hands starts spares.walled ⟨hcallee, hargs⟩) starts spares

theorem execute {s : Stmt} (henv : env ∉ V)
    (starts : m.Starts host ⟨n, .execute env held s, σ⟩) :
    Confines host m W V (execute host n env held s σ) :=
  Confines.started (hands starts spares.walled henv) starts spares

theorem executeAll {ss : List Stmt} (henv : env ∉ V)
    (starts : m.Starts host ⟨n, .executeAll env held ss, σ⟩) :
    Confines host m W V (executeAll host n env held ss σ) :=
  Confines.started (hands starts spares.walled henv) starts spares

theorem iterate {line : Nat} {name : String} {body : Stmt} {i stop : Int} (henv : env ∉ V)
    (starts : m.Starts host ⟨n, .iterate env held line name body i stop, σ⟩) :
    Confines host m W V (iterate host n env held line name body i stop σ) :=
  Confines.started (hands starts spares.walled henv) starts spares

end Moment.Hands

section Steps

variable {clock : Nat → Number} {n : Nat} {env : Slot} {held : List Value} {σ : State}
  {W : Set Slot}

theorem confined_evaluate {e : Expr}
    (hands : Moment.Hands (.recycling clock) ⟨n + 1, .evaluate env held e, σ⟩)
    (ready : Moment.Ready ⟨n + 1, .evaluate env held e, σ⟩) (hW : σ.arena.Walled W)
    (henv : env ∉ W) : Moment.Confined (.recycling clock) W ⟨n + 1, .evaluate env held e, σ⟩ := by
  have spares := Moment.Spares.refl (m := ⟨n + 1, .evaluate env held e, σ⟩) (.recycling clock) hW
  unfold Moment.Confined
  cases e with
  | literal _ l =>
    simp only [evaluate]
    exact .value spares (Value.outside_values (closure?_ofLiteral l))
  | var line name binding =>
    simp only [evaluate]
    exact .readVariable spares ready.valid.toShaped (ready.valid.live_of_active ready.active) henv
      line name binding
  | assign line name binding rhs =>
    simp only [evaluate]
    refine (hands.evaluate spares henv (.part (.first rfl))).bind
      fun v σ₁ U _ hsub spares₁ hv => ?_
    have hv := List.forall_mem_singleton.mp hv
    refine (Confines.writeVariable spares₁ (fun h => henv (hsub h)) line name binding hv).bind
      fun _ σ₂ U' _ hsub' spares₂ _ => ?_
    exact .value spares₂ (List.forall_mem_singleton.mpr (hv.mono hsub'))
  | group _ inner =>
    simp only [evaluate]
    exact hands.evaluate spares henv (.part (.first rfl))
  | unary line op operand =>
    simp only [evaluate]
    refine (hands.evaluate spares henv (.part (.first rfl))).bind
      fun v σ₁ U _ hsub spares₁ _ => ?_
    exact .plain spares₁ line fun _ => UnaryOp.closure?_of_apply
  | binary line op left right =>
    simp only [evaluate]
    refine (hands.evaluate spares henv (.part (.first rfl))).bind
      fun l σ₁ U hl hsub spares₁ _ => ?_
    refine (hands.evaluate spares₁ (fun h => henv (hsub h)) (.part (.right hl))).bind
      fun r σ₂ U' _ _ spares₂ _ => ?_
    exact .plain spares₂ line fun _ => BinaryOp.closure?_of_apply
  | logical line op left right =>
    simp only [evaluate]
    refine (hands.evaluate spares henv (.part (.first rfl))).bind
      fun l σ₁ U hl hsub spares₁ outside => ?_
    split_ifs with hdecided
    · exact .value spares₁ outside
    · exact hands.evaluate spares₁ (fun h => henv (hsub h))
        (.part (.undecided hl (Bool.eq_false_iff.mpr hdecided)))
  | call line callee arguments =>
    simp only [evaluate]
    refine (hands.evaluate spares henv (.part (.first rfl))).bind
      fun f σ₁ U hf hsub spares₁ hcallee => ?_
    refine (hands.evaluateAll spares₁ (fun h => henv (hsub h)) (.part (.arguments hf))).bind
      fun args σ₂ U' hargs hsub' spares₂ outside => ?_
    have hcallee := (List.forall_mem_singleton.mp hcallee).mono hsub'
    exact hands.call spares₂ hcallee outside (.call hf hargs)
  | get line name object =>
    simp only [evaluate]
    exact (hands.evaluate spares henv (.part (.first rfl))).bind
      fun v σ₁ U _ _ spares₁ _ => .fail spares₁ _ line
  | set line name object rhs =>
    simp only [evaluate]
    refine (hands.evaluate spares henv (.part (.first rfl))).bind
      fun v σ₁ U hv hsub spares₁ _ => ?_
    exact (hands.evaluate spares₁ (fun h => henv (hsub h)) (.part (.assigned hv))).bind
      fun u σ₂ U' _ _ spares₂ _ => .fail spares₂ _ line

theorem confined_evaluateAll {es : List Expr}
    (hands : Moment.Hands (.recycling clock) ⟨n + 1, .evaluateAll env held es, σ⟩)
    (hW : σ.arena.Walled W) (henv : env ∉ W) :
    Moment.Confined (.recycling clock) W ⟨n + 1, .evaluateAll env held es, σ⟩ := by
  have spares := Moment.Spares.refl (m := ⟨n + 1, .evaluateAll env held es, σ⟩)
    (.recycling clock) hW
  unfold Moment.Confined
  cases es with
  | nil =>
    simp only [evaluateAll]
    exact .value spares (List.forall_mem_nil _)
  | cons e es =>
    simp only [evaluateAll]
    refine (hands.evaluate spares henv (.part .head)).bind fun v σ₁ U hv hsub spares₁ outside => ?_
    refine (hands.evaluateAll spares₁ (fun h => henv (hsub h)) (.part (.tail hv))).bind
      fun vs σ₂ U' _ hsub' spares₂ outside' => .value spares₂ ?_
    exact List.forall_mem_cons.mpr
      ⟨(List.forall_mem_singleton.mp outside).mono hsub', outside'⟩

theorem confined_call {line : Nat} {callee : Value} {args : List Value}
    (hands : Moment.Hands (.recycling clock) ⟨n + 1, .call held line callee args, σ⟩)
    (ready : Moment.Ready ⟨n + 1, .call held line callee args, σ⟩) (hW : σ.arena.Walled W)
    (hcallee : callee.Outside W) (hargs : ∀ v ∈ args, v.Outside W) :
    Moment.Confined (.recycling clock) W ⟨n + 1, .call held line callee args, σ⟩ := by
  have spares := Moment.Spares.refl (m := ⟨n + 1, .call held line callee args, σ⟩)
    (.recycling clock) hW
  unfold Moment.Confined
  cases callee with
  | builtin f =>
    simp only [call]
    exact .checked spares line fun _ => .builtin spares line f hargs
  | function f =>
    simp only [call]
    refine .checked spares line fun harity => ?_
    split_ifs with hdepth
    · exact .failed subset_rfl spares
    have henters : f.Enters args σ := ⟨Arity.eq_of_check harity, Nat.not_le.mp hdepth⟩
    refine .inFrame ready (.call henters) hW (hcallee f rfl)
      fun s σ₁ V hopened hsub hs spares₁ => ?_
    refine (Confines.bindAll spares₁ hs f.params fun v hv => (hargs v hv).mono hsub).bind
      fun _ σ₂ U hbound hsub' spares₂ _ => ?_
    have hbody := hands.executeAll (σ := { σ₂ with depth := σ₂.depth + 1 }) spares₂
      (fun h => hs (hsub' h)) (.body henters hopened hbound)
    refine hbody.counted.bind fun flow σ₃ U' _ _ spares₃ outside => ?_
    cases flow with
    | next => exact .value spares₃ (Value.outside_values rfl)
    | giveBack v => exact .value spares₃ outside
  | _ =>
    simp only [call]
    exact .fail spares _ line

theorem confined_execute {s : Stmt}
    (hands : Moment.Hands (.recycling clock) ⟨n + 1, .execute env held s, σ⟩)
    (ready : Moment.Ready ⟨n + 1, .execute env held s, σ⟩) (hW : σ.arena.Walled W)
    (henv : env ∉ W) : Moment.Confined (.recycling clock) W ⟨n + 1, .execute env held s, σ⟩ := by
  have spares := Moment.Spares.refl (m := ⟨n + 1, .execute env held s, σ⟩) (.recycling clock) hW
  unfold Moment.Confined
  cases s with
  | block line body =>
    simp only [execute]
    exact .inFrame ready .block hW henv fun s σ₁ V hopened _ hs spares₁ =>
      hands.executeAll spares₁ hs (.block hopened)
  | expression line e =>
    simp only [execute]
    exact (hands.evaluate spares henv (.first rfl)).bind fun v σ₁ U _ _ spares₁ _ =>
      .value spares₁ (List.forall_mem_nil _)
  | function line name params body =>
    simp only [execute]
    have hl := ready.valid.live_of_active ready.active
    have hmarked := spares.capture ready.valid.toShaped ready.valid.toMarked hl henv
    have hdeclared : Confines (.recycling clock)
        ⟨n + 1, .execute env held (.function line name params body), σ⟩ W W
        (declareFunction (.recycling clock) env held name params body σ) := by
      refine .done subset_rfl ?_ (List.forall_mem_nil _)
      refine Moment.Spares.define ?_ henv (fun f hf => ?_) name
      · refine hmarked.of_frames (fun _ _ => Host.frame_track ..) fun s _ t ht => .inl ?_
        simpa only [Arena.successors, Host.frame_track] using ht
      · cases hf
        exact henv
    exact hdeclared.bind fun _ σ₁ U _ _ spares₁ _ => .value spares₁ (List.forall_mem_nil _)
  | ifThen line condition yes =>
    simp only [execute]
    refine (hands.evaluate spares henv (.first rfl)).bind fun c σ₁ U hc hsub spares₁ _ => ?_
    split_ifs with hholds
    · exact hands.execute spares₁ (fun h => henv (hsub h)) (.yes hc hholds)
    · exact .value spares₁ (List.forall_mem_nil _)
  | ifElse line condition yes no =>
    simp only [execute]
    refine (hands.evaluate spares henv (.first rfl)).bind fun c σ₁ U hc hsub spares₁ _ => ?_
    exact hands.execute spares₁ (fun h => henv (hsub h)) (.branch hc)
  | giveBack line e =>
    cases e with
    | none =>
      simp only [execute]
      exact .value spares (Value.outside_values rfl)
    | some e =>
      simp only [execute]
      exact (hands.evaluate spares henv (.first rfl)).bind fun v σ₁ U _ _ spares₁ outside =>
        .value spares₁ outside
  | declare line name e =>
    cases e with
    | none =>
      simp only [execute]
      exact (Confines.define spares henv (Value.outside_of_closure? rfl) name).bind
        fun _ σ₁ U _ _ spares₁ _ => .value spares₁ (List.forall_mem_nil _)
    | some e =>
      simp only [execute]
      refine (hands.evaluate spares henv (.first rfl)).bind fun v σ₁ U _ hsub spares₁ outside => ?_
      have hv := List.forall_mem_singleton.mp outside
      exact (Confines.define spares₁ (fun h => henv (hsub h)) hv name).bind
        fun _ σ₂ U' _ _ spares₂ _ => .value spares₂ (List.forall_mem_nil _)
  | whileLoop line condition body =>
    simp only [execute]
    refine (hands.evaluate spares henv (.first rfl)).bind fun c σ₁ U hc hsub spares₁ _ => ?_
    split_ifs with hholds
    · refine (hands.execute spares₁ (fun h => henv (hsub h)) (.loop hc hholds)).bind
        fun flow σ₂ U' hflow hsub' spares₂ outside => ?_
      cases flow with
      | next =>
        exact hands.execute spares₂ (fun h => henv (hsub (hsub' h))) (.again hc hholds hflow)
      | giveBack v => exact .value spares₂ outside
    · exact .value spares₁ (List.forall_mem_nil _)
  | forLoop line name iterable body =>
    simp only [execute]
    refine (hands.evaluate spares henv (.first rfl)).bind fun v σ₁ U hv hsub spares₁ _ => ?_
    cases v with
    | range start stop => exact hands.iterate spares₁ (fun h => henv (hsub h)) (.range hv)
    | _ => exact .fail spares₁ _ line

theorem confined_executeAll {ss : List Stmt}
    (hands : Moment.Hands (.recycling clock) ⟨n + 1, .executeAll env held ss, σ⟩)
    (hW : σ.arena.Walled W) (henv : env ∉ W) :
    Moment.Confined (.recycling clock) W ⟨n + 1, .executeAll env held ss, σ⟩ := by
  have spares := Moment.Spares.refl (m := ⟨n + 1, .executeAll env held ss, σ⟩) (.recycling clock) hW
  unfold Moment.Confined
  cases ss with
  | nil =>
    simp only [executeAll]
    exact .value spares (List.forall_mem_nil _)
  | cons s ss =>
    simp only [executeAll]
    refine (hands.execute spares henv .head).bind fun flow σ₁ U hflow hsub spares₁ outside => ?_
    cases flow with
    | next => exact hands.executeAll spares₁ (fun h => henv (hsub h)) (.tail hflow)
    | giveBack v => exact .value spares₁ outside

theorem confined_iterate {line : Nat} {name : String} {body : Stmt} {i stop : Int}
    (hands : Moment.Hands (.recycling clock) ⟨n + 1, .iterate env held line name body i stop, σ⟩)
    (ready : Moment.Ready ⟨n + 1, .iterate env held line name body i stop, σ⟩)
    (hW : σ.arena.Walled W) (henv : env ∉ W) :
    Moment.Confined (.recycling clock) W ⟨n + 1, .iterate env held line name body i stop, σ⟩ := by
  have spares := Moment.Spares.refl (m := ⟨n + 1, .iterate env held line name body i stop, σ⟩)
    (.recycling clock) hW
  unfold Moment.Confined
  simp only [iterate]
  split_ifs with hbelow
  · cases hindex : Number.ofInt? i with
    | none => exact .fail spares _ line
    | some x =>
      refine Confines.bind (.inFrame ready (.turn hbelow hindex) hW henv
        fun s σ₁ V hopened _ hs spares₁ => ?_) fun flow σ₁ U hflow hsub spares₁ outside => ?_
      · -- the index is defined before the moment that runs the body
        have hdefined := spares₁.define hs (v := .number x) (Value.outside_of_closure? rfl) name
        exact hands.execute (σ := σ₁.define s name (.number x)) hdefined hs
          (.turn hbelow hindex hopened)
      · cases flow with
        | next =>
          exact hands.iterate spares₁ (fun h => henv (hsub h)) (.next hbelow hindex hflow)
        | giveBack v => exact .value spares₁ outside
  · exact .value spares (List.forall_mem_nil _)

end Steps

/-- **Every moment leaves the frames behind a wall alone.** -/
theorem Moment.Ready.confined {clock : Nat → Number} {m : Moment} {W : Set Slot} (ready : m.Ready)
    (hW : m.state.arena.Walled W) (houtside : m.task.Outside W) :
    m.Confined (.recycling clock) W := by
  generalize hn : m.fuel = n
  induction n generalizing m W with
  | zero =>
    obtain ⟨n, task, σ⟩ := m
    cases hn
    cases task <;>
      simp only [Confined, evaluate, evaluateAll, call, execute, executeAll, iterate] <;>
      exact .outOfFuel
  | succ n ih =>
    obtain ⟨k, task, σ⟩ := m
    cases hn
    have hands : Moment.Hands (.recycling clock) ⟨n + 1, task, σ⟩ := fun starts hV hout =>
      ih (ready.starts starts) hV hout (Nat.succ.inj starts.fuel.symm)
    cases task with
    | evaluate => exact confined_evaluate hands ready hW houtside
    | evaluateAll => exact confined_evaluateAll hands hW houtside
    | call => exact confined_call hands ready hW houtside.1 houtside.2
    | execute => exact confined_execute hands ready hW houtside
    | executeAll => exact confined_executeAll hands hW houtside
    | iterate => exact confined_iterate hands ready hW houtside

/-- **Closures are encapsulated.** At every time of an interpreter and in every active environment,
an expression or statement that ends, with a value, by leaving a function or with an error, leaves
each live frame that the environment does not lead to as it was, unless a collection has freed it:
until then it was as before, and neither an active frame nor a function that was held outside
reached it. -/
theorem closures_encapsulated (clock : Nat → Number) {held : List Value} {σ : State} {env t : Slot}
    (h : Reachable (.recycling clock) held σ) (henv : (σ.arena.frame env).active)
    (ht : (σ.arena.frame t).live) (hfar : ¬ σ.arena.Leads env t) (n : Nat) :
    (∀ e σ', (evaluate (.recycling clock) n env held e σ).state? = some σ' →
      σ'.arena.frame t = σ.arena.frame t ∨
        Moment.Frees (.recycling clock) ⟨n, .evaluate env held e, σ⟩ t) ∧
    ∀ s σ', (execute (.recycling clock) n env held s σ).state? = some σ' →
      σ'.arena.frame t = σ.arena.frame t ∨
        Moment.Frees (.recycling clock) ⟨n, .execute env held s, σ⟩ t := by
  obtain ⟨hvalid, -⟩ := h.valid
  have hW := hvalid.toShaped.walled env
  have houtside : env ∉ {t | (σ.arena.frame t).live ∧ ¬ σ.arena.Leads env t} := fun hmem =>
    hmem.2 .refl
  constructor
  · intro e σ' hend
    have ready : Moment.Ready ⟨n, .evaluate env held e, σ⟩ := ⟨hvalid, henv⟩
    exact Confines.frame_of_state? (ready.confined hW houtside) hend ⟨ht, hfar⟩
  · intro s σ' hend
    have ready : Moment.Ready ⟨n, .execute env held s, σ⟩ := ⟨hvalid, henv⟩
    exact Confines.frame_of_state? (ready.confined hW houtside) hend ⟨ht, hfar⟩

/-- A function that only the frame of its own block binds. -/
def secret : Closure := ⟨0, "f", [], [], 1⟩

/-- After a block that declares a function. -/
def sealed : State :=
  { State.start with
    arena := ((((State.start.arena.push globals [.null]).2.capture 1).track secret
      [.function secret, .null]).define 1 "f" (.function secret)).release 1
    functions := 1 }

/-- The frame of the block is live, and a variable of the same name leaves it alone. -/
theorem closures_encapsulated_sealed :
    (∃ r, Input.run (.recycling fun _ => ⟨0⟩) 4
      (.statements [.block 1 [.function 1 "f" [] []]]) .start = some (r, sealed)) ∧
    (sealed.arena.frame 1).live ∧ ¬ sealed.arena.Leads globals 1 ∧
    ∃ σ', execute (.recycling fun _ => ⟨0⟩) 1 globals [] (.declare 2 "f" none) sealed =
      .done .next σ' ∧ σ'.arena.frame 1 = sealed.arena.frame 1 := by
  have hran : ∃ r, Input.run (.recycling fun _ => ⟨0⟩) 4
      (.statements [.block 1 [.function 1 "f" [] []]]) .start = some (r, sealed) := by
    simp only [Input.run, interpret, topLevelFrom, topLevel, execute, executeAll]
    exact ⟨_, rfl⟩
  have hlive : (sealed.arena.frame 1).live := rfl
  have hfar : ¬ sealed.arena.Leads globals 1 := by
    intro hleads
    rcases hleads.cases_head with heq | ⟨s, hs, -⟩
    · cases heq
    · have hnil : sealed.arena.successors globals = [] := rfl
      rw [hnil] at hs
      cases hs
  obtain ⟨r, hrun⟩ := hran
  have hreachable : Reachable (.recycling fun _ => ⟨0⟩) [] sealed := .between (.ran .start hrun)
  have hactive : (sealed.arena.frame globals).active := rfl
  obtain ⟨-, hexecute⟩ := closures_encapsulated (fun _ => ⟨0⟩) hreachable hactive hlive hfar 1
  have hdone : execute (.recycling fun _ => ⟨0⟩) 1 globals [] (.declare 2 "f" none) sealed =
      .done .next (sealed.define globals "f" .null) := by
    simp only [execute]
    rfl
  refine ⟨⟨r, hrun⟩, hlive, hfar, _, hdone, ?_⟩
  -- nothing is started, and so no frame is opened
  refine (hexecute _ _ (Outcome.state?_of_done hdone)).resolve_right ?_
  rintro ⟨path, opens, -, -, -⟩
  rcases path.cases_head with rfl | ⟨m, starts, -⟩
  · cases opens
  · cases starts with
    | part h => cases h
    | first part => cases part

end Scriptlet
